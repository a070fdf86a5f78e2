import SvelteLens.Script.Parser.Type

/-! Functions, classes and patterns that bind names. -/
namespace SvelteLens.Script.Parser

variable (g : Grammar)

/-- A place in brackets: what the place around them rules out is allowed again. -/
def bracketed (p : Parser α) : Parser α :=
  withReader (fun c => { c with noIn := false, expectColon := false, inConditional := false }) p

def inFunction (isAsync isGenerator : Bool) (p : Parser α) : Parser α :=
  bracketed <| withReader (fun c =>
    { c with inAsync := isAsync, inGenerator := isGenerator, noConditionalType := false }) p

/-- A body in braces. With types it may be missing. -/
def functionBody : Parser Unit := do
  if (← isTyped) && !(← atMark "\x7b") then expectStatementEnd else g.block

def functionRest (isAsync isGenerator : Bool) : Parser Unit :=
  inFunction isAsync isGenerator do
    signature g
    functionBody g

def patternElement : Parser Unit := do
  let _ ← eatMark "..."
  let _ ← g.pattern
  if ← eatMark "=" then
    let _ ← bracketed g.assignment

def objectPatternElement : Parser Unit := do
  if ← atMark "..." then patternElement g
  else
    let shorthand := (← token).isName
    key g
    if ← eatMark ":" then patternElement g
    else if !shorthand then fail
    else if ← eatMark "=" then
      let _ ← bracketed g.assignment

def bindingPattern : Parser Target := do
  match ← token with
  | .mark "[" =>
    advance
    repeatWhile do
      if ← atMark "]" then return false
      if !(← atMark ",") then patternElement g
      if !(← atMark "]") then expectMark ","
      return true
    expectMark "]"
    return .other
  | .mark "\x7b" =>
    advance
    let _ ← commaList "\x7d" (objectPatternElement g)
    return .other
  | _ => return .name (← name)

/-- Whether a word in front of a member is a modifier: the member is still to come. -/
def modifies (w : String) (next : Lexeme) : Bool :=
  let continues := startsKey next.token || next.token.isMark "*" || (w == "static" && next.token.isMark "\x7b")
  continues && (!next.newline || w == "static" || w == "get" || w == "set")

def classModifiers (typed : Bool) : List String :=
  ["static", "async", "get", "set", "accessor"] ++
    if typed then ["declare", "abstract", "override", "readonly", "public", "private", "protected"] else []

/-- Reads modifiers and says whether `async` is among them. -/
def memberModifiers (words : List String) : Parser Bool :=
  iterate (fun isAsync => do
    match ← token with
    | .word w false =>
      if words.contains w && modifies w (← peek) then
        if w == "static" && (← peek).token.isMark "\x7b" then return none
        advance
        return some (isAsync || w == "async")
      return none
    | _ => return none) false

/-- A field, a method, an index signature or a static block. -/
def classMember : Parser Unit := do
  if ← eatMark ";" then return
  let typed ← isTyped
  let isAsync ← memberModifiers (classModifiers typed)
  if (← atWord "static") && (← peek).token.isMark "\x7b" then
    advance
    inFunction false false g.block
  else if typed && (← atIndex) then
    indexSignature g
    expectStatementEnd
  else
    let isGenerator ← eatMark "*"
    key g
    if typed then
      let _ ← eatOneOf ["?", "!"]
    if (← atMark "(") || (typed && (← atMark "<")) then functionRest g isAsync isGenerator
    else if isGenerator then fail
    else
      typeAnnotationHere g
      if ← eatMark "=" then
        let _ ← inFunction false false g.assignment
      expectStatementEnd

def classRest : Parser Unit := do
  let typed ← isTyped
  typeParametersHere g
  if ← eatWord "extends" then
    let _ ← bracketed g.leftHand
    if typed && (← atMark "<") then typeArguments g
  if typed && (← atWord "implements") then
    advance
    repeatWhile do
      qualifiedName
      typeArgumentsHere g
      eatMark ","
  expectMark "\x7b"
  bracketed <| repeatWhile do
    if ← atMark "\x7d" then return false
    classMember g
    return true
  expectMark "\x7d"

/-- The name of a class expression, which may be missing. -/
def optionalClassName : Parser Unit := do
  if (← token).isName && !(← atWord "implements") then
    let _ ← name

end SvelteLens.Script.Parser
