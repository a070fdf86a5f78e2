import SvelteLens.Script.Parser.Basic

/-! Types, for scripts that have them. Types bind no names, so their parsers give nothing back. -/
namespace SvelteLens.Script.Parser

variable (g : Grammar)

/-- A type inside brackets, where a conditional type may start again. -/
def innerType : Parser Unit := withReader (fun c => { c with noConditionalType := false }) g.type

def typeArguments : Parser Unit := do
  expectFront "<"
  repeatWhile do
    innerType g
    eatMark ","
  expectFront ">"

def typeArgumentsHere : Parser Unit := do
  if !(← newlineBefore) && ((← atMark "<") || (← atMark "<<")) then typeArguments g

def qualifiedName : Parser Unit := do
  let _ ← anyWord
  repeatWhile do
    if ← eatMark "." then
      if (← token) == .privateName then advance else let _ ← anyWord
      return true
    return false

def typeParameter : Parser Unit := do
  repeatWhile do
    if (← atWord "const") || (((← atWord "in") || (← atWord "out")) && (← peek).token.isWord) then
      advance
      return true
    return false
  let _ ← name
  if ← eatWord "extends" then innerType g
  if ← eatMark "=" then innerType g

def typeParameters : Parser Unit := do
  expectFront "<"
  repeatWhile do
    if ← atMark ">" then return false
    typeParameter g
    eatMark ","
  expectFront ">"

def typeParametersHere : Parser Unit := do
  if (← isTyped) && (← atMark "<") then typeParameters g

def typeAnnotation : Parser Unit := do
  expectMark ":"
  innerType g

def typeAnnotationHere : Parser Unit := do
  if (← isTyped) && (← atMark ":") then typeAnnotation g

def isSubject (t : Token) : Bool := t.isName || t == .word "this" false

/-- A result type or a predicate such as `x is T` and `asserts x`. -/
def resultType : Parser Unit := do
  let next ← peek
  if (← atWord "asserts") && isSubject next.token && !next.newline && next.token != .word "is" false then
    advance
    advance
    if ← eatWord "is" then innerType g
  else if isSubject (← token) && next.token == .word "is" false && !next.newline then
    advance
    advance
    innerType g
  else innerType g

def resultTypeHere : Parser Unit := do
  if (← isTyped) && (← eatMark ":") then resultType g

/-- A parameter with its modifiers, annotation and default value. -/
def parameter : Parser Unit := do
  let typed ← isTyped
  if typed then
    repeatWhile do
      let modifiers := ["public", "private", "protected", "readonly", "override"]
      match ← token with
      | .word w _ =>
        let next := (← peek).token
        if modifiers.contains w && (next.isWord || next.isMark "\x7b" || next.isMark "[") then
          advance
          return true
        return false
      | _ => return false
  let _ ← eatMark "..."
  if typed && (← atWord "this") then advance
  else
    let _ ← g.pattern
  if typed then
    let _ ← eatMark "?"
  typeAnnotationHere g
  if ← eatMark "=" then
    let _ ← withReader (fun c => { c with noIn := false }) g.assignment

def parameters : Parser Unit := do
  expectMark "("
  let _ ← commaList ")" (parameter g)

/-- The key of a member: a name, a string, a number, or anything in brackets. -/
def key : Parser Unit := do
  match ← token with
  | .word _ _ | .string | .number | .privateName => advance
  | .mark "[" =>
    advance
    let _ ← withReader (fun c => { c with noIn := false }) g.assignment
    expectMark "]"
  | _ => fail

def startsKey (t : Token) : Bool :=
  match t with
  | .word _ _ | .string | .number | .privateName | .mark "[" => true
  | _ => false

def signature : Parser Unit := do
  typeParametersHere g
  parameters g
  resultTypeHere g

def atIndex : Parser Bool := do
  if !(← atMark "[") then return false
  lookAhead do
    advance
    let _ ← anyWord
    atMark ":"

def indexSignature : Parser Unit := do
  expectMark "["
  let _ ← anyWord
  typeAnnotation g
  expectMark "]"
  typeAnnotationHere g

/-- A modifier counts as one when a key follows. -/
def typeMemberModifiers : Parser Unit :=
  repeatWhile do
    if (← atWord "readonly") || (← atWord "get") || (← atWord "set") then
      let next := (← peek).token
      if startsKey next then
        advance
        return true
    return false

def typeMember : Parser Unit := do
  if (← atMark "(") || (← atMark "<") then signature g
  else
    let next := (← peek).token
    if (← atWord "new") && (next.isMark "(" || next.isMark "<") then
      advance
      signature g
    else
      typeMemberModifiers
      if ← atIndex then indexSignature g
      else
        key g
        let _ ← eatMark "?"
        if (← atMark "(") || (← atMark "<") then signature g else typeAnnotationHere g
  if !(← eatMark ",") then expectStatementEnd

def typeMembers : Parser Unit := do
  expectMark "\x7b"
  repeatWhile do
    if ← atMark "\x7d" then return false
    typeMember g
    return true
  expectMark "\x7d"

def atMappedType : Parser Bool :=
  lookAhead do
    advance
    if (← atMark "+") || (← atMark "-") then return true
    let _ ← eatWord "readonly"
    expectMark "["
    let _ ← anyWord
    atWord "in"

def mappedModifier (modifier : Parser Bool) : Parser Unit := do
  if ← eatOneOf ["+", "-"] then
    if !(← modifier) then fail
  else
    let _ ← modifier

def mappedType : Parser Unit := do
  expectMark "\x7b"
  mappedModifier (eatWord "readonly")
  expectMark "["
  let _ ← name
  expectWord "in"
  innerType g
  if ← eatWord "as" then innerType g
  expectMark "]"
  mappedModifier (eatMark "?")
  typeAnnotationHere g
  let _ ← eatStatementEnd
  let _ ← eatMark ","
  expectMark "\x7d"

def tupleElement : Parser Unit := do
  let _ ← eatMark "..."
  let labelled ← lookAhead do
    let _ ← anyWord
    let _ ← eatMark "?"
    atMark ":"
  if labelled then
    let _ ← anyWord
    let _ ← eatMark "?"
    expectMark ":"
  innerType g
  let _ ← eatMark "?"

/-- Reads a template; what stands between its braces is read by the given parser. -/
def template (inner : Parser Unit) : Parser Unit := do
  let s ← get
  let read (offset : Nat) (rest : List Char) : Parser Bool :=
    match templateRest? rest with
    | some (complete, after) => do
      moveTo (offset + Text.width (rest.take (rest.length - after.length))) after
      return complete
    | none => fail
  let complete ← read s.current.stop s.current.rest
  let _ ← iterate (fun complete => do
    if complete then return none
    inner
    if !(← atMark "\x7d") then fail
    let s ← get
    return some (← read s.current.stop s.current.rest)) complete

/-- Skips the start of a parameter, to tell a function type from a type in parentheses. -/
def skipParameterStart : Parser Bool := do
  if (← token).isWord then
    advance
    return true
  if (← atMark "\x7b") || (← atMark "[") then
    let _ ← g.pattern
    return true
  return false

def atFunctionType : Parser Bool := do
  if ← atMark "<" then return true
  if !(← atMark "(") then return false
  lookAhead do
    advance
    if (← atMark ")") || (← atMark "...") then return true
    if !(← skipParameterStart g) then return false
    if (← atMark ":") || (← atMark ",") || (← atMark "?") || (← atMark "=") then return true
    if ← eatMark ")" then return ← atMark "=>"
    return false

def functionType : Parser Unit := do
  typeParametersHere g
  parameters g
  expectMark "=>"
  resultType g

def importType : Parser Unit := do
  expectWord "import"
  expectMark "("
  innerType g
  if ← eatMark "," then
    if !(← atMark ")") then
      let _ ← g.assignment
      let _ ← eatMark ","
  expectMark ")"
  if ← eatMark "." then qualifiedName
  typeArgumentsHere g

def primaryType : Parser Unit := do
  match ← token with
  | .string | .number => advance
  | .backtick => template (innerType g)
  | .mark "-" =>
    advance
    if (← token) == .number then advance else fail
  | .mark "\x7b" => if ← atMappedType then mappedType g else typeMembers g
  | .mark "[" =>
    advance
    let _ ← commaList "]" (tupleElement g)
  | .mark "(" =>
    advance
    innerType g
    expectMark ")"
  | .word "import" _ => importType g
  | .word "typeof" _ =>
    advance
    if ← atWord "import" then importType g
    else
      qualifiedName
      typeArgumentsHere g
  | .word w _ =>
    if ["true", "false", "null", "void", "this"].contains w then advance
    else if reservedWords.contains w then fail
    else
      qualifiedName
      typeArgumentsHere g
  | _ => fail

/-- A type with index accesses after it, all on one line. -/
def postfixType : Parser Unit := do
  primaryType g
  repeatWhile do
    if (← newlineBefore) || !(← atMark "[") then return false
    advance
    if !(← atMark "]") then innerType g
    expectMark "]"
    return true

def startsType (t : Token) : Bool :=
  match t with
  | .word w _ => !reservedWords.contains w ||
      ["import", "typeof", "true", "false", "null", "void", "this", "new"].contains w
  | .string | .number | .backtick => true
  | .mark m => ["-", "\x7b", "[", "(", "<"].contains m
  | _ => false

def operatorType : Parser Unit := do
  repeatWhile do
    if (← atWord "keyof") || (← atWord "unique") || (← atWord "readonly") then
      if startsType (← peek).token then
        advance
        return true
    return false
  if (← atWord "infer") && (← peek).token.isName then
    advance
    let _ ← name
    if ← atWord "extends" then
      -- The constraint stays unless a conditional type needs the word.
      let constraint : Parser Unit := do
        advance
        withReader (fun c => { c with noConditionalType := true }) g.type
        if !(← read).noConditionalType && (← atMark "?") then fail
      let _ ← attempt constraint
  else postfixType g

def unionType : Parser Unit := do
  let _ ← eatMark "|"
  let _ ← eatMark "&"
  let part : Parser Unit := do
    if ← atFunctionType g then functionType g else operatorType g
  part
  repeatWhile do
    if ← eatOneOf ["&", "|"] then
      part
      return true
    return false

def plainType : Parser Unit := do
  let next := (← peek).token
  if ← atFunctionType g then functionType g
  else if (← atWord "new") || ((← atWord "abstract") && next == .word "new" false) then
    let _ ← eatWord "abstract"
    expectWord "new"
    functionType g
  else unionType g

/-- Any type, a conditional one unless the place rules it out. -/
def anyType : Parser Unit := do
  plainType g
  if (← read).noConditionalType || (← newlineBefore) then return
  if ← eatWord "extends" then
    withReader (fun c => { c with noConditionalType := true }) g.type
    expectMark "?"
    innerType g
    expectMark ":"
    innerType g

end SvelteLens.Script.Parser
