import SvelteLens.Script.Parser.Expression

/-! Statements and declarations. -/
namespace SvelteLens.Script.Parser

variable (g : Grammar)

def blockStatement : Parser Unit := do
  expectMark "\x7b"
  repeatWhile do
    if ← atMark "\x7d" then return false
    let _ ← g.statement true
    return true
  expectMark "\x7d"

def parenthesizedCondition : Parser Unit := do
  expectMark "("
  let _ ← bracketed g.expression
  expectMark ")"

/-- A variable with its annotation and value. Patterns need a value, except that constants may
always come without one. -/
def declarator (inLoop isConstant ambient : Bool) : Parser Target := do
  let target ← g.pattern
  if ← isTyped then
    if target != .other then
      let _ ← eatMark "!"
    typeAnnotationHere g
  let iterates := inLoop && ((← atWord "in") || (← atWord "of"))
  if !iterates then
    if ← eatMark "=" then
      let _ ← g.assignment
    else if target == .other && !isConstant && !ambient then fail
  return target

def skipToken : Parser Unit := do
  if (← token) == .backtick then
    let s ← get
    match templateRest? s.current.rest with
    | some (_, after) =>
      moveTo (s.current.stop + Text.width (s.current.rest.take (s.current.rest.length - after.length))) after
    | none => modify fun s => ⟨{ s.current with token := .invalid, rest := [] }, s.current.stop⟩
  else advance

/-- Ends a declaration. When something else follows, an expression is read if there is one, and
tokens are skipped up to the end of the statement. -/
def endDeclaration : Parser Unit := do
  if ← eatStatementEnd then return
  ignoring g.expression
  repeatWhile do
    if ← eatStatementEnd then return false
    skipToken
    return (← token) != .invalid

def variableList (inLoop ambient : Bool) : Parser Declared := do
  let isConstant ← atWord "const"
  let isVar ← atWord "var"
  advance
  let targets ← iterate (fun (found : List Target × Bool) => do
    if found.2 || (← atMark ";") then return none
    let target ← withReader (fun c => { c with noIn := inLoop && isVar }) (declarator g inLoop isConstant ambient)
    return some (target :: found.1, !(← eatMark ","))) ([], false)
  if !inLoop then endDeclaration g
  return .variableList (if isConstant then .constant else .mutable) ambient targets.1.reverse

def letDeclares (next : Lexeme) : Bool :=
  next.token.isName || next.token.isMark "[" || next.token.isMark "\x7b"

def atVariables : Parser Bool := do
  return (← atWord "var") || (← atWord "const") || ((← atWord "let") && letDeclares (← peek))

def functionDeclaration (isAsync : Bool) : Parser Declared := do
  if isAsync then advance
  expectWord "function"
  let isGenerator ← eatMark "*"
  let binding ← name
  functionRest g isAsync isGenerator
  return .function binding

def classDeclaration : Parser Declared := do
  expectWord "class"
  let binding ← name
  classRest g
  return .classDef binding

def atAsyncFunction : Parser Bool := do
  let next ← peek
  return (← atWord "async") && next.token == .word "function" false && !next.newline

/-! Declarations that only scripts with types have -/

def enumMember : Parser Unit := do
  match ← token with
  | .word _ _ | .string => advance
  | _ => key g
  if ← eatMark "=" then
    let _ ← bracketed g.assignment

def enumDeclaration : Parser Declared := do
  let _ ← name
  expectMark "\x7b"
  let _ ← commaList "\x7d" (enumMember g)
  return .type

def interfaceDeclaration : Parser Declared := do
  let _ ← name
  typeParametersHere g
  if ← eatWord "extends" then
    repeatWhile do
      qualifiedName
      typeArgumentsHere g
      eatMark ","
  typeMembers g
  return .type

def aliasDeclaration : Parser Declared := do
  let _ ← name
  typeParametersHere g
  expectMark "="
  innerType g
  expectStatementEnd
  return .type

def namespaceBody : Parser Unit := do
  expectMark "\x7b"
  repeatWhile do
    if ← atMark "\x7d" then return false
    let _ ← g.item
    return true
  expectMark "\x7d"

def namespaceDeclaration : Parser Declared := do
  qualifiedName
  namespaceBody g
  return .type

/-- A module named by a string; its body may be missing. -/
def ambientModule : Parser Declared := do
  expectString
  if ← atMark "\x7b" then namespaceBody g else expectStatementEnd
  return .type

/-- A declaration that starts with a word which is no keyword. The word was read already;
`certain` says that the place calls for a declaration. -/
def wordDeclaration (word : String) (certain : Bool) : Parser (Option Declared) := do
  let sameLine := !(← newlineBefore)
  let named := (← token).isName
  match word with
  | "abstract" =>
    if (← atWord "class") && (certain || sameLine) then return some (← classDeclaration g)
    return none
  | "enum" => if named then return some (← enumDeclaration g) else return none
  | "interface" => if named then return some (← interfaceDeclaration g) else return none
  | "module" =>
    if sameLine && (← token) == .string then return some (← ambientModule g)
    if sameLine && named then return some (← namespaceDeclaration g)
    return none
  | "namespace" => if named then return some (← namespaceDeclaration g) else return none
  | "type" => if named && (certain || sameLine) then return some (← aliasDeclaration g) else return none
  | "global" =>
    if ← atMark "\x7b" then
      namespaceBody g
      return some .type
    return none
  | _ => return none

def atConstEnum : Parser Bool := do
  return (← isTyped) && (← atWord "const") && (← peek).token == .word "enum" false

def ambientDeclaration : Parser (Option Declared) := do
  if ← atWord "function" then return some (← functionDeclaration g false)
  if ← atAsyncFunction then return some (← functionDeclaration g true)
  if ← atWord "class" then return some (← classDeclaration g)
  if ← atConstEnum then
    advance
    advance
    return some (← enumDeclaration g)
  if ← atVariables then return some (← variableList g false true)
  match ← token with
  | .word w false =>
    advance
    wordDeclaration g w true
  | _ => return none

/-- The rest of a statement that starts with the given word, if it is a declaration. -/
def typedDeclaration (word : String) : Parser (Option Declared) := do
  if word == "declare" then
    if ← newlineBefore then return none
    match ← attempt (ambientDeclaration g) with
    | some found => return found
    | none => return none
  wordDeclaration g word false

/-! Statements -/

def ifStatement : Parser Unit := do
  advance
  parenthesizedCondition g
  let _ ← g.statement false
  if ← eatWord "else" then
    let _ ← g.statement false

def doStatement : Parser Unit := do
  advance
  let _ ← g.statement false
  expectWord "while"
  parenthesizedCondition g
  let _ ← eatMark ";"

def loopParts : Parser Unit := do
  expectMark ";"
  if !(← atMark ";") then
    let _ ← bracketed g.expression
  expectMark ";"
  if !(← atMark ")") then
    let _ ← bracketed g.expression

def forHead : Parser Unit := do
  let iteration : Parser Unit := do
    if ← eatWord "of" then
      let _ ← bracketed g.assignment
    else if ← eatWord "in" then
      let _ ← bracketed g.expression
    else loopParts g
  if ← atVariables then
    let _ ← variableList g true false
    iteration
  else if ← atMark ";" then loopParts g
  else
    let first ← withReader (fun c => { c with noIn := true }) g.expression
    if ((← atWord "of") || (← atWord "in")) && !first.isPattern then fail
    iteration

def forStatement : Parser Unit := do
  advance
  let _ ← eatWord "await"
  expectMark "("
  forHead g
  expectMark ")"
  let _ ← g.statement false

def switchStatement : Parser Unit := do
  advance
  parenthesizedCondition g
  expectMark "\x7b"
  repeatWhile do
    if ← eatWord "case" then
      let _ ← bracketed g.expression
    else if !(← eatWord "default") then return false
    expectMark ":"
    repeatWhile do
      if (← atWord "case") || (← atWord "default") || (← atMark "\x7d") then return false
      let _ ← g.statement true
      return true
    return true
  expectMark "\x7d"

def tryStatement : Parser Unit := do
  advance
  g.block
  if ← eatWord "catch" then
    if ← eatMark "(" then
      let _ ← g.pattern
      typeAnnotationHere g
      expectMark ")"
    g.block
  if ← eatWord "finally" then g.block

def jumpStatement : Parser Unit := do
  advance
  if !(← eatStatementEnd) then
    let _ ← name
    expectStatementEnd

def returnStatement : Parser Unit := do
  advance
  if !(← eatStatementEnd) then
    let _ ← bracketed g.expression
    expectStatementEnd

def throwStatement : Parser Unit := do
  advance
  let _ ← bracketed g.expression
  expectStatementEnd

def withStatement : Parser Unit := do
  advance
  parenthesizedCondition g
  let _ ← g.statement false

def labelledStatement (label : String) (start : Nat) : Parser Statement := do
  let bodyStart ← position
  let body ←
    if ← atWord "function" then Statement.declaration <$> functionDeclaration g false
    else g.statement false
  return .labelled ⟨label, start, body.asBody, ← spanFrom bodyStart⟩

/-- A statement that starts with an expression: a label, a declaration of a script with types, or
the expression itself. -/
def expressionStatement : Parser Statement := do
  let start ← position
  let e ← bracketed g.expression
  if let .ident word := e.shape then
    if ← eatMark ":" then return ← labelledStatement g word start
    if ← isTyped then
      if let some declared ← typedDeclaration g word then return .declaration declared
  if !(← eatStatementEnd) then
    -- An operator after a complete expression only follows an arrow function.
    if e.isArrow && (← operator?).isSome then
      let _ ← iterate (operation g 0) ⟨.value, e.span⟩
    else fail
  return .expression e

def atUsing : Parser Bool := do
  let next ← peek
  return (← isTyped) && (← atWord "using") && next.token.isName && !next.newline &&
    next.token != .word "of" false

def anyStatement (declarations : Bool) : Parser Statement := do
  let plain (p : Parser Unit) : Parser Statement := do
    p
    return .other
  match ← token with
  | .mark ";" => plain advance
  | .mark "\x7b" => plain g.block
  | .word "var" false => Statement.declaration <$> variableList g false false
  | .word "function" false => Statement.declaration <$> functionDeclaration g false
  | .word "class" false => Statement.declaration <$> classDeclaration g
  | .word "const" false =>
    if ← atConstEnum then
      advance
      advance
      Statement.declaration <$> enumDeclaration g
    else if declarations then Statement.declaration <$> variableList g false false
    else fail
  | .word "if" false => plain (ifStatement g)
  | .word "do" false => plain (doStatement g)
  | .word "while" false => plain (withStatement g)
  | .word "with" false => plain (withStatement g)
  | .word "for" false => plain (forStatement g)
  | .word "switch" false => plain (switchStatement g)
  | .word "try" false => plain (tryStatement g)
  | .word "break" false => plain jumpStatement
  | .word "continue" false => plain jumpStatement
  | .word "return" false => plain (returnStatement g)
  | .word "throw" false => plain (throwStatement g)
  | .word "debugger" false =>
    plain do
      advance
      expectStatementEnd
  | _ =>
    if declarations && (← atVariables) then Statement.declaration <$> variableList g false false
    else if declarations && (← atUsing) then
      let _ ← variableList g false false
      return .other
    else if ← atAsyncFunction then Statement.declaration <$> functionDeclaration g true
    else expressionStatement g

end SvelteLens.Script.Parser
