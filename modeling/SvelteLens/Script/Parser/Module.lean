import SvelteLens.Script.Parser.Statement

/-! Top-level items, and the reader of whole scripts. -/
namespace SvelteLens.Script

namespace Parser

variable (g : Grammar)

def moduleName : Parser Bool := do
  if (← token) == .string then
    advance
    return true
  let _ ← anyWord
  return false

/-- The attributes of an import, which only scripts with types have. -/
def importAttributes : Parser Unit := do
  if (← isTyped) && !(← newlineBefore) && ((← atWord "with") || (← atWord "assert")) then
    advance
    if ← atMark "\x7b" then
      let _ ← objectLiteral g
    else fail

def fromClause : Parser Unit := do
  expectWord "from"
  expectString
  importAttributes g
  expectStatementEnd

def typeSpecifier : Parser String := do
  let first ← anyWord
  if first.name != "as" then
    if ← eatWord "as" then return (← name).name else return first.name
  if !(← token).isWord then return first.name
  let second ← name
  if second.name != "as" then return second.name
  if (← token).isWord then return (← name).name else return second.name

/-- One name in a list of imports; the local name is given back. -/
def importSpecifier : Parser String := do
  let first ← token
  let isString ← moduleName
  let typeOnly := (← isTyped) && first == .word "type" false && (← token).isWord
  if typeOnly then typeSpecifier
  else if ← eatWord "as" then return (← name).name
  else if isString || !first.isName then fail
  else
    match first with
    | .word local_ _ => return local_
    | _ => fail

/-- What stands for the imported module in `import x = …`. -/
def importEquals : Parser TopLevel := do
  expectMark "="
  if (← atWord "require") && (← peek).token.isMark "(" then
    advance
    advance
    expectString
    expectMark ")"
  else qualifiedName
  expectStatementEnd
  return .other

def importRest (specifiers : List Specifier) : Parser TopLevel := do
  let more ←
    if ← eatMark "*" then do
      expectWord "as"
      let binding ← name
      pure [.whole binding.name]
    else if ← eatMark "\x7b" then pure ((← commaList "\x7d" importSpecifier).map .named)
    else pure []
  fromClause g
  return .imports (specifiers ++ more)

def importDefault : Parser TopLevel := do
  let first ← name
  let isType := (← isTyped) && first.name == "type"
  if isType && ((← atMark "\x7b") || (← atMark "*")) then return ← importRest g []
  let next := (← peek).token
  let typeOnly := isType && (← token).isName && (!(← atWord "from") || next == .word "from" false ||
    next.isMark "=")
  let binding ← if typeOnly then name else pure first
  if (← isTyped) && (← atMark "=") then return ← importEquals
  if ← atWord "from" then importRest g [.byDefault binding.name]
  else
    expectMark ","
    importRest g [.byDefault binding.name]

def importDeclaration : Parser TopLevel := do
  expectWord "import"
  if (← token) == .string then
    advance
    importAttributes g
    expectStatementEnd
    return .imports []
  if (← token).isName then importDefault g else importRest g []

def exportSpecifier : Parser Bool := do
  let first ← token
  let isString ← moduleName
  if (← isTyped) && first == .word "type" false && (← token).isWord then
    let _ ← typeSpecifier
  else if ← eatWord "as" then
    let _ ← moduleName
  return isString

/-- Exported names, with the source they come from, if any. -/
def exportNames : Parser TopLevel := do
  if ← eatMark "*" then
    if ← eatWord "as" then
      let _ ← moduleName
    fromClause g
    return .other
  expectMark "\x7b"
  let strings ← commaList "\x7d" exportSpecifier
  if ← atWord "from" then fromClause g
  else if strings.any id then fail
  else expectStatementEnd
  return .other

def exportDefault : Parser TopLevel := do
  let typed ← isTyped
  let next ← peek
  let function (isAsync : Bool) : Parser Unit := do
    if isAsync then advance
    expectWord "function"
    let isGenerator ← eatMark "*"
    if (← token).isName then
      let _ ← name
    functionRest g isAsync isGenerator
  let classDef : Parser Unit := do
    expectWord "class"
    optionalClassName
    classRest g
  if typed && (← atWord "abstract") && next.token == .word "class" false && !next.newline then
    advance
    classDef
  else if typed && (← atWord "interface") && next.token.isName then
    advance
    let _ ← interfaceDeclaration g
  else if ← atWord "class" then classDef
  else if ← atAsyncFunction then function true
  else if ← atWord "function" then function false
  else
    let _ ← bracketed g.assignment
    expectStatementEnd
  return .other

/-- The forms of export that only scripts with types have. -/
def typedExport (start : Nat) : Parser (Option TopLevel) := do
  if ← atWord "declare" then
    let ambient : Parser Declared := do
      advance
      match ← ambientDeclaration g with
      | some declared => return declared
      | none => fail
    if let some declared ← attempt ambient then return some (.exported start declared)
  if let .word w false := ← token then
    let declaration : Parser Declared := do
      advance
      match ← wordDeclaration g w true with
      | some declared => return declared
      | none => fail
    if let some declared ← attempt declaration then return some (.exported start declared)
  if ← eatWord "import" then
    if (← atWord "type") && (← peek).token.isName then advance
    let _ ← name
    return some (← importEquals)
  if ← eatMark "=" then
    let _ ← bracketed g.expression
    expectStatementEnd
    return some .other
  if ← eatWord "as" then
    expectWord "namespace"
    let _ ← name
    expectStatementEnd
    return some .other
  return none

def exportDeclaration : Parser TopLevel := do
  let start ← position
  expectWord "export"
  let typed ← isTyped
  if typed then
    if let some item ← typedExport g start then return item
  if typed && (← atWord "type") then
    advance
    exportNames g
  else if ← eatWord "default" then exportDefault g
  else if ← atWord "class" then return .exported start (← classDeclaration g)
  else if ← atAsyncFunction then return .exported start (← functionDeclaration g true)
  else if ← atWord "function" then return .exported start (← functionDeclaration g false)
  else if ← atConstEnum then
    advance
    advance
    return .exported start (← enumDeclaration g)
  else if ← atVariables then return .exported start (← variableList g false false)
  else exportNames g

def topLevelItem : Parser TopLevel := do
  if ← atWord "export" then return ← exportDeclaration g
  if ← atWord "import" then
    let next := (← peek).token
    if !(next.isMark "(" || next.isMark ".") then return ← importDeclaration g
  match ← g.statement true with
  | .declaration declared => return .declared declared
  | .labelled statement => return .labelled statement
  | .expression _ => return .other
  | .other => return .other

def items : Parser Tree := collect do
  if (← token) == .finish then return none
  return some (← topLevelItem g)

end Parser

def Grammar.deepen (g : Grammar) : Grammar where
  expression := Parser.commaExpression g
  assignment := Parser.assignmentExpression g
  unary := Parser.unaryExpression g
  binary := Parser.binaryExpression g
  leftHand := Parser.leftHandSide g
  callee := Parser.newExpression g
  statement := Parser.anyStatement g
  item := Parser.topLevelItem g
  block := Parser.blockStatement g
  pattern := Parser.bindingPattern g
  type := Parser.anyType g

/-- The grammar of phrases that contain one another at most `depth` levels deep. -/
def Grammar.ofDepth : (depth : Nat) → Grammar
  | 0 => .empty
  | depth + 1 => (ofDepth depth).deepen

def skipInterpreterLine (cs : List Char) : Nat × List Char :=
  if "#!".toList.isPrefixOf cs then
    let line := cs.takeWhile (!isLineEnd ·)
    (Text.width line, cs.drop line.length)
  else (0, cs)

/-- Reads a whole script. A phrase nests no deeper than the script is long. -/
def readOutline : Reader := fun typed script =>
  -- A byte-order mark is dropped, and offsets count from after it.
  let cs := match script.toList with
    | '\uFEFF' :: rest => rest
    | cs => cs
  let (offset, rest) := skipInterpreterLine cs
  let context : Context := { typed, limit := cs.length + 2 }
  match Parser.items (Grammar.ofDepth (4 * cs.length + 16)) context ⟨nextToken true offset rest, offset⟩ with
  | .ok tree _ => some tree
  | .error _ _ => none

end SvelteLens.Script
