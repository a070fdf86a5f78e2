import SvelteLens.Script.Parser.Function

/-! Expressions. -/
namespace SvelteLens.Script.Parser

variable (g : Grammar)

/-- An expression that starts at an offset and was just read. -/
def exprFrom (start : Nat) (shape : Shape) : Parser Expr := return ⟨shape, ← spanFrom start⟩

def spreadOrAssignment : Parser Expr := do
  let _ ← eatMark "..."
  bracketed g.assignment

def arguments : Parser Unit := do
  expectMark "("
  let _ ← commaList ")" (spreadOrAssignment g)

def templateLiteral : Parser Unit :=
  template (do let _ ← bracketed g.expression)

def arrowBody (start : Nat) (isAsync : Bool) : Parser Expr := do
  expectMark "=>"
  if ← atMark "\x7b" then inFunction isAsync false g.block
  else
    let _ ← withReader (fun c => { c with inAsync := isAsync, inGenerator := false }) g.assignment
  exprFrom start .arrow

/-- An item in parentheses that may turn out to be a parameter. -/
structure ParenItem where
  expr : Expr
  spread : Bool
  /-- Has a question mark or a type, which only a parameter has. -/
  annotated : Bool
  deriving Repr, Inhabited

def assignmentMarks : List String :=
  ["+=", "-=", "*=", "/=", "%=", "**=", "<<=", ">>=", ">>>=", "&=", "|=", "^=", "&&=", "||=", "??="]

/-- Goes on with an assignment when an assignment sign follows. -/
def finishAssignment (left : Expr) : Parser Expr := do
  match ← token with
  | .mark sign =>
    if sign != "=" && !assignmentMarks.contains sign then return left
    if !(if sign == "=" then left.isAssignable else left.isTarget) then fail
    advance
    let right ← g.assignment
    exprFrom left.span.start (.assignment sign left.assigned right.span)
  | _ => return left

/-- The branches of a conditional expression after its question mark. -/
def branches : Parser Unit := do
  let _ ← withReader (fun c => { c with noIn := false, inConditional := true, expectColon := true }) g.assignment
  expectMark ":"
  let _ ← withReader (fun c => { c with inConditional := true, expectColon := false }) g.assignment

def parenItem : Parser ParenItem := bracketed do
  let typed ← isTyped
  let start ← position
  let next := (← peek).token
  let spread ← atMark "..."
  let isYield := (← read).inGenerator && (← atWord "yield")
  let nameLike := ((← token).isName && !isYield) || (spread && next.isName)
  let expr ←
    if typed && nameLike then do
      let _ ← eatMark "..."
      let left ← withReader (fun c => { c with arrowStart := some start }) (g.binary 0)
      if spread || left.isArrow then pure left else finishAssignment g left
    else spreadOrAssignment g
  let following := (← peek).token
  let expr ←
    if typed && !spread && (← atMark "?") && !([",", "=", ")", ":"].any following.isMark) then do
      advance
      branches g
      exprFrom start .value
    else pure expr
  if !typed then return ⟨expr, spread, false⟩
  let optional ← eatMark "?"
  if !optional && !(← atMark ":") then return ⟨expr, spread, false⟩
  typeAnnotationHere g
  if ← eatMark "=" then
    let _ ← g.assignment
  return ⟨expr, spread, true⟩

/-- Parentheses, the parameters of an arrow function, or the arguments of a call to `async`. -/
def parenthesized (start : Nat) (canBeArrow isAsync : Bool) : Parser Expr := do
  let typed ← isTyped
  let context ← read
  expectMark "("
  let items ← commaList ")" (parenItem g)
  let inBranch : Parser Expr := do
    advance
    resultType g
    let arrow ← arrowBody g start isAsync
    if context.expectColon && !(← atMark ":") then fail
    return arrow
  if typed && context.inConditional && (← atMark ":") then
    if let some arrow ← attempt inBranch then return arrow
  let result : Parser Unit := do
    advance
    resultType g
    if !(← atMark "=>") then fail
  let hasResult ←
    if typed && !context.expectColon && (← atMark ":") then
      pure (← attempt result).isSome
    else pure false
  if items.any (·.annotated) || hasResult || (← atMark "=>") then
    if (← newlineBefore) || !canBeArrow || !(items.all (·.expr.isPattern)) then fail
    arrowBody g start isAsync
  else if isAsync then exprFrom start .value
  else if items.isEmpty || items.any (·.spread) then fail
  else exprFrom start .paren

def arrayLiteral : Parser Expr := do
  let start ← position
  expectMark "["
  let elements ← collect do
    if ← atMark "]" then return none
    if ← eatMark "," then return some true
    let element ← spreadOrAssignment g
    if !(← atMark "]") then expectMark ","
    return some element.isPattern
  expectMark "]"
  exprFrom start (.literal (elements.all id))

/-- A property; the answer says whether it can stand in a pattern. -/
def property : Parser Bool := do
  let typed ← isTyped
  if ← atMark "..." then return (← spreadOrAssignment g).isPattern
  let before ← position
  let isAsync ← memberModifiers ["async", "get", "set"]
  let isGenerator ← eatMark "*"
  let modified := (← position) != before
  let shorthand := (← token).isWord
  key g
  if modified || (← atMark "(") || (typed && (← atMark "<")) then
    functionRest g isAsync isGenerator
    return false
  if ← eatMark ":" then return (← bracketed g.assignment).isPattern
  if !shorthand then fail
  if ← eatMark "=" then
    let _ ← bracketed g.assignment
  return true

def objectLiteral : Parser Expr := do
  let start ← position
  expectMark "\x7b"
  let properties ← commaList "\x7d" (property g)
  exprFrom start (.literal (properties.all id))

def regularPattern (sign : String) : Parser Unit := do
  let s ← get
  let rest := sign.toList.drop 1 ++ s.current.rest
  match patternRest? false rest with
  | some after => moveTo (s.current.start + 1 + Text.width (rest.take (rest.length - after.length))) after
  | none => fail

def functionExpression (start : Nat) (isAsync : Bool) : Parser Expr := do
  expectWord "function"
  let isGenerator ← eatMark "*"
  if (← token).isName then
    let _ ← name
  functionRest g isAsync isGenerator
  exprFrom start .value

/-- An arrow function with type parameters, or with a single parameter, after `async`. -/
def asyncArrow (start : Nat) : Parser Expr := do
  advance
  if ← atMark "<" then signature g
  else
    let _ ← name
  if ← newlineBefore then fail
  arrowBody g start true

def identifierExpression (start : Nat) (canBeArrow : Bool) : Parser Expr := do
  let binding ← name
  if canBeArrow && !(← newlineBefore) && (← atMark "=>") then arrowBody g start false
  else exprFrom start (.ident binding.name)

/-- An expression that starts with `async`, which may be a plain identifier. -/
def asyncExpression (start : Nat) (canBeArrow : Bool) : Parser Expr := do
  let next ← peek
  if !next.newline && next.token == .word "function" false then
    advance
    functionExpression g start true
  else if !next.newline && next.token.isMark "(" then
    advance
    parenthesized g start canBeArrow true
  else if canBeArrow && !next.newline && (next.token.isName || ((← isTyped) && next.token.isMark "<")) then
    match ← attempt (asyncArrow g start) with
    | some arrow => return arrow
    | none => identifierExpression g start canBeArrow
  else identifierExpression g start canBeArrow

def primary : Parser Expr := do
  let start ← position
  let canBeArrow := (← read).arrowStart == some start
  match ← token with
  | .number | .string =>
    advance
    exprFrom start .value
  | .backtick =>
    templateLiteral g
    exprFrom start .value
  | .privateName =>
    advance
    if !(← atWord "in") then fail
    exprFrom start .value
  | .mark "[" => arrayLiteral g
  | .mark "\x7b" => objectLiteral g
  | .mark "(" => parenthesized g start canBeArrow false
  | .mark "/" =>
    regularPattern "/"
    exprFrom start .value
  | .mark "/=" =>
    regularPattern "/="
    exprFrom start .value
  | .word "function" _ => functionExpression g start false
  | .word "class" _ =>
    advance
    optionalClassName
    classRest g
    exprFrom start .value
  | .word "async" false => asyncExpression g start canBeArrow
  | .word w _ =>
    if ["this", "null", "true", "false"].contains w then
      advance
      exprFrom start .value
    else identifierExpression g start canBeArrow
  | _ => fail

def operators : List (String × Nat) :=
  [("??", 1), ("||", 1), ("&&", 2), ("|", 3), ("^", 4), ("&", 5), ("==", 6), ("!=", 6), ("===", 6),
    ("!==", 6), ("<", 7), (">", 7), ("<=", 7), (">=", 7), ("<<", 8), (">>", 8), (">>>", 8), ("+", 9),
    ("-", 9), ("*", 10), ("/", 10), ("%", 10), ("**", 11)]

/-- How tightly the current token binds as an operator between two expressions. -/
def operator? : Parser (Option Nat) := do
  match ← token with
  | .mark m => return (operators.find? (·.1 == m)).map (·.2)
  | .word "instanceof" false => return some 7
  | .word "in" false => return if (← read).noIn then none else some 7
  | _ => return none

def startsExpression (t : Token) : Bool :=
  match t with
  | .word w _ => !reservedWords.contains w ||
      ["this", "null", "true", "false", "function", "class", "new", "super", "import", "typeof", "void",
        "delete"].contains w
  | .number | .string | .backtick | .privateName => true
  | .mark m => ["(", "[", "\x7b", "/", "/=", "+", "-", "!", "~", "++", "--", "<"].contains m
  | _ => false

/-- Whether angle brackets that were just read are type arguments and not comparisons. -/
def endsTypeArguments : Parser Bool := do
  let t ← token
  if ["<", ">", "+", "-"].any t.isMark then return false
  if ← newlineBefore then return true
  if (← operator?).isSome || (← atWord "as") || (← atWord "satisfies") then return true
  return !startsExpression t

/-- Type arguments, and the call or template that they may belong to. -/
def typeArgumentsSubscript (calls : Bool) (e : Expr) : Parser Expr := do
  typeArguments g
  if ← atMark "(" then
    if calls then
      arguments g
      return ← exprFrom e.span.start .value
    return ⟨.target, ← spanFrom e.span.start⟩
  if (← token) == .backtick then
    templateLiteral g
    return ← exprFrom e.span.start .value
  if !(← endsTypeArguments) then fail
  exprFrom e.span.start .target

def memberName : Parser Unit := do
  if (← token) == .privateName then advance
  else
    let _ ← anyWord

def chainLink (e : Expr) : Parser Expr := do
  if ← atMark "(" then arguments g
  else if ← eatMark "[" then
    let _ ← bracketed g.expression
    expectMark "]"
  else if (← isTyped) && (← atMark "<") then
    typeArguments g
    arguments g
  else memberName
  exprFrom e.span.start .target

/-- One member access, call or template after an expression. -/
def subscript (calls : Bool) (e : Expr) : Parser (Option Expr) := do
  if e.isArrow then return none
  let typed ← isTyped
  match ← token with
  | .mark "." =>
    advance
    memberName
    return some (← exprFrom e.span.start .target)
  | .mark "?." =>
    if !calls then fail
    advance
    return some (← chainLink g e)
  | .mark "[" =>
    advance
    let _ ← bracketed g.expression
    expectMark "]"
    return some (← exprFrom e.span.start .target)
  | .mark "(" =>
    if !calls then return none
    arguments g
    return some (← exprFrom e.span.start .value)
  | .backtick =>
    templateLiteral g
    return some (← exprFrom e.span.start .value)
  | .mark "!" =>
    if !typed || (← newlineBefore) then return none
    advance
    return some (← exprFrom e.span.start .target)
  | .mark m =>
    if typed && (m == "<" || m == "<<") then attempt (typeArgumentsSubscript g calls e) else return none
  | _ => return none

def newExpression : Parser Unit := do
  expectWord "new"
  if ← eatMark "." then
    let _ ← anyWord
  else
    if ← atWord "new" then g.callee
    else if ← atWord "import" then fail
    else
      let start ← position
      let callee ←
        if ← eatWord "super" then exprFrom start .value else primary g
      let _ ← iterate (subscript g false) callee
    if ← atMark "(" then arguments g

def head : Parser Expr := do
  let start ← position
  match ← token with
  | .word "super" _ =>
    advance
    if !((← atMark ".") || (← atMark "[") || (← atMark "(")) then fail
    exprFrom start .value
  | .word "import" _ =>
    advance
    if ← eatMark "." then
      let _ ← anyWord
    else arguments g
    exprFrom start .value
  | .word "new" _ =>
    newExpression g
    exprFrom start .value
  | _ => primary g

def leftHandSide : Parser Expr := do
  let e ← head g
  iterate (subscript g true) e

def isUnaryMark (t : Token) : Bool := ["+", "-", "~", "!", "++", "--"].any t.isMark

/-- After `await` at such a token the word is an identifier. -/
def awaitsNothing (next : Lexeme) : Bool :=
  next.newline || next.token == .finish || [";", "\x7d", ")", "]", ","].any next.token.isMark

def unaryExpression : Parser Expr := do
  let start ← position
  let t ← token
  let isOperator := isUnaryMark t ||
    [Token.word "delete" false, .word "void" false, .word "typeof" false].contains t
  if isOperator then
    advance
    let _ ← g.unary
    exprFrom start .value
  else if (← isTyped) && t.isMark "<" then
    advance
    if ← atWord "const" then advance else innerType g
    expectFront ">"
    let _ ← g.unary
    exprFrom start .target
  else if t == .word "await" false && ((← read).inAsync || !awaitsNothing (← peek)) then
    advance
    let _ ← g.unary
    exprFrom start .value
  else
    let e ← leftHandSide g
    if e.isArrow || (← newlineBefore) then return e
    if ← eatOneOf ["++", "--"] then exprFrom start .value else return e

/-- Extends an expression by an operator that binds more tightly than `precedence`. -/
def operation (precedence : Nat) (left : Expr) : Parser (Option Expr) := do
  if left.isArrow then return none
  let start := left.span.start
  if (← isTyped) && precedence < 7 && !(← newlineBefore) && ((← atWord "as") || (← atWord "satisfies")) then
    advance
    if ← atWord "const" then advance else innerType g
    return some (← exprFrom start .target)
  match ← operator? with
  | some found =>
    if found ≤ precedence then return none
    advance
    let _ ← g.binary (if found = 11 then 10 else found)
    return some (← exprFrom start .value)
  | none => return none

def binaryExpression (precedence : Nat) : Parser Expr := do
  let left ← unaryExpression g
  iterate (operation g precedence) left

def conditionalExpression : Parser Expr := do
  let test ← binaryExpression g 0
  if test.isArrow || !(← atMark "?") then return test
  advance
  branches g
  exprFrom test.span.start .value

def yieldExpression (start : Nat) : Parser Expr := do
  advance
  let t ← token
  if !(← newlineBefore) then
    if t.isMark "*" then
      advance
      let _ ← g.assignment
    else if startsExpression t || t.isMark "." then
      let _ ← g.assignment
  exprFrom start .value

def genericArrow (start : Nat) : Parser Expr := do
  typeParameters g
  let arrow ← g.assignment
  if arrow.isArrow then exprFrom start .arrow else fail

def assignmentExpression : Parser Expr := do
  let start ← position
  if (← isTyped) && (← atMark "<") then
    if let some arrow ← attempt (genericArrow g start) then return arrow
  if (← read).inGenerator && (← atWord "yield") then return ← yieldExpression g start
  let left ← withReader (fun c => { c with arrowStart := some start }) (conditionalExpression g)
  if left.isArrow then return left
  finishAssignment g left

def commaExpression : Parser Expr := do
  let first ← g.assignment
  if !(← atMark ",") then return first
  repeatWhile do
    if ← eatMark "," then
      let _ ← g.assignment
      return true
    return false
  exprFrom first.span.start .value

end SvelteLens.Script.Parser
