import SvelteLens.Script.Tree
import SvelteLens.Script.Token

/-! The state of the script parser and its basic moves. The parser only finds out whether a
script is well formed and what its top-level items are. Mistakes that leave the structure of a
script intact are let pass. -/
namespace SvelteLens.Script

structure Context where
  /-- The script has types. -/
  typed : Bool
  /-- More steps than any repetition takes. -/
  limit : Nat
  inAsync : Bool := false
  inGenerator : Bool := false
  /-- `in` ends an expression, as in the head of a loop. -/
  noIn : Bool := false
  /-- A colon will end the expression, as between `?` and `:`. -/
  expectColon : Bool := false
  /-- In either branch of a conditional expression. -/
  inConditional : Bool := false
  /-- `extends` does not start a conditional type. -/
  noConditionalType : Bool := false
  /-- Where an arrow function may start. -/
  arrowStart : Option Nat := none

structure State where
  current : Lexeme
  /-- The end of the token before the current one. -/
  previousStop : Nat

abbrev Parser := ReaderT Context (EStateM Unit State)

namespace Parser

def fail : Parser α := throw ()

def advance : Parser Unit := modify fun s =>
  ⟨nextToken false s.current.stop s.current.rest, s.current.stop⟩

def token : Parser Token := return (← get).current.token

def position : Parser Nat := return (← get).current.start

/-- The span from an offset to the end of the last token that was read. -/
def spanFrom (start : Nat) : Parser Span := return ⟨start, (← get).previousStop⟩

def peek : Parser Lexeme := do
  let s ← get
  return nextToken false s.current.stop s.current.rest

def newlineBefore : Parser Bool := return (← get).current.newline

def isTyped : Parser Bool := return (← read).typed

def atMark (text : String) : Parser Bool := return (← token) == .mark text

/-- Keywords do not count when they are written with an escape. -/
def atWord (name : String) : Parser Bool := return (← token) == .word name false

def eatMark (text : String) : Parser Bool := do
  if ← atMark text then
    advance
    return true
  return false

def eatWord (name : String) : Parser Bool := do
  if ← atWord name then
    advance
    return true
  return false

def eatOneOf (texts : List String) : Parser Bool := do
  match ← token with
  | .mark found =>
    if texts.contains found then
      advance
      return true
    return false
  | _ => return false

def expectMark (text : String) : Parser Unit := do
  if !(← eatMark text) then fail

def expectWord (name : String) : Parser Unit := do
  if !(← eatWord name) then fail

/-- Runs a parser; when it fails nothing was read. -/
def attempt (p : Parser α) : Parser (Option α) := fun context state =>
  match p context state with
  | .ok a state => .ok (some a) state
  | .error _ _ => .ok none state

/-- Runs a parser and goes on where it stopped, even when it failed. -/
def ignoring (p : Parser α) : Parser Unit := fun context state =>
  match p context state with
  | .ok _ state => .ok () state
  | .error _ state => .ok () state

def lookAhead (p : Parser Bool) : Parser Bool := fun context state =>
  match p context state with
  | .ok answer _ => .ok answer state
  | .error _ _ => .ok false state

/-- Repeats a step on a value for as long as it gives a new value. -/
def iterateFrom (step : α → Parser (Option α)) : (bound : Nat) → α → Parser α
  | 0, _ => fail
  | bound + 1, a => do
    match ← step a with
    | some next => iterateFrom step bound next
    | none => return a

def iterate (step : α → Parser (Option α)) (a : α) : Parser α := do iterateFrom step (← read).limit a

def repeatWhile (step : Parser Bool) : Parser Unit :=
  iterate (fun _ => do return if ← step then some () else none) ()

def collect (step : Parser (Option α)) : Parser (List α) := do
  let found ← iterate (fun found => do return (← step).map (· :: found)) []
  return found.reverse

/-- Items with commas between them, up to a closing mark. A comma may stand before the mark. -/
def commaList (closing : String) (item : Parser α) : Parser (List α) := do
  let items ← collect do
    if ← atMark closing then return none
    let found ← item
    if !(← atMark closing) then expectMark ","
    return some found
  expectMark closing
  return items

/-- A statement may end here: at a semicolon, a closing brace, a new line or the end. -/
def atStatementEnd : Parser Bool := do
  return (← atMark ";") || (← atMark "\x7d") || (← token) == .finish || (← newlineBefore)

/-- Ends a statement, with its semicolon if there is one. -/
def eatStatementEnd : Parser Bool := do
  if ← eatMark ";" then return true
  atStatementEnd

def expectStatementEnd : Parser Unit := do
  if !(← eatStatementEnd) then fail

/-- Takes a mark of one character off the front of the current mark. -/
def eatFront (text : String) : Parser Bool := do
  let s ← get
  match s.current.token with
  | .mark found =>
    if found = text then advance
    else if text.toList.isPrefixOf found.toList then
      let stop := s.current.start + text.length
      modify fun s => ⟨readToken false stop (found.toList.drop text.length ++ s.current.rest), stop⟩
    else return false
    return true
  | _ => return false

def expectFront (text : String) : Parser Unit := do
  if !(← eatFront text) then fail

def moveTo (offset : Nat) (rest : List Char) : Parser Unit :=
  modify fun _ => ⟨nextToken false offset rest, offset⟩

end Parser

def reservedWords : List String :=
  ["break", "case", "catch", "class", "const", "continue", "debugger", "default", "delete", "do", "else",
    "export", "extends", "false", "finally", "for", "function", "if", "import", "in", "instanceof", "new",
    "null", "return", "super", "switch", "this", "throw", "true", "try", "typeof", "var", "void", "while",
    "with"]

namespace Token

def isName : Token → Bool
  | .word name _ => !reservedWords.contains name
  | _ => false

def isWord : Token → Bool
  | .word _ _ => true
  | _ => false

def isMark (token : Token) (text : String) : Bool := token == .mark text

end Token

namespace Parser

def name : Parser Binding := do
  let s ← get
  match s.current.token with
  | .word name _ =>
    if reservedWords.contains name then fail
    else
      advance
      return ⟨name, s.current.start⟩
  | _ => fail

def anyWord : Parser Binding := do
  let s ← get
  match s.current.token with
  | .word name _ =>
    advance
    return ⟨name, s.current.start⟩
  | _ => fail

def expectString : Parser Unit := do
  if (← token) == .string then advance else fail

end Parser

/-- What an expression can stand for beside its value. -/
inductive Shape where
  | ident (name : String)
  /-- Can be assigned to: a member, or a target with a type check around it. -/
  | target
  | paren
  /-- An array or object; `pattern` says that it can be read as a pattern. -/
  | literal (pattern : Bool)
  | assignment (operator : String) (left : Target) (right : Span)
  | arrow
  | value
  deriving DecidableEq, Repr, Inhabited

structure Expr where
  shape : Shape
  span : Span
  deriving DecidableEq, Repr, Inhabited

namespace Expr

def isArrow (e : Expr) : Bool := e.shape == .arrow

/-- Can be read as a pattern: nothing in it is a method. -/
def isPattern (e : Expr) : Bool :=
  match e.shape with
  | .literal pattern => pattern
  | _ => true

/-- Can stand to the left of a compound assignment. -/
def isTarget (e : Expr) : Bool :=
  match e.shape with
  | .ident _ | .target | .paren => true
  | _ => false

/-- Can stand to the left of `=`. -/
def isAssignable (e : Expr) : Bool :=
  match e.shape with
  | .literal pattern => pattern
  | _ => e.isTarget

/-- What the expression is to the left of an assignment sign. -/
def assigned (e : Expr) : Target :=
  match e.shape with
  | .ident name => .name ⟨name, e.span.start⟩
  | _ => .other

end Expr

inductive Statement where
  | declaration (declared : Declared)
  | labelled (statement : Labelled)
  | expression (value : Expr)
  | other
  deriving DecidableEq, Repr, Inhabited

def Statement.asBody : Statement → Body
  | .expression ⟨.assignment operator left right, _⟩ => .expression (.assignment operator left right)
  | .expression _ => .expression .other
  | _ => .other

/-- The phrases that contain one another. A parser for a phrase gets its parts from here. -/
structure Grammar where
  /-- With commas. -/
  expression : Parser Expr
  assignment : Parser Expr
  unary : Parser Expr
  /-- Operators that bind more tightly than a given one. -/
  binary : (precedence : Nat) → Parser Expr
  /-- Members and calls, up to the first operator. -/
  leftHand : Parser Expr
  /-- What `new` is applied to. -/
  callee : Parser Unit
  statement : (declarations : Bool) → Parser Statement
  item : Parser TopLevel
  block : Parser Unit
  /-- A variable, array or object to bind. -/
  pattern : Parser Target
  type : Parser Unit

def Grammar.empty : Grammar :=
  ⟨Parser.fail, Parser.fail, Parser.fail, fun _ => Parser.fail, Parser.fail, Parser.fail,
    fun _ => Parser.fail, Parser.fail, Parser.fail, Parser.fail, Parser.fail⟩

end SvelteLens.Script
