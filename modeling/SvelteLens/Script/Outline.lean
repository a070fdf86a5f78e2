import SvelteLens.Script.Tree

/-! What a projection picks out of the syntax tree of a script: the names that its top-level items bind, and its reactive
statements. -/
namespace SvelteLens.Script

/-- An assignment `name = right` with a plain identifier on the left. -/
structure Assignment where
  target : Binding
  right : Span
  deriving DecidableEq, Repr, Inhabited

/-- A statement labelled `$`. The assignment is there when the body is nothing else. -/
structure Reactive where
  start : Nat
  body : Span
  assignment : Option Assignment
  deriving DecidableEq, Repr, Inhabited

inductive Item where
  | imports (names : List String)
  | exported (start : Nat) (declared : Declared)
  | declared (declared : Declared)
  | reactive (statement : Reactive)
  | other
  deriving DecidableEq, Repr, Inhabited

abbrev Outline := List Item

def Target.name? : Target → Option Binding
  | .name binding => some binding
  | .other => none

/-- The identifiers that a declaration binds. What is taken apart binds names, too, but they are not followed. -/
def Declared.bindings : Declared → List Binding
  | .function binding => [binding]
  | .classDef binding => [binding]
  | .variableList _ _ targets => targets.filterMap Target.name?
  | .type => []

def Specifier.localName : Specifier → String
  | .named name | .byDefault name | .whole name => name

/-- Compound assignments, such as `+=`, go by other operators. -/
def Expression.assignment? : Expression → Option Assignment
  | .assignment operator (.name target) right => if operator = "=" then some ⟨target, right⟩ else none
  | _ => none

def Body.assignment? : Body → Option Assignment
  | .expression value => value.assignment?
  | .other => none

def TopLevel.item : TopLevel → Item
  | .imports specifiers => .imports (specifiers.map Specifier.localName)
  | .exported start d => .exported start d
  | .declared d => .declared d
  | .labelled l => if l.label = "$" then .reactive ⟨l.start, l.span, l.body.assignment?⟩ else .other
  | .other => .other

def Tree.outline (tree : Tree) : Outline := tree.map TopLevel.item

def Item.names : Item → List String
  | .imports names => names
  | .exported _ d => d.bindings.map (·.name)
  | .declared d => d.bindings.map (·.name)
  | .reactive _ => []
  | .other => []

end SvelteLens.Script
