import SvelteLens.Text.Span

/-! The syntax tree of a script, as far as its projection goes by it. Offsets count from the start of the script's
content. -/
namespace SvelteLens.Script

structure Binding where
  name : String
  start : Nat
  deriving DecidableEq, Repr, Inhabited

/-- What a declaration binds or an assignment changes. -/
inductive Target where
  | name (binding : Binding)
  /-- A member, or an array or object that is taken apart. -/
  | other
  deriving DecidableEq, Repr, Inhabited

inductive VariableKind where
  | constant
  | mutable
  deriving DecidableEq, Repr, Inhabited

inductive Declared where
  | function (binding : Binding)
  | classDef (binding : Binding)
  | variableList (kind : VariableKind) (ambient : Bool) (targets : List Target)
  /-- Types, enumerations and namespaces. -/
  | type
  deriving DecidableEq, Repr, Inhabited

/-- What an import brings in, under its local name. -/
inductive Specifier where
  | named (localName : String)
  | byDefault (localName : String)
  /-- All of a module, as in `* as name`. -/
  | whole (localName : String)
  deriving DecidableEq, Repr, Inhabited

inductive Expression where
  | assignment (operator : String) (left : Target) (right : Span)
  | other
  deriving DecidableEq, Repr, Inhabited

inductive Body where
  | expression (value : Expression)
  | other
  deriving DecidableEq, Repr, Inhabited

/-- A statement behind a label, which starts before it. -/
structure Labelled where
  label : String
  start : Nat
  body : Body
  span : Span
  deriving DecidableEq, Repr, Inhabited

inductive TopLevel where
  | imports (specifiers : List Specifier)
  | exported (start : Nat) (declared : Declared)
  | declared (declared : Declared)
  | labelled (statement : Labelled)
  | other
  deriving DecidableEq, Repr, Inhabited

abbrev Tree := List TopLevel

/-- Reads a script, with types or without. A script that is not well formed has no tree. -/
abbrev Reader := (typed : Bool) → String → Option Tree

end SvelteLens.Script
