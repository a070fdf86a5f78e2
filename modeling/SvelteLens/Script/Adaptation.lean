import SvelteLens.Edit.Plan
import SvelteLens.Script.Outline
import SvelteLens.Text.CharClass

/-! Script content stays at module level. Two things change: exported declarations of the
instance script lose their `export`, and statements labelled `$` become a declaration or a
function body. -/
namespace SvelteLens.Script

open Edit

inductive Role where
  | perInstance
  | shared
  deriving DecidableEq, Repr, Inhabited

inductive DeclarationKind where
  /-- Exported by the instance script and settable from outside. -/
  | prop
  /-- Declared by a reactive assignment alone. -/
  | reactive
  | variable
  | function
  | classDef
  deriving DecidableEq, Repr, Inhabited

structure Declaration where
  name : String
  kind : DeclarationKind
  span : Span
  deriving DecidableEq, Repr, Inhabited

/-- The range of a name that starts at an offset of the content. -/
def nameSpan (base : Nat) (b : Binding) : Span :=
  ⟨base + b.start, base + b.start + Text.width b.name.toList⟩

/-- What a declaration counts as, if it declares values here. -/
def kindOf? (role : Role) : Declared → Option DeclarationKind
  | .function _ => some .function
  | .classDef _ => some .classDef
  | .variableList _ true _ => none
  | .variableList .mutable false _ => some (if role = .perInstance then .prop else .variable)
  | .variableList .constant false _ => some .variable
  | .type => none

def declarations (role : Role) (base : Nat) (d : Declared) : List Declaration :=
  match kindOf? role d with
  | some kind => d.bindings.map fun b => ⟨b.name, kind, nameSpan base b⟩
  | none => []

def notes (ds : List Declaration) : Plan Declaration := ds.map .note

def dropExport (source : String) (start : Nat) : Plan Declaration :=
  match Text.split? (start + 6) source.toList with
  | some (_, rest) => [.edit (.remove ⟨start, start + 6 + Text.width (rest.takeWhile Text.isBlank)⟩)]
  | none => [.fault]

/-- Turns a reactive assignment into the declaration of its target. -/
def declareTarget (base start : Nat) (a : Assignment) : Plan Declaration :=
  let name := nameSpan base a.target
  [.edit (.overwrite ⟨start, name.start⟩ "let "),
    .edit (.overwrite ⟨name.stop, base + a.right.start⟩ " = __sveltets_1_invalidate(() => ("),
    .edit (.insertAfter (base + a.right.stop) "))"),
    .note ⟨a.target.name, .reactive, name⟩]

/-- Turns a reactive statement into the body of a function. -/
def wrapStatement (base start : Nat) (body : Span) : Plan Declaration :=
  [.edit (.overwrite ⟨start, base + body.start⟩ ";() => \x7b"), .edit (.insertAfter (base + body.stop) "\x7d")]

/-- A reactive assignment declares its target unless something else does. -/
def reactivePlan (base : Nat) (known : List String) (r : Reactive) : Plan Declaration × List String :=
  match r.assignment with
  | some a =>
    if known.contains a.target.name then (wrapStatement base (base + r.start) r.body, known)
    else (declareTarget base (base + r.start) a, a.target.name :: known)
  | none => (wrapStatement base (base + r.start) r.body, known)

/-- The plan for one item, and the names known after it. -/
def itemPlan (role : Role) (source : String) (base : Nat) (known : List String) (item : Item) :
    Plan Declaration × List String :=
  match item with
  | .exported start declared =>
    let removal :=
      if role = .perInstance ∧ (kindOf? role declared).isSome then dropExport source (base + start) else []
    (notes (declarations role base declared) ++ removal, known)
  | .declared declared => (notes (declarations .shared base declared), known)
  | .reactive r => if role = .perInstance then reactivePlan base known r else ([], known)
  | .imports _ => ([], known)
  | .other => ([], known)

def itemsPlan (role : Role) (source : String) (base : Nat) : (known : List String) → Outline →
    Plan Declaration × List String
  | known, [] => ([], known)
  | known, item :: rest =>
    let (plan, known) := itemPlan role source base known item
    let (more, known) := itemsPlan role source base known rest
    (plan ++ more, known)

/-- The plan for a script whose content starts at `base`. Names that are known already, and
names bound by the script itself, are not declared by its reactive statements. -/
def adaptationPlan (role : Role) (source : String) (base : Nat) (known : List String) (outline : Outline) :
    Plan Declaration × List String :=
  itemsPlan role source base (outline.flatMap Item.names ++ known) outline

end SvelteLens.Script
