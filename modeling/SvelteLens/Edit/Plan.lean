import SvelteLens.Edit.Buffer

/-! A plan is a list of edits to make in order, with notes on the way. Running it stops at the
first edit that the buffer refuses; what was done before stays done. -/
namespace SvelteLens.Edit

/-- `fault` stands where no edit can be computed: an offset has left the range of 32 bits, or
text would be cut out of range or inside a character. -/
inductive Step (ν : Type) where
  | edit (command : Command)
  | note (value : ν)
  | fault
  deriving DecidableEq, Repr, Inhabited

abbrev Plan (ν : Type) := List (Step ν)

inductive Failure where
  | refused (refusal : Refusal)
  | fault
  deriving DecidableEq, Repr, Inhabited

structure Outcome (ν : Type) where
  buffer : Buffer
  notes : List ν
  failure : Option Failure
  deriving DecidableEq, Repr, Inhabited

namespace Plan

def run (b : Buffer) : Plan ν → Outcome ν
  | [] => ⟨b, [], none⟩
  | .edit command :: rest =>
    match b.apply command with
    | .ok b => run b rest
    | .error refusal => ⟨b, [], some (.refused refusal)⟩
  | .note value :: rest =>
    let after := run b rest
    { after with notes := value :: after.notes }
  | .fault :: _ => ⟨b, [], some .fault⟩

def commands (plan : Plan ν) : List Command :=
  plan.filterMap fun
    | .edit command => some command
    | _ => none

end Plan

end SvelteLens.Edit
