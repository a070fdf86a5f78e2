import SvelteLens.Edit.Plan
import SvelteLens.Proofs.Edit.Calls

/-! What a plan asks for: its commands, the replacements among them, and its notes. A plan that goes
through has made all its commands. -/
namespace SvelteLens.Edit.Plan

variable {ν : Type}

def notes (plan : Plan ν) : List ν :=
  plan.filterMap fun
    | .note value => some value
    | _ => none

def edits (plan : Plan ν) : List Replacement := Edit.edits plan.commands

@[simp] theorem commands_nil : commands ([] : Plan ν) = [] := rfl
@[simp] theorem commands_edit (command : Command) (plan : Plan ν) :
    commands (.edit command :: plan) = command :: commands plan := rfl
@[simp] theorem commands_note (value : ν) (plan : Plan ν) : commands (.note value :: plan) = commands plan := rfl
@[simp] theorem commands_fault (plan : Plan ν) : commands (.fault :: plan) = commands plan := rfl

@[simp] theorem commands_append (plan more : Plan ν) : commands (plan ++ more) = commands plan ++ commands more :=
  List.filterMap_append

@[simp] theorem notes_nil : notes ([] : Plan ν) = [] := rfl
@[simp] theorem notes_edit (command : Command) (plan : Plan ν) : notes (.edit command :: plan) = notes plan := rfl
@[simp] theorem notes_note (value : ν) (plan : Plan ν) : notes (.note value :: plan) = value :: notes plan := rfl
@[simp] theorem notes_fault (plan : Plan ν) : notes (.fault :: plan) = notes plan := rfl

@[simp] theorem notes_append (plan more : Plan ν) : notes (plan ++ more) = notes plan ++ notes more :=
  List.filterMap_append

@[simp] theorem edits_nil : edits ([] : Plan ν) = [] := rfl
@[simp] theorem edits_note (value : ν) (plan : Plan ν) : edits (.note value :: plan) = edits plan := rfl
@[simp] theorem edits_fault (plan : Plan ν) : edits (.fault :: plan) = edits plan := rfl

@[simp] theorem edits_edit (command : Command) (plan : Plan ν) :
    edits (.edit command :: plan) = command.edit?.toList ++ edits plan := by
  simp only [edits, commands_edit, Edit.edits, List.filterMap_cons]
  cases command.edit? <;> rfl

@[simp] theorem edits_append (plan more : Plan ν) : edits (plan ++ more) = edits plan ++ edits more := by
  simp only [edits, commands_append, Edit.edits, List.filterMap_append]

def Each (P : Command → Prop) (plan : Plan ν) : Prop := ∀ c ∈ plan.commands, P c

variable {P : Command → Prop} {plan more : Plan ν} {command : Command}

@[simp] theorem each_nil : Each P ([] : Plan ν) := nofun
@[simp] theorem each_note (value : ν) : Each P (.note value :: plan) ↔ Each P plan := Iff.rfl
@[simp] theorem each_fault : Each P (.fault :: plan) ↔ Each P plan := Iff.rfl

@[simp] theorem each_edit : Each P (.edit command :: plan) ↔ P command ∧ Each P plan := by
  simp only [Each, commands_edit, List.forall_mem_cons]

@[simp] theorem each_append : Each P (plan ++ more) ↔ Each P plan ∧ Each P more := by
  simp only [Each, commands_append, List.forall_mem_append]

theorem run_through {b after : Buffer} {plan : Plan ν} {found : List ν} (h : plan.run b = ⟨after, found, none⟩) :
    Buffer.Accepts b plan.commands after ∧ found = plan.notes := by
  induction plan generalizing b found with
  | nil =>
    cases h
    exact ⟨.nil, rfl⟩
  | cons step plan ih =>
    cases step with
    | edit command =>
      unfold run at h
      split at h
      · obtain ⟨accepts, same⟩ := ih h
        exact ⟨.cons ‹_› accepts, same⟩
      · cases h
    | note value =>
      simp only [run, Outcome.mk.injEq] at h
      obtain ⟨buffer, same, failure⟩ := h
      have through : run b plan = ⟨after, (run b plan).notes, none⟩ := by rw [← buffer, ← failure]
      obtain ⟨accepts, rest⟩ := ih through
      exact ⟨accepts, by rw [← same, rest, notes_note]⟩
    | fault => cases h

end SvelteLens.Edit.Plan
