import SvelteLens.Proofs.Edit.Ledger
import SvelteLens.Proofs.Edit.Plans
import SvelteLens.Proofs.Text.Spans

/-! Which calls a buffer accepts. Every call reaches over a range of the source, an insertion over an
empty one. Calls that keep to boundaries are accepted one after the other, in any order, when no two
of their ranges share a byte and none is strictly inside another. -/
namespace SvelteLens

namespace Span

theorem apart_empty (o p : Nat) : (Span.empty o).Apart (Span.empty p) := Nat.le_total o p

end Span

namespace Edit

def Command.reach : Command → Span
  | .overwrite span _ | .remove span => span
  | .insertBefore offset _ | .insertAfter offset _ => Span.empty offset

/-- What a command occupies: the range it replaces or the boundary it inserts at. Removing an empty
range occupies nothing. -/
def Command.footprint? (c : Command) : Option Span :=
  (c.edit?.map (·.span)).or (c.insertion?.map (Span.empty ·.offset))

structure Command.Valid (text : List Char) (c : Command) : Prop where
  start : Text.isBoundary text c.reach.start = true
  stop : Text.isBoundary text c.reach.stop = true
  order : c.reach.start ≤ c.reach.stop
  filled : ∀ span inserted, c = .overwrite span inserted → span.start < span.stop

theorem Command.Valid.insertBefore {text : List Char} {offset : Nat} (h : Text.isBoundary text offset = true)
    (inserted : String) : Command.Valid text (.insertBefore offset inserted) :=
  ⟨h, h, Nat.le_refl _, nofun⟩

theorem Command.Valid.insertAfter {text : List Char} {offset : Nat} (h : Text.isBoundary text offset = true)
    (inserted : String) : Command.Valid text (.insertAfter offset inserted) :=
  ⟨h, h, Nat.le_refl _, nofun⟩

theorem Command.Valid.remove {text : List Char} {span : Span} (start : Text.isBoundary text span.start = true)
    (stop : Text.isBoundary text span.stop = true) (order : span.start ≤ span.stop) :
    Command.Valid text (.remove span) :=
  ⟨start, stop, order, nofun⟩

theorem Command.Valid.overwrite {text : List Char} {span : Span} (start : Text.isBoundary text span.start = true)
    (stop : Text.isBoundary text span.stop = true) (order : span.start < span.stop) (inserted : String) :
    Command.Valid text (.overwrite span inserted) :=
  ⟨start, stop, Nat.le_of_lt order, by rintro _ _ ⟨⟩; exact order⟩

namespace Buffer

/-- Nothing was done strictly inside a range, and no byte of it was replaced. -/
structure Leaves (b : Buffer) (span : Span) : Prop where
  replaced : ∀ r ∈ b.replacements, r.span.Apart span
  inserted : ∀ a ∈ b.anchors, (Span.empty a.offset).Apart span

theorem ofSource_leaves (source : String) (span : Span) : (ofSource source).Leaves span := ⟨nofun, nofun⟩

variable {b b' : Buffer} {c : Command} {span : Span} {offset : Nat}

theorem checkOffset_of_boundary (h : Text.isBoundary b.source.toList offset = true) : b.checkOffset offset = .ok () := by
  have inside : offset ≤ b.length := Text.le_width_of_isBoundary h
  rw [checkOffset, if_neg (Nat.not_lt.mpr inside), h]
  rfl

theorem checkRange_of_boundaries (start : Text.isBoundary b.source.toList span.start = true)
    (stop : Text.isBoundary b.source.toList span.stop = true) (order : span.start ≤ span.stop) :
    b.checkRange span = .ok () := by
  unfold checkRange
  rw [checkOffset_of_boundary start, checkOffset_of_boundary stop]
  change (if span.stop < span.start then _ else _) = _
  rw [if_neg (Nat.not_lt.mpr order)]
  rfl

theorem replace_of_leaves (leaves : b.Leaves span) (text : String) : ∃ b', b.replace span text = .ok b' := by
  have apart : b.conflict? span = none := conflict?_of_apart leaves.replaced
  have clear : b.insertedInside? span = none := by
    simp only [insertedInside?, Option.map_eq_none_iff, List.find?_eq_none]
    intro a member
    have apart : a.offset ≤ span.start ∨ span.stop ≤ a.offset := leaves.inserted a member
    simp only [Bool.and_eq_true, decide_eq_true_eq]
    omega
  exact ⟨_, by rw [replace, apart, clear]⟩

theorem insert_of_leaves (boundary : Text.isBoundary b.source.toList offset = true) (leaves : b.Leaves (Span.empty offset))
    (change : Anchor → Anchor) : ∃ b', b.insert offset change = .ok b' := by
  have clear : b.covering? offset = none := conflict?_of_apart leaves.replaced
  refine ⟨{ b with anchors := changeAnchor offset change b.anchors }, ?_⟩
  rw [insert, checkOffset_of_boundary boundary, clear]
  rfl

theorem edit?_reach {r : Replacement} (h : c.edit? = some r) : r.span = c.reach := by
  cases c with
  | overwrite => cases h; rfl
  | remove span =>
    have made : (if span.isEmpty then none else some (⟨span, ""⟩ : Replacement)) = some r := h
    split at made
    · cases made
    · cases made
      rfl
  | insertBefore => cases h
  | insertAfter => cases h

theorem insertion?_reach {i : Insertion} (h : c.insertion? = some i) : Span.empty i.offset = c.reach := by
  cases c with
  | overwrite => cases h
  | remove => cases h
  | insertBefore => cases h; rfl
  | insertAfter => cases h; rfl

theorem footprint?_reach (h : c.footprint? = some span) : span = c.reach := by
  unfold Command.footprint? at h
  cases edit : c.edit? with
  | some r =>
    rw [edit] at h
    cases h
    exact edit?_reach edit
  | none =>
    rw [edit] at h
    obtain ⟨i, insertion, rfl⟩ := Option.map_eq_some_iff.mp h
    exact insertion?_reach insertion

theorem apply_of_leaves (valid : c.Valid b.source.toList) (leaves : ∀ span, c.footprint? = some span → b.Leaves span) :
    ∃ b', b.apply c = .ok b' := by
  have range := checkRange_of_boundaries valid.start valid.stop valid.order
  cases c with
  | overwrite span text =>
    obtain ⟨b', made⟩ := replace_of_leaves (leaves span rfl) text
    have filled : span.isEmpty = false := beq_eq_false_iff_ne.mpr (Nat.ne_of_lt (valid.filled span text rfl))
    refine ⟨b', chain_ok.mpr ⟨(), range, ?_⟩⟩
    rw [filled]
    exact made
  | remove span =>
    cases empty : span.isEmpty with
    | true => exact ⟨b, chain_ok.mpr ⟨(), range, by rw [empty]; rfl⟩⟩
    | false =>
      have occupies : (Command.remove span).footprint? = some span := by simp [Command.footprint?, Command.edit?, empty]
      obtain ⟨b', made⟩ := replace_of_leaves (leaves span occupies) ""
      exact ⟨b', chain_ok.mpr ⟨(), range, by rw [empty]; exact made⟩⟩
  | insertBefore offset text => exact insert_of_leaves valid.start (leaves _ rfl) _
  | insertAfter offset text => exact insert_of_leaves valid.start (leaves _ rfl) _

theorem Leaves.apply (leaves : b.Leaves span) (apart : c.reach.Apart span) (made : b.apply c = .ok b') : b'.Leaves span := by
  rcases apply_cases made with ⟨r, edit, _, _, rfl⟩ | ⟨i, _, insertion, _, rfl⟩ | ⟨_, _, rfl⟩
  · refine ⟨fun old member => ?_, leaves.inserted⟩
    rcases mem_addReplacement.mp member with rfl | member
    · rw [edit?_reach edit]
      exact apart
    · exact leaves.replaced old member
  · refine ⟨leaves.replaced, fun a member => ?_⟩
    rcases mem_changeAnchor (Anchor.add_offset i) member with same | member
    · rw [same, insertion?_reach insertion]
      exact apart
    · exact leaves.inserted a member
  · exact leaves

/-- Valid commands whose ranges are apart are all accepted. -/
theorem accepts_of_apart {calls : List Command} (valid : ∀ c ∈ calls, c.Valid b.source.toList)
    (leaves : ∀ c ∈ calls, b.Leaves c.reach) (apart : calls.Pairwise fun c d => c.reach.Apart d.reach) :
    ∃ final, Accepts b calls final := by
  induction calls generalizing b with
  | nil => exact ⟨b, .nil⟩
  | cons c calls ih =>
    have own : ∀ span, c.footprint? = some span → b.Leaves span :=
      fun span occupied => footprint?_reach occupied ▸ leaves c List.mem_cons_self
    obtain ⟨next, made⟩ := apply_of_leaves (valid c List.mem_cons_self) own
    obtain ⟨others, rest⟩ := List.pairwise_cons.mp apart
    have same := source_apply made
    obtain ⟨final, accepts⟩ := ih (b := next) (fun d member => same ▸ valid d (List.mem_cons_of_mem c member))
      (fun d member => (leaves d (List.mem_cons_of_mem c member)).apply (others d member) made) rest
    exact ⟨final, .cons made accepts⟩

theorem Accepts.split {xs ys : List Command} {final : Buffer} (h : Accepts b (xs ++ ys) final) :
    ∃ middle, Accepts b xs middle ∧ Accepts middle ys final := by
  induction xs generalizing b with
  | nil => exact ⟨b, .nil, h⟩
  | cons x xs ih =>
    cases h with
    | cons made rest =>
      obtain ⟨middle, first, second⟩ := ih rest
      exact ⟨middle, .cons made first, second⟩

end Buffer

namespace Plan

variable {ν : Type} {b after : Buffer} {plan : Plan ν}

theorem run_of_accepts (faultless : Step.fault ∉ plan) (accepts : Buffer.Accepts b plan.commands after) :
    plan.run b = ⟨after, plan.notes, none⟩ := by
  induction plan generalizing b with
  | nil =>
    cases accepts
    rfl
  | cons step plan ih =>
    have rest : Step.fault ∉ plan := fun member => faultless (List.mem_cons_of_mem step member)
    cases step with
    | edit command =>
      cases accepts with
      | cons made later =>
        simp only [run, made]
        exact ih rest later
    | note value => simp only [run, ih rest accepts, notes_note]
    | fault => exact absurd List.mem_cons_self faultless

end Plan
end Edit
end SvelteLens
