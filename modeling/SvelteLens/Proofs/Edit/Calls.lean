import SvelteLens.Edit.Buffer
import SvelteLens.Proofs.Basics
import SvelteLens.Proofs.Text.Cuts

/-! Calls on a buffer: what each of them asks for, which calls of a sequence are accepted, and all
that an accepted call can do. -/
namespace SvelteLens.Edit

/-- Whether a text belongs to the byte before its boundary or to the byte after it. -/
inductive Side where
  | after
  | before
  deriving DecidableEq, Repr

structure Insertion where
  offset : Nat
  side : Side
  text : String
  deriving DecidableEq, Repr

/-- The replacement that a command asks for. Removing an empty range asks for none. -/
def Command.edit? : Command → Option Replacement
  | .overwrite span text => some ⟨span, text⟩
  | .remove span => if span.isEmpty then none else some ⟨span, ""⟩
  | .insertBefore _ _ | .insertAfter _ _ => none

def Command.insertion? : Command → Option Insertion
  | .insertBefore offset text => some ⟨offset, .before, text⟩
  | .insertAfter offset text => some ⟨offset, .after, text⟩
  | .overwrite _ _ | .remove _ => none

def edits (calls : List Command) : List Replacement := calls.filterMap Command.edit?

def insertions (calls : List Command) : List Insertion := calls.filterMap Command.insertion?

/-- The texts that calls insert at one boundary and side, in call order. -/
def inserted (side : Side) (offset : Nat) (calls : List Command) : List String :=
  ((insertions calls).filter fun i => i.offset = offset && i.side = side).map (·.text)

def Anchor.add (i : Insertion) (a : Anchor) : Anchor :=
  match i.side with
  | .after => { a with after := a.after ++ [i.text] }
  | .before => { a with before := a.before ++ [i.text] }

@[simp] theorem Anchor.add_offset (i : Insertion) (a : Anchor) : (a.add i).offset = a.offset := by
  unfold Anchor.add
  split <;> rfl

namespace Buffer

/-- The calls that turn one buffer into another when none of them is refused. -/
inductive Accepts : Buffer → List Command → Buffer → Prop where
  | nil : Accepts b [] b
  | cons : b.apply call = .ok next → Accepts next calls final → Accepts b (call :: calls) final

/-- Makes calls of which some may be refused. A refused call leaves the buffer as it is. -/
def attempt (b : Buffer) : List Command → Buffer
  | [] => b
  | call :: calls =>
    match b.apply call with
    | .ok next => next.attempt calls
    | .error _ => b.attempt calls

def accepted (b : Buffer) : List Command → List Command
  | [] => []
  | call :: calls =>
    match b.apply call with
    | .ok next => call :: next.accepted calls
    | .error _ => b.accepted calls

theorem accepts_accepted (b : Buffer) (calls : List Command) :
    Accepts b (b.accepted calls) (b.attempt calls) := by
  induction calls generalizing b with
  | nil => exact .nil
  | cons call calls ih =>
    unfold accepted attempt
    split
    · exact .cons ‹_› (ih _)
    · exact ih b

theorem Accepts.append (first : Accepts b xs middle) (second : Accepts middle ys final) :
    Accepts b (xs ++ ys) final := by
  induction first with
  | nil => exact second
  | cons step _ ih => exact .cons step (ih second)

/-- When a replacement is accepted. -/
structure Admits (b : Buffer) (r : Replacement) : Prop where
  order : r.span.start < r.span.stop
  start : Text.isBoundary b.source.toList r.span.start = true
  stop : Text.isBoundary b.source.toList r.span.stop = true
  apart : b.conflict? r.span = none
  clear : ∀ a ∈ b.anchors, a.offset ≤ r.span.start ∨ r.span.stop ≤ a.offset

/-- When a text may be inserted at a boundary. -/
structure AdmitsAt (b : Buffer) (offset : Nat) : Prop where
  boundary : Text.isBoundary b.source.toList offset = true
  clear : b.covering? offset = none

theorem checkOffset_ok {b : Buffer} {offset : Nat} (h : b.checkOffset offset = .ok ()) :
    Text.isBoundary b.source.toList offset = true := by
  unfold checkOffset at h
  split at h
  · cases h
  · split at h
    · cases h
    · have inside : ¬(!Text.isBoundary b.source.toList offset) = true := by assumption
      simpa using inside

theorem checkRange_ok {b : Buffer} {span : Span} (h : b.checkRange span = .ok ()) :
    Text.isBoundary b.source.toList span.start = true ∧ Text.isBoundary b.source.toList span.stop = true ∧
      span.start ≤ span.stop := by
  obtain ⟨⟨⟩, start, h⟩ := chain_ok.mp h
  obtain ⟨⟨⟩, stop, h⟩ := chain_ok.mp h
  refine ⟨checkOffset_ok start, checkOffset_ok stop, ?_⟩
  by_cases order : span.stop < span.start
  · rw [if_pos order] at h
    cases h
  · omega

theorem clear_of_insertedInside? {b : Buffer} {span : Span} (h : b.insertedInside? span = none) :
    ∀ a ∈ b.anchors, a.offset ≤ span.start ∨ span.stop ≤ a.offset := by
  intro a member
  have outside := List.find?_eq_none.mp (Option.map_eq_none_iff.mp h) a member
  simp only [Bool.and_eq_true, decide_eq_true_eq, not_and] at outside
  omega

theorem replace_ok {b b' : Buffer} {span : Span} {text : String} (order : span.start < span.stop)
    (start : Text.isBoundary b.source.toList span.start = true)
    (stop : Text.isBoundary b.source.toList span.stop = true) (h : b.replace span text = .ok b') :
    b.Admits ⟨span, text⟩ ∧
      b' = { b with replacements := addReplacement ⟨span, text⟩ b.replacements } := by
  unfold replace at h
  split at h
  · cases h
  · split at h
    · cases h
    · refine ⟨⟨order, start, stop, ‹_›, clear_of_insertedInside? ‹_›⟩, ?_⟩
      exact (Except.ok.inj h).symm

theorem insert_ok {b b' : Buffer} {offset : Nat} {change : Anchor → Anchor}
    (h : b.insert offset change = .ok b') :
    b.AdmitsAt offset ∧ b' = { b with anchors := changeAnchor offset change b.anchors } := by
  obtain ⟨⟨⟩, boundary, h⟩ := chain_ok.mp h
  split at h
  · cases h
  · exact ⟨⟨checkOffset_ok boundary, ‹_›⟩, (Except.ok.inj h).symm⟩

/-- All that an accepted call can do. -/
theorem apply_cases {b b' : Buffer} {call : Command} (h : b.apply call = .ok b') :
    (∃ r, call.edit? = some r ∧ call.insertion? = none ∧ b.Admits r ∧
      b' = { b with replacements := addReplacement r b.replacements }) ∨
    (∃ i, call.edit? = none ∧ call.insertion? = some i ∧ b.AdmitsAt i.offset ∧
      b' = { b with anchors := changeAnchor i.offset (Anchor.add i) b.anchors }) ∨
    (call.edit? = none ∧ call.insertion? = none ∧ b' = b) := by
  cases call with
  | overwrite span text =>
    obtain ⟨⟨⟩, range, h⟩ := chain_ok.mp h
    obtain ⟨start, stop, order⟩ := checkRange_ok range
    split at h
    · cases h
    · have proper : span.start < span.stop := by
        simp only [Span.isEmpty, beq_iff_eq] at *
        omega
      obtain ⟨admits, rfl⟩ := replace_ok proper start stop h
      exact .inl ⟨_, rfl, rfl, admits, rfl⟩
  | remove span =>
    obtain ⟨⟨⟩, range, h⟩ := chain_ok.mp h
    obtain ⟨start, stop, order⟩ := checkRange_ok range
    split at h
    · cases h
      exact .inr (.inr ⟨if_pos ‹_›, rfl, rfl⟩)
    · have proper : span.start < span.stop := by
        simp only [Span.isEmpty, beq_iff_eq] at *
        omega
      obtain ⟨admits, rfl⟩ := replace_ok proper start stop h
      exact .inl ⟨_, if_neg ‹_›, rfl, admits, rfl⟩
  | insertBefore offset text =>
    obtain ⟨admits, rfl⟩ := insert_ok h
    exact .inr (.inl ⟨⟨offset, .before, text⟩, rfl, rfl, admits, rfl⟩)
  | insertAfter offset text =>
    obtain ⟨admits, rfl⟩ := insert_ok h
    exact .inr (.inl ⟨⟨offset, .after, text⟩, rfl, rfl, admits, rfl⟩)

end Buffer
end SvelteLens.Edit
