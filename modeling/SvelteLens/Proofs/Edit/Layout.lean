import SvelteLens.Edit.Render
import SvelteLens.Proofs.Edit.Ledger

/-! The layout of a consistent buffer, as a derivation. Each rule takes what comes next at one
boundary: the texts inserted there, a whole replaced range, or one kept character. -/
namespace SvelteLens.Edit

open Text (width)

/-- `Laid offset cs rs anchors ps` lays out the characters from `offset` on, with the replacements
and anchors that are still to come. The text ends only when both tables are used up. -/
inductive Laid : Nat → List Char → List Replacement → List Anchor → List Piece → Prop where
  | done : Laid offset [] [] [] []
  | anchored {a : Anchor} : (∀ later ∈ anchors, a.offset < later.offset) →
      Laid a.offset cs rs anchors ps → Laid a.offset cs rs (a :: anchors) (Piece.ofAnchor a ++ ps)
  | replaced : covered ≠ [] → (∀ a ∈ anchors, offset + width covered ≤ a.offset) →
      (∀ r ∈ rs, offset + width covered ≤ r.span.start) →
      Laid (offset + width covered) rest rs anchors ps →
      Laid offset (covered ++ rest) (⟨⟨offset, offset + width covered⟩, text⟩ :: rs) anchors
        (.replaced ⟨offset, offset + width covered⟩ text :: ps)
  | kept : (∀ a ∈ anchors, offset + c.utf8Size ≤ a.offset) →
      (∀ r ∈ rs, offset + c.utf8Size ≤ r.span.start) →
      Laid (offset + c.utf8Size) cs rs anchors ps → Laid offset (c :: cs) rs anchors (.kept offset c :: ps)

/-- A boundary of the characters that start at `offset`. -/
def Cut (offset : Nat) (cs : List Char) (at' : Nat) : Prop := ∃ a b, cs = a ++ b ∧ at' = offset + width a

theorem Cut.of_isBoundary {cs : List Char} {n : Nat} (h : Text.isBoundary cs n = true) : Cut 0 cs n := by
  obtain ⟨a, b, rfl, rfl⟩ := Text.isBoundary_iff.mp h
  exact ⟨a, b, rfl, by simp⟩

theorem Cut.le {offset n : Nat} {cs : List Char} (h : Cut offset cs n) : offset ≤ n := by
  obtain ⟨a, b, rfl, rfl⟩ := h
  omega

theorem Cut.rest {offset n : Nat} {covered rest : List Char} (h : Cut offset (covered ++ rest) n)
    (le : offset + width covered ≤ n) : Cut (offset + width covered) rest n := by
  obtain ⟨a, b, same, rfl⟩ := h
  obtain ⟨e, rfl, rfl⟩ := Text.cut_after same (by omega)
  exact ⟨e, b, rfl, by simp [Nat.add_assoc]⟩

theorem Cut.next {offset n : Nat} {c : Char} {cs : List Char} (h : Cut offset (c :: cs) n)
    (ne : n ≠ offset) : offset + c.utf8Size ≤ n := by
  obtain ⟨a, b, same, rfl⟩ := h
  cases a with
  | nil => simp at ne
  | cons d a =>
    cases same
    simp only [Text.width_cons]
    omega

theorem Cut.end {offset n : Nat} (h : Cut offset [] n) : n = offset := by
  obtain ⟨a, b, same, rfl⟩ := h
  obtain ⟨rfl, rfl⟩ := List.append_eq_nil_iff.mp same.symm
  simp

/-- The tables hold only what can still be laid out from `offset` on. -/
structure Pending (offset : Nat) (cs : List Char) (rs : List Replacement) (anchors : List Anchor) : Prop where
  ordered : rs.Pairwise fun r s => r.span.stop ≤ s.span.start
  proper : ∀ r ∈ rs, r.span.start < r.span.stop
  starts : ∀ r ∈ rs, Cut offset cs r.span.start
  stops : ∀ r ∈ rs, Cut offset cs r.span.stop
  ascending : anchors.Pairwise fun a c => a.offset < c.offset
  anchored : ∀ a ∈ anchors, Cut offset cs a.offset
  outside : ∀ a ∈ anchors, ∀ r ∈ rs, a.offset ≤ r.span.start ∨ r.span.stop ≤ a.offset

theorem Buffer.Consistent.pending {b : Buffer} (valid : b.Consistent) :
    Pending 0 b.source.toList b.replacements b.anchors where
  ordered := valid.ordered
  proper r h := (valid.proper r h).1
  starts r h := .of_isBoundary (valid.proper r h).2.1
  stops r h := .of_isBoundary (valid.proper r h).2.2
  ascending := valid.ascending
  anchored a h := .of_isBoundary (valid.anchored a h)
  outside := valid.outside

namespace Pending

variable {offset : Nat} {cs : List Char} {rs : List Replacement} {anchors : List Anchor}

theorem tail_anchor (h : Pending offset cs rs (a :: anchors)) : Pending offset cs rs anchors where
  ordered := h.ordered
  proper := h.proper
  starts := h.starts
  stops := h.stops
  ascending := h.ascending.of_cons
  anchored a member := h.anchored a (by simp [member])
  outside a member := h.outside a (by simp [member])

theorem tail_replacement (h : Pending offset cs (r :: rs) anchors) : Pending offset cs rs anchors where
  ordered := h.ordered.of_cons
  proper s member := h.proper s (by simp [member])
  starts s member := h.starts s (by simp [member])
  stops s member := h.stops s (by simp [member])
  ascending := h.ascending
  anchored := h.anchored
  outside a anchor s member := h.outside a anchor s (by simp [member])

theorem rest (covered : List Char) (h : Pending offset (covered ++ cs) rs anchors)
    (behind : ∀ r ∈ rs, offset + width covered ≤ r.span.start)
    (behind' : ∀ a ∈ anchors, offset + width covered ≤ a.offset) :
    Pending (offset + width covered) cs rs anchors where
  ordered := h.ordered
  proper := h.proper
  starts r member := (h.starts r member).rest (behind r member)
  stops r member := (h.stops r member).rest (by have := behind r member; have := h.proper r member; omega)
  ascending := h.ascending
  anchored a member := (h.anchored a member).rest (behind' a member)
  outside := h.outside

theorem empty (h : Pending offset [] rs anchors) : rs = [] := by
  cases rs with
  | nil => rfl
  | cons r rs =>
    have start := (h.starts r (by simp)).end
    have stop := (h.stops r (by simp)).end
    have := h.proper r (by simp)
    omega

/-- Only the first replacement can start at the boundary: the others start behind its end. -/
theorem first_starts (h : Pending offset cs rs anchors) (here : ∃ r ∈ rs, r.span.start = offset) :
    ∃ r rest, rs = r :: rest ∧ r.span.start = offset := by
  obtain ⟨r, member, start⟩ := here
  cases rs with
  | nil => simp at member
  | cons s rest =>
    refine ⟨s, rest, rfl, ?_⟩
    rcases List.mem_cons.mp member with rfl | member
    · exact start
    · have := (List.pairwise_cons.mp h.ordered).1 r member
      have := h.proper s (by simp)
      have := (h.starts s (by simp)).le
      omega

theorem covered (h : Pending r.span.start (c :: cs) (r :: rs) anchors) :
    ∃ covered behind, cs = covered ++ behind ∧ r.span.stop = r.span.start + width (c :: covered) := by
  obtain ⟨run, behind, same, stop⟩ := h.stops r (by simp)
  have order := h.proper r (by simp)
  cases run with
  | nil =>
    simp at stop
    omega
  | cons d covered =>
    obtain ⟨rfl, rfl⟩ : c = d ∧ cs = covered ++ behind := by simpa using same
    exact ⟨covered, behind, rfl, stop⟩

end Pending

theorem pieces_skip (covered rest : List Char) {offset resume : Nat} (rs : List Replacement)
    (anchors : List Anchor) (le : offset + width covered ≤ resume) :
    pieces (covered ++ rest) offset resume rs anchors =
      pieces rest (offset + width covered) resume rs anchors := by
  induction covered generalizing offset with
  | nil => simp
  | cons c covered ih =>
    have := c.utf8Size_pos
    simp only [Text.width_cons] at le
    rw [List.cons_append, pieces, if_pos (by omega), ih (by omega)]
    simp [Nat.add_assoc]

theorem takeAnchor_here (a : Anchor) (anchors : List Anchor) :
    takeAnchor a.offset (a :: anchors) = (Piece.ofAnchor a, anchors) := by
  simp [takeAnchor]

theorem takeAnchor_later {offset : Nat} {anchors : List Anchor} (later : ∀ a ∈ anchors, offset < a.offset) :
    takeAnchor offset anchors = ([], anchors) := by
  cases anchors with
  | nil => rfl
  | cons a anchors =>
    have := later a (by simp)
    simp only [takeAnchor]
    rw [if_neg (by omega)]

theorem takeReplacement_later {offset : Nat} {rs : List Replacement} (later : ∀ r ∈ rs, offset < r.span.start) :
    takeReplacement offset rs = (none, rs) := by
  cases rs with
  | nil => rfl
  | cons r rs =>
    have := later r (by simp)
    simp only [takeReplacement]
    rw [if_neg (by omega)]

theorem takeReplacement_here (r : Replacement) (rs : List Replacement) :
    takeReplacement r.span.start (r :: rs) = (some r, rs) := by
  simp [takeReplacement]

theorem pieces_anchored {a : Anchor} {cs : List Char} {resume : Nat} {rs : List Replacement}
    {anchors : List Anchor} (le : resume ≤ a.offset) (later : ∀ c ∈ anchors, a.offset < c.offset) :
    pieces cs a.offset resume rs (a :: anchors) =
      Piece.ofAnchor a ++ pieces cs a.offset resume rs anchors := by
  cases cs with
  | nil => simp [pieces, takeAnchor_here, takeAnchor_later later]
  | cons c cs =>
    simp only [pieces, if_neg (Nat.not_lt.mpr le), takeAnchor_here, takeAnchor_later later]
    split <;> simp

/-- The layout of one character or of one replaced range, at a boundary where no text is inserted. -/
theorem Pending.laid_cons {c : Char} {cs : List Char} {offset resume : Nat} {rs : List Replacement}
    {anchors : List Anchor} (h : Pending offset (c :: cs) rs anchors) (le : resume ≤ offset)
    (later : ∀ a ∈ anchors, offset < a.offset)
    (ih : ∀ (rest : List Char) (offset resume : Nat) (rs : List Replacement), rest.length ≤ cs.length →
      Pending offset rest rs anchors → resume ≤ offset →
      Laid offset rest rs anchors (pieces rest offset resume rs anchors)) :
    Laid offset (c :: cs) rs anchors (pieces (c :: cs) offset resume rs anchors) := by
  simp only [pieces, if_neg (Nat.not_lt.mpr le), takeAnchor_later later, List.nil_append]
  by_cases here : ∃ r ∈ rs, r.span.start = offset
  · obtain ⟨r, rest, rfl, rfl⟩ := h.first_starts here
    obtain ⟨covered, behind, rfl, stop⟩ := h.covered
    have behindEdits : ∀ s ∈ rest, r.span.start + width (c :: covered) ≤ s.span.start := by
      intro s member
      have := (List.pairwise_cons.mp h.ordered).1 s member
      omega
    have behindAnchors : ∀ a ∈ anchors, r.span.start + width (c :: covered) ≤ a.offset := by
      intro a member
      have := later a member
      have := h.outside a member r (by simp)
      omega
    have pending := Pending.rest (c :: covered) h.tail_replacement behindEdits behindAnchors
    rw [takeReplacement_here]
    simp only
    rw [pieces_skip covered behind rest anchors (by simp only [stop, Text.width_cons]; omega),
      ← List.cons_append]
    obtain ⟨⟨start, stop'⟩, text⟩ := r
    simp only at stop
    subst stop
    refine .replaced (by simp) behindAnchors behindEdits ?_
    have laid := ih behind _ (start + width (c :: covered)) rest (by simp) pending (Nat.le_refl _)
    simpa [Nat.add_assoc] using laid
  · have behindEdits : ∀ r ∈ rs, offset + c.utf8Size ≤ r.span.start :=
      fun r member => (h.starts r member).next fun start => here ⟨r, member, start⟩
    have behindAnchors : ∀ a ∈ anchors, offset + c.utf8Size ≤ a.offset :=
      fun a member => (h.anchored a member).next (by have := later a member; omega)
    have pending : Pending (offset + c.utf8Size) cs rs anchors := by
      simpa using Pending.rest [c] h (by simpa using behindEdits) (by simpa using behindAnchors)
    have pos := c.utf8Size_pos
    rw [takeReplacement_later (fun r member => by have := behindEdits r member; omega)]
    exact .kept behindAnchors behindEdits (ih cs _ resume rs (Nat.le_refl _) pending (by omega))

/-- The pieces of a consistent buffer are a layout. The induction is on the number of characters
left: a replaced range takes several of them at once. -/
theorem Pending.laid {offset resume : Nat} {cs : List Char} {rs : List Replacement} {anchors : List Anchor}
    (h : Pending offset cs rs anchors) (le : resume ≤ offset) :
    Laid offset cs rs anchors (pieces cs offset resume rs anchors) := by
  induction hn : cs.length using Nat.strongRecOn generalizing cs offset resume rs anchors with
  | ind n ih =>
    subst hn
    -- First without a text inserted at this very boundary.
    have plain : ∀ anchors, Pending offset cs rs anchors → (∀ a ∈ anchors, offset < a.offset) →
        Laid offset cs rs anchors (pieces cs offset resume rs anchors) := by
      intro anchors h later
      cases cs with
      | nil =>
        cases anchors with
        | nil =>
          rw [h.empty]
          exact .done
        | cons a anchors =>
          have := (h.anchored a (by simp)).end
          have := later a (by simp)
          omega
      | cons c cs =>
        refine h.laid_cons le later fun rest offset resume rs short pending le => ?_
        exact ih rest.length (by simp; omega) pending le rfl
    cases anchors with
    | nil => exact plain [] h (by simp)
    | cons a anchors =>
      have after := (List.pairwise_cons.mp h.ascending).1
      by_cases here : a.offset = offset
      · subst here
        rw [pieces_anchored le after]
        exact .anchored after (plain anchors h.tail_anchor after)
      · refine plain _ h fun c member => ?_
        have := (h.anchored a (by simp)).le
        rcases List.mem_cons.mp member with rfl | member
        · omega
        · have := after c member
          omega

theorem Buffer.Consistent.laid {b : Buffer} (valid : b.Consistent) :
    Laid 0 b.source.toList b.replacements b.anchors b.pieces :=
  valid.pending.laid (Nat.le_refl 0)

end SvelteLens.Edit
