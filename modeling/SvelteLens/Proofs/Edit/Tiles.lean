import SvelteLens.Proofs.Basics
import SvelteLens.Proofs.Text.Spans

/-! Spans that follow each other without gap or overlap. -/
namespace SvelteLens

/-- The spans run from `start` to `stop`, and none is empty. -/
def Tiles : Nat → List Span → Nat → Prop
  | start, [], stop => start = stop
  | start, s :: rest, stop => s.start = start ∧ start < s.stop ∧ Tiles s.stop rest stop

namespace Tiles

variable {start stop : Nat} {spans : List Span}

theorem le (h : Tiles start spans stop) : start ≤ stop := by
  induction spans generalizing start with
  | nil => exact Nat.le_of_eq h
  | cons s rest ih =>
    have := ih h.2.2
    have := h.2.1
    omega

theorem bounds (h : Tiles start spans stop) {s : Span} (member : s ∈ spans) :
    start ≤ s.start ∧ s.start < s.stop ∧ s.stop ≤ stop := by
  induction spans generalizing start with
  | nil => simp at member
  | cons t rest ih =>
    obtain ⟨first, pos, tail⟩ := h
    rcases List.mem_cons.mp member with rfl | member
    · have := tail.le
      omega
    · have := ih tail member
      omega

theorem ordered (h : Tiles start spans stop) : spans.Pairwise fun s t => s.stop ≤ t.start := by
  induction spans generalizing start with
  | nil => exact .nil
  | cons s rest ih => exact List.pairwise_cons.mpr ⟨fun t member => (h.2.2.bounds member).1, ih h.2.2⟩

theorem covers (h : Tiles start spans stop) {n : Nat} (lower : start ≤ n) (upper : n < stop) :
    ∃ s ∈ spans, s.contains n = true := by
  induction spans generalizing start with
  | nil =>
    have : start = stop := h
    omega
  | cons s rest ih =>
    obtain ⟨first, _, tail⟩ := h
    by_cases inside : n < s.stop
    · exact ⟨s, by simp, by simp [Span.contains]; omega⟩
    · obtain ⟨t, member, contains⟩ := ih tail (by omega)
      exact ⟨t, by simp [member], contains⟩

end Tiles

/-- Of things whose spans do not overlap at most one has a given offset in its span. -/
theorem unique_of_ordered {f : α → Option Span} {xs : List α}
    (ordered : (xs.filterMap f).Pairwise fun s t => s.stop ≤ t.start) {x y : α} {s t : Span} {n : Nat}
    (hx : x ∈ xs) (hy : y ∈ xs) (fx : f x = some s) (fy : f y = some t) (inS : s.contains n = true)
    (inT : t.contains n = true) : x = y := by
  rw [Span.contains_iff] at inS inT
  rw [List.pairwise_filterMap] at ordered
  rcases related_of_pairwise ordered hx hy with same | before | after
  · exact same
  · have := before s fx t fy
    omega
  · have := after t fy s fx
    omega

theorem countP_contains {spans : List Span} (ordered : spans.Pairwise fun s t => s.stop ≤ t.start) (n : Nat) :
    spans.countP (·.contains n) = if spans.any (·.contains n) then 1 else 0 := by
  induction ordered with
  | nil => rfl
  | @cons s rest after _ ih =>
    rw [List.countP_cons, ih]
    by_cases here : s.contains n = true
    · have alone : rest.any (·.contains n) = false := by
        rw [List.any_eq_false]
        intro t member
        have := after t member
        rw [Span.contains_iff] at here ⊢
        omega
      simp [here, alone]
    · simp [here]

end SvelteLens
