/-! Binary search for the point where a predicate turns from true to false. -/
namespace SvelteLens.Text

/-- Searches `[lo, hi)` for the first index where `p` fails, halving the range at each step. -/
def partitionFrom (p : Nat → Bool) (lo hi : Nat) : Nat :=
  if h : lo < hi then
    let middle := lo + (hi - lo) / 2
    if p middle then partitionFrom p (middle + 1) hi else partitionFrom p lo middle
  else lo
termination_by hi - lo
decreasing_by all_goals omega

/-- The number of leading elements that satisfy `p`, for an array that `p` partitions. -/
def partitionPoint (p : α → Bool) (xs : Array α) : Nat :=
  partitionFrom (fun i => (xs[i]?).any p) 0 xs.size

theorem partitionFrom_le (p : Nat → Bool) {lo hi : Nat} (h : lo ≤ hi) : partitionFrom p lo hi ≤ hi := by
  fun_induction partitionFrom p lo hi with
  | case1 lo hi h middle hp ih =>
    have : middle = lo + (hi - lo) / 2 := rfl
    exact ih (by omega)
  | case2 lo hi h middle hp ih =>
    have : middle = lo + (hi - lo) / 2 := rfl
    exact Nat.le_trans (ih (by omega)) (by omega)
  | case3 => exact h

/-- For a predicate that never turns back to true the search returns the turning point. -/
theorem partitionFrom_spec (p : Nat → Bool) (lo hi : Nat) (le : lo ≤ hi)
    (mono : ∀ i j, lo ≤ i → i ≤ j → j < hi → p j = true → p i = true) :
    (∀ i, lo ≤ i → i < partitionFrom p lo hi → p i = true) ∧
    (∀ i, partitionFrom p lo hi ≤ i → i < hi → p i = false) := by
  fun_induction partitionFrom p lo hi with
  | case1 lo hi h middle hp ih =>
    have around : middle = lo + (hi - lo) / 2 := rfl
    obtain ⟨below, above⟩ := ih (by omega) (fun i j a b c d => mono i j (by omega) b c d)
    refine ⟨fun i a b => ?_, above⟩
    by_cases hi' : i ≤ middle
    · exact mono i middle a hi' (by omega) hp
    · exact below i (by omega) b
  | case2 lo hi h middle hp ih =>
    have around : middle = lo + (hi - lo) / 2 := rfl
    obtain ⟨below, above⟩ := ih (by omega) (fun i j a b c d => mono i j a b (by omega) d)
    refine ⟨below, fun i a b => ?_⟩
    by_cases hi' : i < middle
    · exact above i a hi'
    · cases hpi : p i
      · rfl
      · exact absurd (mono middle i (by omega) (by omega) b hpi) hp
  | case3 lo hi h =>
    exact ⟨fun i a b => by omega, fun i a b => by omega⟩

/-- The partition point is `k` when exactly the first `k` elements satisfy the predicate. -/
theorem partitionPoint_eq {p : α → Bool} {xs : Array α} {k : Nat} (le : k ≤ xs.size)
    (holds : ∀ i (h : i < xs.size), p xs[i] = true ↔ i < k) : partitionPoint p xs = k := by
  have value : ∀ i, i < xs.size → ((xs[i]?).any p = true ↔ i < k) := by
    intro i h
    rw [Array.getElem?_eq_getElem h, Option.any_some, holds i h]
  obtain ⟨below, above⟩ := partitionFrom_spec (fun i => (xs[i]?).any p) 0 xs.size (Nat.zero_le _)
    (fun i j _ le h hj => (value i (by omega)).mpr (by have := (value j h).mp hj; omega))
  have bound := partitionFrom_le (fun i => (xs[i]?).any p) (Nat.zero_le xs.size)
  unfold partitionPoint
  rcases Nat.lt_trichotomy (partitionFrom (fun i => (xs[i]?).any p) 0 xs.size) k with lt | same | gt
  · have inside := (value _ (by omega)).mpr lt
    have outside := above _ (Nat.le_refl _) (by omega)
    simp_all
  · exact same
  · have := (value k (by omega)).mp (below k (Nat.zero_le _) gt)
    omega

end SvelteLens.Text
