import SvelteLens.Text.Span

/-! Which offsets a span has, and how two spans lie to each other. -/
namespace SvelteLens.Span

def Apart (s t : Span) : Prop := s.stop ≤ t.start ∨ t.stop ≤ s.start

variable {s t : Span} {o : Nat}

theorem contains_iff : s.contains o = true ↔ s.start ≤ o ∧ o < s.stop := by
  simp [contains]

theorem covers_iff : s.covers t = true ↔ s.start ≤ t.start ∧ t.stop ≤ s.stop := by
  simp [covers]

theorem contains_of_covers (h : s.covers t = true) (inside : t.contains o = true) : s.contains o = true := by
  rw [covers_iff] at h
  rw [contains_iff] at inside ⊢
  omega

theorem apart_iff (proper : s.start < s.stop) (proper' : t.start < t.stop) :
    s.Apart t ↔ ∀ o, s.contains o = true → t.contains o = false := by
  unfold Apart
  constructor
  · intro apart o inside
    rw [contains_iff] at inside
    rw [← Bool.not_eq_true, contains_iff]
    omega
  · intro unshared
    -- the later of the two starts is in both spans when they overlap
    have later := unshared (max s.start t.start)
    rw [contains_iff, ← Bool.not_eq_true, contains_iff] at later
    omega

theorem Apart.symm (h : s.Apart t) : t.Apart s := Or.symm h

theorem Apart.not_both (h : s.Apart t) (inS : s.contains o = true) (inT : t.contains o = true) : False := by
  rw [contains_iff] at inS inT
  rcases h with before | after
  · omega
  · omega

end SvelteLens.Span
