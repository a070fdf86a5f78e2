import Mathlib.Data.List.Forall2

/-! Facts about chains of steps that may fail and about lists. -/
namespace SvelteLens

/-- A chain of steps succeeds when each of them does. -/
theorem chain_ok {x : Except ε α} {f : α → Except ε β} {r : β} :
    (x >>= f) = .ok r ↔ ∃ a, x = .ok a ∧ f a = .ok r := by
  cases x <;> simp [bind, Except.bind]

theorem chain_error {x : Except ε α} {f : α → Except ε β} {e : ε} :
    (x >>= f) = .error e ↔ x = .error e ∨ ∃ a, x = .ok a ∧ f a = .error e := by
  cases x <;> simp [bind, Except.bind]

theorem map_eq_ok {x : Except ε α} {f : α → β} {r : β} : x.map f = .ok r ↔ ∃ a, x = .ok a ∧ f a = r := by
  cases x <;> simp [Except.map]

theorem map_eq_error {x : Except ε α} {f : α → β} {e : ε} : x.map f = .error e ↔ x = .error e := by
  cases x <;> simp [Except.map]

theorem ok_of_toOption {x : Except ε α} {a : α} (h : x.toOption = some a) : x = .ok a := by
  cases x <;> simp_all [Except.toOption]

theorem ok_of_any {x : Except ε α} {test : α → Bool} (h : x.toOption.any test = true) :
    ∃ a, x = .ok a ∧ test a = true := by
  obtain ⟨a, found, passes⟩ := (Option.any_eq_true _ _).mp h
  exact ⟨a, ok_of_toOption found, passes⟩

theorem related_of_pairwise {R : α → α → Prop} {xs : List α} {x y : α} (h : xs.Pairwise R) (hx : x ∈ xs)
    (hy : y ∈ xs) : x = y ∨ R x y ∨ R y x :=
  List.Pairwise.forall_of_forall_of_flip (R := fun x y => x = y ∨ R x y ∨ R y x) (fun _ _ => .inl rfl)
    (h.imp fun r => .inr (.inl r)) (h.imp fun r => .inr (.inr r)) hx hy

theorem forall₂_iff_map {R : α → β → Prop} {f : α → β} (functional : ∀ a b, f a = b ↔ R a b) {xs : List α}
    {ys : List β} : List.Forall₂ R xs ys ↔ xs.map f = ys := by
  rw [← List.forall₂_eq_eq_eq, List.forall₂_map_left_iff]
  exact ⟨.imp fun a b => (functional a b).mpr, .imp fun a b => (functional a b).mp⟩

end SvelteLens
