import SvelteLens.Service.Building

/-! How an action runs. It ends with an answer or a failure, and in a state; what holds of both is
shown for a chain of actions from what holds for each of them. -/
namespace SvelteLens.Service

/-- The failure that a caller is told of. A fault is none. -/
def Refused {α : Type} (answer : Except Failure α) : Prop := ∃ e, answer = .error (.error e)

namespace Action

variable {σ α β : Type} {s : σ} {P : Except Failure β → σ → Prop}

/-- What an action comes to, when it starts from a state. -/
def Ends (P : Except Failure α → σ → Prop) (x : Action σ α) (s : σ) : Prop := P (x s).1 (x s).2

theorem Ends.imp {Q : Except Failure β → σ → Prop} {x : Action σ β} (h : Ends P x s)
    (step : ∀ answer state, P answer state → Q answer state) : Ends Q x s := step _ _ h

theorem Ends.of_run {x : Action σ β} {answer : Except Failure β} {m : σ} (h : Ends P x s) (run : x s = (answer, m)) :
    P answer m := by
  rwa [Ends, run] at h

theorem bind_ok {x : Action σ α} {f : α → Action σ β} {a : α} {m : σ} (h : x s = (.ok a, m)) :
    (x >>= f) s = f a m := by
  simp only [bind, ExceptT.bind, ExceptT.mk, StateT.bind, h]
  rfl

theorem bind_error {x : Action σ α} {f : α → Action σ β} {failure : Failure} {m : σ}
    (h : x s = (.error failure, m)) : (x >>= f) s = (.error failure, m) := by
  simp only [bind, ExceptT.bind, ExceptT.mk, StateT.bind, h]
  rfl

theorem discard_state (x : Action σ α) (s : σ) : ((x >>= fun _ => pure ()) s).2 = (x s).2 := by
  cases run : x s with
  | mk answer m =>
    cases answer with
    | ok a =>
      rw [bind_ok run]
      rfl
    | error failure => rw [bind_error run]

/-- A chain ends where its second action ends, or where the first one failed. -/
theorem Ends.bind {Q : Except Failure α → σ → Prop} {x : Action σ α} {f : α → Action σ β}
    (first : Ends Q x s) (failed : ∀ failure m, Q (.error failure) m → P (.error failure) m)
    (next : ∀ a m, Q (.ok a) m → Ends P (f a) m) : Ends P (x >>= f) s := by
  cases run : x s with
  | mk answer m =>
    have found := first.of_run run
    cases answer with
    | ok a =>
      have ends := next a m found
      simpa only [Ends, bind_ok run] using ends
    | error failure => simpa only [Ends, bind_error run] using failed failure m found

theorem Ends.pure {a : β} (h : P (.ok a) s) : Ends P (pure a) s := h

theorem Ends.throw {failure : Failure} (h : P (.error failure) s) : Ends P (throw failure) s := h

theorem Ends.get_bind {f : σ → Action σ β} (h : Ends P (f s) s) : Ends P (get >>= f) s := h

theorem Ends.set_bind {m : σ} {f : PUnit → Action σ β} (h : Ends P (f ⟨⟩) m) : Ends P (set m >>= f) s := h

theorem Ends.modify_bind {g : σ → σ} {f : PUnit → Action σ β} (h : Ends P (f ⟨⟩) (g s)) :
    Ends P (modify g >>= f) s := h

end Action
end SvelteLens.Service
