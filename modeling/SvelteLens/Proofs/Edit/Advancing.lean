import SvelteLens.Proofs.Edit.Acceptance

/-! Plans that go from left to right. Such a plan keeps to boundaries, and each of its commands starts
where the one before it ended or later, so none of them can be in the way of another. -/
namespace SvelteLens.Edit

variable {ν : Type}

/-- A plan that goes from left to right between two offsets of a text. -/
structure Plan.Advances (text : List Char) (lo : Nat) (plan : Plan ν) (hi : Nat) : Prop where
  order : lo ≤ hi
  faultless : Step.fault ∉ plan
  valid : ∀ c ∈ plan.commands, c.Valid text
  inside : ∀ c ∈ plan.commands, lo ≤ c.reach.start ∧ c.reach.stop ≤ hi
  ascending : plan.commands.Pairwise fun c d => c.reach.stop ≤ d.reach.start

/-- A plan that can be made as a whole: no fault, valid commands, and no command in the way of another. -/
structure Plan.Sound (text : List Char) (plan : Plan ν) : Prop where
  faultless : Step.fault ∉ plan
  valid : ∀ c ∈ plan.commands, c.Valid text
  apart : plan.commands.Pairwise fun c d => c.reach.Apart d.reach

namespace Plan.Advances

variable {text : List Char} {lo mid mid' hi lo' hi' : Nat} {plan more : Plan ν}

theorem nil (order : lo ≤ hi) : Advances text lo ([] : Plan ν) hi := ⟨order, nofun, nofun, nofun, .nil⟩

theorem append (h : Advances text lo plan mid) (gap : mid ≤ mid') (k : Advances text mid' more hi) :
    Advances text lo (plan ++ more) hi where
  order := Nat.le_trans h.order (Nat.le_trans gap k.order)
  faultless member := (List.mem_append.mp member).elim h.faultless k.faultless
  valid c member := by
    rw [commands_append] at member
    exact (List.mem_append.mp member).elim (h.valid c) (k.valid c)
  inside c member := by
    rw [commands_append] at member
    have first := h.order
    have second := k.order
    rcases List.mem_append.mp member with before | after
    · have := h.inside c before
      omega
    · have := k.inside c after
      omega
  ascending := by
    rw [commands_append]
    refine List.pairwise_append.mpr ⟨h.ascending, k.ascending, fun c before d after => ?_⟩
    have := h.inside c before
    have := k.inside d after
    omega

theorem wider (h : Advances text lo plan hi) (lower : lo' ≤ lo) (upper : hi ≤ hi') : Advances text lo' plan hi' where
  order := Nat.le_trans lower (Nat.le_trans h.order upper)
  faultless := h.faultless
  valid := h.valid
  inside c member := ⟨Nat.le_trans lower (h.inside c member).1, Nat.le_trans (h.inside c member).2 upper⟩
  ascending := h.ascending

theorem note (h : Advances text lo plan hi) (value : ν) : Advances text lo (.note value :: plan) hi where
  order := h.order
  faultless member := h.faultless (by simpa using member)
  valid := h.valid
  inside := h.inside
  ascending := h.ascending

theorem command {c : Command} (valid : c.Valid text) :
    Advances text c.reach.start ([.edit c] : Plan ν) c.reach.stop where
  order := valid.order
  faultless member := nomatch List.mem_singleton.mp member
  valid d member := by
    obtain rfl : d = c := List.mem_singleton.mp member
    exact valid
  inside d member := by
    obtain rfl : d = c := List.mem_singleton.mp member
    exact ⟨Nat.le_refl _, Nat.le_refl _⟩
  ascending := List.pairwise_singleton _ c

theorem sound (h : Advances text lo plan hi) : Sound text plan := ⟨h.faultless, h.valid, h.ascending.imp .inl⟩

theorem covered (h : Advances text lo plan hi) {span : Span} (lower : span.start ≤ lo) (upper : hi ≤ span.stop)
    {c : Command} (member : c ∈ plan.commands) : span.covers c.reach = true := by
  obtain ⟨first, last⟩ := h.inside c member
  exact Span.covers_iff.mpr ⟨Nat.le_trans lower first, Nat.le_trans last upper⟩

end Plan.Advances
end SvelteLens.Edit
