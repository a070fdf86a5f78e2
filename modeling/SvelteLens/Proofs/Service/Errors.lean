import SvelteLens.Proofs.Service.Operations

/-! Errors are atomic. Whatever an operation did before it failed with an error is not to be seen
afterwards, except that a changed file may have lost the answers that were kept for it. -/
namespace SvelteLens.Service.Container

variable {env : Surroundings} {c after : Container} {operation : Operation} {e : ServiceError}

theorem refused_effect {α : Type} (effect : Effect env c operation (.error (.error e) : Except Failure α) after) :
    after = c ∨ ∃ p, operation = .fileChanged p .changed ∧ after = c.withOverlay (Overlay.invalidatePath p) := by
  cases effect with
  | refused => exact .inl rfl
  | unread _ changed => exact .inr ⟨_, changed, rfl⟩
  | quiet unrefused | stored unrefused | restored unrefused | deleted unrefused | disposed unrefused =>
    exact absurd ⟨e, rfl⟩ unrefused

/-- An operation that fails with an error leaves the snapshots, the deletions, the clock, the state
and all sessions as they were. At most it forgot kept answers, and those led to a file that it was
told had changed. -/
theorem error_unchanged (failed : operation.action env c = (.error (.error e), after)) :
    ∃ kept, after = c.withOverlay (fun o => { o with resolutions := kept }) ∧ kept.Sublist c.overlay.resolutions ∧
      ∀ r ∈ c.overlay.resolutions, r ∉ kept →
        ∃ p t, operation = .fileChanged p .changed ∧ r.target = some t ∧ t.same p = true := by
  have effect := operation.action_effect env c
  unfold Action.Ends at effect
  rw [failed] at effect
  rcases refused_effect effect with same | ⟨p, changed, same⟩
  · exact ⟨c.overlay.resolutions, same, List.Sublist.refl _, fun r member dropped => absurd member dropped⟩
  · refine ⟨_, same, List.filter_sublist, fun r member dropped => ?_⟩
    have led : r.target.any (·.same p) = true := by
      cases led : r.target.any (·.same p) with
      | true => rfl
      | false => exact absurd (List.mem_filter.mpr ⟨member, by simp [led]⟩) dropped
    obtain ⟨t, target, found⟩ := (Option.any_eq_true _ _).mp led
    exact ⟨p, t, changed, target, found⟩

/-- A script that was read from the disk and imported is gone from the disk when it is said to have
changed. The import is forgotten, and the snapshot stays. -/
theorem error_unchanged_unreadable :
    let before := (Container.ofScope sampleScope).run
      [⟨sampleSurroundings, .openPath ⟨"/a.ts"⟩⟩, ⟨sampleSurroundings, .probe (.resolveModule "./a" ⟨"/b.ts"⟩)⟩]
    let gone : Surroundings := { sampleSurroundings with files := Path.Table.empty }
    let after := before.applied ⟨gone, .fileChanged ⟨"/a.ts"⟩ .changed⟩
    (Operation.fileChanged ⟨"/a.ts"⟩ .changed).action gone before = (.error (.error (.notFound ⟨"/a.ts"⟩)), after) ∧
      before.overlay.resolutions.length = 1 ∧ after.overlay.resolutions = [] ∧
      ∃ kept, after = before.withOverlay (fun o => { o with resolutions := kept }) ∧
        kept.Sublist before.overlay.resolutions ∧
        ∀ r ∈ before.overlay.resolutions, r ∉ kept →
          ∃ p t, Operation.fileChanged ⟨"/a.ts"⟩ .changed = .fileChanged p .changed ∧ r.target = some t ∧
            t.same p = true := by
  intro before gone after
  have failed : (Operation.fileChanged ⟨"/a.ts"⟩ .changed).action gone before =
      (.error (.error (.notFound ⟨"/a.ts"⟩)), after) := by
    have answer : ((Operation.fileChanged ⟨"/a.ts"⟩ .changed).action gone before).1 =
      (.error (.error (.notFound ⟨"/a.ts"⟩))) := by rfl
    exact Prod.ext answer rfl
  exact ⟨failed, by decide +kernel, by decide +kernel, error_unchanged failed⟩

end SvelteLens.Service.Container
