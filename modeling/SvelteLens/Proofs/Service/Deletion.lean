import SvelteLens.Proofs.Service.Demand
import SvelteLens.Proofs.Service.Operations

/-! A deleted path is gone. From its deletion on, no channel of a service shows the path, whatever
the disk holds and whatever is asked, until a snapshot is asked for under that path and stored, the
deletion is lifted, or the service is disposed. -/
namespace SvelteLens.Service

open SvelteLens.Service.Action (Ends)

namespace Container

variable {env : Surroundings} {c after : Container} {p q : Path} {s : Snapshot}

/-- What hides a path: its deletion is recorded, and neither a snapshot nor a kept answer of the resolver
is left of it. -/
structure Hidden (p : Path) (c : Container) : Prop where
  absent : c.snapshot? p = none
  deleted : c.overlay.snapshots.isDeleted p = true
  unkept : ∀ r ∈ c.overlay.resolutions, ∀ t, r.target = some t → t.same p = false

theorem Hidden.congr (hidden : Hidden p c) (same : q.same p = true) : Hidden q c where
  absent := (SnapshotTable.get?_congr same _).trans hidden.absent
  deleted := (SnapshotTable.isDeleted_congr same _).trans hidden.deleted
  unkept r kept t target := by
    rw [Path.same_comm, Path.same_trans same, Path.same_comm]
    exact hidden.unkept r kept t target

/-- Whatever is deleted is hidden, by whatever name it is deleted. -/
theorem delete_hidden (c : Container) (same : q.same p = true) : Hidden p (c.delete q) where
  absent := by
    change (c.overlay.snapshots.delete q).get? p = none
    rw [SnapshotTable.get?_delete, if_pos same]
  deleted := by
    change (c.overlay.snapshots.delete q).isDeleted p = true
    rw [SnapshotTable.isDeleted_delete, same, Bool.true_or]
  unkept r kept t target := by
    have kept := (List.mem_filter.mp kept).2
    simp only [target, Option.any_some, Bool.not_eq_true'] at kept
    rw [Path.same_comm, ← Path.same_trans same, Path.same_comm]
    exact kept

theorem Hidden.delete (hidden : Hidden p c) (q : Path) : Hidden p (c.delete q) where
  absent := by
    change (c.overlay.snapshots.delete q).get? p = none
    rw [SnapshotTable.get?_delete]
    split
    · rfl
    · exact hidden.absent
  deleted := by
    change (c.overlay.snapshots.delete q).isDeleted p = true
    rw [SnapshotTable.isDeleted_delete]
    exact Bool.or_eq_true_iff.mpr (.inr hidden.deleted)
  unkept r kept := hidden.unkept r (List.mem_filter.mp kept).1

section Keeping

variable (unbundled : ∀ file ∈ Ambient.paths, p.same file = false)

include unbundled in
theorem text?_of_same (same : q.same p = true) : Ambient.text? q = none := by
  cases served : Ambient.text? q with
  | none => rfl
  | some text =>
    obtain ⟨file, listed, found⟩ := Ambient.same_of_text? served
    rw [Path.same_trans same, unbundled file listed] at found
    cases found

include unbundled in
theorem Hidden.quiet (hidden : Hidden p c) (quiet : Quiet env c after) : Hidden p after := by
  cases quiet with
  | looked look =>
    refine ⟨look.absent hidden.deleted hidden.absent, look.isDeleted.trans hidden.deleted, ?_⟩
    cases look with
    | built => exact hidden.unkept
    | @resolved specifier directory target missed visible =>
      intro r kept t found
      rcases List.mem_cons.mp kept with rfl | kept
      · cases same : t.same p with
        | false => rfl
        | true =>
          rcases visible t found with served | held | shown
          · rw [text?_of_same unbundled same] at served
            cases served
          · have absent := (hidden.congr same).absent
            exact absurd held (by simpa [Container.snapshot?] using absent)
          · rw [(hidden.congr same).deleted] at shown
            cases shown
      · exact hidden.unkept r kept t found
  | called => exact ⟨hidden.absent, hidden.deleted, hidden.unkept⟩
  | forgot => exact ⟨hidden.absent, hidden.deleted, fun r kept => hidden.unkept r (List.mem_filter.mp kept).1⟩
  | retried => exact ⟨hidden.absent, hidden.deleted, fun r kept => hidden.unkept r (List.mem_filter.mp kept).1⟩

include unbundled in
theorem Hidden.quiets (hidden : Hidden p c) (quiets : Quiets env c after) : Hidden p after := by
  induction quiets with
  | refl => exact hidden
  | tail _ quiet ih => exact ih.quiet unbundled quiet

end Keeping

theorem Hidden.store (hidden : Hidden p c) (other : s.path.same p = false) : Hidden p (c.store s) where
  absent := by
    rw [snapshot?_store, other]
    exact hidden.absent
  deleted := by
    have kept : (c.overlay.snapshots.set s).isDeleted p = true := by
      rw [SnapshotTable.isDeleted_set, hidden.deleted, other]
      rfl
    unfold Container.store
    split
    · split <;> exact kept
    · exact kept
  unkept r kept := by
    unfold Container.store at kept
    split at kept
    · split at kept <;> exact hidden.unkept r kept
    · exact hidden.unkept r (List.mem_filter.mp kept).1

theorem Hidden.restore (hidden : Hidden p c) (other : q.same p = false) : Hidden p (c.restore q) where
  absent := hidden.absent
  deleted := by
    change (c.overlay.snapshots.restore q).isDeleted p = true
    rw [SnapshotTable.isDeleted_restore, hidden.deleted, other]
    rfl
  unkept r kept := hidden.unkept r (List.mem_filter.mp kept).1

/-- The path whose snapshot an operation asks for or sends. -/
def Operation.opened? : Operation → Option Path
  | .openDocument file => some file.path
  | operation => operation.asked?

namespace Call

/-- A call that deletes a path, under any of its names. A disposed service takes no changes in. -/
def Deletes (call : Call) (p : Path) (c : Container) : Prop :=
  ∃ q, q.same p = true ∧
    (call.operation = .delete q ∨ call.operation = .fileChanged q .deleted ∧ c.disposed = false)

/-- A call that ends the hiding of a path: it opens the path and a snapshot is there for it, or the
path is created, or the service is disposed. -/
def Reveals (call : Call) (p : Path) (c : Container) : Prop :=
  (∃ q, q.same p = true ∧ call.operation.opened? = some q ∧ ((c.applied call).snapshot? p).isSome) ∨
    (∃ q, q.same p = true ∧ call.operation = .fileChanged q .created ∧ c.disposed = false) ∨
    call.operation = .dispose

end Call

/-- No call of a run ends the hiding of a path. -/
def Unrevealed (p : Path) : Container → List Call → Prop
  | _, [] => True
  | c, call :: rest => ¬call.Reveals p c ∧ Unrevealed p (c.applied call) rest

theorem Hidden.stores {operation : Operation} (hidden : Hidden p c) (cause : operation.Stores c s)
    (same : s.path.same p = true) : operation.opened? = some s.path := by
  cases cause with
  | asked asks =>
    cases operation with
    | openDocument file => cases asks
    | _ => exact asks
  | edited path => exact congrArg some path.symm
  | reread path found =>
    subst path
    have absent := (hidden.congr same).absent
    rw [found] at absent
    cases absent

/-- What one call preserves: a hidden path stays hidden unless the call reveals it. -/
theorem Hidden.applied (unbundled : ∀ file ∈ Ambient.paths, p.same file = false) (hidden : Hidden p c)
    {call : Call} (unrevealing : ¬call.Reveals p c) : Hidden p (c.applied call) := by
  have effect := c.applied_effect call
  generalize made : c.applied call = after at effect
  generalize (call.operation.action call.surroundings c).1 = answer at effect
  cases effect with
  | refused => exact hidden
  | @unread e q changed =>
    have forgot : Quiet call.surroundings c (c.withOverlay (Overlay.invalidatePath q)) := .forgot q
    exact hidden.quiet unbundled forgot
  | quiet unrefused changes => exact hidden.quiets unbundled changes
  | @stored _ _ s file unrefused live cause built changes =>
    cases same : s.path.same p with
    | false => exact (hidden.store same).quiets unbundled changes
    | true =>
      exfalso
      apply unrevealing
      refine .inl ⟨s.path, same, hidden.stores cause same, ?_⟩
      have held : (c.store s).snapshot? p = some s := by rw [snapshot?_store, if_pos same]
      rw [made, changes.keeps held]
      rfl
  | @restored _ q unrefused live created =>
    cases same : q.same p with
    | false => exact hidden.restore same
    | true => exact absurd (.inr (.inl ⟨q, same, created, live⟩)) unrevealing
  | deleted => exact hidden.delete _
  | disposed unrefused disposes => exact absurd (.inr (.inr disposes)) unrevealing

theorem Hidden.run (unbundled : ∀ file ∈ Ambient.paths, p.same file = false) {calls : List Call}
    (hidden : Hidden p c) (unrevealed : Unrevealed p c calls) : Hidden p (c.run calls) := by
  induction calls generalizing c with
  | nil => exact hidden
  | cons call rest ih => exact ih (hidden.applied unbundled unrevealed.1) unrevealed.2

theorem Call.Deletes.hidden {call : Call} (deletes : call.Deletes p c) : Hidden p (c.applied call) := by
  obtain ⟨q, same, deletes | ⟨deletes, live⟩⟩ := deletes
  · have after : c.applied call = c.delete q := by
      rw [Container.applied, deletes]
      rfl
    exact after ▸ delete_hidden c same
  · have after : c.applied call = c.delete q := by
      have told : Ends (fun _ after => after = c.delete q) (fileChanged call.surroundings q .deleted) c :=
        requireLive_passed live rfl
      rw [Container.applied, deletes]
      exact told
    exact after ▸ delete_hidden c same

/-- Every channel through which a path can be seen, and none of them shows it. -/
structure Unseen (p : Path) (c : Container) : Prop where
  snapshot : c.snapshot? p = none
  shown : ∀ env, (Overlay.snapshot env p c.overlay).1 = .ok none
  missing : ∀ env, (Overlay.fileExists env p c.overlay).1 = .ok false
  text : ∀ env, (Overlay.shownText env p c.overlay).1 = .ok none
  version : ∀ env, (Overlay.scriptVersion env p c.overlay).1 = .ok none
  undeclared : p.isIn c.overlay.snapshots.projectFiles = false
  unlisted : p.isIn c.overlay.snapshots.files = false
  unresolved : ∀ env specifier importer t,
    (Overlay.resolveModule env specifier importer c.overlay).1 = .ok (some t) → t.same p = false

theorem Hidden.offer (hidden : Hidden p c) (env : Surroundings) : c.overlay.offer env p = .ok none := by
  have absent : c.overlay.snapshots.get? p = none := hidden.absent
  rw [Overlay.offer, absent]
  simp [Overlay.demand, hidden.deleted]

theorem Hidden.unseen (unbundled : ∀ file ∈ Ambient.paths, p.same file = false) (hidden : Hidden p c) : Unseen p c where
  snapshot := hidden.absent
  shown env := by rw [Overlay.snapshot_answer, hidden.offer]
  missing env := by
    rw [Overlay.fileExists_answer (text?_of_same unbundled (Path.same_iff.mpr rfl)), hidden.offer]
    simp [Except.map, Overlay.readsDisk, hidden.deleted]
  text env := by
    rw [Overlay.shownText_answer (text?_of_same unbundled (Path.same_iff.mpr rfl)), hidden.offer]
    simp [Except.map, Overlay.readsDisk, hidden.deleted]
  version env := by
    rw [Overlay.scriptVersion_answer, hidden.offer]
    rfl
  undeclared := by rw [SnapshotTable.isIn_projectFiles, hidden.deleted, Bool.not_true, Bool.and_false]
  unlisted := by
    have absent : c.overlay.snapshots.get? p = none := hidden.absent
    rw [SnapshotTable.isIn_files, SnapshotTable.isIn_projectFiles, hidden.deleted, absent]
    simp
  unresolved env specifier importer t found := by
    obtain ⟨looked, kept⟩ := Overlay.resolveModule_ends env specifier importer c.overlay
    obtain ⟨r, member, target⟩ := kept t found
    exact (hidden.quiets unbundled (looks_quiets looked.looks)).unkept r member t target

/-- From the deletion of a path on, through every run that does not reveal it, the path is unseen
under each of its names. -/
theorem unseen_after_deletion (unbundled : ∀ file ∈ Ambient.paths, p.same file = false) (c : Container) {deletion : Call}
    (deletes : deletion.Deletes p c) {calls : List Call} (unrevealed : Unrevealed p (c.applied deletion) calls)
    (same : q.same p = true) : Unseen q ((c.applied deletion).run calls) := by
  have hidden := (deletes.hidden.run unbundled unrevealed).congr same
  refine hidden.unseen fun file listed => ?_
  rw [Path.same_trans same]
  exact unbundled file listed

/-- A declared script that is still on the disk, looked for under other names after its deletion. -/
theorem unseen_after_deletion_declared :
    let before := (Container.ofScope sampleScope).applied ⟨sampleSurroundings, .openPath ⟨"/a.ts"⟩⟩
    let deletion : Call := ⟨sampleSurroundings, .fileChanged ⟨"/./a.ts"⟩ .deleted⟩
    let calls : List Call := [⟨sampleSurroundings, .probe (.resolveModule "./a" ⟨"/b.ts"⟩)⟩,
      ⟨sampleSurroundings, .fileChanged ⟨"/a.ts"⟩ .changed⟩]
    (∀ file ∈ Ambient.paths, Path.same ⟨"/a.ts"⟩ file = false) ∧ deletion.Deletes ⟨"/a.ts"⟩ before ∧
      Unrevealed ⟨"/a.ts"⟩ (before.applied deletion) calls ∧ Path.same ⟨"//a.ts"⟩ ⟨"/a.ts"⟩ = true ∧
      Unseen ⟨"//a.ts"⟩ ((before.applied deletion).run calls) := by
  intro before deletion calls
  have unbundled : ∀ file ∈ Ambient.paths, Path.same ⟨"/a.ts"⟩ file = false := by decide +kernel
  have deletes : deletion.Deletes ⟨"/a.ts"⟩ before :=
    ⟨⟨"/./a.ts"⟩, by decide +kernel, .inr ⟨rfl, by decide +kernel⟩⟩
  have unrevealed : Unrevealed ⟨"/a.ts"⟩ (before.applied deletion) calls := by
    refine ⟨?_, ?_, trivial⟩
    all_goals
      rintro (⟨_, _, opened, _⟩ | ⟨_, _, created, _⟩ | disposed)
      · cases opened
      · cases created
      · cases disposed
  have same : Path.same ⟨"//a.ts"⟩ ⟨"/a.ts"⟩ = true := by decide +kernel
  exact ⟨unbundled, deletes, unrevealed, same, unseen_after_deletion unbundled before deletes unrevealed same⟩

end Container
end SvelteLens.Service
