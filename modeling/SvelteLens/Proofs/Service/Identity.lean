import SvelteLens.Proofs.Service.Sessions

/-! The identity of snapshots. An operation on one path leaves the snapshots of all others as they
are, asking again for what is held already gives the very snapshot that is held, and an editor's
snapshot gives way to nothing but another version from the editor or the deletion of its path. -/
namespace SvelteLens.Service.Container

open SvelteLens.Service.Action (Ends)

variable {env : Surroundings} {c m after : Container} {operation : Operation} {p q : Path} {s : Snapshot}

/-- The stamps of the current snapshots: all of them were given out, and no two paths have one. -/
structure Stamped (c : Container) : Prop where
  below : ∀ p s, c.snapshot? p = some s → s.stamp < c.overlay.clock
  apart : ∀ p q s t, c.snapshot? p = some s → c.snapshot? q = some t → s.stamp = t.stamp → p.same q = true

/-- Whatever is current afterwards and was not so before has a stamp that was not given out before. -/
structure Advances (c after : Container) : Prop where
  clock : c.overlay.clock ≤ after.overlay.clock
  renewed : ∀ p s, after.snapshot? p = some s → c.snapshot? p = some s ∨ c.overlay.clock ≤ s.stamp

theorem Advances.trans (first : Advances c m) (second : Advances m after) : Advances c after where
  clock := Nat.le_trans first.clock second.clock
  renewed p s now := by
    rcases second.renewed p s now with before | new
    · exact first.renewed p s before
    · exact .inr (Nat.le_trans first.clock new)

/-- One more snapshot is current, under the next stamp. -/
structure Added (c after : Container) (s : Snapshot) : Prop where
  stamp : s.stamp = c.overlay.clock
  clock : after.overlay.clock = c.overlay.clock + 1
  snapshots : ∀ q, after.snapshot? q = if s.path.same q then some s else c.snapshot? q

theorem Added.advances (added : Added c after s) : Advances c after where
  clock := by rw [added.clock]; exact Nat.le_succ _
  renewed p t now := by
    rw [added.snapshots] at now
    split at now
    · cases now
      exact .inr (Nat.le_of_eq added.stamp.symm)
    · exact .inl now

theorem Added.stamped (added : Added c after s) (stamped : Stamped c) : Stamped after where
  below p t now := by
    rw [added.snapshots] at now
    rw [added.clock]
    split at now
    · cases now
      rw [added.stamp]
      exact Nat.lt_succ_self _
    · exact Nat.lt_succ_of_lt (stamped.below p t now)
  apart p q t u here there same := by
    rw [added.snapshots] at here there
    split at here <;> split at there
    · next own own' => exact (Path.same_trans own q).symm.trans own'
    · cases here
      have older := stamped.below q u there
      rw [← same, added.stamp] at older
      exact absurd older (Nat.lt_irrefl _)
    · cases there
      have older := stamped.below p t here
      rw [same, added.stamp] at older
      exact absurd older (Nat.lt_irrefl _)
    · exact stamped.apart p q t u here there same

structure Fewer (c after : Container) : Prop where
  clock : after.overlay.clock = c.overlay.clock
  snapshots : ∀ p s, after.snapshot? p = some s → c.snapshot? p = some s

theorem Fewer.of_eq (clock : after.overlay.clock = c.overlay.clock) (same : ∀ p, after.snapshot? p = c.snapshot? p) :
    Fewer c after :=
  ⟨clock, fun p _ now => (same p).symm.trans now⟩

theorem Fewer.advances (fewer : Fewer c after) : Advances c after :=
  ⟨Nat.le_of_eq fewer.clock.symm, fun p s now => .inl (fewer.snapshots p s now)⟩

theorem Fewer.stamped (fewer : Fewer c after) (stamped : Stamped c) : Stamped after where
  below p s now := fewer.clock ▸ stamped.below p s (fewer.snapshots p s now)
  apart p q s t here there := stamped.apart p q s t (fewer.snapshots p s here) (fewer.snapshots q t there)

theorem store_added (built : s.stamp = c.overlay.clock) : Added c (c.store s) s where
  stamp := built
  clock := by
    unfold store
    split
    · split <;> rfl
    · rfl
  snapshots q := snapshot?_store s c q

theorem delete_fewer (p : Path) (c : Container) : Fewer c (c.delete p) where
  clock := rfl
  snapshots q s now := by
    have now : (c.overlay.snapshots.delete p).get? q = some s := now
    rw [SnapshotTable.get?_delete] at now
    split at now
    · cases now
    · exact now

theorem dispose_fewer (c : Container) : Fewer c c.dispose := by
  unfold dispose
  split
  · exact .of_eq rfl fun _ => rfl
  · exact ⟨rfl, nofun⟩

theorem Quiet.cases_snapshots (quiet : Quiet env c after) :
    (after.overlay.clock = c.overlay.clock ∧ ∀ q, after.snapshot? q = c.snapshot? q) ∨
      ∃ s file, Added c after s ∧ c.snapshot? s.path = none ∧ env.open? s.path = some file ∧ s.provenance = .disk := by
  cases quiet with
  | looked look =>
    cases look with
    | @built s file opened absent shown built =>
      obtain ⟨stamp, -, -, origin⟩ := Surroundings.build_ok built
      exact .inr ⟨s, file, ⟨stamp, rfl, SnapshotTable.get?_insertIfAbsent absent shown⟩, absent, opened, origin⟩
    | resolved => exact .inl ⟨rfl, fun _ => rfl⟩
  | called => exact .inl ⟨rfl, fun _ => rfl⟩
  | forgot => exact .inl ⟨rfl, fun _ => rfl⟩
  | retried => exact .inl ⟨rfl, fun _ => rfl⟩

theorem Quiets.advances (quiets : Quiets env c after) : Advances c after := by
  induction quiets with
  | refl => exact (Fewer.of_eq rfl fun _ => rfl).advances
  | tail _ quiet ih =>
    refine ih.trans ?_
    rcases quiet.cases_snapshots with ⟨clock, same⟩ | ⟨s, file, added, -⟩
    · exact (Fewer.of_eq clock same).advances
    · exact added.advances

theorem Quiets.stamped (quiets : Quiets env c after) (stamped : Stamped c) : Stamped after := by
  induction quiets with
  | refl => exact stamped
  | tail _ quiet ih =>
    rcases quiet.cases_snapshots with ⟨clock, same⟩ | ⟨s, file, added, -⟩
    · exact (Fewer.of_eq clock same).stamped ih
    · exact added.stamped ih

/-- A path that an operation is not about: its snapshot stays, or it had none and one was built from the
disk. -/
inductive Continues (env : Surroundings) (c after : Container) (q : Path) : Prop where
  | held (same : after.snapshot? q = c.snapshot? q)
  | built {s : Snapshot} {file : SourceFile} (absent : c.snapshot? q = none) (now : after.snapshot? q = some s)
      (named : s.path.same q = true) (opened : env.open? s.path = some file) (origin : s.provenance = .disk)

theorem Quiets.continues (quiets : Quiets env c after) (q : Path) : Continues env c after q := by
  induction quiets with
  | refl => exact .held rfl
  | tail _ quiet ih =>
    cases ih with
    | built absent now named opened origin => exact .built absent (quiet.keeps now) named opened origin
    | held same =>
      rcases quiet.cases_snapshots with ⟨-, later⟩ | ⟨s, file, added, absent, opened, origin⟩
      · exact .held ((later q).trans same)
      · cases named : s.path.same q with
        | false => exact .held (by rw [added.snapshots, named]; exact same)
        | true =>
          have absent := same.symm.trans ((SnapshotTable.get?_congr named _).symm.trans absent)
          exact .built absent (by rw [added.snapshots, if_pos named]) named opened origin

/-- The path that an operation is about. The engine's questions and what is done to the kept answers
are about none. -/
def Operation.subject? : Operation → Option Path
  | .openPath p | .fileChanged p _ | .diagnostics _ p | .completions _ p _ | .definition _ p _ | .delete p => some p
  | .openDocument file => some file.path
  | .dispose | .probe _ | .invalidatePath _ | .invalidateUnresolved _ => none

theorem Operation.Stores.subject (cause : operation.Stores c s) : operation.subject? = some s.path := by
  cases cause with
  | asked asks => cases operation <;> cases asks <;> rfl
  | edited path => exact congrArg some path.symm
  | reread path => exact congrArg some path.symm

/-- Every operation but a disposal goes past the paths that it is not about. -/
theorem applied_continues {call : Call} (undisposing : call.operation ≠ .dispose)
    (other : ∀ p, call.operation.subject? = some p → p.same q = false) :
    Continues call.surroundings c (c.applied call) q := by
  have effect := c.applied_effect call
  generalize c.applied call = after at effect ⊢
  generalize (call.operation.action call.surroundings c).1 = answer at effect
  cases effect with
  | refused => exact .held rfl
  | unread => exact .held rfl
  | quiet unrefused changes => exact changes.continues q
  | @stored _ _ s _ unrefused live cause built changes =>
    have apart := other s.path cause.subject
    have before : (c.store s).snapshot? q = c.snapshot? q := by rw [snapshot?_store, apart]; rfl
    cases changes.continues q with
    | held same => exact .held (same.trans before)
    | built absent now named opened origin => exact .built (before.symm.trans absent) now named opened origin
  | restored => exact .held rfl
  | @deleted _ p unrefused deletes =>
    have apart : p.same q = false := by
      rcases deletes with deletes | ⟨deletes, -⟩ <;> exact other p (by rw [deletes]; rfl)
    refine .held ?_
    change (c.overlay.snapshots.delete p).get? q = _
    rw [SnapshotTable.get?_delete, apart]
    rfl
  | disposed unrefused disposes => exact absurd disposes undisposing

/-- What one call preserves: stamps stay apart, and new snapshots have new stamps. -/
theorem applied_stamped (stamped : Stamped c) (call : Call) :
    Stamped (c.applied call) ∧ Advances c (c.applied call) := by
  have effect := c.applied_effect call
  generalize c.applied call = after at effect ⊢
  generalize (call.operation.action call.surroundings c).1 = answer at effect
  have fewer (fewer : Fewer c after) : Stamped after ∧ Advances c after := ⟨fewer.stamped stamped, fewer.advances⟩
  cases effect with
  | refused => exact fewer (.of_eq rfl fun _ => rfl)
  | unread => exact fewer (.of_eq rfl fun _ => rfl)
  | quiet unrefused changes => exact ⟨changes.stamped stamped, changes.advances⟩
  | stored unrefused live cause built changes =>
    have added := store_added (Surroundings.build_ok built).1
    exact ⟨changes.stamped (added.stamped stamped), added.advances.trans changes.advances⟩
  | restored => exact fewer (.of_eq rfl fun _ => rfl)
  | deleted => exact fewer (delete_fewer _ c)
  | disposed => exact fewer (dispose_fewer c)

theorem ofScope_stamped (scope : Config.Scope) : Stamped (ofScope scope) := by
  have none (p : Path) : (ofScope scope).snapshot? p = none := rfl
  refine ⟨fun p s held => ?_, fun p q s t held => ?_⟩
  · cases (none p).symm.trans held
  · cases (none p).symm.trans held

theorem run_stamped (stamped : Stamped c) (calls : List Call) : Stamped (c.run calls) := by
  induction calls generalizing c with
  | nil => exact stamped
  | cons call rest ih => exact ih (applied_stamped stamped call).1

/-- A call that can take an editor's snapshot away: the editor sends another version of the path, or
the path is deleted. -/
def Call.Supersedes (call : Call) (p : Path) (s : Snapshot) : Prop :=
  ∃ q, q.same p = true ∧
    ((∃ file, call.operation = .openDocument file ∧ file.path = q ∧ file.version ≠ s.version) ∨
      call.operation = .delete q ∨ call.operation = .fileChanged q .deleted)

/-- What one call preserves: an editor's snapshot stays unless the call supersedes it. -/
theorem applied_keeps_edited {call : Call} (held : c.snapshot? p = some s) (edited : s.provenance = .editor)
    (undisposing : call.operation ≠ .dispose) :
    (c.applied call).snapshot? p = some s ∨ call.Supersedes p s := by
  have effect := c.applied_effect call
  generalize c.applied call = after at effect ⊢
  generalize (call.operation.action call.surroundings c).1 = answer at effect
  cases effect with
  | refused => exact .inl held
  | unread => exact .inl held
  | quiet unrefused changes => exact .inl (changes.keeps held)
  | @stored _ _ t _ unrefused live cause built changes =>
    cases same : t.path.same p with
    | false =>
      refine .inl (changes.keeps ?_)
      rw [snapshot?_store, same]
      exact held
    | true =>
      have found : c.snapshot? t.path = some s := (SnapshotTable.get?_congr same _).trans held
      generalize asked : call.operation = operation at cause
      cases cause with
      | asked asks absent => cases absent.symm.trans found
      | @edited file path version origin new =>
        refine .inr ⟨file.path, path ▸ same, .inl ⟨file, asked, rfl, fun equal => ?_⟩⟩
        exact new s (path ▸ found) ⟨equal.symm, edited⟩
      | reread path here before =>
        subst path
        cases here.symm.trans found
        rw [edited] at before
        cases before
  | restored => exact .inl held
  | @deleted _ q unrefused deletes =>
    cases same : q.same p with
    | false =>
      refine .inl ?_
      change (c.overlay.snapshots.delete q).get? p = _
      rw [SnapshotTable.get?_delete, same]
      exact held
    | true =>
      refine .inr ⟨q, same, .inr ?_⟩
      exact deletes.imp_right And.left
  | disposed unrefused disposes => exact absurd disposes undisposing

theorem run_keeps_edited {calls : List Call} (held : c.snapshot? p = some s) (edited : s.provenance = .editor)
    (undisposing : ∀ call ∈ calls, call.operation ≠ .dispose) :
    (c.run calls).snapshot? p = some s ∨ ∃ call ∈ calls, call.Supersedes p s := by
  induction calls generalizing c with
  | nil => exact .inl held
  | cons call rest ih =>
    rcases applied_keeps_edited held edited (undisposing call List.mem_cons_self) with held | supersedes
    · refine (ih held fun later member => undisposing later (List.mem_cons_of_mem _ member)).imp_right ?_
      rintro ⟨later, member, supersedes⟩
      exact ⟨later, List.mem_cons_of_mem _ member, supersedes⟩
    · exact .inr ⟨call, List.mem_cons_self, supersedes⟩

/-- A path that has a snapshot is not read again. -/
theorem openPath_held (live : c.disposed = false) (held : c.snapshot? p = some s) (env : Surroundings) :
    openPath env p c = (.ok s, c) := by
  have nothing : Ends (fun answer after => (answer, after) = (.ok s, c)) (openPath env p) c := by
    refine requireLive_passed live (.get_bind ?_)
    rw [held]
    exact .pure rfl
  exact nothing

/-- A version that the editor has sent already is not taken in again. -/
theorem openDocument_held {file : SourceFile} (live : c.disposed = false) (held : c.snapshot? file.path = some s)
    (edited : s.provenance = .editor) (version : s.version = file.version) (env : Surroundings) :
    openDocument env file c = (.ok s, c) := by
  have same : s.version = file.version ∧ s.provenance = .editor := ⟨version, edited⟩
  have nothing : Ends (fun answer after => (answer, after) = (.ok s, c)) (openDocument env file) c := by
    refine requireLive_passed live (.get_bind ?_)
    rw [held]
    dsimp only
    rw [if_pos same]
    exact .pure rfl
  exact nothing

theorem store_live (s : Snapshot) (live : c.disposed = false) : (c.store s).disposed = false := by
  rcases store_sessions s c with ⟨same, -⟩ | ⟨renewed, -⟩
  · rw [same.disposed, live]
  · rw [Container.disposed, renewed.state]
    rfl

/-- What an opening leaves: the snapshot that it gives is the current one of its path, and the service
is live. -/
structure Opened (p : Path) (s : Snapshot) (after : Container) : Prop where
  live : after.disposed = false
  held : after.snapshot? p = some s

theorem install_opened {file : SourceFile} {provenance : Provenance} (live : c.disposed = false) :
    Ends (fun answer after => ∀ s, answer = .ok s → Opened file.path s after ∧ s.version = file.version ∧
      s.provenance = provenance) (install env file provenance) c := by
  refine .get_bind ?_
  split
  · next s built =>
    obtain ⟨-, path, version, origin⟩ := Surroundings.build_ok built
    refine .modify_bind (.pure ?_)
    rintro _ ⟨⟩
    refine ⟨⟨store_live s live, ?_⟩, version, origin⟩
    rw [snapshot?_store, path, if_pos (Path.same_iff.mpr rfl)]
  · exact .throw nofun

theorem openPath_opened (env : Surroundings) (p : Path) (c : Container) :
    Ends (fun answer after => ∀ s, answer = .ok s → Opened p s after) (openPath env p) c := by
  refine requireLive_bind nofun fun live => .get_bind ?_
  split
  · next s held =>
    refine .pure ?_
    rintro _ ⟨⟩
    exact ⟨live, held⟩
  · unfold installFromDisk
    split
    · next file opened =>
      refine (install_opened live).imp fun answer after given s found => ?_
      have opened := Surroundings.open?_path opened
      exact opened ▸ (given s found).1
    · exact .throw nofun

theorem openDocument_opened (env : Surroundings) (file : SourceFile) (c : Container) :
    Ends (fun answer after => ∀ s, answer = .ok s → Opened file.path s after ∧ s.version = file.version ∧
      s.provenance = .editor) (openDocument env file) c := by
  refine requireLive_bind nofun fun live => .get_bind ?_
  dsimp only
  split
  · next s held =>
    split
    · next same =>
      refine .pure ?_
      rintro _ ⟨⟩
      exact ⟨⟨live, held⟩, same⟩
    · exact install_opened live
  · exact install_opened live

/-- In every run of a new service that is not disposed. Whatever is called, other paths keep their
snapshots, and a path without one can only get one from the disk. Opening a path that has a snapshot, or
a version that the editor has sent already, gives that snapshot and changes nothing; so whatever was
opened is found again, whatever the disk holds by then. An editor's snapshot stays until the editor sends
another version or its path is deleted. Snapshots are told apart by their stamps: no two paths share
one, and whatever was not current before has a new one. -/
theorem snapshots_keep_identity (scope : Config.Scope) (calls : List Call)
    (live : ((ofScope scope).run calls).disposed = false) :
    let c := (ofScope scope).run calls
    (∀ call, call.operation ≠ .dispose → ∀ q, (∀ p, call.operation.subject? = some p → p.same q = false) →
      Continues call.surroundings c (c.applied call) q) ∧
    (∀ env p s, c.snapshot? p = some s → openPath env p c = (.ok s, c)) ∧
    (∀ env file s, c.snapshot? file.path = some s → s.provenance = .editor → s.version = file.version →
      openDocument env file c = (.ok s, c)) ∧
    (∀ env later p s after, openPath env p c = (.ok s, after) → openPath later p after = (.ok s, after)) ∧
    (∀ env later file s after, openDocument env file c = (.ok s, after) →
      openDocument later file after = (.ok s, after)) ∧
    (∀ p s, c.snapshot? p = some s → s.provenance = .editor →
      ∀ more : List Call, (∀ call ∈ more, call.operation ≠ .dispose) →
        (c.run more).snapshot? p = some s ∨ ∃ call ∈ more, call.Supersedes p s) ∧
    Stamped c ∧ ∀ call, Advances c (c.applied call) := by
  intro c
  have stamped : Stamped c := run_stamped (ofScope_stamped scope) calls
  refine ⟨fun call undisposing q other => applied_continues undisposing other,
    fun env p s held => openPath_held live held env,
    fun env file s held edited version => openDocument_held live held edited version env,
    fun env later p s after given => ?_, fun env later file s after given => ?_,
    fun p s held edited more undisposing => run_keeps_edited held edited undisposing,
    stamped, fun call => (applied_stamped stamped call).2⟩
  · have opened := openPath_opened env p c
    unfold Ends at opened
    rw [given] at opened
    have opened := opened s rfl
    exact openPath_held opened.live opened.held later
  · have opened := openDocument_opened env file c
    unfold Ends at opened
    rw [given] at opened
    obtain ⟨opened, version, edited⟩ := opened s rfl
    exact openDocument_held opened.live opened.held edited version later

/-- A script that an editor has open is sent once more, opened under another name and said to have
changed on the disk. -/
theorem snapshots_keep_identity_edited :
    let file : SourceFile := ⟨⟨"/a.ts"⟩, "let x;", 1⟩
    let c := (ofScope sampleScope).run [⟨sampleSurroundings, .openDocument file⟩]
    let more : List Call := [⟨sampleSurroundings, .openDocument file⟩, ⟨sampleSurroundings, .openPath ⟨"/./a.ts"⟩⟩,
      ⟨sampleSurroundings, .fileChanged ⟨"/a.ts"⟩ .changed⟩]
    c.disposed = false ∧ ∃ s, c.snapshot? ⟨"/a.ts"⟩ = some s ∧ s.provenance = .editor ∧ s.version = 1 ∧
      openDocument sampleSurroundings file c = (.ok s, c) ∧ (c.run more).snapshot? ⟨"/a.ts"⟩ = some s := by
  intro file c more
  have live : c.disposed = false := by decide +kernel
  obtain ⟨-, -, repeated, -, -, kept, -, -⟩ := snapshots_keep_identity sampleScope _ live
  let s := Snapshot.ofScript 0 file.path 1 file.text .editor
  have held : c.snapshot? ⟨"/a.ts"⟩ = some s := by decide +kernel
  refine ⟨live, s, held, rfl, rfl, repeated sampleSurroundings file s held rfl rfl, ?_⟩
  have undisposing : ∀ call ∈ more, call.operation ≠ .dispose := by
    simp only [more, List.mem_cons, List.not_mem_nil, or_false]
    rintro call (rfl | rfl | rfl) <;> nofun
  refine (kept ⟨"/a.ts"⟩ s held rfl more undisposing).resolve_right ?_
  simp only [more, List.mem_cons, List.not_mem_nil, or_false]
  rintro ⟨call, rfl | rfl | rfl, q, -, ⟨other, sent, -, new⟩ | deleted | deleted⟩
  · cases sent
    exact new rfl
  all_goals first | cases sent | cases deleted

end SvelteLens.Service.Container
