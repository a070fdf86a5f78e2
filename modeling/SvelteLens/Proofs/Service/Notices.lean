import SvelteLens.Proofs.Service.Demand
import SvelteLens.Proofs.Service.Origins

/-! How the engine comes to know that a file shows another text. It keeps what it found out about a path under
the version that the overlay gives, until it is told to forget the path or a new session takes over. -/
namespace SvelteLens.Service.Container

open SvelteLens.Service.Action (Ends)

variable {env : Surroundings} {c after : Container} {operation : Operation} {p q : Path} {held s : Snapshot}

/-- What lets the engine notice that a path changed: it has another version, or the session was told to
forget it meanwhile, or a new session was started. -/
inductive Noticed (env : Surroundings) (c after : Container) (p : Path) : Prop where
  | version (other : (Overlay.scriptVersion env p c.overlay).1 ≠ (Overlay.scriptVersion env p after.overlay).1)
  | told {q : Path} {more : List Session.Call} (same : q.same p = true)
      (calls : after.session.calls = c.session.calls ++ more) (forgot : .forget q ∈ more)
  | renewed (retired : after.retired = c.retired ++ [c.session.call .dispose])

/-- An editor sends version 0 of a file that was read from the disk, without a change of its kind. -/
structure Disguised (operation : Operation) (p : Path) (held s : Snapshot) : Prop where
  edited : ∃ file : SourceFile, operation = .openDocument file ∧ file.path.same p = true ∧ file.version = 0
  origin : held.provenance = .disk
  kind : held.kind = s.kind

theorem scriptVersion_held (env : Surroundings) (found : c.snapshot? p = some s) :
    (Overlay.scriptVersion env p c.overlay).1 = .ok (some s.version) := by
  have offered : Overlay.offer env c.overlay p = .ok (some s) := Overlay.gives_iff.mp (.held found)
  rw [Overlay.scriptVersion_answer, offered]
  rfl

/-- Only a version that an editor sends and a change on the disk put another snapshot in the place of one. -/
theorem effect_replaces {α : Type} {answer : Except Failure α} (effect : Effect env c operation answer after)
    (before : c.snapshot? p = some held) (now : after.snapshot? p = some s) (other : held ≠ s) :
    (∃ file : SourceFile, operation = .openDocument file) ∨ ∃ q, operation = .fileChanged q .changed ∧ q.same p = true := by
  have kept (same : after.snapshot? p = some held) : held = s := Option.some.inj (same.symm.trans now)
  cases effect with
  | refused => exact absurd (kept before) other
  | unread => exact absurd (kept before) other
  | quiet unrefused changes => exact absurd (kept (changes.keeps before)) other
  | @stored _ _ t _ unrefused live cause built changes =>
    have stores : t.path.same p = true := by
      by_contra apart
      refine other (kept (changes.keeps ?_))
      rw [snapshot?_store, if_neg apart]
      exact before
    cases cause with
    | asked asks absent =>
      rw [show c.snapshot? t.path = some held from (SnapshotTable.get?_congr stores _).trans before] at absent
      cases absent
    | edited => exact .inl ⟨_, rfl⟩
    | reread path => exact .inr ⟨_, rfl, path ▸ stores⟩
  | restored => exact absurd (kept before) other
  | deleted => exact absurd (Option.some.inj (before.symm.trans ((delete_fewer _ c).snapshots p s now))) other
  | disposed => exact absurd (Option.some.inj (before.symm.trans ((dispose_fewer c).snapshots p s now))) other

theorem store_sameKind (found : c.snapshot? s.path = some held) (kind : held.kind = s.kind) :
    (c.store s).session = c.session ∧ (c.store s).retired = c.retired := by
  simp only [store, found, ne_eq, kind, not_true_eq_false, if_false]
  exact ⟨rfl, rfl⟩

theorem store_otherKind (found : c.snapshot? s.path = some held) (kind : held.kind ≠ s.kind) :
    (c.store s).retired = c.retired ++ [c.session.call .dispose] := by
  simp only [store, found, ne_eq, kind, not_false_eq_true, if_true]
  rfl

/-- Nothing is noticed under the same version, in a session that goes on and hears nothing. -/
theorem not_noticed (version : (Overlay.scriptVersion env p c.overlay).1 = (Overlay.scriptVersion env p after.overlay).1)
    (session : after.session = c.session) (retired : after.retired = c.retired) : ¬Noticed env c after p := by
  intro noticed
  cases noticed with
  | version other => exact other version
  | told named calls forgot =>
    rw [session] at calls
    rw [List.self_eq_append_right.mp calls] at forgot
    cases forgot
  | renewed fresh =>
    rw [retired] at fresh
    cases List.self_eq_append_right.mp fresh

/-- A stored snapshot is noticed unless it has the version and the kind of the one before it. -/
theorem store_noticed (found : c.snapshot? p = some held) (same : s.path.same p = true) :
    Noticed env c (c.store s) p ↔ ¬(held.version = s.version ∧ held.kind = s.kind) := by
  have found' : c.snapshot? s.path = some held := (SnapshotTable.get?_congr same _).trans found
  have now : (c.store s).snapshot? p = some s := by rw [snapshot?_store, if_pos same]
  constructor
  · rintro noticed ⟨version, kind⟩
    obtain ⟨session, retired⟩ := store_sameKind found' kind
    refine not_noticed ?_ session retired noticed
    rw [scriptVersion_held env found, scriptVersion_held env now, version]
  · intro differs
    by_cases version : held.version = s.version
    · exact .renewed (store_otherKind found' fun kind => differs ⟨version, kind⟩)
    · refine .version ?_
      rw [scriptVersion_held env found, scriptVersion_held env now]
      simpa using version

/-- What an editor sends has the version and the kind of the snapshot before it exactly when it passes
for what was read from the disk. -/
theorem Operation.Stores.disguised {file : SourceFile} (cause : Operation.Stores c s (.openDocument file)) (sourced : Sourced c)
    (found : c.snapshot? p = some held) (same : s.path.same p = true) :
    (held.version = s.version ∧ held.kind = s.kind) ↔ Disguised (.openDocument file) p held s := by
  cases cause with
  | asked asks => cases asks
  | edited path sent origin new =>
    have found' : c.snapshot? file.path = some held := by
      rw [← path]
      exact (SnapshotTable.get?_congr same _).trans found
    have fromDisk (disk : held.provenance = .disk) : held.version = 0 := (sourced p held found).2.version disk
    constructor
    · rintro ⟨version, kind⟩
      have disk : held.provenance = .disk := by
        cases before : held.provenance with
        | disk => rfl
        | editor => exact absurd ⟨version.trans sent, before⟩ (new held found')
      exact ⟨⟨file, rfl, path ▸ same, by rw [← sent, ← version, fromDisk disk]⟩, disk, kind⟩
    · rintro ⟨⟨other, rfl', -, zero⟩, disk, kind⟩
      cases rfl'
      exact ⟨by rw [fromDisk disk, sent, zero], kind⟩

theorem openDocument_noticed {file : SourceFile} {answer : Except Failure Snapshot}
    (updated : Updated env c (.openDocument file) answer after) (sourced : Sourced c)
    (before : c.snapshot? p = some held) (now : after.snapshot? p = some s) (other : held ≠ s) (later : Surroundings) :
    Noticed later c after p ↔ ¬Disguised (.openDocument file) p held s := by
  cases updated with
  | failed => exact absurd (Option.some.inj (before.symm.trans now)) other
  | held => exact absurd (Option.some.inj (before.symm.trans now)) other
  | @stored t _ live cause built =>
    have same : t.path.same p = true := by
      by_contra apart
      rw [snapshot?_store, if_neg apart, before] at now
      exact other (Option.some.inj now)
    rw [snapshot?_store, if_pos same] at now
    cases now
    rw [store_noticed before same, cause.disguised sourced before same]

theorem store_session (s : Snapshot) (c : Container) :
    (c.store s).session = c.session ∨ (c.store s).retired = c.retired ++ [c.session.call .dispose] := by
  cases found : c.snapshot? s.path with
  | none =>
    simp only [store, found]
    exact .inl rfl
  | some held =>
    by_cases kind : held.kind = s.kind
    · exact .inl (store_sameKind found kind).1
    · exact .inr (store_otherKind found kind)

/-- A change on the disk leaves the snapshots alone, or the session is told of it, or it is a new one. -/
theorem changed_ends (env : Surroundings) (q : Path) (c : Container) :
    Ends (fun _ after => (∀ p, after.snapshot? p = c.snapshot? p) ∨ after.session = c.session.call (.forget q) ∨
      after.retired = c.retired ++ [c.session.call .dispose]) (fileChanged env q .changed) c := by
  refine requireLive_bind (.inl fun _ => rfl) fun live => .modify_bind (.get_bind ?_)
  dsimp only
  split
  · next fromDisk =>
    obtain ⟨held, found, before⟩ := (Option.any_eq_true _ _).mp fromDisk
    have reads : Ends (Updated env (c.withOverlay (Overlay.invalidatePath q)) (.fileChanged q .changed))
        (installFromDisk env q) (c.withOverlay (Overlay.invalidatePath q)) :=
      installFromDisk_ends live fun s path origin version =>
        .reread path found (of_decide_eq_true before) origin version
    refine reads.bind ?_ fun s m updated => .modify_bind (.pure ?_)
    · rintro failure m ⟨⟩
      exact .inl fun _ => rfl
    · cases updated with
      | held => exact .inr (.inl rfl)
      | stored =>
        rcases store_session s (c.withOverlay (Overlay.invalidatePath q)) with same | renewed
        · exact .inr (.inl (congrArg (Session.call · (.forget q)) same))
        · exact .inr (.inr renewed)
  · exact .modify_bind (.pure (.inr (.inl rfl)))

theorem fileChanged_noticed (env later : Surroundings) (same : q.same p = true) (before : c.snapshot? p = some held)
    (now : (fileChanged env q .changed c).2.snapshot? p = some s) (other : held ≠ s) :
    Noticed later c (fileChanged env q .changed c).2 p := by
  rcases changed_ends env q c with kept | told | renewed
  · exact absurd (Option.some.inj (before.symm.trans ((kept p).symm.trans now))) other
  · exact .told same (congrArg Session.calls told) List.mem_cons_self
  · exact .renewed renewed

/-- In every run of a new service: whatever is called, when a path shows another text than before, then the
engine can notice it, except where an editor sends version 0 of a file that was read from the disk and
remains of one kind. Then the version is the same, and neither the session nor anyone else is told. -/
theorem changes_noticed (scope : Config.Scope) (calls : List Call) (call : Call) (p : Path) (held s : Snapshot)
    (before : ((ofScope scope).run calls).snapshot? p = some held)
    (now : (((ofScope scope).run calls).applied call).snapshot? p = some s) (changed : held.projected ≠ s.projected)
    (env : Surroundings) :
    let c := (ofScope scope).run calls
    Noticed env c (c.applied call) p ↔ ¬Disguised call.operation p held s := by
  intro c
  have sourced : Sourced c := run_sourced (ofScope_sourced scope) calls
  have other : held ≠ s := fun same => changed (congrArg Snapshot.projected same)
  rcases effect_replaces (c.applied_effect call) before now other with ⟨file, asked⟩ | ⟨q, asked, same⟩
  · have after : c.applied call = (openDocument call.surroundings file c).2 := by
      rw [applied, asked]
      exact Action.discard_state ..
    rw [asked]
    have now : (c.applied call).snapshot? p = some s := now
    rw [after] at now ⊢
    exact openDocument_noticed (openDocument_ends call.surroundings file c) sourced before now other env
  · have after : c.applied call = (fileChanged call.surroundings q .changed c).2 := by
      rw [applied, asked]
      rfl
    have now : (c.applied call).snapshot? p = some s := now
    rw [after] at now ⊢
    refine ⟨fun _ disguised => ?_, fun _ => fileChanged_noticed _ env same before now other⟩
    obtain ⟨file, edited, -⟩ := disguised.edited
    cases asked.symm.trans edited

def editedSurroundings : Surroundings :=
  { sampleSurroundings with files := Path.Table.ofEntries [(⟨"/a.ts"⟩, .text "let x;")] }

/-- A file is read again under the version that it had, and the session is told. -/
theorem changes_noticed_reread :
    let p : Path := ⟨"/a.ts"⟩
    let c := (ofScope sampleScope).run [⟨sampleSurroundings, .openPath p⟩]
    let call : Call := ⟨editedSurroundings, .fileChanged p .changed⟩
    let held := Snapshot.ofScript 0 p 0 "export \x7b\x7d;" .disk
    let s := Snapshot.ofScript 1 p 0 "let x;" .disk
    c.snapshot? p = some held ∧ (c.applied call).snapshot? p = some s ∧ held.projected ≠ s.projected ∧
      held.version = s.version ∧ Noticed editedSurroundings c (c.applied call) p := by
  intro p c call held s
  have before : c.snapshot? p = some held := by decide +kernel
  have now : (c.applied call).snapshot? p = some s := by decide +kernel
  have changed : held.projected ≠ s.projected := by decide
  refine ⟨before, now, changed, rfl, ?_⟩
  refine (changes_noticed sampleScope _ call p held s before now changed editedSurroundings).mpr fun disguised => ?_
  obtain ⟨file, edited, -⟩ := disguised.edited
  cases edited

/-- An editor opens a file that was read from the disk before, with another text as version 0. The text that
the engine is shown is another one; the version is the same and the session hears nothing. -/
theorem disguised_change_unnoticed :
    let p : Path := ⟨"/a.ts"⟩
    let c := (ofScope sampleScope).run [⟨sampleSurroundings, .openPath p⟩]
    let after := c.applied ⟨sampleSurroundings, .openDocument ⟨p, "let x;", 0⟩⟩
    (c.snapshot? p).map (·.projected) = some "export \x7b\x7d;" ∧
      (after.snapshot? p).map (·.projected) = some "let x;" ∧ ¬Noticed sampleSurroundings c after p := by
  intro p c after
  have version : (Overlay.scriptVersion sampleSurroundings p c.overlay).1 =
      (Overlay.scriptVersion sampleSurroundings p after.overlay).1 := by decide +kernel
  exact ⟨by decide +kernel, by decide +kernel, not_noticed version (by decide +kernel) (by decide +kernel)⟩

end SvelteLens.Service.Container
