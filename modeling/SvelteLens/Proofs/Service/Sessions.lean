import SvelteLens.Proofs.Service.Operations
import SvelteLens.Service.Registry

/-! The life of the sessions of a service. A live service has exactly one session that is not
disposed, a disposed one has none, and no session is disposed twice. A new session is started when
a snapshot is replaced by one of another kind, and only then. -/
namespace SvelteLens.Service

namespace Session

def disposals (s : Session) : Nat := s.calls.count .dispose

theorem disposals_call_dispose (s : Session) : (s.call .dispose).disposals = s.disposals + 1 := by
  simp [disposals, call]

theorem disposals_call (call : Call) (running : call ≠ .dispose) (s : Session) :
    (s.call call).disposals = s.disposals := by
  simp [disposals, Session.call, List.count_append, running]

theorem isDisposed_eq (s : Session) : s.isDisposed = decide (0 < s.disposals) := by
  rw [Bool.eq_iff_iff, decide_eq_true_iff]
  simp [isDisposed, disposals, List.count_pos_iff]

end Session

namespace Container

variable {env : Surroundings} {c after : Container} {operation : Operation}

/-- Between operations a service is live or disposed. Its earlier sessions were disposed once each,
and the current one when the service was. -/
structure Tidy (c : Container) : Prop where
  settled : c.state = .ready ∨ c.state = .disposed
  retired : ∀ s ∈ c.retired, s.disposals = 1
  current : c.session.disposals = if c.disposed then 1 else 0

theorem ofScope_tidy (scope : Config.Scope) : Tidy (ofScope scope) := ⟨.inl rfl, nofun, rfl⟩

theorem state_of_live (tidy : Tidy c) (live : c.disposed = false) : c.state = .ready := by
  rcases tidy.settled with ready | disposed
  · exact ready
  · rw [Container.disposed, disposed] at live
    cases live

structure SameLife (c after : Container) : Prop where
  state : after.state = c.state
  retired : after.retired = c.retired
  continued : c.session.calls <+: after.session.calls
  current : after.session.disposals = c.session.disposals

theorem SameLife.of_eq (state : after.state = c.state) (retired : after.retired = c.retired)
    (session : after.session = c.session) : SameLife c after :=
  ⟨state, retired, session ▸ List.prefix_refl _, session ▸ rfl⟩

theorem SameLife.trans {m : Container} (first : SameLife c m) (second : SameLife m after) : SameLife c after :=
  ⟨second.state.trans first.state, second.retired.trans first.retired, first.continued.trans second.continued,
    second.current.trans first.current⟩

theorem SameLife.disposed (same : SameLife c after) : after.disposed = c.disposed := by
  rw [Container.disposed, Container.disposed, same.state]

theorem SameLife.tidy (same : SameLife c after) (tidy : Tidy c) : Tidy after where
  settled := same.state ▸ tidy.settled
  retired := same.retired ▸ tidy.retired
  current := by rw [same.current, same.disposed, tidy.current]

theorem called_sameLife {call : Session.Call} (running : call ≠ .dispose) (c : Container) :
    SameLife c (c.withSession (·.call call)) :=
  ⟨rfl, rfl, List.prefix_append .., Session.disposals_call _ running _⟩

theorem Quiet.sameLife (quiet : Quiet env c after) : SameLife c after := by
  cases quiet with
  | called call running => exact called_sameLife running c
  | _ => exact .of_eq rfl rfl rfl

theorem Quiets.sameLife (quiets : Quiets env c after) : SameLife c after := by
  induction quiets with
  | refl => exact .of_eq rfl rfl rfl
  | tail _ quiet ih => exact ih.trans quiet.sameLife

/-- A new session is there, and the one before it is disposed. -/
structure Renewed (c after : Container) : Prop where
  state : after.state = .ready
  retired : after.retired = c.retired ++ [c.session.call .dispose]
  current : after.session.disposals = 0

theorem Renewed.trans {m : Container} (renewed : Renewed c m) (same : SameLife m after) : Renewed c after :=
  ⟨same.state.trans renewed.state, same.retired.trans renewed.retired, same.current.trans renewed.current⟩

theorem Renewed.tidy (renewed : Renewed c after) (tidy : Tidy c) (live : c.disposed = false) : Tidy after where
  settled := .inl renewed.state
  retired s member := by
    rw [renewed.retired, List.mem_append, List.mem_singleton] at member
    rcases member with member | rfl
    · exact tidy.retired s member
    · rw [Session.disposals_call_dispose, tidy.current, live]
      rfl
  current := by
    rw [renewed.current, Container.disposed, renewed.state]
    rfl

/-- An operation replaced the snapshot of a path by one of another kind. -/
def Rekinded (c after : Container) (p : Path) : Prop :=
  ∃ held s, c.snapshot? p = some held ∧ after.snapshot? p = some s ∧ held.kind ≠ s.kind

theorem not_rekinded {p : Path} (same : ∀ held s, c.snapshot? p = some held → after.snapshot? p = some s → held.kind = s.kind) :
    ¬Rekinded c after p :=
  fun ⟨held, s, before, now, other⟩ => other (same held s before now)

/-- What an operation does to the sessions. Either they go on, and no snapshot is of another kind
than the one before it; or a path has a snapshot of another kind, for which a new session is
started, and all other snapshots stay. -/
inductive Succession (c after : Container) : Prop where
  | continued (retired : after.retired = c.retired) (calls : c.session.calls <+: after.session.calls)
      (unchanged : ∀ p, ¬Rekinded c after p) : Succession c after
  | renewed (retired : after.retired = c.retired ++ [c.session.call .dispose]) (p : Path) (rekinded : Rekinded c after p)
      (others : ∀ q held, p.same q = false → c.snapshot? q = some held → after.snapshot? q = some held) :
      Succession c after

theorem store_sessions (s : Snapshot) (c : Container) :
    (SameLife c (c.store s) ∧ ∀ held, c.snapshot? s.path = some held → held.kind = s.kind) ∨
      (Renewed c (c.store s) ∧ ∃ held, c.snapshot? s.path = some held ∧ held.kind ≠ s.kind) := by
  cases found : c.snapshot? s.path with
  | none =>
    refine .inl ⟨?_, nofun⟩
    simp only [store, found]
    exact .of_eq rfl rfl rfl
  | some held =>
    by_cases kind : held.kind = s.kind
    · refine .inl ⟨?_, fun _ same => Option.some.inj same ▸ kind⟩
      simp only [store, found, ne_eq, kind, not_true_eq_false, if_false]
      exact .of_eq rfl rfl rfl
    · refine .inr ⟨?_, held, rfl, kind⟩
      simp only [store, found, ne_eq, kind, not_false_eq_true, if_true]
      exact ⟨rfl, rfl, rfl⟩

theorem dispose_tidy (tidy : Tidy c) : Tidy c.dispose ∧ c.dispose.state = .disposed := by
  unfold dispose
  split
  · next disposed => exact ⟨tidy, of_decide_eq_true disposed⟩
  · next live =>
    refine ⟨⟨.inr rfl, tidy.retired, ?_⟩, rfl⟩
    change (c.session.call .dispose).disposals = 1
    rw [Session.disposals_call_dispose, tidy.current, if_neg live]

theorem dispose_succession (c : Container) : Succession c c.dispose := by
  unfold dispose
  split
  · exact .continued rfl (List.prefix_refl _) fun p => not_rekinded fun held s before now =>
      congrArg Snapshot.kind (Option.some.inj (before.symm.trans now))
  · exact .continued rfl (List.prefix_append ..) fun p => not_rekinded fun held s before now => nomatch now

theorem withOverlay_sameLife (f : Overlay → Overlay) (c : Container) : SameLife c (c.withOverlay f) :=
  .of_eq rfl rfl rfl

theorem delete_sameLife (p : Path) (c : Container) : SameLife c (c.delete p) :=
  ⟨rfl, rfl, List.prefix_append .., Session.disposals_call (.forget p) nofun _⟩

/-- Any operation but a disposal leaves a service tidy, and as live as it was. -/
theorem effect_tidy {α : Type} {answer : Except Failure α} (tidy : Tidy c) (undisposing : operation ≠ .dispose)
    (effect : Effect env c operation answer after) : Tidy after ∧ after.disposed = c.disposed := by
  cases effect with
  | refused => exact ⟨tidy, rfl⟩
  | unread => exact ⟨(withOverlay_sameLife _ c).tidy tidy, rfl⟩
  | quiet unrefused changes => exact ⟨changes.sameLife.tidy tidy, changes.sameLife.disposed⟩
  | @stored _ _ s _ unrefused live cause built changes =>
    have later := changes.sameLife
    rcases store_sessions s c with ⟨same, _⟩ | ⟨renewed, _⟩
    · exact ⟨(same.trans later).tidy tidy, (same.trans later).disposed⟩
    · have renewed := renewed.trans later
      refine ⟨renewed.tidy tidy live, ?_⟩
      rw [live, Container.disposed, renewed.state]
      rfl
  | restored => exact ⟨(withOverlay_sameLife _ c).tidy tidy, rfl⟩
  | @deleted _ p =>
    have same := delete_sameLife p c
    exact ⟨same.tidy tidy, same.disposed⟩
  | disposed _ disposes => exact absurd disposes undisposing

theorem not_rekinded_of_keeps (keeps : ∀ p held, c.snapshot? p = some held → after.snapshot? p = some held) (p : Path) :
    ¬Rekinded c after p :=
  not_rekinded fun held _ before now => congrArg Snapshot.kind (Option.some.inj ((keeps p held before).symm.trans now))

/-- After a snapshot is stored, its path has that snapshot and every other path has its own. -/
theorem stored_succession {s : Snapshot} (changes : Quiets env (c.store s) after) : Succession c after := by
  have own {p : Path} (same : s.path.same p = true) : after.snapshot? p = some s :=
    changes.keeps (by rw [snapshot?_store, if_pos same])
  have others : ∀ q held, s.path.same q = false → c.snapshot? q = some held → after.snapshot? q = some held := by
    intro q held other found
    refine changes.keeps ?_
    rw [snapshot?_store, other]
    exact found
  have later := changes.sameLife
  rcases store_sessions s c with ⟨same, kind⟩ | ⟨renewed, held, found, kind⟩
  · refine .continued (same.trans later).retired (same.trans later).continued fun p => ?_
    cases asked : s.path.same p with
    | false =>
      exact not_rekinded fun held _ before now =>
        congrArg Snapshot.kind (Option.some.inj ((others p held asked before).symm.trans now))
    | true =>
      refine not_rekinded fun held _ before now => ?_
      cases (own asked).symm.trans now
      exact kind held ((SnapshotTable.get?_congr asked _).trans before)
  · exact .renewed (renewed.trans later).retired s.path ⟨held, s, found, own (Path.same_iff.mpr rfl), kind⟩ others

theorem effect_succession {α : Type} {answer : Except Failure α} (effect : Effect env c operation answer after) :
    Succession c after := by
  cases effect with
  | refused => exact .continued rfl (List.prefix_refl _) (not_rekinded_of_keeps fun _ _ held => held)
  | unread => exact .continued rfl (List.prefix_refl _) (not_rekinded_of_keeps fun _ _ held => held)
  | quiet unrefused changes =>
    exact .continued changes.sameLife.retired changes.sameLife.continued
      (not_rekinded_of_keeps fun _ _ held => changes.keeps held)
  | stored unrefused live cause built changes => exact stored_succession changes
  | restored => exact .continued rfl (List.prefix_refl _) (not_rekinded_of_keeps fun _ _ held => held)
  | @deleted _ p =>
    refine .continued rfl (delete_sameLife p c).continued fun q => not_rekinded fun held s before now => ?_
    have now : (c.overlay.snapshots.delete p).get? q = some s := now
    rw [SnapshotTable.get?_delete] at now
    split at now
    · cases now
    · exact congrArg Snapshot.kind (Option.some.inj (before.symm.trans now))
  | disposed => exact dispose_succession c

def Operation.disposes : Operation → Bool
  | .dispose => true
  | _ => false

theorem Operation.disposes_eq_false (h : operation ≠ .dispose) : operation.disposes = false := by
  cases operation with
  | dispose => exact absurd rfl h
  | _ => rfl

/-- What one call preserves. Only a disposal ends the life of a service. -/
theorem applied_tidy (tidy : Tidy c) (call : Call) :
    Tidy (c.applied call) ∧ (c.applied call).disposed = (c.disposed || call.operation.disposes) := by
  by_cases disposal : call.operation = .dispose
  · have after : c.applied call = c.dispose := by
      rw [Container.applied, disposal]
      rfl
    obtain ⟨tidy, disposed⟩ := dispose_tidy tidy
    rw [after, Container.disposed, disposed, disposal]
    exact ⟨tidy, (Bool.or_true _).symm⟩
  · obtain ⟨tidy, same⟩ := effect_tidy tidy disposal (c.applied_effect call)
    exact ⟨tidy, by rw [same, Operation.disposes_eq_false disposal, Bool.or_false]⟩

theorem run_tidy (tidy : Tidy c) (calls : List Call) :
    Tidy (c.run calls) ∧ (c.run calls).disposed = (c.disposed || calls.any (·.operation.disposes)) := by
  induction calls generalizing c with
  | nil => exact ⟨tidy, (Bool.or_false _).symm⟩
  | cons call rest ih =>
    obtain ⟨tidy, disposed⟩ := applied_tidy tidy call
    obtain ⟨tidy, later⟩ := ih tidy
    refine ⟨tidy, ?_⟩
    rw [List.any_cons, ← Bool.or_assoc, ← disposed]
    exact later

/-- In every run of a new service, the sessions live and die as they should: until the service is
disposed it is ready, and its current session alone is not disposed; from then on all are; none is
disposed twice; and whatever is called next, a new session is started exactly when a snapshot is
replaced by one of another kind. -/
theorem run_sessions (scope : Config.Scope) (calls : List Call) :
    let c := (ofScope scope).run calls
    (if calls.any (·.operation.disposes) then c.state = .disposed ∧ ∀ s ∈ c.sessions, s.isDisposed = true
      else c.state = .ready ∧ c.sessions.filter (!·.isDisposed) = [c.session]) ∧
    (∀ s ∈ c.sessions, s.disposals ≤ 1) ∧ ∀ call, Succession c (c.applied call) := by
  intro c
  obtain ⟨tidy, disposed⟩ := run_tidy (ofScope_tidy scope) calls
  change c.disposed = (false || calls.any (·.operation.disposes)) at disposed
  rw [Bool.false_or] at disposed
  have retired : ∀ s ∈ c.retired, s.isDisposed = true := by
    intro s member
    rw [Session.isDisposed_eq, tidy.retired s member]
    rfl
  refine ⟨?_, ?_, fun call => effect_succession (c.applied_effect call)⟩
  · rw [← disposed]
    split
    · next ended =>
      refine ⟨of_decide_eq_true ended, fun s member => ?_⟩
      rcases List.mem_append.mp member with member | member
      · exact retired s member
      · rw [List.mem_singleton.mp member, Session.isDisposed_eq, tidy.current, if_pos ended]
        rfl
    · next live =>
      have live : c.disposed = false := Bool.eq_false_iff.mpr live
      refine ⟨state_of_live tidy live, ?_⟩
      have current : c.session.isDisposed = false := by
        rw [Session.isDisposed_eq, tidy.current, live]
        rfl
      rw [sessions, List.filter_append, List.filter_eq_nil_iff.mpr fun s member => by simp [retired s member]]
      simp [current]
  · intro s member
    rcases List.mem_append.mp member with member | member
    · exact Nat.le_of_eq (tidy.retired s member)
    · rw [List.mem_singleton.mp member, tidy.current]
      split <;> decide

end Container

/-- What is seen of a scope after any calls is where its service is in its life: none is seen while it is rebuilding. -/
theorem Registry.state_run {r : Registry} {id : Config.ScopeId} {n : Nat} (made : r.existing? id = some n)
    {scope : Config.Scope} {calls : List Container.Call}
    (held : r.containers[n]? = some ((Container.ofScope scope).run calls)) :
    r.state id = if calls.any (·.operation.disposes) then .disposed else .ready := by
  obtain ⟨place, registered, made⟩ := Option.bind_eq_some_iff.mp made
  have disposed := (Container.run_tidy (Container.ofScope_tidy scope) calls).2
  change _ = (false || calls.any (·.operation.disposes)) at disposed
  rw [Bool.false_or] at disposed
  simp only [state, registered, made, Option.bind_some, held, disposed]

end SvelteLens.Service
