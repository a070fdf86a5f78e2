import SvelteLens.Proofs.Service.Answers
import SvelteLens.Proofs.Service.Places
import SvelteLens.Proofs.Service.Sessions

/-! What is left of a service after its disposal. It refuses its clients, starts no session and keeps no
snapshot that it had. The overlay outlives it: the engine may go on asking, and components are then built
from the disk as before. -/
namespace SvelteLens.Service

open SvelteLens.Service.Action (Ends)

namespace Overlay

variable {env : Surroundings} {o m : Overlay} {p : Path} {s : Snapshot}

/-- A snapshot of a component that was built on demand from what the disk holds. -/
structure OnDemand (env : Surroundings) (s : Snapshot) : Prop where
  component : s.path.isComponent = true
  read : ∃ stamp file, env.open? s.path = some file ∧ env.build stamp file .disk = .ok s

theorem OnDemand.fromDisk (built : OnDemand env s) : s.provenance = .disk ∧ s.version = 0 := by
  obtain ⟨stamp, file, opened, built⟩ := built.read
  obtain ⟨-, -, version, origin⟩ := Surroundings.build_ok built
  obtain ⟨text, -, rfl⟩ := Option.map_eq_some_iff.mp opened
  exact ⟨origin, version⟩

theorem Demands.get?_cases (demands : Demands env o m) (now : m.snapshots.get? p = some s) :
    o.snapshots.get? p = some s ∨ s.path.same p = true ∧ OnDemand env s := by
  induction demands with
  | refl => exact .inl now
  | tail _ met ih =>
    obtain ⟨t, -, demanded, get?⟩ := met.get?
    rw [get?] at now
    split at now
    · next same =>
      cases now
      obtain ⟨component, -, file, opened, built⟩ := demand_eq_some.mp demanded
      exact .inr ⟨same, component, _, file, opened, built⟩
    · exact ih now

/-- Whatever the engine asks, the snapshots that it leaves are those it found and those it demanded. -/
theorem asked_demands (env : Surroundings) (o : Overlay) (probe : Probe) :
    ∃ m, Demands env o m ∧ (o.asked env probe).snapshots = m.snapshots := by
  have discard {α : Type} {x : Action Overlay α}
      (ends : Ends (fun _ after => ∃ m, Demands env o m ∧ after.snapshots = m.snapshots) x o) :
      Ends (fun _ after => ∃ m, Demands env o m ∧ after.snapshots = m.snapshots) (x >>= fun _ => pure ()) o :=
    ends.bind (fun _ _ left => left) fun _ _ left => .pure left
  have demanded {α : Type} {x : Action Overlay α} (ends : Ends (fun _ after => Demands env o after) x o) :
      Ends (fun _ after => ∃ m, Demands env o m ∧ after.snapshots = m.snapshots) (x >>= fun _ => pure ()) o :=
    discard (ends.imp fun _ m demands => ⟨m, demands, rfl⟩)
  cases probe with
  | snapshot p => exact demanded (snapshot_demands env p o)
  | fileExists p => exact demanded (fileExists_demands env p o)
  | shownText p => exact demanded (shownText_demands env p o)
  | scriptKind p => exact demanded (scriptKind_demands env p o)
  | scriptVersion p => exact demanded (scriptVersion_demands env p o)
  | resolveModule specifier importer =>
    refine discard (.get_bind ?_)
    split
    · exact .pure ⟨o, .refl, rfl⟩
    · refine (resolveUncached_demands env specifier _ o).bind (fun _ m demands => ⟨m, demands, rfl⟩) ?_
      intro target m demands
      exact .modify_bind (.pure ⟨m, demands, rfl⟩)

end Overlay

namespace Container

variable {env : Surroundings} {c m after : Container} {operation : Operation} {calls : List Call}

/-- The operations of a client, which need a live service. -/
def Operation.needsLife : Operation → Bool
  | .openPath _ | .openDocument _ | .fileChanged .. | .diagnostics .. | .completions .. | .definition .. => true
  | _ => false

theorem requireLive_refuses {α : Type} (disposed : c.disposed = true) (f : Unit → Action Container α) :
    (requireLive >>= f) c = (.error (.error (.disposed c.scope.id)), c) := by
  have run := requireLive_eq c
  rw [disposed] at run
  exact Action.bind_error run

theorem Operation.refused (disposed : c.disposed = true) (needs : operation.needsLife = true) (env : Surroundings) :
    operation.action env c = (.error (.error (.disposed c.scope.id)), c) := by
  have unopened (p : Path) : Container.openPath env p c = (.error (.error (.disposed c.scope.id)), c) :=
    requireLive_refuses disposed _
  cases operation with
  | openPath p => exact Action.bind_error (unopened p)
  | openDocument file => exact Action.bind_error (requireLive_refuses disposed _)
  | fileChanged p change => exact requireLive_refuses disposed _
  | diagnostics report p => exact Action.bind_error (Action.bind_error (unopened p))
  | completions report p offset => exact Action.bind_error (Action.bind_error (unopened p))
  | definition report p offset => exact Action.bind_error (Action.bind_error (unopened p))
  | _ => cases needs

def Deleting (calls : List Call) (p : Path) : Prop := ∃ call ∈ calls, call.operation = .delete p

/-- One of some calls asks the overlay, and a component is built on demand. -/
def Demanding (calls : List Call) (s : Snapshot) : Prop :=
  ∃ call ∈ calls, (∃ question, call.operation = .probe question) ∧ Overlay.OnDemand call.surroundings s

theorem Deleting.mono {others : List Call} {p : Path} (subset : calls ⊆ others) (deleting : Deleting calls p) :
    Deleting others p :=
  deleting.imp fun _ h => ⟨subset h.1, h.2⟩

theorem Demanding.mono {others : List Call} {s : Snapshot} (subset : calls ⊆ others) (demanding : Demanding calls s) :
    Demanding others s :=
  demanding.imp fun _ h => ⟨subset h.1, h.2⟩

theorem Demanding.fromDisk {s : Snapshot} (demanding : Demanding calls s) : s.provenance = .disk ∧ s.version = 0 := by
  obtain ⟨call, -, -, built⟩ := demanding
  exact built.fromDisk

/-- What some calls can at most change of a disposed service. -/
structure Outlives (c : Container) (calls : List Call) (after : Container) : Prop where
  state : after.state = c.state
  scope : after.scope = c.scope
  retired : after.retired = c.retired
  told : ∃ more, after.session = { c.session with calls := c.session.calls ++ more } ∧
    ∀ call ∈ more, ∃ p, call = .forget p ∧ Deleting calls p
  snapshots : ∀ p s, after.snapshot? p = some s →
    c.snapshot? p = some s ∨ s.path.same p = true ∧ Demanding calls s
  deleted : ∀ p, after.overlay.snapshots.isDeleted p = true →
    c.overlay.snapshots.isDeleted p = true ∨ ∃ q, q.same p = true ∧ Deleting calls q

theorem Outlives.refl (c : Container) (calls : List Call) : Outlives c calls c where
  state := rfl
  scope := rfl
  retired := rfl
  told := ⟨[], by rw [List.append_nil], nofun⟩
  snapshots _ _ := .inl
  deleted _ := .inl

theorem Outlives.mono {others : List Call} (subset : calls ⊆ others) (outlives : Outlives c calls after) :
    Outlives c others after where
  state := outlives.state
  scope := outlives.scope
  retired := outlives.retired
  told :=
    outlives.told.imp fun _ ⟨session, deletions⟩ =>
      ⟨session, fun call member => (deletions call member).imp fun _ h => ⟨h.1, h.2.mono subset⟩⟩
  snapshots p s now := (outlives.snapshots p s now).imp_right fun h => ⟨h.1, h.2.mono subset⟩
  deleted p now := (outlives.deleted p now).imp_right fun ⟨q, same, deleting⟩ => ⟨q, same, deleting.mono subset⟩

theorem Outlives.trans (first : Outlives c calls m) (second : Outlives m calls after) : Outlives c calls after where
  state := second.state.trans first.state
  scope := second.scope.trans first.scope
  retired := second.retired.trans first.retired
  told := by
    obtain ⟨early, session, before⟩ := first.told
    obtain ⟨late, session', behind⟩ := second.told
    refine ⟨early ++ late, ?_, fun call member => ?_⟩
    · rw [session', session, List.append_assoc]
    · exact (List.mem_append.mp member).elim (before call) (behind call)
  snapshots p s now := (second.snapshots p s now).elim (first.snapshots p s) .inr
  deleted p now := (second.deleted p now).elim (first.deleted p) .inr

/-- What one call preserves of a disposed service. A client's is refused, a second disposal does nothing,
a deletion is recorded and told, and questions of the engine are answered as ever. -/
theorem applied_outlives (disposed : c.disposed = true) (call : Call) : Outlives c [call] (c.applied call) := by
  obtain ⟨env, operation⟩ := call
  by_cases needs : operation.needsLife = true
  · have refused : c.applied ⟨env, operation⟩ = c := congrArg Prod.snd (operation.refused disposed needs env)
    rw [refused]
    exact .refl c _
  · cases operation with
    | delete p =>
      have deleting : Deleting [⟨env, .delete p⟩] p := ⟨_, List.mem_singleton_self _, rfl⟩
      refine ⟨rfl, rfl, rfl, ⟨[.forget p], rfl, ?_⟩, fun q s now => ?_, fun q now => ?_⟩
      · rintro call (_ | ⟨_, ⟨⟩⟩)
        exact ⟨p, rfl, deleting⟩
      · have now : (c.overlay.snapshots.delete p).get? q = some s := now
        rw [SnapshotTable.get?_delete] at now
        split at now
        · cases now
        · exact .inl now
      · have now : (c.overlay.snapshots.delete p).isDeleted q = true := now
        rw [SnapshotTable.isDeleted_delete, Bool.or_eq_true] at now
        exact now.symm.imp_right fun same => ⟨p, same, deleting⟩
    | dispose =>
      have same : c.applied ⟨env, .dispose⟩ = c := dispose_of_disposed disposed
      rw [same]
      exact .refl c _
    | probe question =>
      obtain ⟨m, demands, snapshots⟩ := Overlay.asked_demands env c.overlay question
      have steady := Overlay.asked_steady env c.overlay question
      refine ⟨rfl, steady.agrees.scope.symm, rfl, (Outlives.refl c _).told, fun p s now => ?_, fun p now => ?_⟩
      · have now : (c.overlay.asked env question).snapshots.get? p = some s := now
        rw [snapshots] at now
        refine (demands.get?_cases now).imp_right fun ⟨same, built⟩ => ⟨same, ?_⟩
        exact ⟨_, List.mem_singleton_self _, ⟨question, rfl⟩, built⟩
      · exact .inl ((steady.agrees.deleted p).trans now)
    | invalidatePath p => exact ⟨rfl, rfl, rfl, (Outlives.refl c _).told, fun _ _ => .inl, fun _ => .inl⟩
    | invalidateUnresolved p => exact ⟨rfl, rfl, rfl, (Outlives.refl c _).told, fun _ _ => .inl, fun _ => .inl⟩
    | _ => exact absurd rfl needs

theorem run_outlives (disposed : c.disposed = true) (calls : List Call) : Outlives c calls (c.run calls) := by
  induction calls generalizing c with
  | nil => exact .refl c []
  | cons call rest ih =>
    have first := applied_outlives disposed call
    have still : (c.applied call).disposed = true := by rw [Container.disposed, first.state]; exact disposed
    exact (first.mono (by simp)).trans ((ih still).mono (List.subset_cons_self ..))

theorem Quiets.scope (quiets : Quiets env c after) : after.scope = c.scope := by
  induction quiets with
  | refl => rfl
  | tail _ quiet ih =>
    refine Eq.trans ?_ ih
    cases quiet with
    | looked look => cases look <;> rfl
    | _ => rfl

theorem store_scope (s : Snapshot) (c : Container) : (c.store s).scope = c.scope := by
  unfold store
  split
  · split <;> rfl
  · rfl

theorem dispose_scope (c : Container) : c.dispose.scope = c.scope := by
  unfold dispose
  split <;> rfl

theorem effect_scope {α : Type} {answer : Except Failure α} (effect : Effect env c operation answer after) :
    after.scope = c.scope := by
  cases effect with
  | quiet unrefused changes => exact changes.scope
  | stored unrefused live cause built changes => exact changes.scope.trans (store_scope _ c)
  | disposed => exact dispose_scope c
  | _ => rfl

theorem run_scope (scope : Config.Scope) (calls : List Call) : ((ofScope scope).run calls).scope = scope := by
  suffices same : ∀ c : Container, (c.run calls).scope = c.scope from same (ofScope scope)
  intro c
  induction calls generalizing c with
  | nil => rfl
  | cons call rest ih => exact (ih (c.applied call)).trans (effect_scope (c.applied_effect call))

theorem dispose_empty (live : c.disposed = false) (p : Path) :
    c.dispose.snapshot? p = none ∧ c.dispose.overlay.snapshots.isDeleted p = false := by
  unfold dispose
  rw [live]
  exact ⟨rfl, rfl⟩

/-- Whatever is called after the disposal of a service, in any order. It stays disposed and refuses its
clients, who change nothing. No session is started, and none is called again, but to be told of a path that
is deleted even then. No path is deleted but by such a call. The only snapshots are of components that were
built from the disk since, as the engine asked for them: there are none as long as it does not. -/
theorem disposed_for_good (scope : Config.Scope) (before after : List Call)
    (live : ((ofScope scope).run before).disposed = false) :
    let ended := ((ofScope scope).run before).dispose
    let c := ended.run after
    c.state = .disposed ∧
    (∀ (env : Surroundings) (operation : Operation), operation.needsLife = true →
      operation.action env c = (.error (.error (.disposed scope.id)), c)) ∧
    c.retired = ended.retired ∧
    (∃ more, c.session = { ended.session with calls := ended.session.calls ++ more } ∧
      ∀ call ∈ more, ∃ p, call = .forget p ∧ Deleting after p) ∧
    (∀ p s, c.snapshot? p = some s →
      s.path.same p = true ∧ s.provenance = .disk ∧ s.version = 0 ∧ Demanding after s) ∧
    ∀ p, c.overlay.snapshots.isDeleted p = true → ∃ q, q.same p = true ∧ Deleting after q := by
  intro ended c
  have disposed : ended.disposed = true := dispose_disposed _
  have outlives : Outlives ended after c := run_outlives disposed after
  have state : c.state = .disposed := outlives.state.trans (of_decide_eq_true disposed)
  have identity : c.scope = scope := outlives.scope.trans ((dispose_scope _).trans (run_scope scope before))
  refine ⟨state, fun env operation needs => ?_, outlives.retired, outlives.told, fun p s now => ?_, fun p now => ?_⟩
  · rw [operation.refused (decide_eq_true state) needs, identity]
  · rcases outlives.snapshots p s now with held | ⟨same, demanding⟩
    · rw [(dispose_empty live p).1] at held
      cases held
    · exact ⟨same, demanding.fromDisk.1, demanding.fromDisk.2, demanding⟩
  · rcases outlives.deleted p now with before | deleting
    · rw [(dispose_empty live p).2] at before
      cases before
    · exact deleting

/-- A service that has a snapshot is disposed, and asked for it by a client and by the engine. -/
theorem disposed_for_good_asked :
    let p : Path := ⟨"/a.ts"⟩
    let opened : Call := ⟨Overlay.sampleDisk, .openPath p⟩
    let read : Call := ⟨Overlay.sampleDisk, .probe (.shownText p)⟩
    ((ofScope sampleScope).run [opened]).disposed = false ∧
      (((ofScope sampleScope).run [opened]).snapshot? p).isSome = true ∧
      ((((ofScope sampleScope).run [opened]).dispose).run [opened, read]).snapshot? p = none := by
  intro p opened read
  have live : ((ofScope sampleScope).run [opened]).disposed = false := by decide +kernel
  refine ⟨live, by decide +kernel, ?_⟩
  obtain ⟨-, -, -, -, built, -⟩ := disposed_for_good sampleScope [opened] [opened, read] live
  cases now : ((((ofScope sampleScope).run [opened]).dispose).run [opened, read]).snapshot? p with
  | none => rfl
  | some s =>
    -- a script is no component, so nobody can have demanded it
    obtain ⟨same, -, -, call, -, -, demanded⟩ := built p s now
    have component := demanded.component
    rw [Path.isComponent_congr same] at component
    exact absurd component (by decide)

/-- The engine asks a disposed service for the kind of a component, and the component gets a snapshot. -/
theorem component_built_after_disposal :
    let ended := ((ofScope sampleScope).run []).dispose
    let c := ended.run [⟨Overlay.sampleDisk, .probe (.scriptKind ⟨"/Good.svelte"⟩)⟩]
    ended.overlay.snapshots.size = 0 ∧ c.state = .disposed ∧ c.overlay.snapshots.size = 1 ∧
      (c.snapshot? ⟨"/Good.svelte"⟩).isSome = true := by
  decide +kernel

end Container
end SvelteLens.Service
