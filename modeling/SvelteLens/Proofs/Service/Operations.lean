import SvelteLens.Proofs.Basics
import SvelteLens.Proofs.Service.Looks
import SvelteLens.Service.Container

/-! Everything that can be asked of a service, and what each operation can do to it. Most of it is
quiet: components without a snapshot are built, kept answers come and go, and the session is
called. Beyond that an operation stores one snapshot at most, or lifts a deletion, or deletes, or
disposes. -/
namespace SvelteLens.Service

open SvelteLens.Service.Action (Ends)
open Relation (ReflTransGen)
open Overlay (not_refused_ok not_refused_fault)

inductive Probe where
  | snapshot (p : Path)
  | fileExists (p : Path)
  | shownText (p : Path)
  | scriptKind (p : Path)
  | scriptVersion (p : Path)
  | resolveModule (specifier : String) (importer : Path)

def Probe.action (env : Surroundings) : Probe → Action Overlay Unit
  | .snapshot p => do let _ ← Overlay.snapshot env p
  | .fileExists p => do let _ ← Overlay.fileExists env p
  | .shownText p => do let _ ← Overlay.shownText env p
  | .scriptKind p => do let _ ← Overlay.scriptKind env p
  | .scriptVersion p => do let _ ← Overlay.scriptVersion env p
  | .resolveModule specifier importer => do let _ ← Overlay.resolveModule env specifier importer

namespace Container

/-- What can be asked of a service. What the engine asks of the overlay while it answers a query or
starts up is a probe after that operation, or after one that opens the path of the query. -/
inductive Operation where
  | openPath (p : Path)
  | openDocument (file : SourceFile)
  | fileChanged (p : Path) (change : FileChange)
  | diagnostics (report : Overlay → List Diagnostic) (p : Path)
  | completions (report : Nat → List Completion) (p : Path) (offset : Nat)
  | definition (report : Nat → List Location) (p : Path) (offset : Nat)
  | delete (p : Path)
  | dispose
  | probe (question : Probe)
  | invalidatePath (p : Path)
  | invalidateUnresolved (p : Path)

namespace Operation

def action (env : Surroundings) : Operation → Action Container Unit
  | .openPath p => do let _ ← Container.openPath env p
  | .openDocument file => do let _ ← Container.openDocument env file
  | .fileChanged p change => Container.fileChanged env p change
  | .diagnostics report p => do let _ ← Container.diagnostics env report p
  | .completions report p offset => do let _ ← Container.completions env report p offset
  | .definition report p offset => do let _ ← Container.definition env report p offset
  | .delete p => modify (Container.delete p)
  | .dispose => modify Container.dispose
  | .probe question => onOverlay (question.action env)
  | .invalidatePath p => modify (withOverlay (Overlay.invalidatePath p))
  | .invalidateUnresolved p => modify (withOverlay (Overlay.invalidateUnresolved p))

def asked? : Operation → Option Path
  | .openPath p | .diagnostics _ p | .completions _ p _ | .definition _ p _ => some p
  | _ => none

/-- Why an operation stores a snapshot: its path has none, an editor sends a version that is not
held, or the disk has new contents for what was read from the disk. -/
inductive Stores (c : Container) (s : Snapshot) : Operation → Prop where
  | asked {operation : Operation} (asks : operation.asked? = some s.path) (absent : c.snapshot? s.path = none)
      (origin : s.provenance = .disk) (version : s.version = 0) : Stores c s operation
  | edited {file : SourceFile} (path : s.path = file.path) (version : s.version = file.version)
      (origin : s.provenance = .editor)
      (new : ∀ held, c.snapshot? file.path = some held → ¬(held.version = file.version ∧ held.provenance = .editor)) :
      Stores c s (.openDocument file)
  | reread {p : Path} {held : Snapshot} (path : s.path = p) (found : c.snapshot? p = some held)
      (before : held.provenance = .disk) (origin : s.provenance = .disk) (version : s.version = 0) :
      Stores c s (.fileChanged p .changed)

end Operation

/-- An effect that neither takes a snapshot away nor touches the life of a session. -/
inductive Quiet (env : Surroundings) : Container → Container → Prop where
  | looked {c : Container} {o : Overlay} (look : Overlay.Look env c.overlay o) : Quiet env c { c with overlay := o }
  | called {c : Container} (call : Session.Call) (running : call ≠ .dispose) : Quiet env c (c.withSession (·.call call))
  | forgot {c : Container} (p : Path) : Quiet env c (c.withOverlay (Overlay.invalidatePath p))
  | retried {c : Container} (p : Path) : Quiet env c (c.withOverlay (Overlay.invalidateUnresolved p))

abbrev Quiets (env : Surroundings) : Container → Container → Prop := ReflTransGen (Quiet env)

def restore (p : Path) (c : Container) : Container :=
  c.withOverlay fun o => ({ o with snapshots := o.snapshots.restore p }).invalidateUnresolved p

/-- What an operation answers and what it leaves. -/
inductive Effect (env : Surroundings) (c : Container) (operation : Operation) {α : Type} :
    Except Failure α → Container → Prop where
  | refused (e : ServiceError) : Effect env c operation (.error (.error e)) c
  | unread (e : ServiceError) {p : Path} (changed : operation = .fileChanged p .changed) :
      Effect env c operation (.error (.error e)) (c.withOverlay (Overlay.invalidatePath p))
  | quiet {answer : Except Failure α} {after : Container} (unrefused : ¬Refused answer)
      (changes : Quiets env c after) : Effect env c operation answer after
  | stored {answer : Except Failure α} {after : Container} {s : Snapshot} {file : SourceFile}
      (unrefused : ¬Refused answer) (live : c.disposed = false) (cause : operation.Stores c s)
      (built : env.build c.overlay.clock file s.provenance = .ok s)
      (changes : Quiets env (c.store s) after) : Effect env c operation answer after
  | restored {answer : Except Failure α} {p : Path} (unrefused : ¬Refused answer) (live : c.disposed = false)
      (created : operation = .fileChanged p .created) : Effect env c operation answer (c.restore p)
  | deleted {answer : Except Failure α} {p : Path} (unrefused : ¬Refused answer)
      (deletes : operation = .delete p ∨ operation = .fileChanged p .deleted ∧ c.disposed = false) :
      Effect env c operation answer (c.delete p)
  | disposed {answer : Except Failure α} (unrefused : ¬Refused answer) (disposes : operation = .dispose) :
      Effect env c operation answer c.dispose

variable {env : Surroundings} {c : Container} {operation : Operation} {α β : Type}

/-- A request for a snapshot fails and changes nothing, finds the snapshot, or stores it. -/
inductive Updated (env : Surroundings) (c : Container) (operation : Operation) :
    Except Failure Snapshot → Container → Prop where
  | failed (failure : Failure) : Updated env c operation (.error failure) c
  | held (s : Snapshot) : Updated env c operation (.ok s) c
  | stored {s : Snapshot} {file : SourceFile} (live : c.disposed = false) (cause : operation.Stores c s)
      (built : env.build c.overlay.clock file s.provenance = .ok s) : Updated env c operation (.ok s) (c.store s)

theorem Updated.failure {failure : Failure} {m : Container} (h : Updated env c operation (.error failure) m) :
    Effect env c operation (.error failure : Except Failure α) m := by
  cases h
  cases failure with
  | error e => exact .refused e
  | fault message => exact .quiet (not_refused_fault message) .refl

theorem Updated.effect {s : Snapshot} {m after : Container} {answer : Except Failure α}
    (h : Updated env c operation (.ok s) m) (unrefused : ¬Refused answer) (changes : Quiets env m after) :
    Effect env c operation answer after := by
  cases h with
  | held => exact .quiet unrefused changes
  | stored live cause built => exact .stored unrefused live cause built changes

/-- The end of an action that goes on quietly and answers without an error. -/
def Settled (env : Surroundings) (c : Container) (answer : Except Failure α) (after : Container) : Prop :=
  ¬Refused answer ∧ Quiets env c after

theorem Settled.stay (a : α) : Settled env c (.ok a) c := ⟨not_refused_ok a, .refl⟩

theorem updated_effect {x : Action Container Snapshot} (h : Ends (Updated env c operation) x c) :
    Ends (Effect env c operation) x c := by
  refine h.imp fun answer m updated => ?_
  cases answer with
  | ok s => exact updated.effect (not_refused_ok s) .refl
  | error failure => exact updated.failure

theorem updated_bind {x : Action Container Snapshot} {f : Snapshot → Action Container α}
    (first : Ends (Updated env c operation) x c) (next : ∀ s m, Ends (Settled env m) (f s) m) :
    Ends (Effect env c operation) (x >>= f) c :=
  first.bind (fun _ _ failed => failed.failure) fun s m updated =>
    (next s m).imp fun _ _ ⟨unrefused, changes⟩ => updated.effect unrefused changes

theorem requireLive_eq (c : Container) :
    requireLive c = (if c.disposed then .error (.error (.disposed c.scope.id)) else .ok (), c) := by
  change (if c.disposed then throw (.error (.disposed c.scope.id)) else pure () : Action Container Unit) c = _
  split <;> rfl

theorem requireLive_passed {P : Except Failure α → Container → Prop} {f : Unit → Action Container α}
    (live : c.disposed = false) (next : Ends P (f ()) c) : Ends P (requireLive >>= f) c := by
  have run := requireLive_eq c
  rw [live] at run
  simpa only [Ends, Action.bind_ok run] using next

theorem requireLive_bind {P : Except Failure α → Container → Prop} {f : Unit → Action Container α}
    (refused : P (.error (.error (.disposed c.scope.id))) c) (live : c.disposed = false → Ends P (f ()) c) :
    Ends P (requireLive >>= f) c := by
  cases disposed : c.disposed with
  | true =>
    have run := requireLive_eq c
    rw [disposed] at run
    simpa only [Ends, Action.bind_error run] using refused
  | false => exact requireLive_passed disposed (live disposed)

theorem install_ends {file : SourceFile} {provenance : Provenance} (live : c.disposed = false)
    (cause : ∀ s : Snapshot, s.path = file.path → s.version = file.version → s.provenance = provenance →
      operation.Stores c s) : Ends (Updated env c operation) (install env file provenance) c := by
  refine .get_bind ?_
  split
  · next s built =>
    obtain ⟨-, path, version, origin⟩ := Surroundings.build_ok built
    subst origin
    exact .modify_bind (.pure (.stored live (cause s path version rfl) built))
  · exact .throw (.failed _)

theorem installFromDisk_ends {p : Path} (live : c.disposed = false)
    (cause : ∀ s : Snapshot, s.path = p → s.provenance = .disk → s.version = 0 → operation.Stores c s) :
    Ends (Updated env c operation) (installFromDisk env p) c := by
  unfold installFromDisk
  split
  · next file opened =>
    obtain ⟨text, -, rfl⟩ := Option.map_eq_some_iff.mp opened
    exact install_ends live fun s path version origin => cause s path origin version
  · exact .throw (.failed _)

theorem openPath_ends {p : Path} (asks : operation.asked? = some p) :
    Ends (Updated env c operation) (openPath env p) c := by
  refine requireLive_bind (.failed _) fun live => .get_bind ?_
  split
  · exact .pure (.held _)
  · next absent =>
    refine installFromDisk_ends live fun s path origin version => ?_
    subst path
    exact .asked asks absent origin version

theorem openDocument_ends (env : Surroundings) (file : SourceFile) (c : Container) :
    Ends (Updated env c (.openDocument file)) (openDocument env file) c := by
  refine requireLive_bind (.failed _) fun live => .get_bind ?_
  dsimp only
  split
  · next s held =>
    split
    · exact .pure (.held _)
    · next new =>
      refine install_ends live fun s path version origin => .edited path version origin ?_
      intro other found
      cases held.symm.trans found
      exact new
  · next absent =>
    refine install_ends live fun s path version origin => .edited path version origin ?_
    intro other found
    exact absurd found (absent other)

theorem looks_quiets {o : Overlay} (looks : Overlay.Looks env c.overlay o) : Quiets env c { c with overlay := o } :=
  ReflTransGen.lift (p := Quiet env) (fun o => { c with overlay := o }) (fun _ _ look => .looked look) _ _ looks

theorem onOverlay_settled {x : Action Overlay α} (h : Ends (Overlay.Looked env c.overlay) x c.overlay) :
    Ends (Settled env c) (onOverlay x) c :=
  ⟨h.unrefused, looks_quiets h.looks⟩

theorem placedLocations_looked (env : Surroundings) (locations : List Location) (o : Overlay) :
    Ends (Overlay.Looked env o) (placedLocations env locations) o := by
  induction locations generalizing o with
  | nil => exact .pure (.stay _)
  | cons l rest ih =>
    refine Overlay.looked_bind (Overlay.snapshot_looked env l.path o) fun found m => ?_
    exact Overlay.looked_bind (ih m) fun more m => .pure (.stay _)

theorem Probe.action_looked (env : Surroundings) (probe : Probe) (o : Overlay) :
    Ends (Overlay.Looked env o) (probe.action env) o := by
  cases probe with
  | snapshot p => exact Overlay.looked_bind (Overlay.snapshot_looked env p o) fun _ _ => .pure (.stay _)
  | fileExists p =>
    exact Overlay.looked_bind ((Overlay.fileExists_ends env p o).imp fun _ _ h => h.1) fun _ _ => .pure (.stay _)
  | shownText p => exact Overlay.looked_bind (Overlay.shownText_looked env p o) fun _ _ => .pure (.stay _)
  | scriptKind p => exact Overlay.looked_bind (Overlay.scriptKind_looked env p o) fun _ _ => .pure (.stay _)
  | scriptVersion p => exact Overlay.looked_bind (Overlay.scriptVersion_looked env p o) fun _ _ => .pure (.stay _)
  | resolveModule specifier importer =>
    exact Overlay.looked_bind ((Overlay.resolveModule_ends env specifier importer o).imp fun _ _ h => h.1)
      fun _ _ => .pure (.stay _)

theorem refused_of_map {answer : Except Failure α} {f : α → β} (h : Refused (answer.map f)) : Refused answer := by
  obtain ⟨e, same⟩ := h
  exact ⟨e, map_eq_error.mp same⟩

theorem Effect.map {answer : Except Failure α} {after : Container} (f : α → β)
    (h : Effect env c operation answer after) : Effect env c operation (answer.map f) after := by
  cases h with
  | refused e => exact .refused e
  | unread e changed => exact .unread e changed
  | quiet unrefused changes => exact .quiet (mt refused_of_map unrefused) changes
  | stored unrefused live cause built changes => exact .stored (mt refused_of_map unrefused) live cause built changes
  | restored unrefused live created => exact .restored (mt refused_of_map unrefused) live created
  | deleted unrefused deletes => exact .deleted (mt refused_of_map unrefused) deletes
  | disposed unrefused disposes => exact .disposed (mt refused_of_map unrefused) disposes

theorem effect_discard {x : Action Container α} (h : Ends (Effect env c operation) x c) :
    Ends (Effect env c operation) (x >>= fun _ => pure ()) c :=
  h.bind (fun _ _ failed => failed.map fun _ => ()) fun _ _ done => done.map fun _ => ()

theorem diagnostics_effect (report : Overlay → List Diagnostic) (p : Path) :
    Ends (Effect env c (.diagnostics report p)) (diagnostics env report p) c := by
  refine updated_bind (openPath_ends rfl) fun s m => .modify_bind (.get_bind (.pure ?_))
  exact ⟨not_refused_ok _, .single (.called _ nofun)⟩

theorem completions_effect (report : Nat → List Completion) (p : Path) (offset : Nat) :
    Ends (Effect env c (.completions report p offset)) (completions env report p offset) c := by
  refine updated_bind (openPath_ends rfl) fun s m => ?_
  split
  · exact .pure (.stay _)
  · exact .modify_bind (.pure ⟨not_refused_ok _, .single (.called _ nofun)⟩)

theorem definition_effect (report : Nat → List Location) (p : Path) (offset : Nat) :
    Ends (Effect env c (.definition report p offset)) (definition env report p offset) c := by
  refine updated_bind (openPath_ends rfl) fun s m => ?_
  split
  · exact .pure (.stay _)
  · next projected _ =>
    refine .modify_bind ?_
    have called : Quiets env m (m.withSession (·.call (.definition p projected))) := .single (.called _ nofun)
    refine (onOverlay_settled (placedLocations_looked env _ _)).bind ?_ fun found n ⟨_, changes⟩ => ?_
    · rintro failure n ⟨unrefused, changes⟩
      refine ⟨?_, called.trans changes⟩
      rintro ⟨e, same⟩
      cases same
      exact unrefused ⟨e, rfl⟩
    · exact .pure ⟨not_refused_ok _, called.trans changes⟩

/-- Reading a file again forgets what led to it. Nothing else is forgotten, as the file had a
snapshot. -/
theorem store_invalidatePath {s held : Snapshot} (found : c.snapshot? s.path = some held) (p : Path) :
    (c.withOverlay (Overlay.invalidatePath p)).store s = (c.store s).withOverlay (Overlay.invalidatePath p) := by
  have same : (c.withOverlay (Overlay.invalidatePath p)).snapshot? s.path = some held := found
  simp only [store, same, found]
  split <;> rfl

theorem fileChanged_effect (p : Path) (change : FileChange) :
    Ends (Effect env c (.fileChanged p change)) (fileChanged env p change) c := by
  refine requireLive_bind (.refused _) fun live => ?_
  cases change with
  | created => exact .restored (not_refused_ok _) live rfl
  | deleted => exact .deleted (not_refused_ok _) (.inr ⟨rfl, live⟩)
  | changed =>
    refine .modify_bind (.get_bind ?_)
    dsimp only
    have forgot : Quiets env c (c.withOverlay (Overlay.invalidatePath p)) := .single (.forgot p)
    have told (m : Container) : Quiets env m (m.withSession (·.call (.forget p))) := .single (.called _ nofun)
    split
    · next fromDisk =>
      obtain ⟨held, found, before⟩ := (Option.any_eq_true _ _).mp fromDisk
      have found : c.snapshot? p = some held := found
      have before : held.provenance = .disk := of_decide_eq_true before
      have reads : Ends (Updated env (c.withOverlay (Overlay.invalidatePath p)) (.fileChanged p .changed))
          (installFromDisk env p) (c.withOverlay (Overlay.invalidatePath p)) :=
        installFromDisk_ends live fun s path origin version => .reread path found before origin version
      refine reads.bind ?_ fun s m updated => .modify_bind (.pure ?_)
      · rintro failure m ⟨⟩
        cases failure with
        | error e => exact .unread e rfl
        | fault message => exact .quiet (not_refused_fault message) forgot
      · cases updated with
        | held => exact .quiet (not_refused_ok _) (forgot.trans (told _))
        | stored _ cause built =>
          cases cause with
          | asked asks => cases asks
          | reread path held _ origin version =>
            subst path
            rw [store_invalidatePath found]
            exact .stored (not_refused_ok _) live (.reread rfl found before origin version) built
              (.head (.forgot _) (told _))
    · exact .modify_bind (.pure (.quiet (not_refused_ok _) (forgot.trans (told _))))

theorem Operation.action_effect (env : Surroundings) (operation : Operation) (c : Container) :
    Ends (Effect env c operation) (operation.action env) c := by
  cases operation with
  | openPath p => exact effect_discard (updated_effect (openPath_ends rfl))
  | openDocument file => exact effect_discard (updated_effect (openDocument_ends env file c))
  | fileChanged p change => exact fileChanged_effect p change
  | diagnostics report p => exact effect_discard (diagnostics_effect report p)
  | completions report p offset => exact effect_discard (completions_effect report p offset)
  | definition report p offset => exact effect_discard (definition_effect report p offset)
  | delete p => exact .deleted (not_refused_ok _) (.inl rfl)
  | dispose => exact .disposed (not_refused_ok _) rfl
  | probe question =>
    obtain ⟨unrefused, changes⟩ := onOverlay_settled (c := c) (Probe.action_looked env question c.overlay)
    exact .quiet unrefused changes
  | invalidatePath p => exact .quiet (not_refused_ok _) (.single (.forgot p))
  | invalidateUnresolved p => exact .quiet (not_refused_ok _) (.single (.retried p))

/-- One operation, with the files and the parsers that it meets. -/
structure Call where
  surroundings : Surroundings
  operation : Operation

def applied (c : Container) (call : Call) : Container := (call.operation.action call.surroundings c).2

def run (c : Container) (calls : List Call) : Container := calls.foldl applied c

theorem applied_effect (c : Container) (call : Call) :
    Effect call.surroundings c call.operation (call.operation.action call.surroundings c).1 (c.applied call) :=
  call.operation.action_effect call.surroundings c

theorem Quiet.keeps {m : Container} {p : Path} {s : Snapshot} (quiet : Quiet env c m) (held : c.snapshot? p = some s) :
    m.snapshot? p = some s := by
  cases quiet with
  | looked look => exact look.keeps held
  | called => exact held
  | forgot => exact held
  | retried => exact held

theorem Quiets.keeps {m : Container} {p : Path} {s : Snapshot} (quiets : Quiets env c m)
    (held : c.snapshot? p = some s) : m.snapshot? p = some s := by
  induction quiets with
  | refl => exact held
  | tail _ quiet ih => exact quiet.keeps ih

/-- A stored snapshot is the one of its path, and all others stay. -/
@[simp] theorem snapshot?_store (s : Snapshot) (c : Container) (p : Path) :
    (c.store s).snapshot? p = if s.path.same p then some s else c.snapshot? p := by
  unfold store
  split
  · split <;> exact SnapshotTable.get?_set ..
  · exact SnapshotTable.get?_set ..

end Container

def sampleScope : Config.Scope := { Config.Scope.fallback .inferred ⟨"/"⟩ with declared := [⟨"/a.ts"⟩] }

def sampleSurroundings : Surroundings where
  markup := .ofText fun _ => .error (.refused "no markup")
  script _ _ := none
  files := Path.Table.ofEntries [(⟨"/a.ts"⟩, .text "export {};")]

end SvelteLens.Service
