import SvelteLens.Service.Overlay
import SvelteLens.Service.Session

/-! The service of one project: its files as an overlay, and one live session that checks them.
Reports of the session are handed on in source coordinates. -/
namespace SvelteLens.Service

inductive FileChange where
  | created
  | changed
  | deleted
  deriving DecidableEq, Repr, Inhabited

/-- Where a service is in its life. It is rebuilding while a new session takes the place of the
current one. -/
inductive Lifecycle where
  | ready
  | rebuilding
  | disposed
  deriving DecidableEq, Repr, Inhabited

structure Container where
  overlay : Overlay
  session : Session
  /-- The sessions before the current one, the first one first. -/
  retired : List Session
  state : Lifecycle
  deriving DecidableEq, Repr, Inhabited

/-- What came back for a position: the offset that the session was asked about, if it was, and
its answers. -/
structure Reply (α : Type) where
  asked : Option Nat
  items : List α
  deriving DecidableEq, Repr, Inhabited

namespace Container

def ofScope (scope : Config.Scope) : Container :=
  ⟨Overlay.ofScope scope, Session.start scope.settings.strict, [], .ready⟩

def disposed (c : Container) : Bool := c.state == .disposed

def scope (c : Container) : Config.Scope := c.overlay.scope

/-- Every session that was ever started, the first one first. -/
def sessions (c : Container) : List Session := c.retired ++ [c.session]

def snapshot? (c : Container) (p : Path) : Option Snapshot := c.overlay.snapshots.get? p

def withOverlay (f : Overlay → Overlay) (c : Container) : Container := { c with overlay := f c.overlay }

def withSession (f : Session → Session) (c : Container) : Container := { c with session := f c.session }

def onOverlay (action : Action Overlay α) : Action Container α := fun c =>
  let (result, overlay) := action c.overlay
  (result, { c with overlay })

def requireLive : Action Container Unit := do
  let c ← get
  if c.disposed then throw (.error (.disposed c.scope.id))

/-- Starts a new session and disposes the one before. Snapshots stay. -/
def renewSession (c : Container) : Container :=
  let c := { c with state := .rebuilding }
  let c := { c with
    session := Session.start c.scope.settings.strict
    retired := c.retired ++ [c.session.call .dispose] }
  { c with state := .ready }

/-- Makes a snapshot the current one of its path. A script of another kind needs a new session;
a path that had no snapshot may mend failed imports. -/
def store (s : Snapshot) (c : Container) : Container :=
  let stored := c.withOverlay fun o => { o with snapshots := o.snapshots.set s, clock := o.clock + 1 }
  match c.snapshot? s.path with
  | some previous => if previous.kind ≠ s.kind then stored.renewSession else stored
  | none => stored.withOverlay (Overlay.invalidateUnresolved s.path)

/-- Builds and stores a snapshot. When it cannot be built, nothing changes. -/
def install (env : Surroundings) (file : SourceFile) (provenance : Provenance) :
    Action Container Snapshot := do
  match env.build (← get).overlay.clock file provenance with
  | .ok s =>
    modify (store s)
    return s
  | .error failure => throw failure

def installFromDisk (env : Surroundings) (p : Path) : Action Container Snapshot := do
  match env.open? p with
  | some file => install env file .disk
  | none => throw (.error (.notFound p))

/-- The current snapshot of a path, read from the disk when there is none. -/
def openPath (env : Surroundings) (p : Path) : Action Container Snapshot := do
  requireLive
  match (← get).snapshot? p with
  | some s => return s
  | none => installFromDisk env p

/-- Takes an editor's buffer in. A version that is held already changes nothing. -/
def openDocument (env : Surroundings) (file : SourceFile) : Action Container Snapshot := do
  requireLive
  if let some s := (← get).snapshot? file.path then
    if s.version = file.version ∧ s.provenance = .editor then return s
  install env file .editor

def delete (p : Path) (c : Container) : Container :=
  (c.withOverlay fun o => ({ o with snapshots := o.snapshots.delete p }).invalidatePath p)
    |>.withSession (·.call (.forget p))

/-- Takes a change on the disk in. An open editor buffer keeps its snapshot. -/
def fileChanged (env : Surroundings) (p : Path) (change : FileChange) : Action Container Unit := do
  requireLive
  match change with
  | .created =>
    modify (withOverlay fun o =>
      ({ o with snapshots := o.snapshots.restore p }).invalidateUnresolved p)
  | .changed =>
    modify (withOverlay (Overlay.invalidatePath p))
    if ((← get).snapshot? p).any (·.provenance = .disk) then
      let _ ← installFromDisk env p
    modify (withSession (·.call (.forget p)))
  | .deleted => modify (delete p)

/-- The diagnostics of a path that the session reports on what the overlay shows it. -/
def diagnostics (env : Surroundings) (report : Overlay → List Diagnostic) (p : Path) :
    Action Container (List PlacedDiagnostic) := do
  let s ← openPath env p
  modify (withSession (·.call (.diagnostics p)))
  return (report (← get).overlay).filterMap (s.placed? p)

def completions (env : Surroundings) (report : Nat → List Completion) (p : Path) (offset : Nat) :
    Action Container (Reply Completion) := do
  let s ← openPath env p
  match s.projectedOffset? offset with
  | none => return ⟨none, []⟩
  | some projected =>
    modify (withSession (·.call (.completions p projected)))
    return ⟨some projected, (report projected).map s.placedCompletion⟩

/-- Locations in source coordinates, as far as their files have snapshots. Those in made-up text
are left out. -/
def placedLocations (env : Surroundings) : List Location → Action Overlay (List Location)
  | [] => return []
  | l :: rest => do
    let span := match ← Overlay.snapshot env l.path with
      | some s => s.sourceSpan? l.span
      | none => some l.span
    let rest ← placedLocations env rest
    return (span.map fun span => { l with span }).toList ++ rest

def definition (env : Surroundings) (report : Nat → List Location) (p : Path) (offset : Nat) :
    Action Container (Reply Location) := do
  let s ← openPath env p
  match s.projectedOffset? offset with
  | none => return ⟨none, []⟩
  | some projected =>
    modify (withSession (·.call (.definition p projected)))
    return ⟨some projected, ← onOverlay (placedLocations env (report projected))⟩

/-- Ends the session and drops all snapshots. A second time, nothing happens. -/
def dispose (c : Container) : Container :=
  if c.disposed then c
  else
    { c with state := .disposed }
      |>.withSession (·.call .dispose)
      |>.withOverlay fun o => { o with snapshots := o.snapshots.clear }

end Container
end SvelteLens.Service
