import SvelteLens.Service.Container

/-! The services of all projects. A file leads to the scope that governs it, and every scope gets
one service, made when it is first asked for.

Making a service takes the scope's configuration, which may take a while to load. Requests that
come meanwhile for the same scope wait for the same service. The registry may be cleared at any
time; a service that was made for a scope which is no longer registered is disposed, and each
request that finds it starts over. -/
namespace SvelteLens.Service

open Config

/-- How scopes are found and loaded. A scope that cannot be loaded gets default settings. -/
structure Discovery where
  findConfig : (roots : List Path) → Path → ScopeId
  load : ScopeId → (fallback : Path) → Option Scope

structure Registry where
  roots : List Path
  /-- The place of each scope's service. The places count on, also past those that were cleared. -/
  registered : List (ScopeId × Nat)
  /-- What is at each place: a service, by its number, once it has been made. -/
  places : List (Option Nat)
  /-- Every service that was ever made, the first one first. -/
  containers : List Container
  /-- How many configurations were asked for. -/
  loads : Nat
  deriving DecidableEq, Repr, Inhabited

/-- How far a request for the service of a scope has come. -/
inductive Progress where
  /-- It loads the configuration for a place. -/
  | loading (place : Nat)
  /-- It waits until another request has made the service at a place. -/
  | waiting (place : Nat)
  | done (container : Nat)
  deriving DecidableEq, Repr, Inhabited

structure Request where
  path : Path
  scope : ScopeId
  progress : Progress
  deriving DecidableEq, Repr, Inhabited

/-- Where a scope is in its life, as it is seen between calls. A service is rebuilding within a call only. -/
inductive ScopeState where
  | uninitialized
  | initializing
  | ready
  | disposed
  deriving DecidableEq, Repr, Inhabited

namespace Registry

def ofRoots (roots : List Path) : Registry := ⟨roots, [], [], [], 0⟩

def place? (r : Registry) (scope : ScopeId) : Option Nat :=
  (r.registered.find? (·.1.same scope)).map Prod.snd

def made? (r : Registry) (place : Nat) : Option Nat := r.places[place]?.join

def modifyContainer (r : Registry) (n : Nat) (f : Container → Container) : Registry :=
  { r with containers := r.containers.modify n f }

/-- Asks for the service of a scope. The first to ask loads the configuration. -/
def enter (r : Registry) (scope : ScopeId) : Registry × Progress :=
  match r.place? scope with
  | some place =>
    match r.made? place with
    | some n => (r, .done n)
    | none => (r, .waiting place)
  | none =>
    ({ r with
        registered := r.registered ++ [(scope, r.places.length)]
        places := r.places ++ [none]
        loads := r.loads + 1 }, .loading r.places.length)

def make (discovery : Discovery) (r : Registry) (path : Path) (scope : ScopeId) (place : Nat) :
    Registry × Nat :=
  let fallback := fallbackRoot r.roots path
  let loaded := (discovery.load scope fallback).getD (Scope.fallback scope fallback)
  ({ r with
      containers := r.containers ++ [Container.ofScope loaded]
      places := r.places.set place (some r.containers.length) }, r.containers.length)

/-- Takes the service at a place if the scope still has that place. Otherwise the service is
disposed, and the request starts over. -/
def claim (r : Registry) (scope : ScopeId) (place n : Nat) : Registry × Progress :=
  if r.place? scope = some place then (r, .done n)
  else (r.modifyContainer n Container.dispose).enter scope

/-- Lets a request go on: its configuration has been loaded, or the service that it waits for may
have been made. -/
def resume (discovery : Discovery) (r : Registry) (request : Request) : Registry × Progress :=
  match request.progress with
  | .loading place =>
    let (r, n) := make discovery r request.path request.scope place
    r.claim request.scope place n
  | .waiting place =>
    match r.made? place with
    | some n => r.claim request.scope place n
    | none => (r, .waiting place)
  | .done n => (r, .done n)

def request (discovery : Discovery) (r : Registry) (path : Path) : Registry × Request :=
  let scope := discovery.findConfig r.roots path
  let (r, progress) := r.enter scope
  (r, ⟨path, scope, progress⟩)

/-- Lets a request run while every configuration loads at once. A request that starts over loads
once more at most, for then its scope is registered. -/
def run (discovery : Discovery) (r : Registry) (request : Request) : Registry × Request :=
  let (r, progress) := resume discovery r request
  match progress with
  | .loading _ =>
    let (r, progress) := resume discovery r { request with progress }
    (r, { request with progress })
  | progress => (r, { request with progress })

def runEach (discovery : Discovery) (r : Registry) : List Request → Registry × List Request
  | [] => (r, [])
  | request :: rest =>
    let (r, request) := run discovery r request
    let (r, rest) := runEach discovery r rest
    (r, request :: rest)

/-- Lets requests run until each has its service. In every round one more of them ends at least. -/
def runAll (discovery : Discovery) (r : Registry) (requests : List Request) : Registry × List Request :=
  (requests.length + 1).repeat (fun (r, requests) => runEach discovery r requests) (r, requests)

/-- The service that governs a file, when its configuration loads at once and no other request is
on its way to it. -/
def serviceFor (discovery : Discovery) (r : Registry) (path : Path) : Registry × Option Nat :=
  let (r, request) := r.request discovery path
  let (r, request) := run discovery r request
  match request.progress with
  | .done n => (r, some n)
  | _ => (r, none)

def existing? (r : Registry) (scope : ScopeId) : Option Nat := (r.place? scope).bind r.made?

def live (r : Registry) : List (ScopeId × Nat) :=
  r.registered.filterMap fun (scope, place) => (r.made? place).map fun n => (scope, n)

def onContainer (n : Nat) (action : Action Container α) : Action Registry (Option α) := fun r =>
  match r.containers[n]? with
  | none => (.ok none, r)
  | some c =>
    let (result, c) := action c
    (result.map some, { r with containers := r.containers.set n c })

/-- Takes an editor's buffer in, in the project that governs it. Gives the snapshot with the
number of its service. -/
def openDocument (discovery : Discovery) (env : Surroundings) (file : SourceFile) :
    Action Registry (Option (Nat × Snapshot)) := do
  let (r, service) := serviceFor discovery (← get) file.path
  set r
  match service with
  | none => return none
  | some n => return (← onContainer n (Container.openDocument env file)).map fun s => (n, s)

/-- Evicts a path from its project, and says whether it had a snapshot. No service is made. -/
def delete (discovery : Discovery) (r : Registry) (p : Path) : Registry × Bool :=
  match r.existing? (discovery.findConfig r.roots p) with
  | none => (r, false)
  | some n => (r.modifyContainer n (Container.delete p), (r.containers[n]?).any (·.snapshot? p |>.isSome))

/-- Hands a change on the disk to services in turn. An error is theirs alone; only a fault ends
the round. -/
def tellEach (env : Surroundings) (p : Path) (change : FileChange) : List Nat → Action Registry Unit
  | [] => return ()
  | n :: rest => do
    let (result, r) := onContainer n (Container.fileChanged env p change) (← get)
    set r
    match result with
    | .error (.fault message) => throw (.fault message)
    | _ => tellEach env p change rest

def fileChanged (env : Surroundings) (p : Path) (change : FileChange) : Action Registry Unit := do
  tellEach env p change ((← get).live.map Prod.snd)

def state (r : Registry) (scope : ScopeId) : ScopeState :=
  match r.place? scope with
  | none => .uninitialized
  | some place =>
    match (r.made? place).bind (r.containers[·]?) with
    | none => .initializing
    | some c => if c.disposed then .disposed else .ready

def disposeAll (r : Registry) : Registry :=
  r.live.foldl (fun r (_, n) => r.modifyContainer n Container.dispose) { r with registered := [] }

end Registry
end SvelteLens.Service
