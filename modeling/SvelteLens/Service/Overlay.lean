import SvelteLens.Service.Ambient
import SvelteLens.Service.Building
import SvelteLens.Service.Resolution
import SvelteLens.Service.SnapshotTable

/-! The files as the checking engine reads them. Components show as their projections, ambient
declarations come from memory, and all else comes from the disk. A deleted path is missing until
a snapshot is stored for it. -/
namespace SvelteLens.Service

structure Resolved where
  specifier : String
  directory : Path
  target : Option Path
  deriving DecidableEq, Repr, Inhabited

structure Overlay where
  scope : Config.Scope
  snapshots : SnapshotTable
  resolutions : List Resolved
  /-- The stamp of the next snapshot. -/
  clock : Nat
  deriving DecidableEq, Repr, Inhabited

namespace Overlay

def ofScope (scope : Config.Scope) : Overlay := ⟨scope, SnapshotTable.ofDeclared scope.declared, [], 0⟩

/-- The current snapshot of a path. A component without one is projected from the disk; when that
fails there is no snapshot. -/
def snapshot (env : Surroundings) (p : Path) : Action Overlay (Option Snapshot) := do
  let o ← get
  if let some s := o.snapshots.get? p then return some s
  if !p.isComponent || o.snapshots.isDeleted p then return none
  let some file := env.open? p | return none
  match env.build o.clock file .disk with
  | .ok s =>
    set { o with snapshots := o.snapshots.insertIfAbsent s, clock := o.clock + 1 }
    return some s
  | .error (.error _) => return none
  | .error (.fault message) => throw (.fault message)

/-- Whether a path without a snapshot is to be looked up on the disk. -/
def readsDisk (o : Overlay) (p : Path) : Bool := !o.snapshots.isDeleted p && !p.isComponent

def fileExists (env : Surroundings) (p : Path) : Action Overlay Bool := do
  if (Ambient.text? p).isSome then return true
  if (← snapshot env p).isSome then return true
  return (← get).readsDisk p && env.files.isFile p

def shownText (env : Surroundings) (p : Path) : Action Overlay (Option String) := do
  if let some text := Ambient.text? p then return some text
  if let some s ← snapshot env p then return some s.projected
  return if (← get).readsDisk p then env.files.read? p else none

def scriptKind (env : Surroundings) (p : Path) : Action Overlay ScriptKind := do
  match ← snapshot env p with
  | some s => return s.kind
  | none => return if p.isComponent then ScriptKind.ofComponent false else ScriptKind.ofPath p

/-- Files that are read from the disk have no version. -/
def scriptVersion (env : Surroundings) (p : Path) : Action Overlay (Option Int) := do
  return (← snapshot env p).map (·.version)

/-- The ambient declarations, the declared files, then all others seen so far. -/
def scriptFiles (o : Overlay) : List Path := Ambient.paths ++ o.snapshots.files

def firstExisting (env : Surroundings) : List Path → Action Overlay (Option Path)
  | [] => return none
  | p :: rest => do if ← fileExists env p then return some p else firstExisting env rest

/-- Searches in one place after the other until something is found. -/
def firstFound {α : Type} (search : α → Action Overlay (Option Path)) : List α → Action Overlay (Option Path)
  | [] => return none
  | place :: rest => do
    if let some found ← search place then return some found
    firstFound search rest

/-- Tries a candidate as a file, as the script that was compiled to it, with each ending, then as a
directory with an index. -/
def resolveCandidate (env : Surroundings) (scope : Config.Scope) (candidate : Path) :
    Action Overlay (Option Path) := do
  let extended (base : String) := firstExisting env (Resolution.withEndings scope.settings.allowJs base)
  if candidate.extension?.isSome then
    if ← fileExists env candidate then return some candidate
  if let some script := Resolution.compiledEndings.findSome? (Resolution.stripEnding? candidate.text) then
    if let some found ← extended script then return some found
  if let some found ← extended candidate.text then return some found
  extended (candidate.join ⟨"index"⟩).text

/-- Tries the targets of all aliases that match, against the base directory or else the root. -/
def resolveAlias (env : Surroundings) (scope : Config.Scope) (specifier : String) :
    Action Overlay (Option Path) :=
  let base := scope.settings.baseUrl.getD scope.root
  firstFound (fun (pattern, targets) => do
      let some captured := Resolution.capture? pattern specifier | return none
      firstFound (fun target => resolveCandidate env scope
        (base.join ⟨Resolution.substitute target captured⟩).normalize) targets)
    scope.settings.aliases

/-- Tries the entries that a package's manifest names, then its index. -/
def resolvePackageEntry (env : Surroundings) (scope : Config.Scope) (package : Path) :
    Action Overlay (Option Path) := do
  if let some manifest := env.manifest? (package.join ⟨"package.json"⟩) then
    let named := firstFound (fun entry => resolveCandidate env scope (package.join ⟨entry⟩).normalize) manifest.entries
    if let some found ← named then return some found
  resolveCandidate env scope (package.join ⟨"index"⟩)

/-- Tries the packages of a directory and of those above it, a package proper before its typings. -/
def resolvePackage (env : Surroundings) (scope : Config.Scope) (specifier : String) (directory : Path) :
    Action Overlay (Option Path) := do
  let some (package, subpath) := Resolution.splitPackage? specifier | return none
  let inPackage (found : Path) := match subpath with
    | some subpath => resolveCandidate env scope (found.join ⟨subpath⟩)
    | none => resolvePackageEntry env scope found
  firstFound (fun above =>
      let modules := Path.join above ⟨"node_modules"⟩
      firstFound inPackage
        [modules.join ⟨package⟩, (modules.join ⟨"@types"⟩).join ⟨Resolution.typesName package⟩])
    directory.ancestors

def resolveUncached (env : Surroundings) (specifier : String) (directory : Path) :
    Action Overlay (Option Path) := do
  let scope := (← get).scope
  if Resolution.isRelative specifier then
    return ← resolveCandidate env scope (directory.join ⟨specifier⟩).normalize
  if (Path.mk specifier).isAbsolute then
    return ← resolveCandidate env scope (Path.mk specifier).normalize
  if let some found ← resolveAlias env scope specifier then return some found
  if let some base := scope.settings.baseUrl then
    if let some found ← resolveCandidate env scope (base.join ⟨specifier⟩).normalize then return some found
  resolvePackage env scope specifier directory

def cached? (o : Overlay) (specifier : String) (directory : Path) : Option Resolved :=
  o.resolutions.find? fun r => r.specifier == specifier && r.directory.same directory

/-- Resolves an import. The answer is kept, also when there is none. -/
def resolveModule (env : Surroundings) (specifier : String) (importer : Path) :
    Action Overlay (Option Path) := do
  let directory := importer.parent?.getD ⟨""⟩
  if let some r := (← get).cached? specifier directory then return r.target
  let target ← resolveUncached env specifier directory
  modify fun o => { o with resolutions := ⟨specifier, directory, target⟩ :: o.resolutions }
  return target

/-- Drops the kept answers that are this path. -/
def invalidatePath (p : Path) (o : Overlay) : Overlay :=
  { o with resolutions := o.resolutions.filter fun r => !r.target.any (·.same p) }

/-- Drops the kept failures that this path might mend. -/
def invalidateUnresolved (p : Path) (o : Overlay) : Overlay :=
  { o with resolutions := o.resolutions.filter fun r =>
      r.target.isSome || !Resolution.mayName r.specifier p }

end Overlay
end SvelteLens.Service
