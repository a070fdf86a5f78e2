import SvelteLens.Path.Table
import SvelteLens.Service.Snapshot

/-! The current snapshot of every file that a project has seen. A deleted path counts as missing
until a snapshot is stored for it or the deletion is lifted. -/
namespace SvelteLens.Service

structure SnapshotTable where
  snapshots : Path.Table Snapshot
  /-- The files that the project's configuration declares. -/
  declared : List Path
  deleted : List Path
  deriving DecidableEq, Repr, Inhabited

namespace SnapshotTable

def ofDeclared (files : List Path) : SnapshotTable := ⟨.empty, Path.distinct files, []⟩

def get? (t : SnapshotTable) (p : Path) : Option Snapshot := t.snapshots.get? p

def contains (t : SnapshotTable) (p : Path) : Bool := t.snapshots.contains p

def isDeleted (t : SnapshotTable) (p : Path) : Bool := p.isIn t.deleted

def restore (t : SnapshotTable) (p : Path) : SnapshotTable :=
  { t with deleted := t.deleted.filter (!·.same p) }

/-- Stores the current snapshot of a path, in place of an earlier one. -/
def set (t : SnapshotTable) (s : Snapshot) : SnapshotTable :=
  { t.restore s.path with snapshots := t.snapshots.insert s.path s }

/-- Stores a snapshot unless its path has one or is deleted. -/
def insertIfAbsent (t : SnapshotTable) (s : Snapshot) : SnapshotTable :=
  if t.isDeleted s.path || t.contains s.path then t
  else { t with snapshots := t.snapshots.insert s.path s }

def delete (t : SnapshotTable) (p : Path) : SnapshotTable :=
  { t with
    snapshots := t.snapshots.erase p
    deleted := if t.isDeleted p then t.deleted else p :: t.deleted }

/-- Forgets all snapshots and deletions. The declared files stay. -/
def clear (t : SnapshotTable) : SnapshotTable := ofDeclared t.declared

def size (t : SnapshotTable) : Nat := t.snapshots.size

def projectFiles (t : SnapshotTable) : List Path := t.declared.filter (!t.isDeleted ·)

/-- The declared files, then every other file that has a snapshot. -/
def files (t : SnapshotTable) : List Path := Path.distinct (t.projectFiles ++ t.snapshots.keys)

inductive Change where
  | set (s : Snapshot)
  | insertIfAbsent (s : Snapshot)
  | delete (p : Path)
  | restore (p : Path)
  | clear
  deriving DecidableEq, Repr, Inhabited

/-- What comes back from a change: the snapshot that was replaced, is current now or was evicted, or
whether there was a deletion to lift. -/
inductive Answer where
  | snapshot (found : Option Snapshot)
  | lifted (deleted : Bool)
  | done
  deriving DecidableEq, Repr, Inhabited

def applied (t : SnapshotTable) : Change → SnapshotTable
  | .set s => t.set s
  | .insertIfAbsent s => t.insertIfAbsent s
  | .delete p => t.delete p
  | .restore p => t.restore p
  | .clear => t.clear

def answer (t : SnapshotTable) : Change → Answer
  | .set s => .snapshot (t.get? s.path)
  | .insertIfAbsent s => .snapshot (if t.isDeleted s.path then none else (t.insertIfAbsent s).get? s.path)
  | .delete p => .snapshot (t.get? p)
  | .restore p => .lifted (t.isDeleted p)
  | .clear => .done

end SnapshotTable
end SvelteLens.Service
