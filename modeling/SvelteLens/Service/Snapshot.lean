import SvelteLens.Projection
import SvelteLens.Text.Lines

/-! One version of one file as the checking engine sees it. A snapshot never changes; a file
that changes gets a new one. -/
namespace SvelteLens.Service

/-- An open editor buffer takes precedence over the disk. -/
inductive Provenance where
  | editor
  | disk
  deriving DecidableEq, Repr, Inhabited

structure Snapshot where
  /-- Tells two snapshots apart even when they agree in everything else. -/
  stamp : Nat
  path : Path
  version : Int
  provenance : Provenance
  kind : ScriptKind
  source : String
  projected : String
  map : PositionMap
  declarations : List Projection.Declaration
  degraded : List Directive.Degraded
  sourceLines : LineIndex
  projectedLines : LineIndex
  deriving DecidableEq, Repr, Inhabited

namespace Snapshot

/-- The snapshot of a plain script file, which the engine reads as it is. -/
def ofScript (stamp : Nat) (path : Path) (version : Int) (text : String) (provenance : Provenance) :
    Snapshot :=
  let lines := LineIndex.ofText text
  { stamp, path, version, provenance
    kind := ScriptKind.ofPath path
    source := text
    projected := text
    map := PositionMap.identity (Text.width text.toList)
    declarations := []
    degraded := []
    sourceLines := lines
    projectedLines := lines }

def ofProjection (stamp : Nat) (path : Path) (version : Int) (text : String) (p : Projection)
    (provenance : Provenance) : Snapshot :=
  { stamp, path, version, provenance
    kind := p.kind
    source := text
    projected := p.text
    map := p.map
    declarations := p.declarations
    degraded := p.degraded
    sourceLines := LineIndex.ofText text
    projectedLines := LineIndex.ofText p.text }

/-- The source range behind a projected one, if it does not start in made-up text. -/
def sourceSpan? (s : Snapshot) (projected : Span) : Option Span := s.map.sourceSpan? projected

def projectedOffset? (s : Snapshot) (source : Nat) : Option Nat := s.map.generatedPosition? source

end Snapshot
end SvelteLens.Service
