import SvelteLens.Config.Scope
import SvelteLens.Files
import SvelteLens.Service.Manifest
import SvelteLens.Service.Snapshot

/-! How files become snapshots. A component is parsed and projected; any other file is taken as
it is. -/
namespace SvelteLens.Service

/-- The text of a file at one version. Files from the disk have version 0. -/
structure SourceFile where
  path : Path
  text : String
  version : Int
  deriving DecidableEq, Repr, Inhabited

inductive ServiceError where
  /-- Neither an editor nor the disk has the file. -/
  | notFound (path : Path)
  | unparsable (path : Path) (message : String)
  | unprojectable (path : Path) (source : ProjectionError)
  | disposed (scope : Config.ScopeId)
  deriving DecidableEq, Repr, Inhabited

def ServiceError.message : ServiceError → String
  | .notFound p => s!"file not found: {p.text}"
  | .unparsable p message => s!"failed to parse {p.text}: {message}"
  | .unprojectable p source => s!"failed to project {p.text}: " ++ source.message?.getD ""
  | .disposed scope => s!"service for {scope.text} has been disposed"

/-- Why an operation gave no answer. A fault is no answer to the caller: the operation broke off
where it was, and what it did before stays done. -/
inductive Failure where
  | error (e : ServiceError)
  | fault (message : Option String)
  deriving DecidableEq, Repr, Inhabited

/-- Why there is no markup document: the parser refuses the text, or it breaks off. -/
inductive MarkupFailure where
  | refused (message : String)
  | fault (message : Option String)
  deriving DecidableEq, Repr, Inhabited

/-- A parser that goes by the text alone. -/
abbrev MarkupParser := String → Except MarkupFailure Markup.Document

/-- A parser of components. It may go by the path of a file as well, but not by how the path is spelled. -/
structure FileParser where
  parse : Path → String → Except MarkupFailure Markup.Document
  respelled {p q : Path} : p.same q = true → parse p = parse q

def FileParser.ofText (parser : MarkupParser) : FileParser := ⟨fun _ => parser, fun _ => rfl⟩

instance : Coe MarkupParser FileParser := ⟨FileParser.ofText⟩

/-- What projects make use of but do not own. -/
structure Surroundings where
  markup : FileParser
  script : Script.Reader
  files : Files
  [manifests : ManifestReader]

/-- An operation on a state. A failure keeps what was changed before it. -/
abbrev Action (σ α : Type) := ExceptT Failure (StateM σ) α

namespace Surroundings

def open? (env : Surroundings) (p : Path) : Option SourceFile :=
  (env.files.read? p).map fun text => ⟨p, text, 0⟩

/-- The manifest at a path, if the disk has a readable one there. -/
def manifest? (env : Surroundings) (p : Path) : Option Manifest := (env.files.read? p).bind env.manifests.read?

def build (env : Surroundings) (stamp : Nat) (file : SourceFile) (provenance : Provenance) :
    Except Failure Snapshot :=
  if file.path.isComponent then
    match env.markup.parse file.path file.text with
    | .error (.refused message) => .error (.error (.unparsable file.path message))
    | .error (.fault message) => .error (.fault message)
    | .ok doc =>
      match Projection.ofComponent env.script file.text doc (some file.path) with
      | .error .fault => .error (.fault none)
      | .error e => .error (.error (.unprojectable file.path e))
      | .ok p => .ok (Snapshot.ofProjection stamp file.path file.version file.text p provenance)
  else .ok (Snapshot.ofScript stamp file.path file.version file.text provenance)

end Surroundings
end SvelteLens.Service
