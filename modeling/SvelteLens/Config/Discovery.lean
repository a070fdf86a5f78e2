import SvelteLens.Config.ProjectFile

/-! Which configuration governs a file, and what it says. The nearest configuration does,
from the file's own directory up to the innermost workspace root around it. -/
namespace SvelteLens.Config

inductive LoadError where
  | unreadable (path : Path)
  | malformed (path : Path)
  | badGlob (pattern : String)
  deriving DecidableEq, Repr, Inhabited

/-- In one directory, the first of these counts. -/
def configNames : List String := ["tsconfig.json", "jsconfig.json"]

/-- The directories up to the boundary, the boundary included. -/
def upTo (boundary : Option Path) : List Path → List Path
  | [] => []
  | d :: rest => if boundary.any d.same then [d] else d :: upTo boundary rest

/-- The directories whose configuration may govern a file, nearest first. -/
def searched (roots : List Path) (file : Path) : List Path :=
  upTo (innermostRoot? roots file) (file.parents.takeWhile (!·.text.isEmpty))

def findConfig (isFile : Path → Bool) (roots : List Path) (file : Path) : ScopeId :=
  ⟨((searched roots file).flatMap fun d => configNames.map fun name => d.join ⟨name⟩).find? isFile⟩

/-- Loads a scope. Without a configuration file it has default settings at the fallback root. -/
def loadBy (libs : Libraries) (tree : FileTree) (id : ScopeId) (fallback : Path) : Except LoadError Scope :=
  match id.config with
  | none => .ok (Scope.fallback id fallback)
  | some path => do
    let some text := tree.read? path | throw (.unreadable path)
    let some file := ProjectFile.ofText? libs text | throw (.malformed path)
    let root := path.parent?.getD fallback
    let settings := file.settings root (path.fileName? = some "jsconfig.json")
    match file.declaredBy libs tree root settings.allowJs with
    | .ok declared => return ⟨id, root, settings, declared⟩
    | .error pattern => throw (.badGlob pattern)

abbrev load (tree : FileTree) (id : ScopeId) (fallback : Path) : Except LoadError Scope :=
  loadBy .standard tree id fallback

end SvelteLens.Config
