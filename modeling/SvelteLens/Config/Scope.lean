import SvelteLens.Path

/-! The projects of a workspace. A project is governed by one configuration file; the files
without one share an inferred project with default settings. -/
namespace SvelteLens.Config

/-- A project's name: its configuration file, or none for the inferred project. -/
structure ScopeId where
  config : Option Path
  deriving DecidableEq, Repr, Inhabited

namespace ScopeId

def inferred : ScopeId := ⟨none⟩

/-- Two spellings of one configuration file name one project. -/
def same : ScopeId → ScopeId → Bool
  | ⟨some p⟩, ⟨some q⟩ => p.same q
  | ⟨none⟩, ⟨none⟩ => true
  | _, _ => false

def text (id : ScopeId) : String := id.config.elim "<inferred project>" Path.text

end ScopeId

structure Settings where
  target : Option String
  moduleFormat : Option String
  strict : Bool
  allowJs : Bool
  checkJs : Bool
  /-- The directory that imports by name are looked up in. -/
  baseUrl : Option Path
  /-- Patterns for specifiers with their targets, in the order of declaration. -/
  aliases : List (String × List String)
  deriving DecidableEq, Repr, Inhabited

/-- The settings of files outside every configured project. -/
def Settings.inferred : Settings := ⟨some "ESNext", some "ESNext", false, true, true, none, []⟩

structure Scope where
  id : ScopeId
  /-- The directory that relative settings are read against. -/
  root : Path
  settings : Settings
  declared : List Path
  deriving DecidableEq, Repr, Inhabited

/-- A scope with default settings and no declared files. -/
def Scope.fallback (id : ScopeId) (root : Path) : Scope := ⟨id, root, Settings.inferred, []⟩

/-- The longest root that a file lies under; of two equally long ones the later. -/
def innermostRoot? (roots : List Path) (file : Path) : Option Path :=
  (roots.filter file.startsWith).foldl (fun best root =>
    match best with
    | some b => if b.text.utf8ByteSize ≤ root.text.utf8ByteSize then some root else best
    | none => some root) none

/-- Where a file without configuration belongs: to the innermost root around it, or else to its
own directory. -/
def fallbackRoot (roots : List Path) (file : Path) : Path :=
  ((innermostRoot? roots file).or file.parent?).getD ⟨""⟩

end SvelteLens.Config
