import SvelteLens.Files

/-! A tree of directories and files. A path is followed name by name from the top, and only a
directory leads on, so `..` after a file leads nowhere. Relative paths name nothing here. -/
namespace SvelteLens

structure FileTree where
  /-- Every file, under the names that lead to it from the top. -/
  files : List (List String × Content)
  /-- Directories besides those that lead to files. -/
  directories : List (List String)
  deriving DecidableEq, Repr, Inhabited

namespace FileTree

def content? (t : FileTree) (names : List String) : Option Content := t.files.lookup names

/-- The top is a directory, and so is everything that leads to a file. -/
def isDirectory (t : FileTree) (names : List String) : Bool :=
  names.isEmpty || t.directories.any names.isPrefixOf ||
    t.files.any fun (file, _) => names.isPrefixOf file && names != file

/-- Follows components from a place, given as its names in reverse. -/
def follow? (t : FileTree) : (place : List String) → List Component → Option (List String)
  | place, [] => some place.reverse
  | place, c :: cs =>
    if t.isDirectory place.reverse then
      match c with
      | .root => t.follow? [] cs
      | .here => t.follow? place cs
      | .up => t.follow? place.tail cs
      | .name n => t.follow? (n :: place) cs
    else none

def locate? (t : FileTree) (p : Path) : Option (List String) :=
  if p.isAbsolute then t.follow? [] p.components else none

/-- The text after the last separator. Without a name there, a path asks for a directory. -/
def lastPart (p : Path) : List Char := (p.text.toList.reverse.takeWhile (· ≠ '/')).reverse

def file? (t : FileTree) (p : Path) : Option Content :=
  if [[], ['.'], ['.', '.']].contains (lastPart p) then none else (t.locate? p).bind t.content?

def isFile (t : FileTree) (p : Path) : Bool := (t.file? p).isSome

def read? (t : FileTree) (p : Path) : Option String := (t.file? p).bind Content.text?

/-- The name that must not occur on the way to a file that is listed. -/
def hiddenName : String := "node_modules"

/-- The files below a directory, under the names that lead to them from there. -/
def walk (t : FileTree) (directory : Path) : List (List String) :=
  match t.locate? directory with
  | none => []
  | some names => t.files.filterMap fun (file, _) =>
      if names.isPrefixOf file && names != file then some (file.drop names.length) else none

/-- The files that a walk below a directory leads to, spelled from the spelling of the directory on. Nothing is listed in
or below directories of the hidden name. -/
def unhidden (directory : Path) (visited : List (List String)) : List Path :=
  if directory.fileName? = some hiddenName then []
  else (visited.filter (!·.contains hiddenName)).map fun names => directory.join ⟨"/".intercalate names⟩

end FileTree
end SvelteLens
