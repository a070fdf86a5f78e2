import SvelteLens.Config.Glob
import SvelteLens.Config.Scope
import SvelteLens.FileTree
import SvelteLens.Json.Relaxed
import SvelteLens.Json.Value

/-! The part of a project's configuration file that matters here: its settings and the files it
declares. -/
namespace SvelteLens.Config

open Json

structure CompilerOptions where
  target : Option String
  moduleFormat : Option String
  strict : Bool
  allowJs : Option Bool
  checkJs : Option Bool
  baseUrl : Option String
  aliases : List (String × List String)
  deriving DecidableEq, Repr, Inhabited

structure ProjectFile where
  options : CompilerOptions
  files : Option (List String)
  inclusions : Option (List String)
  exclusions : List String
  deriving DecidableEq, Repr, Inhabited

def CompilerOptions.defaults : CompilerOptions := ⟨none, none, false, none, none, none, []⟩

/-- As an array, the options may leave out the aliases at the end. -/
def CompilerOptions.ofValue? (value : Value) : Option CompilerOptions := do
  let names := ["target", "module", "strict", "allowJs", "checkJs", "baseUrl", "paths"]
  match ← value.fields? names 6 with
  | [target, moduleFormat, strict, allowJs, checkJs, baseUrl, aliases] =>
    return {
      target := ← Value.optional? Value.text? target
      moduleFormat := ← Value.optional? Value.text? moduleFormat
      strict := ← Value.withDefault? Value.bool? false strict
      allowJs := ← Value.optional? Value.bool? allowJs
      checkJs := ← Value.optional? Value.bool? checkJs
      baseUrl := ← Value.optional? Value.text? baseUrl
      aliases := ← Value.withDefault? (Value.table? (Value.list? Value.text?)) [] aliases }
  | _ => none

namespace ProjectFile

/-- As an array, a configuration may leave out the exclusions at the end. -/
def ofValue? (value : Value) : Option ProjectFile := do
  match ← value.fields? ["compilerOptions", "files", "include", "exclude"] 3 with
  | [options, files, included, excluded] =>
    return {
      options := ← Value.withDefault? CompilerOptions.ofValue? .defaults options
      files := ← Value.optional? (Value.list? Value.text?) files
      inclusions := ← Value.optional? (Value.list? Value.text?) included
      exclusions := ← Value.withDefault? (Value.list? Value.text?) [] excluded }
  | _ => none

end ProjectFile

/-- What configurations are loaded with: a reader of plain JSON, a reader of globs, which tells what a pattern takes, and a
walk through the files below a directory. -/
structure Libraries where
  project? : String → Option ProjectFile
  glob? : String → Option (String → Bool)
  walk : FileTree → Path → List (List String)

def Libraries.standard : Libraries where
  project? text := (Value.ofText? text).bind ProjectFile.ofValue?
  glob? pattern := (Glob.ofText? pattern).map Glob.matchesText
  walk := FileTree.walk

namespace ProjectFile

def ofText? (libs : Libraries) (text : String) : Option ProjectFile := libs.project? (plain text)

/-- The settings below a root. Untyped scripts are taken in when nothing says otherwise and the
configuration is one for untyped scripts. -/
def settings (f : ProjectFile) (root : Path) (untyped : Bool) : Settings where
  target := f.options.target
  moduleFormat := f.options.moduleFormat
  strict := f.options.strict
  allowJs := f.options.allowJs.getD untyped
  checkJs := f.options.checkJs.getD untyped
  baseUrl := f.options.baseUrl.map fun url => (root.join ⟨url⟩).normalize
  aliases := f.options.aliases

def dropHere : List Char → List Char
  | '.' :: '/' :: cs => dropHere cs
  | cs => cs

/-- The glob for a pattern of a configuration. A bare directory name stands for everything below
it; a last part with a star or a dot counts as a name of files. -/
def globText (pattern : String) : String :=
  let body := ((dropHere pattern.toList).reverse.dropWhile (· = '/')).reverse
  let last := body.reverse.takeWhile (· ≠ '/')
  String.ofList (if last.contains '*' || last.contains '.' then body else body ++ "/**/*".toList)

/-- What the patterns take, read up to the first one that is no glob. -/
def globs (libs : Libraries) (patterns : List String) : Except String (List (String → Bool)) :=
  patterns.mapM fun pattern =>
    match libs.glob? (globText pattern) with
    | some takes => .ok takes
    | none => .error (globText pattern)

def isSource (allowJs : Bool) (p : Path) : Bool :=
  match p.extension? with
  | some "svelte" | some "ts" | some "tsx" | some "mts" | some "cts" => true
  | some "js" | some "jsx" | some "mjs" | some "cjs" => allowJs
  | _ => false

/-- The patterns to include. Without any list of files, everything is. -/
def included (f : ProjectFile) : List String :=
  match f.inclusions, f.files with
  | some patterns, _ => patterns
  | none, some _ => []
  | none, none => ["**/*"]

/-- The declared files: those that are listed, then the sources below the root that are included
and not excluded. A pattern that is no glob is the error. -/
def declaredBy (libs : Libraries) (f : ProjectFile) (tree : FileTree) (root : Path) (allowJs : Bool) :
    Except String (List Path) := do
  let listed := (f.files.getD []).map fun file => (root.join ⟨file⟩).normalize
  if f.included.isEmpty then return Path.distinct listed
  let included ← globs libs f.included
  let excluded ← globs libs f.exclusions
  let found := (FileTree.unhidden root (libs.walk tree root)).filter fun p =>
    isSource allowJs p && (p.stripBase? root).any fun relative =>
      included.any (· relative.text) && !excluded.any (· relative.text)
  return Path.distinct (listed ++ found)

abbrev declared (f : ProjectFile) (tree : FileTree) (root : Path) (allowJs : Bool) : Except String (List Path) :=
  f.declaredBy .standard tree root allowJs

end ProjectFile
end SvelteLens.Config
