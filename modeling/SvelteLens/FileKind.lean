import SvelteLens.Path
import SvelteLens.Text.CharClass

/-! What a path says about its file: the script kind, whether it is a component, and the name
of the component's class. -/
namespace SvelteLens

inductive ScriptKind where
  | js
  | jsx
  | ts
  | tsx
  deriving DecidableEq, Repr, Inhabited

namespace ScriptKind

def isTypeScript : ScriptKind → Bool
  | .ts | .tsx => true
  | .js | .jsx => false

def ofComponent (typeScript : Bool) : ScriptKind := if typeScript then .tsx else .jsx

/-- The kind of a plain script file. Declaration files count as scripts with types. -/
def ofPath (p : Path) : ScriptKind :=
  if ".d.ts".toList.isSuffixOf (p.fileName?.getD "").toList then .ts
  else
    match p.extension? with
    | some "ts" | some "mts" | some "cts" => .ts
    | some "tsx" => .tsx
    | some "jsx" => .jsx
    | _ => .js

end ScriptKind

def Path.isComponent (p : Path) : Bool := p.extension? == some "svelte"

/-- Keeps letters, digits and underscores. The first of them, and the first after each `-` or
`.`, becomes a capital when it is an ASCII letter. -/
def pascal (capital : Bool) : List Char → List Char
  | [] => []
  | c :: cs =>
    if Text.isAlphanumeric c || c == '_' then (if capital then c.toUpper else c) :: pascal false cs
    else if c == '-' || c == '.' then pascal true cs
    else pascal capital cs

/-- The class name for a file name: everything before the first letter is dropped. -/
def componentName (stem : String) : String :=
  let name := pascal true (stem.toList.dropWhile (!Text.isAlphabetic ·))
  if name.isEmpty then "Component" else String.ofList name

def Path.componentName (p : Path) : String := SvelteLens.componentName (p.fileStem?.getD "")

def isPlainIdentifier (name : String) : Bool :=
  match name.toList with
  | [] => false
  | c :: cs =>
    (c.isAlpha || c == '_' || c == '$') && cs.all fun c => c.isAlphanum || c == '_' || c == '$'

end SvelteLens
