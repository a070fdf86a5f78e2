/-! File paths. A path keeps the text it was given; two paths name the same file when their
components agree, so repeated separators, inner `.` components and a trailing separator do not
count. A `..` component is kept, and so is a `.` at the very front. -/
namespace SvelteLens

inductive Component where
  | root
  | here
  | up
  | name (text : String)
  deriving DecidableEq, Repr, Inhabited

structure Path where
  text : String
  deriving DecidableEq, Repr, Inhabited

/-- A component with the range of characters it was read from. -/
structure Component.Located where
  component : Component
  start : Nat
  stop : Nat
  deriving DecidableEq, Repr, Inhabited

namespace Path

/-- Splits at separators; each part comes with the index of its first character. -/
def parts : (index start : Nat) → (part : List Char) → List Char → List (Nat × List Char)
  | _, start, part, [] => [(start, part.reverse)]
  | index, start, part, c :: cs =>
    if c = '/' then (start, part.reverse) :: parts (index + 1) (index + 1) [] cs
    else parts (index + 1) start (c :: part) cs

/-- Reads one part. Empty parts and `.` are no components, except a `.` at the front. -/
def readPart : Nat × List Char → Option Component.Located
  | (0, ['.']) => some ⟨.here, 0, 1⟩
  | (_, []) => none
  | (_, ['.']) => none
  | (start, ['.', '.']) => some ⟨.up, start, start + 2⟩
  | (start, part) => some ⟨.name (String.ofList part), start, start + part.length⟩

def located (p : Path) : List Component.Located :=
  match p.text.toList with
  | '/' :: cs => ⟨.root, 0, 1⟩ :: (parts 1 1 [] cs).filterMap readPart
  | cs => (parts 0 0 [] cs).filterMap readPart

def components (p : Path) : List Component := p.located.map (·.component)

def isAbsolute (p : Path) : Bool := p.text.toList.head? == some '/'

def same (p q : Path) : Bool := p.components == q.components

def startsWith (p base : Path) : Bool := base.components.isPrefixOf p.components

/-- The text from character `start` up to character `stop`. -/
def cut (p : Path) (start stop : Nat) : String := String.ofList ((p.text.toList.take stop).drop start)

/-- The path up to the end of its last component among the given ones. -/
def upTo (p : Path) (kept : List Component.Located) : Path := ⟨p.cut 0 (kept.getLast?.elim 0 (·.stop))⟩

def stripBase? (p base : Path) : Option Path :=
  if p.startsWith base then
    match p.located.drop base.components.length with
    | [] => some ⟨""⟩
    | first :: rest => some ⟨p.cut first.start ((first :: rest).getLast?.elim 0 (·.stop))⟩
  else none

/-- The leading parts of a component list, longest first, not counting the whole list. The root
has nothing above it. -/
def leading (cs : List Component.Located) : List (List Component.Located) :=
  ((List.range cs.length).map cs.take).reverse.filter fun kept =>
    !(kept.isEmpty && cs.head?.any (·.component == .root))

def parents (p : Path) : List Path := (leading p.located).map p.upTo

def parent? (p : Path) : Option Path := p.parents.head?

def ancestors (p : Path) : List Path := p :: p.parents

def fileName? (p : Path) : Option String :=
  match p.components.getLast? with
  | some (.name text) => some text
  | _ => none

/-- Splits a file name at its last dot. A dot at the very front does not count. -/
def splitName (name : String) : String × Option String :=
  let cs := name.toList.reverse
  match cs.dropWhile (· ≠ '.') with
  | _ :: stem =>
    if stem.isEmpty then (name, none)
    else (String.ofList stem.reverse, some (String.ofList (cs.takeWhile (· ≠ '.')).reverse))
  | [] => (name, none)

def fileStem? (p : Path) : Option String := p.fileName?.map fun name => (splitName name).1

def extension? (p : Path) : Option String := p.fileName?.bind fun name => (splitName name).2

/-- An absolute path replaces the base. -/
def join (base p : Path) : Path :=
  if p.isAbsolute then p
  else
    match base.text.toList.getLast? with
    | none => p
    | some '/' => ⟨base.text ++ p.text⟩
    | some _ => ⟨base.text ++ "/" ++ p.text⟩

def Component.text : Component → String
  | .root => "/"
  | .here => "."
  | .up => ".."
  | .name text => text

def ofComponents : List Component → Path
  | .root :: rest => ⟨"/" ++ "/".intercalate (rest.map Component.text)⟩
  | cs => ⟨"/".intercalate (cs.map Component.text)⟩

/-- Adds a component to a normalized path, given last component first. -/
def normalStep (stack : List Component) (c : Component) : List Component :=
  match c, stack with
  | .here, _ => stack
  | .up, .name _ :: rest => rest
  | .up, .root :: _ => stack
  | c, _ => c :: stack

def normalize (p : Path) : Path := ofComponents (p.components.foldl normalStep []).reverse

end Path
end SvelteLens
