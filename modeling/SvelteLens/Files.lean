import SvelteLens.Path.Table

/-! What the disk holds, as far as a project can tell. -/
namespace SvelteLens

/-- What a file holds. Bytes that are no UTF-8 cannot be read as text. -/
inductive Content where
  | text (s : String)
  | binary
  deriving DecidableEq, Repr, Inhabited

def Content.text? : Content → Option String
  | .text s => some s
  | .binary => none

abbrev Files := Path.Table Content

namespace Files

def isFile (files : Files) (p : Path) : Bool := files.contains p

def read? (files : Files) (p : Path) : Option String := (files.get? p).bind Content.text?

end Files
end SvelteLens
