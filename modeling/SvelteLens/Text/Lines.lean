import SvelteLens.Text.Bytes
import SvelteLens.Text.Partition

/-! Lines and byte columns, both counted from zero. A line ends before its line feed. -/
namespace SvelteLens

structure LineCol where
  line : Nat
  col : Nat
  deriving DecidableEq, Repr, Inhabited

/-- Where each line of a text starts. The first start is always zero. -/
structure LineIndex where
  starts : Array Nat
  length : Nat
  deriving DecidableEq, Repr, Inhabited

namespace LineIndex

/-- The offsets just after each line feed of a text that begins at `offset`. -/
def startsAfter (offset : Nat) : List Char → List Nat
  | [] => []
  | c :: cs =>
    let next := offset + c.utf8Size
    if c = '\n' then next :: startsAfter next cs else startsAfter next cs

def ofText (text : String) : LineIndex :=
  ⟨(0 :: startsAfter 0 text.toList).toArray, Text.width text.toList⟩

def lineCount (index : LineIndex) : Nat := index.starts.size

/-- The position of an offset, up to and including the end of the text. -/
def lineCol? (index : LineIndex) (offset : Nat) : Option LineCol :=
  if index.length < offset then none
  else
    let line := Text.partitionPoint (· ≤ offset) index.starts - 1
    (index.starts[line]?).map fun start => ⟨line, offset - start⟩

/-- The offset of a position. A column past the end of its line has none. -/
def offset? (index : LineIndex) (position : LineCol) : Option Nat := do
  let start ← index.starts[position.line]?
  let stop := (index.starts[position.line + 1]?).elim index.length (· - 1)
  if start + position.col ≤ stop then some (start + position.col) else none

end LineIndex
end SvelteLens
