import SvelteLens.Text.Ranges
import SvelteLens.Text.Partition
import SvelteLens.Text.Bytes

/-! Character classes. ASCII is decided directly; other characters are looked up in the tables. -/
namespace SvelteLens.Text

def inRanges (ranges : Array (Nat × Nat)) (c : Char) : Bool :=
  match partitionPoint (fun r => r.1 ≤ c.toNat) ranges with
  | 0 => false
  | n + 1 => (ranges[n]?).any fun r => c.toNat ≤ r.2

/-- The white space of Unicode: 25 characters. -/
def isBlank (c : Char) : Bool :=
  let n := c.toNat
  (9 ≤ n && n ≤ 13) || n == 0x20 || n == 0x85 || n == 0xA0 || n == 0x1680 || (0x2000 ≤ n && n ≤ 0x200A) ||
  n == 0x2028 || n == 0x2029 || n == 0x202F || n == 0x205F || n == 0x3000

def isAlphabetic (c : Char) : Bool :=
  if c.toNat < 0x80 then c.isAlpha
  else inRanges Ranges.alphabeticExtra c ||
    (inRanges Ranges.identifierStart c && !inRanges Ranges.startNotAlphabetic c)

def isNumeric (c : Char) : Bool := if c.toNat < 0x80 then c.isDigit else inRanges Ranges.numeric c

def isAlphanumeric (c : Char) : Bool := isAlphabetic c || isNumeric c

/-- May start an identifier; `$` and `_` may, too. -/
def isIdentifierStart (c : Char) : Bool :=
  if c.toNat < 0x80 then c.isAlpha || c == '_' || c == '$' else inRanges Ranges.identifierStart c

/-- May continue an identifier. The two joiners may, too. -/
def isIdentifierPart (c : Char) : Bool :=
  if c.toNat < 0x80 then c.isAlphanum || c == '_' || c == '$'
  else inRanges Ranges.identifierStart c || inRanges Ranges.identifierExtend c ||
    c == '\u200C' || c == '\u200D'

/-- Drops white space at both ends and says how many bytes went at the front. -/
def trim (cs : List Char) : Nat × List Char :=
  let body := cs.dropWhile isBlank
  (width (cs.takeWhile isBlank), (body.reverse.dropWhile isBlank).reverse)

end SvelteLens.Text
