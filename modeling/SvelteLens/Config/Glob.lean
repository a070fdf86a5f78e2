/-! Glob patterns over whole paths. Paths are matched byte by byte, and `*` and `?` match
separators as well. `**` between separators, or at either end, matches any number of
directories; anywhere else it is no more than `*`. -/
namespace SvelteLens.Config

inductive Glob.Token where
  | literal (c : Char)
  /-- One byte of any kind. -/
  | one
  /-- Any bytes. -/
  | many
  /-- Nothing, or anything up to a separator. -/
  | leading
  /-- A separator and anything after it. -/
  | trailing
  /-- One separator, or two with anything between them. -/
  | between
  | byteClass (negated : Bool) (ranges : List (Char × Char))
  | choice (branches : List (List Glob.Token))
  deriving Repr, Inhabited

abbrev Glob := List Glob.Token

namespace Glob

def separator : UInt8 := '/'.toUInt8

def suffixes : List UInt8 → List (List UInt8)
  | [] => [[]]
  | b :: bs => (b :: bs) :: suffixes bs

def afterSeparator : List UInt8 → List (List UInt8)
  | [] => []
  | b :: bs => if b = separator then bs :: afterSeparator bs else afterSeparator bs

def after : (lead : List UInt8) → List UInt8 → List (List UInt8)
  | [], bs => [bs]
  | a :: lead, b :: bs => if a = b then after lead bs else []
  | _ :: _, [] => []

/-- The byte ranges of a class. A range of characters counts from the last byte of its first
character to the first byte of its last; the other bytes of both stand for themselves. -/
def byteRanges (ranges : List (Char × Char)) : List (UInt8 × UInt8) :=
  ranges.flatMap fun (first, last) =>
    let single (bytes : List UInt8) := bytes.map fun b => (b, b)
    let lows := String.utf8EncodeChar first
    let highs := String.utf8EncodeChar last
    if first = last then single lows
    else single lows.dropLast ++ (lows.getLast?.bind fun low => highs.head?.map (low, ·)).toList ++
      single highs.tail

def inClass (negated : Bool) (ranges : List (Char × Char)) (b : UInt8) : Bool :=
  ((byteRanges ranges).any fun (low, high) => low ≤ b && b ≤ high) != negated

/-- A branch that can match nothing at all stands for no choice. -/
def isVoid : List Token → Bool
  | [] => true
  | .choice branches :: rest => branchesVoid branches && isVoid rest
  | _ :: _ => false
where
  branchesVoid : List (List Token) → Bool
  | [] => true
  | branch :: rest => isVoid branch && branchesVoid rest

mutual

def Token.rests : Token → List UInt8 → List (List UInt8)
  | .literal c, bs => after (String.utf8EncodeChar c) bs
  | .one, bs => bs.tail?.toList
  | .many, bs => suffixes bs
  | .leading, bs => bs :: (after [separator] bs ++ afterSeparator bs)
  | .trailing, bs => (after [separator] bs).flatMap suffixes
  | .between, bs => (after [separator] bs).flatMap fun rest => rest :: afterSeparator rest
  | .byteClass negated ranges, bs =>
    match bs with
    | b :: rest => if inClass negated ranges b then [rest] else []
    | [] => []
  | .choice branches, bs => if isVoid [.choice branches] then [bs] else restsOfAny branches bs

def restsOfAll : List Token → List (List UInt8) → List (List UInt8)
  | [], texts => texts
  | t :: ts, texts => restsOfAll ts (texts.flatMap t.rests).eraseDups

def restsOfAny : List (List Token) → List UInt8 → List (List UInt8)
  | [], _ => []
  | branch :: branches, bs =>
    (if isVoid branch then [] else restsOfAll branch [bs]) ++ restsOfAny branches bs

end

/-- Whether a pattern matches the whole text. A lone `**` matches everything. -/
def matchesText (glob : Glob) (text : String) : Bool :=
  match glob with
  | [.leading] => true
  | tokens => (restsOfAll tokens [text.toList.flatMap String.utf8EncodeChar]).contains []

/-! Reading -/

structure Reading where
  /-- The branches that are open, the last one first; each with its last token first. -/
  branches : List (List Token)
  /-- How many branches were open at each brace that is open, the last one first. -/
  openings : List Nat
  /-- The character read last. -/
  last : Option Char
  deriving Repr, Inhabited

namespace Reading

def start : Reading := ⟨[[]], [], none⟩

def push (r : Reading) (t : Token) : Reading :=
  match r.branches with
  | branch :: rest => { r with branches := (t :: branch) :: rest }
  | [] => { r with branches := [[t]] }

/-- Takes the last token back and puts in what it becomes together with a `**`. -/
def widen (r : Reading) (fresh : Token) : Reading :=
  match r.branches with
  | (.leading :: _) :: _ | (.trailing :: _) :: _ => r
  | (_ :: branch) :: rest => { r with branches := (fresh :: branch) :: rest }
  | _ => r

def openChoice (r : Reading) : Reading :=
  { r with branches := [] :: r.branches, openings := r.branches.length :: r.openings }

def closeChoice (r : Reading) : Option Reading :=
  match r.openings with
  | [] => none
  | count :: openings =>
    let inner := r.branches.take (r.branches.length - count)
    let outer := r.branches.drop (r.branches.length - count)
    some (push { r with branches := outer, openings } (.choice (inner.map List.reverse).reverse))

end Reading

/-- Extends the last range of a class. Its ends have to be in order. -/
def extendLast (ranges : List (Char × Char)) (c : Char) : Option (List (Char × Char)) :=
  match ranges with
  | (first, _) :: rest => if c < first then none else some ((first, c) :: rest)
  | [] => none

/-- Reads the inside of a class; `ranges` holds the last range first. A bracket at the very front
stands for itself, and so does a hyphen at either end. -/
def readClass : (atFront inRange : Bool) → (ranges : List (Char × Char)) → List Char →
    Option (List (Char × Char) × List Char)
  | _, _, _, [] => none
  | false, inRange, ranges, ']' :: cs =>
    some ((if inRange then ('-', '-') :: ranges else ranges).reverse, cs)
  | true, _, ranges, c :: cs => readClass false false ((c, c) :: ranges) cs
  | false, false, ranges, '-' :: cs => readClass false true ranges cs
  | false, true, ranges, c :: cs => (extendLast ranges c).bind fun ranges => readClass false false ranges cs
  | false, false, ranges, c :: cs => readClass false false ((c, c) :: ranges) cs

def readDouble (r : Reading) (before : Option Char) (cs : List Char) : Reading × List Char :=
  let plain := (r.push .many).push .many
  let atStart := r.branches.head?.all List.isEmpty
  let inChoice := 2 ≤ r.branches.length
  if atStart then
    match cs with
    | [] => (r.push .leading, [])
    | '/' :: rest => ({ r.push .leading with last := some '/' }, rest)
    | cs => (plain, cs)
  else if before ≠ some '/' ∧ (!inChoice ∨ (before ≠ some ',' ∧ before ≠ some '{')) then (plain, cs)
  else
    match cs with
    | [] => (r.widen .trailing, [])
    | '/' :: rest => ({ r.widen .between with last := some '/' }, rest)
    | c :: _ => if inChoice && (c == ',' || c == '\x7d') then (r.widen .trailing, cs) else (plain, cs)

def readWithin : (n : Nat) → Reading → List Char → Option Reading
  | _, r, [] => some r
  | 0, _, _ => none
  | n + 1, r, c :: cs =>
    let next := { r with last := some c }
    match c with
    | '?' => readWithin n (next.push .one) cs
    | '*' =>
      match cs with
      | '*' :: cs =>
        let (r, cs) := readDouble next r.last cs
        readWithin n r cs
      | cs => readWithin n (next.push .many) cs
    | '[' =>
      let (negated, cs) := match cs with
        | '!' :: cs | '^' :: cs => (true, cs)
        | cs => (false, cs)
      (readClass true false [] cs).bind fun (ranges, cs) =>
        readWithin n ({ next with last := some ']' }.push (.byteClass negated ranges)) cs
    | '\x7b' => readWithin n next.openChoice cs
    | '\x7d' => next.closeChoice.bind fun r => readWithin n r cs
    | ',' =>
      if next.openings.isEmpty then readWithin n (next.push (.literal ',')) cs
      else readWithin n { next with branches := [] :: next.branches } cs
    | '\\' =>
      match cs with
      | c :: cs => readWithin n ({ next with last := some c }.push (.literal c)) cs
      | [] => none
    | c => readWithin n (next.push (.literal c)) cs

/-- Reads a pattern. Classes and choices have to be closed, ranges have to be in order, and an
escape needs a character after it. -/
def ofText? (pattern : String) : Option Glob := do
  let r ← readWithin pattern.length Reading.start pattern.toList
  match r.branches with
  | [tokens] => some tokens.reverse
  | _ => none

end Glob
end SvelteLens.Config
