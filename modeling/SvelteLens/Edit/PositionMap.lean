import SvelteLens.Text.Span
import SvelteLens.Text.Partition

/-! Positions of a generated text in the text it was made from. Each segment of the
generated text either stands for a range of the source or was made up. -/
namespace SvelteLens

inductive Origin where
  | source (span : Span)
  | synthetic
  deriving DecidableEq, Repr, Inhabited

structure Segment where
  generated : Span
  origin : Origin
  deriving DecidableEq, Repr, Inhabited

namespace Segment

/-- An exact segment stands for a range of its own length. -/
def isExact (s : Segment) : Bool :=
  match s.origin with
  | .source span => span.length?.isSome && span.length? == s.generated.length?
  | .synthetic => false

/-- The source offset for an offset of the segment. Replaced text that is longer than
its range answers with the last byte of the range. -/
def sourceAt? (s : Segment) (generated : Nat) : Option Nat :=
  match s.origin with
  | .synthetic => none
  | .source span =>
    if span.isEmpty then some span.start
    else some (span.start + min (generated - s.generated.start) (span.stop - span.start - 1))

end Segment

structure PositionMap where
  segments : Array Segment
  sourceLength : Nat
  generatedLength : Nat
  deriving DecidableEq, Repr, Inhabited

namespace PositionMap

def identity (length : Nat) : PositionMap :=
  ⟨if length = 0 then #[] else #[⟨⟨0, length⟩, .source ⟨0, length⟩⟩], length, length⟩

/-- The segment that holds a generated offset, by binary search over the segment starts. -/
def segmentAt? (map : PositionMap) (generated : Nat) : Option Segment :=
  match Text.partitionPoint (fun s : Segment => s.generated.start ≤ generated) map.segments with
  | 0 => none
  | n + 1 => (map.segments[n]?).filter (·.generated.contains generated)

/-- The source offset behind a generated one. The end of the text belongs to the last segment. -/
def sourcePosition? (map : PositionMap) (generated : Nat) : Option Nat :=
  if generated = map.generatedLength then
    match map.segments.back? with
    | some ⟨_, .source span⟩ => some span.stop
    | _ => none
  else (map.segmentAt? generated).bind (·.sourceAt? generated)

def isSynthetic (map : PositionMap) (generated : Nat) : Bool :=
  (map.segmentAt? generated).any (·.origin == .synthetic)

/-- The source range behind a generated one: from the image of its first byte to just past
the image of its last byte. Nothing is reported for text that starts in made-up text. -/
def sourceSpan? (map : PositionMap) (generated : Span) : Option Span := do
  let start ← map.sourcePosition? generated.start
  if generated.isEmpty then return Span.empty start
  let last := match generated.stop with
    | 0 => none
    | n + 1 => map.sourcePosition? n
  let stop := last.elim start (· + 1)
  return ⟨start, max stop start⟩

/-- What the forward search has seen so far: the first replaced segment that holds the offset
and the first segment that starts after it. -/
structure Candidates where
  replaced : Option Nat
  resumes : Option Nat

/-- The forward search. A copied segment decides; otherwise the earliest candidate does. -/
def search (source : Nat) : List Segment → Candidates → Candidates ⊕ Nat
  | [], seen => .inl seen
  | s :: rest, seen =>
    match s.origin with
    | .synthetic => search source rest seen
    | .source span =>
      if !span.contains source then
        if source < span.start then
          search source rest { seen with resumes := seen.resumes <|> some s.generated.start }
        else search source rest seen
      else if s.isExact then .inr (s.generated.start + (source - span.start))
      else search source rest { seen with replaced := seen.replaced <|> some s.generated.start }

/-- Where a source offset ended up. Inside replaced text this is the start of the replacement,
inside removed text the place where copied text resumes. -/
def generatedPosition? (map : PositionMap) (source : Nat) : Option Nat :=
  if map.sourceLength < source then none
  else
    match search source map.segments.toList ⟨none, none⟩ with
    | .inr position => some position
    | .inl seen => seen.replaced <|> seen.resumes <|> some map.generatedLength

end PositionMap
end SvelteLens
