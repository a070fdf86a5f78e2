import SvelteLens.Text.Bytes

/-! Half-open ranges of byte offsets. A span that comes from outside may be reversed;
such a span has no length and slices nothing. -/
namespace SvelteLens

structure Span where
  start : Nat
  stop : Nat
  deriving DecidableEq, Repr, Inhabited

namespace Span

def empty (offset : Nat) : Span := ⟨offset, offset⟩

/-- The number of bytes covered, for a span that is not reversed. -/
def length? (s : Span) : Option Nat := if s.start ≤ s.stop then some (s.stop - s.start) else none

def isEmpty (s : Span) : Bool := s.start == s.stop

def contains (s : Span) (offset : Nat) : Bool := s.start ≤ offset && offset < s.stop

def covers (s inner : Span) : Bool := s.start ≤ inner.start && inner.stop ≤ s.stop

def overlaps (s other : Span) : Bool := s.start < other.stop && other.start < s.stop

def order (s other : Span) : Ordering := (compare s.start other.start).then (compare s.stop other.stop)

def slice? (s : Span) (text : String) : Option String :=
  (Text.slice? text.toList s.start s.stop).map String.ofList

def render (s : Span) : String := s!"Span \x7b start: {s.start}, end: {s.stop} \x7d"

end Span
end SvelteLens
