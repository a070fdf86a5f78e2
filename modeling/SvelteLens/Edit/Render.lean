import SvelteLens.Edit.Buffer
import SvelteLens.Edit.PositionMap

/-! The text that a buffer stands for, with its position map. The text is first laid out as a
list of pieces; text and segments are then two readings of that list. -/
namespace SvelteLens.Edit

/-- `seam` marks a boundary that has an anchor: kept text never joins across it. -/
inductive Piece where
  | seam
  | inserted (text : String)
  | kept (offset : Nat) (c : Char)
  | replaced (span : Span) (text : String)
  deriving DecidableEq, Repr, Inhabited

namespace Piece

def chars : Piece → List Char
  | .seam => []
  | .inserted text => text.toList
  | .kept _ c => [c]
  | .replaced _ text => text.toList

def ofAnchor (a : Anchor) : List Piece := .seam :: (a.after ++ a.before).map .inserted

end Piece

/-- The pieces at a boundary and the anchors that are still to come. -/
def takeAnchor (offset : Nat) : List Anchor → List Piece × List Anchor
  | [] => ([], [])
  | a :: rest => if a.offset = offset then (Piece.ofAnchor a, rest) else ([], a :: rest)

/-- The replacement that starts at a boundary and the replacements that are still to come. -/
def takeReplacement (offset : Nat) : List Replacement → Option Replacement × List Replacement
  | [] => (none, [])
  | r :: rest => if r.span.start = offset then (some r, rest) else (none, r :: rest)

/-- Lays out the characters from `offset` on. Characters before `resume` were replaced already. -/
def pieces : List Char → (offset resume : Nat) → List Replacement → List Anchor → List Piece
  | [], offset, _, _, anchors => (takeAnchor offset anchors).1
  | c :: cs, offset, resume, replacements, anchors =>
    if offset < resume then pieces cs (offset + c.utf8Size) resume replacements anchors
    else
      let (inserted, anchors) := takeAnchor offset anchors
      match takeReplacement offset replacements with
      | (some r, replacements) =>
        inserted ++ .replaced r.span r.text ::
          pieces cs (offset + c.utf8Size) r.span.stop replacements anchors
      | (none, replacements) =>
        inserted ++ .kept offset c :: pieces cs (offset + c.utf8Size) resume replacements anchors

/-- Puts made-up text in front, joined with made-up text that follows directly. -/
def consSynthetic (generated : Span) : List Segment → List Segment
  | ⟨next, .synthetic⟩ :: rest => ⟨⟨generated.start, next.stop⟩, .synthetic⟩ :: rest
  | rest => ⟨generated, .synthetic⟩ :: rest

/-- Puts a kept character in front. It joins the kept text that follows unless something stands between. -/
def consKept (generated source : Span) (joins : Bool) : List Segment → List Segment
  | ⟨next, .source span⟩ :: rest =>
    if joins then ⟨⟨generated.start, next.stop⟩, .source ⟨source.start, span.stop⟩⟩ :: rest
    else ⟨generated, .source source⟩ :: ⟨next, .source span⟩ :: rest
  | rest => ⟨generated, .source source⟩ :: rest

def startsKept : List Piece → Bool
  | .kept _ _ :: _ => true
  | _ => false

/-- The segments of the pieces when the first one starts at `position`. Empty text has no segment. -/
def segments : (position : Nat) → List Piece → List Segment
  | _, [] => []
  | position, .seam :: rest => segments position rest
  | position, .inserted text :: rest =>
    let next := position + Text.width text.toList
    if text.isEmpty then segments position rest else consSynthetic ⟨position, next⟩ (segments next rest)
  | position, .kept offset c :: rest =>
    let next := position + c.utf8Size
    consKept ⟨position, next⟩ ⟨offset, offset + c.utf8Size⟩ (startsKept rest) (segments next rest)
  | position, .replaced span text :: rest =>
    let next := position + Text.width text.toList
    if text.isEmpty then segments position rest
    else ⟨⟨position, next⟩, .source span⟩ :: segments next rest

structure Rendering where
  text : String
  map : PositionMap
  deriving DecidableEq, Repr, Inhabited

namespace Buffer

def pieces (b : Buffer) : List Piece := Edit.pieces b.source.toList 0 0 b.replacements b.anchors

def render (b : Buffer) : Rendering :=
  let pieces := b.pieces
  let chars := pieces.flatMap Piece.chars
  ⟨String.ofList chars, (segments 0 pieces).toArray, b.length, Text.width chars⟩

end Buffer
end SvelteLens.Edit
