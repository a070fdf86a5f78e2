import SvelteLens.Text.Span

/-! An edit buffer over a text that never changes. Every edit is given in offsets of that text.
Replaced ranges are disjoint and nothing is inserted strictly inside one; a call that would
break this is refused and changes nothing. -/
namespace SvelteLens.Edit

/-- Offsets are below this bound, so that each of them fits into 32 bits. A buffer and its position map count without
bound; `Buffer.offsets_fit` says that no offset of theirs passes it as long as both texts are shorter. -/
def offsetBound : Nat := 0x100000000

inductive Refusal where
  | outOfBounds (offset length : Nat)
  | insideCharacter (offset : Nat)
  | reversed (start stop : Nat)
  | emptyOverwrite (offset : Nat)
  | overlap (existing new : Span)
  | insideEdit (offset : Nat) (edit : Span)
  deriving DecidableEq, Repr, Inhabited

def Refusal.message : Refusal → String
  | .outOfBounds offset length => s!"offset {offset} is out of bounds for text of length {length}"
  | .insideCharacter offset => s!"offset {offset} is not on a character boundary"
  | .reversed start stop => s!"invalid range: start {start} is after end {stop}"
  | .emptyOverwrite offset => s!"cannot overwrite an empty range at {offset}"
  | .overlap existing new => s!"edit {new.render} overlaps earlier edit {existing.render}"
  | .insideEdit offset edit => s!"insertion at {offset} falls inside edited range {edit.render}"

structure Replacement where
  span : Span
  text : String
  deriving DecidableEq, Repr, Inhabited

/-- The texts inserted at one boundary: first those that belong to the byte before it, then
those that belong to the byte after it, each group in call order. -/
structure Anchor where
  offset : Nat
  after : List String
  before : List String
  deriving DecidableEq, Repr, Inhabited

/-- Replacements and anchors are kept in ascending order. -/
structure Buffer where
  source : String
  replacements : List Replacement
  anchors : List Anchor
  deriving DecidableEq, Repr, Inhabited

inductive Command where
  | overwrite (span : Span) (text : String)
  | remove (span : Span)
  | insertBefore (offset : Nat) (text : String)
  | insertAfter (offset : Nat) (text : String)
  deriving DecidableEq, Repr, Inhabited

namespace Buffer

def ofSource (source : String) : Buffer := ⟨source, [], []⟩

def length (b : Buffer) : Nat := Text.width b.source.toList

def checkOffset (b : Buffer) (offset : Nat) : Except Refusal Unit :=
  if b.length < offset then .error (.outOfBounds offset b.length)
  else if !Text.isBoundary b.source.toList offset then .error (.insideCharacter offset)
  else .ok ()

def checkRange (b : Buffer) (span : Span) : Except Refusal Unit := do
  b.checkOffset span.start
  b.checkOffset span.stop
  if span.stop < span.start then throw (.reversed span.start span.stop)

/-- The replaced range that shares a byte with the span, or has it strictly inside. Replaced ranges
are disjoint and ascend, so it can only be the last one that starts before the end of the span. -/
def conflict? (b : Buffer) (span : Span) : Option Span :=
  let last := b.replacements.reverse.find? (·.span.start < span.stop)
  (last.filter (span.start < ·.span.stop)).map (·.span)

/-- The replaced range that has the offset strictly inside. -/
def covering? (b : Buffer) (offset : Nat) : Option Span := b.conflict? (Span.empty offset)

def insertedInside? (b : Buffer) (span : Span) : Option Nat :=
  (b.anchors.find? fun a => span.start < a.offset && a.offset < span.stop).map (·.offset)

def addReplacement (new : Replacement) : List Replacement → List Replacement
  | [] => [new]
  | r :: rest => if new.span.start < r.span.start then new :: r :: rest else r :: addReplacement new rest

/-- Changes the anchor at an offset, which is created when there is none. -/
def changeAnchor (offset : Nat) (change : Anchor → Anchor) : List Anchor → List Anchor
  | [] => [change ⟨offset, [], []⟩]
  | a :: rest =>
    if offset < a.offset then change ⟨offset, [], []⟩ :: a :: rest
    else if offset = a.offset then change a :: rest
    else a :: changeAnchor offset change rest

def replace (b : Buffer) (span : Span) (text : String) : Except Refusal Buffer :=
  match b.conflict? span with
  | some existing => .error (.overlap existing span)
  | none =>
    match b.insertedInside? span with
    | some offset => .error (.insideEdit offset span)
    | none => .ok { b with replacements := addReplacement ⟨span, text⟩ b.replacements }

def insert (b : Buffer) (offset : Nat) (change : Anchor → Anchor) : Except Refusal Buffer := do
  b.checkOffset offset
  match b.covering? offset with
  | some edit => throw (.insideEdit offset edit)
  | none => return { b with anchors := changeAnchor offset change b.anchors }

/-- Applies one command. Overwriting an empty range is refused, removing one does nothing. -/
def apply (b : Buffer) : Command → Except Refusal Buffer
  | .overwrite span text => do
    b.checkRange span
    if span.isEmpty then throw (.emptyOverwrite span.start)
    b.replace span text
  | .remove span => do
    b.checkRange span
    if span.isEmpty then return b
    b.replace span ""
  | .insertBefore offset text => b.insert offset fun a => { a with before := a.before ++ [text] }
  | .insertAfter offset text => b.insert offset fun a => { a with after := a.after ++ [text] }

end Buffer
end SvelteLens.Edit
