import SvelteLens.Projection
import SvelteLens.Proofs.Directive.Scopes

/-! The pairs of marks in a projection. A part of a projection is plain text, or it stands between the two ends of
a mark. Read from left to right, the marks of any parts are nested. -/
namespace SvelteLens.Projection

open Text (bytes)

/-- What is put around a part of a projection: the function that wraps markup, or the scope of a slot prop. -/
inductive Mark where
  | markup
  | scope (scope : Directive.Scope)
  deriving DecidableEq, Repr

namespace Mark

def opening : Mark → String
  | .markup => markupOpening
  | .scope around => around.opening

def closing : Mark → String
  | .markup => markupClosing
  | .scope _ => Directive.scopeClosing

def scope? : Mark → Option Directive.Scope
  | .markup => none
  | .scope around => some around

end Mark

/-- What a projection consists of, read from left to right. -/
inductive Piece where
  | plain (shown : List UInt8)
  | opens (mark : Mark)
  | closes (mark : Mark)
  deriving DecidableEq, Repr

namespace Piece

def shown : Piece → List UInt8
  | .plain shown => shown
  | .opens mark => bytes mark.opening.toList
  | .closes mark => bytes mark.closing.toList

def opened? : Piece → Option Mark
  | .opens mark => some mark
  | _ => none

def closed? : Piece → Option Mark
  | .closes mark => some mark
  | _ => none

end Piece

/-- Every mark that closes is the last one that is still open. Some marks are open already, the last one first, and
none is open at the end. -/
inductive Nested : List Mark → List Piece → Prop where
  | done : Nested [] []
  | plain : Nested waiting rest → Nested waiting (.plain shown :: rest)
  | opens : Nested (mark :: waiting) rest → Nested waiting (.opens mark :: rest)
  | closes : Nested waiting rest → Nested (mark :: waiting) (.closes mark :: rest)

/-- What is open and what opens is what closes. The induction is on the pieces. -/
theorem Nested.perm {waiting : List Mark} {pieces : List Piece} (h : Nested waiting pieces) :
    (pieces.filterMap Piece.closed?).Perm (waiting ++ pieces.filterMap Piece.opened?) := by
  induction h with
  | done => exact .refl _
  | plain _ ih => exact ih
  | @opens mark waiting rest _ ih =>
    have moved : (mark :: waiting ++ rest.filterMap Piece.opened?).Perm (waiting ++ mark :: rest.filterMap Piece.opened?) :=
      List.perm_middle.symm
    exact ih.trans moved
  | closes _ ih => exact ih.cons _

inductive Part where
  | plain (shown : List UInt8)
  | pair (mark : Mark) (inner : List Part)
  deriving Repr

mutual

def Part.pieces : Part → List Piece
  | .plain shown => [.plain shown]
  | .pair mark inner => .opens mark :: (Part.piecesOf inner ++ [.closes mark])

def Part.piecesOf : List Part → List Piece
  | [] => []
  | part :: rest => part.pieces ++ Part.piecesOf rest

end

namespace Part

def shownOf (parts : List Part) : List UInt8 := (piecesOf parts).flatMap Piece.shown

/-- The marks of parts in the order in which they open. -/
def marksOf (parts : List Part) : List Mark := (piecesOf parts).filterMap Piece.opened?

variable {shown : List UInt8} {mark : Mark} {parts more inner : List Part}

theorem piecesOf_append (parts more : List Part) : piecesOf (parts ++ more) = piecesOf parts ++ piecesOf more := by
  induction parts with
  | nil => rfl
  | cons part parts ih => rw [List.cons_append, piecesOf, ih, piecesOf, List.append_assoc]

theorem shownOf_append : shownOf (parts ++ more) = shownOf parts ++ shownOf more := by
  rw [shownOf, piecesOf_append, List.flatMap_append, shownOf, shownOf]

theorem marksOf_append : marksOf (parts ++ more) = marksOf parts ++ marksOf more := by
  rw [marksOf, piecesOf_append, List.filterMap_append, marksOf, marksOf]

@[simp] theorem shownOf_nil : shownOf [] = [] := rfl

@[simp] theorem marksOf_nil : marksOf [] = [] := rfl

@[simp] theorem shownOf_plain : shownOf (.plain shown :: parts) = shown ++ shownOf parts := rfl

@[simp] theorem marksOf_plain : marksOf (.plain shown :: parts) = marksOf parts := rfl

@[simp] theorem shownOf_pair : shownOf (.pair mark inner :: parts) =
    bytes mark.opening.toList ++ (shownOf inner ++ (bytes mark.closing.toList ++ shownOf parts)) := by
  simp [shownOf, piecesOf, pieces, Piece.shown]

@[simp] theorem marksOf_pair : marksOf (.pair mark inner :: parts) = mark :: (marksOf inner ++ marksOf parts) := by
  simp [marksOf, piecesOf, pieces, Piece.opened?, List.filterMap_cons]

mutual

theorem pieces_nested (part : Part) {waiting : List Mark} {rest : List Piece} (h : Nested waiting rest) :
    Nested waiting (part.pieces ++ rest) := by
  cases part with
  | plain => exact .plain h
  | pair mark inner =>
    rw [pieces, List.cons_append, List.append_assoc]
    exact .opens (piecesOf_nested inner (.closes h))

theorem piecesOf_nested (parts : List Part) {waiting : List Mark} {rest : List Piece} (h : Nested waiting rest) :
    Nested waiting (piecesOf parts ++ rest) := by
  cases parts with
  | nil => exact h
  | cons part parts =>
    rw [piecesOf, List.append_assoc]
    exact pieces_nested part (piecesOf_nested parts h)

end

theorem nested (parts : List Part) : Nested [] (piecesOf parts) := by
  have h := piecesOf_nested parts .done
  rwa [List.append_nil] at h

/-- Parts inside scopes, the first of which is the outermost. -/
def enclosed : List Directive.Scope → List Part → List Part
  | [], inner => inner
  | scope :: rest, inner => [.pair (.scope scope) (enclosed rest inner)]

/-- Scopes without anything inside, one after the other. -/
def hollow (scopes : List Directive.Scope) : List Part := scopes.map fun scope => .pair (.scope scope) []

variable (scopes : List Directive.Scope)

/-- All scopes end alike, so the order in which they close cannot be told from the text. -/
theorem shownOf_enclosed : shownOf (enclosed scopes inner) = scopes.flatMap (fun scope => bytes scope.opening.toList) ++
    (shownOf inner ++ scopes.flatMap fun _ => bytes Directive.scopeClosing.toList) := by
  induction scopes with
  | nil => simp [enclosed]
  | cons scope rest ih =>
    have turned : (rest.flatMap fun _ => bytes Directive.scopeClosing.toList) ++ bytes Directive.scopeClosing.toList =
        bytes Directive.scopeClosing.toList ++ rest.flatMap fun _ => bytes Directive.scopeClosing.toList := by
      rw [List.flatMap_def, List.map_const', ← List.flatten_concat, ← List.replicate_succ', List.replicate_succ,
        List.flatten_cons]
    rw [enclosed, shownOf_pair, ih, shownOf_nil, List.append_nil, List.flatMap_cons, List.flatMap_cons, Mark.closing,
      Mark.opening]
    simp only [List.append_assoc, turned]

theorem marksOf_enclosed : marksOf (enclosed scopes inner) = scopes.map .scope ++ marksOf inner := by
  induction scopes with
  | nil => rfl
  | cons scope rest ih => simp [enclosed, ih]

theorem shownOf_hollow : shownOf (hollow scopes) =
    scopes.flatMap fun scope => bytes scope.opening.toList ++ bytes Directive.scopeClosing.toList := by
  induction scopes with
  | nil => rfl
  | cons scope rest ih =>
    rw [hollow, List.map_cons, shownOf_pair, ← hollow, ih]
    simp [Mark.opening, Mark.closing]

theorem marksOf_hollow : marksOf (hollow scopes) = scopes.map .scope := by
  induction scopes with
  | nil => rfl
  | cons scope rest ih =>
    rw [hollow, List.map_cons, marksOf_pair, ← hollow, ih]
    rfl

end Part
end SvelteLens.Projection
