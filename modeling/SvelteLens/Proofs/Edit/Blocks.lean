import SvelteLens.Proofs.Edit.Layout

/-! A layout as blocks of text that each come from one place. `chunks` lists what is put out, in
order; `blocks` drops what is empty and joins neighbouring made-up text; `place` says where
each block ends up. The segments of a rendering are its placed blocks. -/
namespace SvelteLens.Edit

open Text (width)

/-- Made-up text, text kept from an offset on, or text that stands for a replaced range. -/
inductive Block where
  | made (chars : List Char)
  | copied (offset : Nat) (chars : List Char)
  | replaced (span : Span) (chars : List Char)
  deriving DecidableEq, Repr

namespace Block

def chars : Block → List Char
  | .made chars | .copied _ chars | .replaced _ chars => chars

def source? : Block → Option Span
  | .made _ => none
  | .copied offset chars => some ⟨offset, offset + width chars⟩
  | .replaced span _ => some span

def origin (b : Block) : Origin := b.source?.elim .synthetic .source

/-- Puts a block in front. An empty one vanishes, and made-up text joins made-up text. -/
def push (b : Block) (rest : List Block) : List Block :=
  if b.chars.isEmpty then rest
  else
    match b, rest with
    | .made text, .made more :: rest => .made (text ++ more) :: rest
    | b, rest => b :: rest

theorem push_empty {b : Block} (h : b.chars = []) (rest : List Block) : b.push rest = rest := by
  simp [push, h]

@[simp] theorem push_copied (offset : Nat) (c : Char) (run : List Char) (rest : List Block) :
    (copied offset (c :: run)).push rest = copied offset (c :: run) :: rest := by
  simp [push, chars]

theorem push_replaced (span : Span) {text : List Char} (ne : text ≠ []) (rest : List Block) :
    (replaced span text).push rest = replaced span text :: rest := by
  simp [push, chars, ne]

@[simp] theorem flatMap_push (b : Block) (rest : List Block) :
    (b.push rest).flatMap chars = b.chars ++ rest.flatMap chars := by
  unfold push
  split
  · simp_all
  · split <;> simp [chars]

end Block

/-- The text at a boundary, then what follows it. A kept character joins the kept text that follows
it directly. -/
def chunks : List Piece → List Block
  | [] => []
  | .seam :: ps => chunks ps
  | .inserted text :: ps => .made text.toList :: chunks ps
  | .replaced span text :: ps => .replaced span text.toList :: chunks ps
  | .kept offset c :: ps =>
    match startsKept ps, chunks ps with
    | true, .copied _ run :: rest => .copied offset (c :: run) :: rest
    | _, rest => .copied offset [c] :: rest

def blocks (ps : List Piece) : List Block := (chunks ps).foldr Block.push []

/-- The segments of blocks when the first one starts at `position`. -/
def place : Nat → List Block → List Segment
  | _, [] => []
  | position, b :: rest =>
    let next := position + width b.chars
    ⟨⟨position, next⟩, b.origin⟩ :: place next rest

@[simp] theorem chunks_ofAnchor (a : Anchor) (ps : List Piece) :
    chunks (Piece.ofAnchor a ++ ps) =
      ((a.after ++ a.before).map fun text => .made text.toList) ++ chunks ps := by
  have texts : ∀ texts : List String, chunks (texts.map .inserted ++ ps) =
      (texts.map fun text => .made text.toList) ++ chunks ps := by
    intro texts
    induction texts with
    | nil => rfl
    | cons text texts ih => simp [chunks, ih]
  exact texts _

theorem chunks_kept (offset : Nat) (c : Char) (ps : List Piece) :
    ∃ run rest, chunks (.kept offset c :: ps) = .copied offset (c :: run) :: rest := by
  unfold chunks
  split <;> exact ⟨_, _, rfl⟩

theorem flatMap_chunks (ps : List Piece) : (chunks ps).flatMap Block.chars = ps.flatMap Piece.chars := by
  fun_induction chunks ps with
  | case1 => rfl
  | case2 ps ih => simp [ih, Piece.chars]
  | case3 text ps ih => simp [ih, Piece.chars, Block.chars]
  | case4 span text ps ih => simp [ih, Piece.chars, Block.chars]
  | case5 offset c ps span run rest found joins ih => simp [← ih, found, Piece.chars, Block.chars]
  | case6 offset c ps joins ih => simp [← ih, Piece.chars, Block.chars]

theorem flatMap_foldr_push (bs : List Block) :
    (bs.foldr Block.push []).flatMap Block.chars = bs.flatMap Block.chars := by
  induction bs with
  | nil => rfl
  | cons b bs ih => simp [ih]

theorem flatMap_blocks (ps : List Piece) : (blocks ps).flatMap Block.chars = ps.flatMap Piece.chars := by
  rw [blocks, flatMap_foldr_push, flatMap_chunks]

theorem consSynthetic_place (position : Nat) {text : List Char} (ne : text ≠ []) (bs : List Block) :
    consSynthetic ⟨position, position + width text⟩ (place (position + width text) bs) =
      place position (Block.push (.made text) bs) := by
  cases bs with
  | nil => simp [place, consSynthetic, Block.push, Block.chars, Block.origin, Block.source?, ne]
  | cons b bs =>
    cases b <;>
      simp [place, consSynthetic, Block.push, Block.chars, Block.origin, Block.source?, ne, Nat.add_assoc]

theorem consKept_apart (generated source : Span) (segments : List Segment) :
    consKept generated source false segments = ⟨generated, .source source⟩ :: segments := by
  unfold consKept
  split <;> rfl

theorem segments_inserted (texts : List String) (ps : List Piece)
    (h : ∀ position, segments position ps = place position (blocks ps)) (position : Nat) :
    segments position (texts.map .inserted ++ ps) =
      place position ((texts.map fun text => Block.made text.toList).foldr Block.push (blocks ps)) := by
  induction texts generalizing position with
  | nil => exact h position
  | cons text texts ih =>
    simp only [List.map_cons, List.cons_append, segments, List.foldr_cons]
    by_cases empty : text = ""
    · subst empty
      rw [if_pos (by rfl), ih, Block.push_empty (by rfl)]
    · have ne : text.toList ≠ [] := by simpa using empty
      rw [if_neg (by simpa using empty), ih, consSynthetic_place position ne]

/-- A layout that starts with a kept character starts with the one at its own offset. -/
theorem Laid.head_kept (h : Laid offset cs rs anchors ps) (starts : startsKept ps = true) :
    ∃ c rest, ps = .kept offset c :: rest := by
  cases h with
  | kept => exact ⟨_, _, rfl⟩
  | _ => simp [Piece.ofAnchor, startsKept] at starts

/-- The segments of a layout are its placed blocks. -/
theorem Laid.segments_eq (h : Laid offset cs rs anchors ps) (position : Nat) :
    segments position ps = place position (blocks ps) := by
  induction h generalizing position with
  | done => rfl
  | @anchored anchors cs rs ps a _ _ ih =>
    have inserted := segments_inserted (a.after ++ a.before) ps ih position
    rw [blocks, chunks_ofAnchor, List.foldr_append]
    exact inserted
  | @replaced covered anchors offset rs rest ps text _ _ _ _ ih =>
    simp only [segments, blocks, chunks, List.foldr_cons]
    by_cases empty : text = ""
    · subst empty
      rw [if_pos (by rfl), Block.push_empty (by rfl)]
      exact ih position
    · have ne : text.toList ≠ [] := by simpa using empty
      rw [if_neg (by simpa using empty), Block.push_replaced _ ne, ih]
      rfl
  | @kept anchors offset rs cs ps c _ _ rest ih =>
    rw [segments, ih]
    cases starts : startsKept ps with
    | false =>
      have alone : chunks (.kept offset c :: ps) = .copied offset [c] :: chunks ps := by
        simp [chunks, starts]
      rw [consKept_apart, blocks, blocks, alone, List.foldr_cons, Block.push_copied]
      simp [place, Block.chars, Block.origin, Block.source?]
    | true =>
      obtain ⟨d, ps, rfl⟩ := rest.head_kept starts
      obtain ⟨run, more, found⟩ := chunks_kept (offset + c.utf8Size) d ps
      have joined : chunks (.kept offset c :: .kept (offset + c.utf8Size) d :: ps) =
          .copied offset (c :: d :: run) :: more := by
        rw [chunks, starts, found]
      rw [blocks, blocks, joined, found, List.foldr_cons, List.foldr_cons, Block.push_copied,
        Block.push_copied]
      simp [place, consKept, Block.chars, Block.origin, Block.source?, Nat.add_assoc]

end SvelteLens.Edit
