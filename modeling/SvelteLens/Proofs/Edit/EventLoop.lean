import SvelteLens.Proofs.Edit.Reference
import SvelteLens.Proofs.Edit.Tiling

/-! Rendering as a loop over events. From one boundary it goes to the next one that has an inserted
text or the start of a replaced range, and cuts what lies between out of the source. A loop that does
not end has no result, nor has one that cuts out of range or inside a character. -/
namespace SvelteLens.Edit

open Text (width)

structure Output where
  chars : List Char
  segments : List Segment

namespace Output

/-- Puts out a text. An empty one vanishes, and made-up text joins made-up text before it. -/
def emit (out : Output) (chars : List Char) (origin : Origin) : Output :=
  if chars.isEmpty then out
  else
    let span : Span := ⟨width out.chars, width out.chars + width chars⟩
    let appended : Output := ⟨out.chars ++ chars, out.segments ++ [⟨span, origin⟩]⟩
    match out.segments.getLast? with
    | some last =>
      if origin = .synthetic && last.origin = .synthetic then
        ⟨out.chars ++ chars, out.segments.dropLast ++ [⟨⟨last.generated.start, span.stop⟩, .synthetic⟩]⟩
      else appended
    | none => appended

def put (out : Output) (b : Block) : Output := out.emit b.chars b.origin

end Output

namespace Buffer

/-- The first boundary behind this one that has an inserted text or the start of a replaced range. -/
def nextEvent (b : Buffer) (offset : Nat) : Nat :=
  let anchor := (b.anchors.find? (offset < ·.offset)).map (·.offset)
  let replacement := (b.replacements.find? (offset < ·.span.start)).map (·.span.start)
  min b.length (min (anchor.getD b.length) (replacement.getD b.length))

/-- Where one round of the loop leads. -/
inductive Round where
  | next (offset : Nat) (out : Output)
  | last (out : Output)

/-- One round of the loop. None when it cuts out of range or inside a character. -/
def round? (b : Buffer) (offset : Nat) (out : Output) : Option Round :=
  let texts := textsAt b.anchors .after offset ++ textsAt b.anchors .before offset
  let out := texts.foldl (fun out text => out.emit text.toList .synthetic) out
  if offset = b.length then some (.last out)
  else
    match editIn b.replacements offset with
    | some r => some (.next r.span.stop (out.emit r.text.toList (.source ⟨offset, r.span.stop⟩)))
    | none =>
      let stop := b.nextEvent offset
      (Text.slice? b.source.toList offset stop).map fun run => .next stop (out.emit run (.source ⟨offset, stop⟩))

/-- The loop ends: after finitely many rounds it has put out `final`. -/
inductive Ends (b : Buffer) (final : Output) : Nat → Output → Prop where
  | last : b.round? offset out = some (.last final) → Ends b final offset out
  | next : b.round? offset out = some (.next offset' out') → Ends b final offset' out' → Ends b final offset out

theorem Ends.unique {b : Buffer} {offset : Nat} {out final other : Output} (h : Ends b final offset out)
    (h' : Ends b other offset out) : other = final := by
  induction h with
  | last stops =>
    cases h' with
    | last stops' =>
      rw [stops] at stops'
      cases stops'
      rfl
    | next goes =>
      rw [stops] at goes
      cases goes
  | next goes _ ih =>
    cases h' with
    | last stops =>
      rw [goes] at stops
      cases stops
    | next goes' rest =>
      rw [goes] at goes'
      cases goes'
      exact ih rest

/-- The edited text and its position map, when this was put out. -/
def rendering (b : Buffer) (out : Output) : Rendering :=
  ⟨String.ofList out.chars, out.segments.toArray, b.length, width out.chars⟩

end Buffer

namespace Output

variable {out : Output} {chars : List Char} {origin : Origin}

theorem emit_nil : out.emit [] origin = out := rfl

theorem emit_append (ne : chars ≠ [])
    (apart : ∀ last, out.segments.getLast? = some last → ¬(origin = .synthetic ∧ last.origin = .synthetic)) :
    out.emit chars origin = ⟨out.chars ++ chars,
      out.segments ++ [⟨⟨width out.chars, width out.chars + width chars⟩, origin⟩]⟩ := by
  unfold emit
  rw [if_neg (by simpa using ne)]
  simp only
  split
  · rename_i last found
    rw [if_neg (by simpa using apart last found)]
  · rfl

theorem emit_join (ne : chars ≠ []) {before : List Segment} {start stop : Nat}
    (ends : out.segments = before ++ [⟨⟨start, stop⟩, .synthetic⟩]) :
    out.emit chars .synthetic = ⟨out.chars ++ chars,
      before ++ [⟨⟨start, width out.chars + width chars⟩, .synthetic⟩]⟩ := by
  unfold emit
  rw [if_neg (by simpa using ne), ends]
  simp

end Output

theorem Block.push_made_made {text more : List Char} (ne : more ≠ []) (rest : List Block) :
    (made text).push ((made more).push rest) = (made (text ++ more)).push rest := by
  cases text with
  | nil => rw [List.nil_append, push_empty rfl]
  | cons c text =>
    cases rest with
    | nil => simp [push, Block.chars, ne]
    | cons b rest => cases b <;> simp [push, Block.chars, ne]

theorem Block.push_sourced {b : Block} (ne : b.chars ≠ []) (sourced : b.origin ≠ .synthetic) (rest : List Block) :
    b.push rest = b :: rest := by
  cases b with
  | made => exact absurd rfl sourced
  | copied => exact if_neg (by simpa using ne)
  | replaced => exact if_neg (by simpa using ne)

theorem Block.push_made_sourced {text : List Char} {b : Block} (ne : text ≠ []) (sourced : b.origin ≠ .synthetic)
    (rest : List Block) : (made text).push (b :: rest) = .made text :: b :: rest := by
  cases b with
  | made => exact absurd rfl sourced
  | copied => simp [push, Block.chars, ne]
  | replaced => simp [push, Block.chars, ne]

namespace Output

/-- What was put out last is not made up, so nothing can join it. -/
def Settled (out : Output) : Prop := ∀ last, out.segments.getLast? = some last → last.origin ≠ .synthetic

theorem put_alone {out : Output} {b : Block} (ne : b.chars ≠ []) (apart : out.Settled ∨ b.origin ≠ .synthetic) :
    out.put b = ⟨out.chars ++ b.chars, out.segments ++ place (width out.chars) [b]⟩ := by
  refine emit_append ne fun last found both => ?_
  rcases apart with settled | sourced
  · exact settled last found both.2
  · exact sourced both.1

theorem put_joined {out : Output} {before : List Segment} {start : Nat} {text more : List Char} (ne : more ≠ [])
    (ends : out.segments = before ++ place start [.made text]) (wide : width out.chars = start + width text) :
    out.put (.made more) = ⟨out.chars ++ more, before ++ place start [.made (text ++ more)]⟩ := by
  refine (emit_join ne ends).trans ?_
  simp [place, Block.chars, Block.origin, Block.source?, wide, Nat.add_assoc]

theorem settled_put {out : Output} {b : Block} (ne : b.chars ≠ []) (sourced : b.origin ≠ .synthetic) :
    (out.put b).Settled := by
  intro last found
  rw [put_alone ne (.inr sourced)] at found
  simp only [place, List.getLast?_concat, Option.some.injEq] at found
  rw [← found]
  exact sourced

end Output

/-- Texts put out one after the other become the placed blocks. The two halves differ in what was
put out last: only behind made-up text can the first block join something. -/
theorem foldl_put (bs : List Block) :
    (∀ out : Output, out.Settled → bs.foldl Output.put out = ⟨out.chars ++ bs.flatMap Block.chars,
      out.segments ++ place (width out.chars) (bs.foldr Block.push [])⟩) ∧
    ∀ (out : Output) (before : List Segment) (start : Nat) (text : List Char), text ≠ [] →
      out.segments = before ++ place start [.made text] → width out.chars = start + width text →
      bs.foldl Output.put out = ⟨out.chars ++ bs.flatMap Block.chars,
        before ++ place start (Block.push (.made text) (bs.foldr Block.push []))⟩ := by
  induction bs with
  | nil =>
    refine ⟨fun out _ => by simp [place], fun out before start text ne ends _ => ?_⟩
    have alone : Block.push (.made text) [] = [.made text] := by simp [Block.push, Block.chars, ne]
    rw [List.foldr_nil, alone, ← ends]
    simp
  | cons b bs ih =>
    obtain ⟨behindSource, behindMade⟩ := ih
    by_cases empty : b.chars = []
    · have same : ∀ out : Output, out.put b = out := fun out => by rw [Output.put, empty, Output.emit_nil]
      simp only [List.foldl_cons, List.foldr_cons, List.flatMap_cons, Block.push_empty empty, same, empty,
        List.nil_append]
      exact ⟨behindSource, behindMade⟩
    simp only [List.foldl_cons, List.foldr_cons, List.flatMap_cons]
    by_cases synthetic : b.origin = .synthetic
    · obtain ⟨more, rfl⟩ := origin_synthetic synthetic
      have ne' : more ≠ [] := empty
      refine ⟨fun out settled => ?_, fun out before start text ne ends wide => ?_⟩
      · rw [Output.put_alone empty (.inl settled), behindMade _ _ _ more ne' rfl (by simp [Block.chars])]
        simp [Block.chars]
      · rw [Output.put_joined ne' ends wide,
          behindMade _ _ _ (text ++ more) (by simp [ne]) rfl (by simp [wide, Nat.add_assoc]),
          Block.push_made_made ne']
        simp [Block.chars]
    · have settled (out : Output) : (out.put b).Settled := Output.settled_put empty synthetic
      rw [Block.push_sourced empty synthetic]
      refine ⟨fun out _ => ?_, fun out before start text ne ends wide => ?_⟩
      · rw [behindSource _ (settled out), Output.put_alone empty (.inr synthetic)]
        simp [place, List.append_assoc]
      · rw [behindSource _ (settled out), Output.put_alone empty (.inr synthetic),
          Block.push_made_sourced ne synthetic, ends]
        simp only [place, List.append_assoc, List.cons_append, List.nil_append, Text.width_append, wide]
        rfl

theorem foldl_put_start (bs : List Block) :
    bs.foldl Output.put ⟨[], []⟩ = ⟨bs.flatMap Block.chars, place 0 (bs.foldr Block.push [])⟩ :=
  (foldl_put bs).1 ⟨[], []⟩ (by simp [Output.Settled])

/-- The texts of a boundary come first; behind them no text is left to insert there. -/
theorem Laid.boundary (h : Laid offset cs rs anchors ps) :
    ∃ here later ps', anchors = here ++ later ∧ (∀ a ∈ here, a.offset = offset) ∧
      (∀ a ∈ later, offset < a.offset) ∧ Laid offset cs rs later ps' ∧
      chunks ps = ((Buffer.textsAt anchors .after offset ++ Buffer.textsAt anchors .before offset).map
        fun text => .made text.toList) ++ chunks ps' := by
  -- Where no anchor stands at the boundary, there is no text.
  have plain : ∀ {anchors ps}, Laid offset cs rs anchors ps → (∀ a ∈ anchors, offset < a.offset) →
      ∃ here later ps', anchors = here ++ later ∧ (∀ a ∈ here, a.offset = offset) ∧
        (∀ a ∈ later, offset < a.offset) ∧ Laid offset cs rs later ps' ∧
        chunks ps = ((Buffer.textsAt anchors .after offset ++ Buffer.textsAt anchors .before offset).map
          fun text => .made text.toList) ++ chunks ps' := by
    intro anchors ps laid later
    have none := textsAt_none fun a member => Nat.ne_of_gt (later a member)
    exact ⟨[], anchors, ps, rfl, by simp, later, laid, by simp [none]⟩
  cases h with
  | done => exact plain .done (by simp)
  | @anchored anchors cs rs ps a later rest =>
    refine ⟨[a], anchors, ps, rfl, by simp, later, rest, ?_⟩
    rw [chunks_ofAnchor]
    simp [Buffer.textsAt, Anchor.texts]
  | replaced ne behindAnchors behindEdits rest =>
    have pos := Text.width_pos ne
    exact plain (.replaced ne behindAnchors behindEdits rest) fun a member => by
      have := behindAnchors a member
      omega
  | @kept anchors offset rs cs ps c behindAnchors behindEdits rest =>
    have pos := c.utf8Size_pos
    exact plain (.kept behindAnchors behindEdits rest) fun a member => by
      have := behindAnchors a member
      omega

theorem Laid.tail_kept (h : Laid offset cs rs anchors (.kept at' c :: ps)) :
    ∃ tail, cs = c :: tail ∧ at' = offset ∧ (∀ a ∈ anchors, offset + c.utf8Size ≤ a.offset) ∧
      (∀ r ∈ rs, offset + c.utf8Size ≤ r.span.start) ∧ Laid (offset + c.utf8Size) tail rs anchors ps := by
  generalize listed : Piece.kept at' c :: ps = qs at h
  cases h with
  | kept behindAnchors behindEdits tail =>
    cases listed
    exact ⟨_, rfl, rfl, behindAnchors, behindEdits, tail⟩
  | anchored => simp [Piece.ofAnchor] at listed
  | _ => cases listed

theorem Laid.kept_run (h : Laid offset cs rs anchors (.kept at' c :: ps)) :
    ∃ run rest ps', cs = run ++ rest ∧ run ≠ [] ∧
      chunks (.kept at' c :: ps) = .copied offset run :: chunks ps' ∧
      Laid (offset + width run) rest rs anchors ps' ∧ startsKept ps' = false ∧
      (∀ a ∈ anchors, offset + width run ≤ a.offset) ∧ ∀ r ∈ rs, offset + width run ≤ r.span.start := by
  induction cs generalizing offset at' c ps with
  | nil =>
    obtain ⟨_, impossible, _⟩ := h.tail_kept
    cases impossible
  | cons d cs ih =>
    obtain ⟨_, same, rfl, behindAnchors, behindEdits, tail⟩ := h.tail_kept
    cases same
    cases starts : startsKept ps with
    | false =>
      have alone : chunks (.kept at' d :: ps) = .copied at' [d] :: chunks ps := by simp [chunks, starts]
      exact ⟨[d], cs, ps, rfl, List.cons_ne_nil d [], alone, by simpa using tail, starts,
        by simpa using behindAnchors, by simpa using behindEdits⟩
    | true =>
      obtain ⟨e, more, rfl⟩ := tail.head_kept starts
      obtain ⟨run, rest, ps', rfl, ne, found, laid, stops, anchors', edits'⟩ := ih tail
      refine ⟨d :: run, rest, ps', rfl, List.cons_ne_nil d run, ?_, ?_, stops, ?_, ?_⟩
      · rw [chunks, starts, found]
      · simpa [Nat.add_assoc] using laid
      · simpa [Nat.add_assoc] using anchors'
      · simpa [Nat.add_assoc] using edits'

/-- A layout that does not go on with a kept character is at an event or at the end. -/
theorem Laid.event (h : Laid offset cs rs anchors ps) (stops : startsKept ps = false) :
    cs = [] ∨ (∃ a later, anchors = a :: later ∧ a.offset = offset) ∨
      ∃ r later, rs = r :: later ∧ r.span.start = offset := by
  cases h with
  | done => exact .inl rfl
  | anchored => exact .inr (.inl ⟨_, _, rfl, rfl⟩)
  | replaced => exact .inr (.inr ⟨_, _, rfl, rfl⟩)
  | kept => simp [startsKept] at stops

/-- Behind the things that were passed, the first thing further on is the first of the rest. -/
theorem find?_behind {key : α → Nat} {passed left : List α} {offset : Nat} (old : ∀ x ∈ passed, key x ≤ offset)
    (behind : ∀ x ∈ left, offset < key x) : (passed ++ left).find? (offset < key ·) = left.head? := by
  have none : passed.find? (offset < key ·) = none := by
    rw [List.find?_eq_none]
    intro x member
    simpa using old x member
  rw [List.find?_append, none, Option.none_or]
  cases left with
  | nil => rfl
  | cons x left => rw [List.find?_cons, decide_eq_true (behind x List.mem_cons_self), List.head?_cons]

theorem le_head {key : α → Nat} {xs : List α} {bound length : Nat} (all : ∀ x ∈ xs, bound ≤ key x)
    (le : bound ≤ length) : bound ≤ (xs.head?.map key).getD length := by
  cases xs with
  | nil => exact le
  | cons x xs => exact all x List.mem_cons_self

/-- The loop has come to a boundary: what was passed is behind it, the rest is still to come. -/
structure Reached (b : Buffer) (offset : Nat) (cs : List Char) (rs : List Replacement)
    (anchors : List Anchor) : Prop where
  source : ∃ front, b.source.toList = front ++ cs ∧ width front = offset
  anchors : ∃ passed, b.anchors = passed ++ anchors ∧ ∀ a ∈ passed, a.offset < offset
  replacements : ∃ passed, b.replacements = passed ++ rs ∧ ∀ r ∈ passed, r.span.start < offset

namespace Reached

variable {b : Buffer} {offset : Nat} {cs : List Char} {rs : List Replacement} {anchors : List Anchor}

theorem start (b : Buffer) : Reached b 0 b.source.toList b.replacements b.anchors :=
  ⟨⟨[], rfl, rfl⟩, ⟨[], rfl, by simp⟩, ⟨[], rfl, by simp⟩⟩

theorem length (h : Reached b offset cs rs anchors) : b.length = offset + width cs := by
  obtain ⟨front, source, wide⟩ := h.source
  rw [Buffer.length, source, Text.width_append, wide]

theorem texts (h : Reached b offset cs rs anchors) (side : Side) :
    Buffer.textsAt b.anchors side offset = Buffer.textsAt anchors side offset := by
  obtain ⟨passed, split, before⟩ := h.anchors
  have absent : passed.find? (·.offset = offset) = none := by
    simpa using fun a member => Nat.ne_of_lt (before a member)
  rw [Buffer.textsAt, Buffer.textsAt, split, List.find?_append, absent, Option.none_or]

theorem edit (h : Reached b offset cs rs anchors) : editIn b.replacements offset = editIn rs offset := by
  obtain ⟨passed, split, before⟩ := h.replacements
  have absent : passed.find? (·.span.start = offset) = none := by
    simpa using fun r member => Nat.ne_of_lt (before r member)
  rw [editIn, editIn, split, List.find?_append, absent, Option.none_or]

/-- Going on behind some characters, past the anchors and replacements of this boundary. -/
theorem forward {run rest : List Char} {here later : List Anchor} (gone : List Replacement) {left : List Replacement}
    (h : Reached b offset (run ++ rest) (gone ++ left) (here ++ later)) (ne : run ≠ [])
    (atHere : ∀ a ∈ here, a.offset = offset) (atGone : ∀ r ∈ gone, r.span.start = offset) :
    Reached b (offset + width run) rest left later := by
  have pos := Text.width_pos ne
  obtain ⟨front, source, wide⟩ := h.source
  obtain ⟨passed, split, before⟩ := h.anchors
  obtain ⟨passed', split', before'⟩ := h.replacements
  refine ⟨⟨front ++ run, by simp [source], by simp [wide]⟩, ⟨passed ++ here, by simp [split], ?_⟩,
    ⟨passed' ++ gone, by simp [split'], ?_⟩⟩
  · intro a member
    rcases List.mem_append.mp member with member | member
    · have := before a member
      omega
    · have := atHere a member
      omega
  · intro r member
    rcases List.mem_append.mp member with member | member
    · have := before' r member
      omega
    · have := atGone r member
      omega

/-- The next event is where the run of kept characters ends. -/
theorem nextEvent {run rest : List Char} {here later : List Anchor}
    (h : Reached b offset (run ++ rest) rs (here ++ later)) (ne : run ≠ [])
    (atHere : ∀ a ∈ here, a.offset = offset) (laid : Laid (offset + width run) rest rs later ps)
    (stops : startsKept ps = false) (behindAnchors : ∀ a ∈ later, offset + width run ≤ a.offset)
    (behindEdits : ∀ r ∈ rs, offset + width run ≤ r.span.start) :
    b.nextEvent offset = offset + width run := by
  have pos := Text.width_pos ne
  have length := h.length
  rw [Text.width_append] at length
  obtain ⟨passed, split, before⟩ := h.anchors
  obtain ⟨passed', split', before'⟩ := h.replacements
  have passedAnchors : ∀ a ∈ passed ++ here, a.offset ≤ offset := by
    intro a member
    rcases List.mem_append.mp member with old | new
    · exact Nat.le_of_lt (before a old)
    · exact Nat.le_of_eq (atHere a new)
  have anchor : b.anchors.find? (offset < ·.offset) = later.head? := by
    rw [split, ← List.append_assoc]
    exact find?_behind passedAnchors fun a member => Nat.lt_of_lt_of_le (by omega) (behindAnchors a member)
  have replacement : b.replacements.find? (offset < ·.span.start) = rs.head? := by
    rw [split']
    exact find?_behind (fun r member => Nat.le_of_lt (before' r member)) fun r member =>
      Nat.lt_of_lt_of_le (by omega) (behindEdits r member)
  have inside : offset + width run ≤ b.length := by omega
  have anchorBound : offset + width run ≤ (later.head?.map (·.offset)).getD b.length := le_head behindAnchors inside
  have replacementBound : offset + width run ≤ (rs.head?.map (·.span.start)).getD b.length :=
    le_head behindEdits inside
  unfold Buffer.nextEvent
  simp only [anchor, replacement]
  rcases laid.event stops with rfl | ⟨a, more, rfl, start⟩ | ⟨r, more, rfl, start⟩
  · simp only [Text.width_nil] at length
    omega
  · simp only [List.head?_cons, Option.map_some, Option.getD_some] at anchorBound ⊢
    omega
  · simp only [List.head?_cons, Option.map_some, Option.getD_some] at replacementBound ⊢
    omega

end Reached

namespace Buffer

variable {b : Buffer}

theorem foldl_emit (texts : List String) (out : Output) :
    texts.foldl (fun out text => out.emit text.toList .synthetic) out =
      (texts.map fun text => Block.made text.toList).foldl Output.put out := by
  rw [List.foldl_map]
  rfl

/-- The loop puts out the chunks of the layout. The induction is on the number of characters left;
one round passes a whole run of kept characters or a whole replaced range. -/
theorem ends_of_laid {offset : Nat} {cs : List Char} {rs : List Replacement} {anchors : List Anchor}
    {ps : List Piece} (reached : Reached b offset cs rs anchors) (laid : Laid offset cs rs anchors ps)
    (out : Output) : b.Ends ((chunks ps).foldl Output.put out) offset out := by
  induction hn : cs.length using Nat.strongRecOn generalizing offset cs rs anchors ps out with
  | ind n ih =>
    subst hn
    obtain ⟨here, later, ps', rfl, atHere, behind, rest, texts⟩ := laid.boundary
    rw [texts, List.foldl_append, ← foldl_emit, ← reached.texts, ← reached.texts]
    generalize put : (textsAt b.anchors .after offset ++ textsAt b.anchors .before offset).foldl
      (fun out text => out.emit text.toList .synthetic) out = out'
    have whole := rest
    cases rest with
    | done =>
      refine .last ?_
      rw [round?, put, reached.length]
      exact if_pos rfl
    | anchored =>
      have := behind _ List.mem_cons_self
      omega
    | @replaced covered anchors offset rs rest ps text ne behindAnchors behindEdits tail =>
      have pos := Text.width_pos ne
      have shorter : rest.length < (covered ++ rest).length := by
        have := List.length_pos_iff.mpr ne
        simp only [List.length_append]
        omega
      have next : Reached b (offset + width covered) rest rs later :=
        reached.forward [_] ne atHere (by simp)
      have edit : editIn (⟨⟨offset, offset + width covered⟩, text⟩ :: rs) offset =
          some ⟨⟨offset, offset + width covered⟩, text⟩ := by simp [editIn]
      refine .next ?_ (ih _ shorter next tail _ rfl)
      rw [round?, put, reached.edit, reached.length, if_neg (by simp only [Text.width_append]; omega), edit]
      rfl
    | @kept anchors offset rs cs ps c behindAnchors behindEdits tail =>
      obtain ⟨run, rest, ps', same, ne, chunk, laid, stops, behindAnchors', behindEdits'⟩ := whole.kept_run
      rw [same] at reached
      have pos := Text.width_pos ne
      have shorter : rest.length < (c :: cs).length := by
        have := List.length_pos_iff.mpr ne
        rw [same, List.length_append]
        omega
      have none : editIn rs offset = none :=
        editIn_none fun r member => by have := behindEdits' r member; omega
      have next := reached.nextEvent ne atHere laid stops behindAnchors' behindEdits'
      have cut : Text.slice? b.source.toList offset (offset + width run) = some run := by
        obtain ⟨front, source, wide⟩ := reached.source
        exact Text.slice?_eq_some_iff.mpr ⟨front, rest, source, wide, rfl⟩
      rw [chunk, List.foldl_cons]
      refine .next ?_ (ih _ shorter (reached.forward [] ne atHere (by simp)) laid _ rfl)
      rw [round?, put, reached.edit, reached.length, if_neg (by simp only [Text.width_append]; omega), none]
      simp only [next, cut, Option.map_some]
      rfl

/-- The loop ends, cuts nothing out of range, and gives the rendering. -/
theorem Consistent.ends (valid : b.Consistent) :
    ∃ final, b.Ends final 0 ⟨[], []⟩ ∧ b.rendering final = b.render := by
  refine ⟨_, ends_of_laid (Reached.start b) valid.laid ⟨[], []⟩, ?_⟩
  have segments : place 0 ((chunks b.pieces).foldr Block.push []) = Edit.segments 0 b.pieces :=
    (valid.laid.segments_eq 0).symm
  rw [foldl_put_start, flatMap_chunks, segments]
  rfl

/-- An accepted insertion stands at a boundary that no accepted replacement has inside. -/
theorem Records.insertion_outside {calls : List Command} (valid : b.Consistent) (records : Records b calls)
    {i : Insertion} (member : i ∈ insertions calls) :
    i.offset ≤ b.length ∧ ∀ r ∈ Edit.edits calls, i.offset ≤ r.span.start ∨ r.span.stop ≤ i.offset := by
  obtain ⟨a, anchored, here⟩ := records.anchored member
  rw [← here]
  refine ⟨Text.le_width_of_isBoundary (valid.anchored a anchored), fun r edit => ?_⟩
  exact valid.outside a anchored r (records.edits.mem_iff.mpr edit)

/-- An accepted replacement is the one that starts at its boundary, and lies inside no other. -/
theorem Records.edit_outside {calls : List Command} (valid : b.Consistent) (records : Records b calls)
    {r : Replacement} (member : r ∈ Edit.edits calls) :
    r.span.start ≤ b.length ∧ editAt? calls r.span.start = some r ∧
      ∀ s ∈ Edit.edits calls, r.span.start ≤ s.span.start ∨ s.span.stop ≤ r.span.start := by
  have listed := records.edits.mem_iff.mpr member
  have proper := valid.proper r listed
  refine ⟨Text.le_width_of_isBoundary proper.2.1, ?_, fun s edit => ?_⟩
  · rw [← records.editIn valid, Edit.editIn]
    cases found : b.replacements.find? (·.span.start = r.span.start) with
    | none => simpa using List.find?_eq_none.mp found r listed
    | some s =>
      have start : s.span.start = r.span.start := by simpa using List.find?_some found
      have listed' := List.mem_of_find?_eq_some found
      have proper' := valid.proper s listed'
      rcases related_of_pairwise valid.ordered listed' listed with same | before | after
      · rw [same]
      · omega
      · omega
  · rcases related_of_pairwise valid.ordered listed (records.edits.mem_iff.mpr edit) with rfl | before | after
    · exact .inl (Nat.le_refl _)
    · have := valid.proper s (records.edits.mem_iff.mpr edit)
      omega
    · exact .inr after

/-- Whatever is called on a buffer, accepted or not: the event loop ends without a cut that is out
of range or inside a character, and the text it gives is the reference rendering of the accepted
calls. The boundaries of that rendering ascend, and each accepted insertion and each accepted
replacement has its own among them, so none is lost, repeated or moved past another. -/
theorem render_follows_calls (source : String) (calls : List Command) :
    let b := (ofSource source).attempt calls
    let accepted := (ofSource source).accepted calls
    let stops := stops (editAt? accepted) source.utf8ByteSize 0
    (∃ final, b.Ends final 0 ⟨[], []⟩ ∧ (∀ other, b.Ends other 0 ⟨[], []⟩ → other = final) ∧
      b.rendering final = b.render) ∧
    b.render.text.toUTF8.data.toList = reference source accepted ∧
    stops.Pairwise (· < ·) ∧
    (∀ i ∈ insertions accepted, i.offset ∈ stops) ∧
    ∀ r ∈ edits accepted, r.span.start ∈ stops ∧ editAt? accepted r.span.start = some r := by
  intro b accepted stops
  obtain ⟨valid, records, same⟩ := (accepts_accepted (ofSource source) calls).keeps
    (Consistent.ofSource source) (Records.ofSource source)
  have length : b.length = source.utf8ByteSize := by
    rw [Buffer.length, same, Text.width_toList]
    rfl
  have edit : ∀ k r, editAt? accepted k = some r → r ∈ edits accepted ∧ r.span.start = k :=
    fun k r found => ⟨List.mem_of_find?_eq_some found, by simpa using List.find?_some found⟩
  obtain ⟨final, ends, rendering⟩ := valid.ends
  refine ⟨⟨final, ends, fun _ => ends.unique, rendering⟩, ?_, stops_ascending _ _ _, fun i member => ?_,
    fun r member => ⟨?_, ?_⟩⟩
  · rw [Text.toList_toUTF8, valid.written records, same]
    rfl
  · obtain ⟨bound, outside⟩ := records.insertion_outside valid member
    refine mem_stops_of_outside (Nat.zero_le _) (length ▸ bound) fun k r found => ?_
    obtain ⟨listed, rfl⟩ := edit k r found
    exact outside r listed
  · obtain ⟨bound, _, outside⟩ := records.edit_outside valid member
    refine mem_stops_of_outside (Nat.zero_le _) (length ▸ bound) fun k s found => ?_
    obtain ⟨listed, rfl⟩ := edit k s found
    exact outside s listed
  · exact (records.edit_outside valid member).2.1

end Buffer
end SvelteLens.Edit
