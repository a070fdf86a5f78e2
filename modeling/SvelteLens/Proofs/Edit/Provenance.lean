import SvelteLens.Proofs.Edit.Reordering
import SvelteLens.Proofs.Edit.Tiling

/-! Where the text of a segment comes from: it is copied, or put in place of other text by one call, or joined
from texts that calls inserted. -/
namespace SvelteLens.Edit

open Text (width)

theorem made_mem_push {b : Block} {rest : List Block} {chars : List Char} (member : .made chars ∈ b.push rest) :
    .made chars ∈ rest ∨ b = .made chars ∨
      ∃ text more, b = .made text ∧ .made more ∈ rest ∧ chars = text ++ more := by
  unfold Block.push at member
  split at member
  · exact .inl member
  · split at member
    · next text more rest _ =>
      rcases List.mem_cons.mp member with joined | behind
      · cases joined
        exact .inr (.inr ⟨text, more, rfl, List.mem_cons_self, rfl⟩)
      · exact .inl (List.mem_cons_of_mem _ behind)
    · exact (List.mem_cons.mp member).symm.imp_right fun same => .inl same.symm

theorem made_of_foldr_push {bs : List Block} {chars : List Char} (member : .made chars ∈ bs.foldr Block.push []) :
    ∃ texts, texts ≠ [] ∧ (∀ text ∈ texts, .made text ∈ bs) ∧ chars = texts.flatten := by
  induction bs generalizing chars with
  | nil => cases member
  | cons b bs ih =>
    rcases made_mem_push member with later | rfl | ⟨text, more, rfl, later, rfl⟩
    · obtain ⟨texts, filled, listed, same⟩ := ih later
      exact ⟨texts, filled, fun text here => List.mem_cons_of_mem b (listed text here), same⟩
    · exact ⟨[chars], nofun, fun text here => List.mem_singleton.mp here ▸ List.mem_cons_self, by simp⟩
    · obtain ⟨texts, -, listed, rfl⟩ := ih later
      exact ⟨text :: texts, nofun,
        List.forall_mem_cons.mpr ⟨List.mem_cons_self, fun t here => List.mem_cons_of_mem _ (listed t here)⟩, rfl⟩

theorem Laid.made_anchored {offset : Nat} {cs : List Char} {rs : List Replacement} {anchors : List Anchor}
    {ps : List Piece} (laid : Laid offset cs rs anchors ps) {text : List Char} (member : .made text ∈ chunks ps) :
    ∃ a ∈ anchors, ∃ side, ∃ inserted ∈ a.texts side, inserted.toList = text := by
  induction laid with
  | done => cases member
  | @anchored anchors cs rs ps a _ _ ih =>
    rw [chunks_ofAnchor] at member
    rcases List.mem_append.mp member with here | behind
    · obtain ⟨inserted, listed, same⟩ := List.mem_map.mp here
      cases same
      rcases List.mem_append.mp listed with after | before
      · exact ⟨a, List.mem_cons_self, .after, inserted, after, rfl⟩
      · exact ⟨a, List.mem_cons_self, .before, inserted, before, rfl⟩
    · obtain ⟨later, listed, found⟩ := ih behind
      exact ⟨later, List.mem_cons_of_mem a listed, found⟩
  | replaced _ _ _ _ ih => exact ih (by simpa [chunks] using member)
  | kept _ _ _ ih =>
    refine ih ?_
    unfold chunks at member
    split at member
    · next found =>
      rw [found]
      cases member with
      | tail _ later => exact List.mem_cons_of_mem _ later
    · cases member with
      | tail _ later => exact later

theorem Laid.shows_anchor {offset : Nat} {cs : List Char} {rs : List Replacement} {anchors : List Anchor}
    {ps : List Piece} (laid : Laid offset cs rs anchors ps) {a : Anchor} (member : a ∈ anchors) :
    ∃ front back, ps = front ++ (Piece.ofAnchor a ++ back) := by
  induction laid with
  | done => cases member
  | @anchored anchors cs rs ps first later rest ih =>
    rcases List.mem_cons.mp member with rfl | member
    · exact ⟨[], ps, rfl⟩
    · obtain ⟨front, back, rfl⟩ := ih member
      exact ⟨Piece.ofAnchor first ++ front, back, (List.append_assoc ..).symm⟩
  | replaced _ _ _ _ ih =>
    obtain ⟨front, back, rfl⟩ := ih member
    exact ⟨_ :: front, back, rfl⟩
  | kept _ _ _ ih =>
    obtain ⟨front, back, rfl⟩ := ih member
    exact ⟨_ :: front, back, rfl⟩

namespace Buffer

variable {b : Buffer} {calls : List Command}

theorem Records.inserted_of_anchor (records : Records b calls) (valid : b.Consistent) {a : Anchor}
    (member : a ∈ b.anchors) {side : Side} {text : String} (listed : text ∈ a.texts side) :
    ∃ i ∈ insertions calls, i.text = text := by
  have here : text ∈ textsAt b.anchors side a.offset := by
    rw [textsAt, find?_own valid.ascending member]
    exact listed
  rw [records.texts] at here
  obtain ⟨i, inserted, same⟩ := List.mem_map.mp here
  exact ⟨i, (List.mem_filter.mp inserted).1, same⟩

/-- Every inserted text is shown as it is. -/
theorem Consistent.shows_inserted (valid : b.Consistent) (records : Records b calls) {i : Insertion}
    (member : i ∈ insertions calls) : ∃ front back, b.render.text = front ++ (i.text ++ back) := by
  have here : i.text ∈ textsAt b.anchors i.side i.offset := by
    rw [records.texts]
    exact List.mem_map_of_mem (List.mem_filter.mpr ⟨member, by simp⟩)
  obtain ⟨a, anchored, listed⟩ : ∃ a ∈ b.anchors, i.text ∈ a.after ++ a.before := by
    rw [textsAt] at here
    cases found : b.anchors.find? (·.offset = i.offset) with
    | none => simp [found] at here
    | some a =>
      rw [found, Option.elim_some] at here
      refine ⟨a, List.mem_of_find?_eq_some found, List.mem_append.mpr ?_⟩
      cases side : i.side with
      | after => exact .inl (by rwa [side] at here)
      | before => exact .inr (by rwa [side] at here)
  obtain ⟨front, back, split⟩ := valid.laid.shows_anchor anchored
  obtain ⟨texts, more, same⟩ := List.append_of_mem listed
  refine ⟨String.ofList ((front ++ Piece.seam :: texts.map Piece.inserted).flatMap Piece.chars),
    String.ofList ((more.map Piece.inserted ++ back).flatMap Piece.chars), String.toList_injective ?_⟩
  rw [render, split, Piece.ofAnchor, same]
  simp [Piece.chars, List.flatMap_map]

/-- What the text of a segment is. -/
inductive Originates (b : Buffer) (calls : List Command) : Origin → String → Prop where
  | copied {span : Span} {text : String} (same : span.slice? b.source = some text) :
      Originates b calls (.source span) text
  | replaced {r : Replacement} (asked : r ∈ edits calls) : Originates b calls (.source r.span) r.text
  | joined {texts : List String} (filled : texts ≠ [])
      (inserted : ∀ text ∈ texts, ∃ i ∈ insertions calls, i.text = text) :
      Originates b calls .synthetic (String.ofList (texts.flatMap String.toList))

/-- The text of every segment comes from the source or from calls. -/
theorem Consistent.segment_originates (valid : b.Consistent) (records : Records b calls) {s : Segment}
    (member : s ∈ b.render.map.segments.toList) :
    ∃ text, s.generated.slice? b.render.text = some text ∧ Originates b calls s.origin text := by
  rw [valid.segments] at member
  obtain ⟨before, c, after, split, start, stop, origin⟩ := mem_place member
  have put : c ∈ b.blocks := by rw [split]; simp
  have text : b.render.text.toList = before.flatMap Block.chars ++ (c.chars ++ after.flatMap Block.chars) := by
    rw [render_text, split]
    simp
  rw [Nat.zero_add] at start
  refine ⟨String.ofList c.chars, ?_, ?_⟩
  · exact Option.map_eq_some_iff.mpr
      ⟨c.chars, Text.slice?_eq_some_iff.mpr ⟨_, _, text, start.symm, stop⟩, rfl⟩
  rw [origin]
  cases c with
  | made chars =>
    obtain ⟨texts, filled, listed, rfl⟩ := made_of_foldr_push put
    have found : ∀ chars ∈ texts, ∃ i ∈ insertions calls, i.text.toList = chars := by
      intro chars here
      obtain ⟨a, anchored, side, text, at', rfl⟩ := valid.laid.made_anchored (listed chars here)
      obtain ⟨i, asked, rfl⟩ := records.inserted_of_anchor valid anchored at'
      exact ⟨i, asked, rfl⟩
    have same : texts.flatten = (texts.map String.ofList).flatMap String.toList := by
      simp [List.flatMap_map, ← List.flatMap_id']
    rw [Block.chars, same]
    refine .joined (by simpa using filled) fun text here => ?_
    obtain ⟨chars, chunk, rfl⟩ := List.mem_map.mp here
    obtain ⟨i, asked, rfl⟩ := found chars chunk
    exact ⟨i, asked, String.ofList_toList.symm⟩
  | copied first run =>
    have chunk := ((mem_foldr_push rfl).mp put).1
    obtain ⟨front, rest, source, wide⟩ := valid.woven.copied_occurs chunk
    rw [Nat.zero_add] at wide
    exact .copied (Option.map_eq_some_iff.mpr
      ⟨run, Text.slice?_eq_some_iff.mpr ⟨_, _, source, wide.symm, rfl⟩, rfl⟩)
  | replaced span chars =>
    have chunk := ((mem_foldr_push rfl).mp put).1
    obtain ⟨r, listed, rfl, rfl⟩ := valid.woven.replaced_iff.mp chunk
    rw [Block.chars, String.ofList_toList]
    exact .replaced (records.edits.mem_iff.mp listed)

theorem Originates.fewer {fewer : List Command} {origin : Origin} {text : String} (h : Originates b calls origin text)
    (filled : text ≠ "") (kept : ∀ c ∈ calls, c ∈ fewer ∨ ∃ span, c = .remove span) : Originates b fewer origin text := by
  cases h with
  | copied same => exact .copied same
  | replaced asked =>
    obtain ⟨c, member, edit⟩ := List.mem_filterMap.mp asked
    rcases kept c member with here | ⟨span, rfl⟩
    · exact .replaced (List.mem_filterMap.mpr ⟨c, here, edit⟩)
    · simp only [Command.edit?] at edit
      split at edit
      · cases edit
      · cases edit
        exact absurd rfl filled
  | joined some inserted =>
    refine .joined some fun text here => ?_
    obtain ⟨i, asked, same⟩ := inserted text here
    obtain ⟨c, member, insertion⟩ := List.mem_filterMap.mp asked
    rcases kept c member with here | ⟨span, rfl⟩
    · exact ⟨i, List.mem_filterMap.mpr ⟨c, here, insertion⟩, same⟩
    · cases insertion

theorem Consistent.segment_filled (valid : b.Consistent) {s : Segment} (member : s ∈ b.render.map.segments.toList)
    {text : String} (shown : s.generated.slice? b.render.text = some text) : text ≠ "" := by
  rintro rfl
  have proper := (valid.tiled.bounds member).1
  obtain ⟨chars, cut, none⟩ := Option.map_eq_some_iff.mp shown
  obtain ⟨before, after, -, start, stop⟩ := Text.slice?_eq_some_iff.mp cut
  rw [String.ofList_eq_empty_iff.mp none, Text.width_nil] at stop
  omega

end Buffer
end SvelteLens.Edit

namespace SvelteLens

open Text (width)

def PositionMap.Puts (map : PositionMap) (rendered : String) (range : Span) (text : String) : Prop :=
  ∃ s ∈ map.segments.toList, s.origin = .source range ∧ s.generated.slice? rendered = some text

namespace Edit.Buffer

variable {b : Buffer}

theorem Consistent.puts (valid : b.Consistent) {r : Replacement} (member : r ∈ b.replacements) (filled : r.text ≠ "") :
    b.render.map.Puts b.render.text r.span r.text := by
  have chunk := valid.woven.replaced_iff.mpr ⟨r, member, rfl, rfl⟩
  have put : Block.replaced r.span r.text.toList ∈ b.blocks :=
    (mem_foldr_push rfl).mpr ⟨chunk, by simpa [Block.chars] using filled⟩
  obtain ⟨before, after, split⟩ := List.append_of_mem put
  have text : b.render.text.toList = before.flatMap Block.chars ++ (r.text.toList ++ after.flatMap Block.chars) := by
    rw [render_text, split]
    simp [Block.chars]
  let start := width (before.flatMap Block.chars)
  refine ⟨⟨⟨start, start + width r.text.toList⟩, .source r.span⟩, ?_, rfl, Option.map_eq_some_iff.mpr
    ⟨r.text.toList, Text.slice?_eq_some_iff.mpr ⟨_, _, text, rfl, rfl⟩, String.ofList_toList⟩⟩
  rw [valid.segments, split, place_append, Nat.zero_add]
  exact List.mem_append_right _ List.mem_cons_self

theorem Consistent.puts_unique (valid : b.Consistent) {range range' : Span} {text text' : String} {o : Nat}
    (h : b.render.map.Puts b.render.text range text) (h' : b.render.map.Puts b.render.text range' text')
    (inside : range.contains o = true) (inside' : range'.contains o = true) : range = range' ∧ text = text' := by
  obtain ⟨s, member, origin, shown⟩ := h
  obtain ⟨s', member', origin', shown'⟩ := h'
  have same : s = s' := unique_of_ordered valid.sources_ordered member member' (by rw [Segment.source?, origin])
    (by rw [Segment.source?, origin']) inside inside'
  subst same
  rw [origin] at origin'
  rw [shown] at shown'
  cases origin'
  cases shown'
  exact ⟨rfl, rfl⟩

end Edit.Buffer
end SvelteLens
