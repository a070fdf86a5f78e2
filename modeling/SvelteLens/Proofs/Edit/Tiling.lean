import SvelteLens.Proofs.Edit.Lookup
import SvelteLens.Proofs.Edit.Sources

/-! The position map of a rendering: its segments tile the generated text, and their source
ranges hold every source byte once, except the bytes that were edited away. -/
namespace SvelteLens.Edit

open Text (width)

theorem Block.push_full {b : Block} {rest : List Block} (full : ∀ c ∈ rest, c.chars ≠ []) :
    ∀ c ∈ b.push rest, c.chars ≠ [] := by
  unfold Block.push
  split
  · exact full
  · split
    · intro c member
      rcases List.mem_cons.mp member with rfl | member
      · simp_all [Block.chars]
      · exact full c (by simp [member])
    · intro c member
      rcases List.mem_cons.mp member with rfl | member
      · simp_all
      · exact full c member

theorem blocks_full (ps : List Piece) : ∀ b ∈ blocks ps, b.chars ≠ [] := by
  unfold blocks
  induction chunks ps with
  | nil => simp
  | cons b bs ih => exact Block.push_full ih

def MadeTwice (bs : List Block) : Prop := ∃ before text more after, bs = before ++ .made text :: .made more :: after

theorem Block.push_joined {b : Block} {rest : List Block} (joined : ¬MadeTwice rest) : ¬MadeTwice (b.push rest) := by
  unfold Block.push
  split
  · exact joined
  · split
    · rintro ⟨before, t, u, after, same⟩
      cases before with
      | nil =>
        cases same
        exact joined ⟨[], _, _, _, rfl⟩
      | cons c before =>
        cases same
        exact joined ⟨.made _ :: before, _, _, _, rfl⟩
    · rename_i notBoth
      rintro ⟨before, t, u, after, same⟩
      cases before with
      | nil =>
        cases same
        exact notBoth _ _ _ rfl rfl
      | cons c before =>
        cases same
        exact joined ⟨before, _, _, _, rfl⟩

theorem blocks_joined (ps : List Piece) : ¬MadeTwice (blocks ps) := by
  unfold blocks
  induction chunks ps with
  | nil => simp [MadeTwice]
  | cons b bs ih => exact Block.push_joined ih

theorem place_tiles {bs : List Block} (full : ∀ b ∈ bs, b.chars ≠ []) (position : Nat) :
    Tiles position ((place position bs).map (·.generated)) (position + width (bs.flatMap Block.chars)) := by
  induction bs generalizing position with
  | nil => simp [place, Tiles]
  | cons b bs ih =>
    have pos := Text.width_pos (full b (by simp))
    have tail := ih (fun c member => full c (by simp [member])) (position + width b.chars)
    refine ⟨rfl, ?_, by simpa [place, Nat.add_assoc] using tail⟩
    simp only
    omega

theorem place_append (before after : List Block) (position : Nat) :
    place position (before ++ after) =
      place position before ++ place (position + width (before.flatMap Block.chars)) after := by
  induction before generalizing position with
  | nil => simp [place]
  | cons b before ih => simp [place, ih, Nat.add_assoc]

/-- Every segment is a block, placed behind the text of the blocks before it. -/
theorem mem_place {bs : List Block} {position : Nat} {s : Segment} (h : s ∈ place position bs) :
    ∃ before b after, bs = before ++ b :: after ∧
      s.generated.start = position + width (before.flatMap Block.chars) ∧
      s.generated.stop = s.generated.start + width b.chars ∧ s.origin = b.origin := by
  induction bs generalizing position with
  | nil => simp [place] at h
  | cons b bs ih =>
    rcases List.mem_cons.mp h with rfl | h
    · exact ⟨[], b, bs, rfl, by simp, rfl, rfl⟩
    · obtain ⟨before, c, after, rfl, start, stop, origin⟩ := ih h
      exact ⟨b :: before, c, after, rfl, by simpa [Nat.add_assoc] using start, stop, origin⟩

theorem source?_of_origin {b : Block} {s : Segment} (h : s.origin = b.origin) : s.source? = b.source? := by
  cases b <;> simp_all [Segment.source?, Block.origin, Block.source?]

theorem sources_place (bs : List Block) (position : Nat) :
    (place position bs).filterMap Segment.source? = spans bs := by
  induction bs generalizing position with
  | nil => rfl
  | cons b bs ih =>
    rw [place, List.filterMap_cons, ih, source?_of_origin rfl]
    cases b <;> rfl

theorem origin_synthetic {b : Block} (h : b.origin = .synthetic) : ∃ text, b = .made text := by
  cases b <;> simp_all [Block.origin, Block.source?]

theorem place_joined {bs : List Block} (joined : ¬MadeTwice bs) (position : Nat) {before after : List Segment}
    {s t : Segment} (h : place position bs = before ++ s :: t :: after) :
    ¬(s.origin = .synthetic ∧ t.origin = .synthetic) := by
  induction bs generalizing position before with
  | nil => simp [place] at h
  | cons b bs ih =>
    have joined' : ¬MadeTwice bs := by
      rintro ⟨first, text, more, rest, same⟩
      exact joined ⟨b :: first, text, more, rest, by simp [same]⟩
    cases before with
    | cons u before => exact ih joined' _ (List.cons.inj h).2
    | nil =>
      obtain ⟨first, tail⟩ := List.cons.inj h
      cases bs with
      | nil => simp [place] at tail
      | cons c bs =>
        obtain ⟨second, _⟩ := List.cons.inj tail
        rw [← first, ← second]
        rintro ⟨hb, hc⟩
        obtain ⟨text, rfl⟩ := origin_synthetic hb
        obtain ⟨more, rfl⟩ := origin_synthetic hc
        exact joined ⟨[], text, more, bs, rfl⟩

namespace Buffer

def blocks (b : Buffer) : List Block := Edit.blocks b.pieces

variable {b : Buffer}

theorem Consistent.segments (valid : b.Consistent) : b.render.map.segments.toList = place 0 b.blocks :=
  valid.laid.segments_eq 0

theorem render_text (b : Buffer) : b.render.text.toList = b.blocks.flatMap Block.chars := by
  rw [blocks, flatMap_blocks]
  exact String.toList_ofList

theorem render_length (b : Buffer) : b.render.map.generatedLength = width b.render.text.toList := by
  rw [render_text, blocks, flatMap_blocks]
  rfl

theorem Consistent.tiled (valid : b.Consistent) : b.render.map.Tiled := by
  unfold PositionMap.Tiled
  have tiles := place_tiles (blocks_full b.pieces) 0
  rw [Nat.zero_add] at tiles
  rw [valid.segments, render_length, render_text]
  exact tiles

theorem Consistent.sources (valid : b.Consistent) : b.render.map.sources = spans b.blocks := by
  rw [PositionMap.sources, valid.segments, sources_place]

theorem Consistent.woven (valid : b.Consistent) :
    Woven 0 b.source.toList b.replacements (chunks b.pieces) :=
  valid.laid.woven

theorem Consistent.chunk_tiles (valid : b.Consistent) : Tiles 0 (spans (chunks b.pieces)) b.length := by
  have tiles := valid.woven.tiles
  rw [Nat.zero_add] at tiles
  exact tiles

theorem Consistent.sources_sublist (valid : b.Consistent) :
    b.render.map.sources.Sublist (spans (chunks b.pieces)) := by
  rw [valid.sources, blocks, Edit.blocks, spans_foldr_push]
  exact List.Sublist.filterMap _ List.filter_sublist

theorem Consistent.sources_ordered (valid : b.Consistent) :
    b.render.map.sources.Pairwise fun s t => s.stop ≤ t.start :=
  valid.chunk_tiles.ordered.sublist valid.sources_sublist

theorem Consistent.sources_bounds (valid : b.Consistent) {s : Span} (member : s ∈ b.render.map.sources) :
    s.start < s.stop ∧ s.stop ≤ b.length :=
  (valid.chunk_tiles.bounds (valid.sources_sublist.mem member)).2

/-- A source byte has a segment unless it was edited away. -/
theorem Consistent.has_source_iff (valid : b.Consistent) {o : Nat} (inside : o < b.length) :
    (∃ s ∈ b.render.map.sources, s.contains o = true) ↔
      ¬∃ r ∈ b.replacements, r.text = "" ∧ r.span.contains o = true := by
  rw [valid.sources]
  simp only [spans, List.mem_filterMap]
  constructor
  · rintro ⟨s, ⟨c, put, source⟩, hit⟩ ⟨r, member, empty, hit'⟩
    obtain ⟨chunk, some⟩ := (mem_foldr_push source).mp put
    have gone := valid.woven.replaced_iff.mpr ⟨r, member, rfl, rfl⟩
    have same := unique_of_ordered valid.chunk_tiles.ordered chunk gone source rfl hit hit'
    rw [same] at some
    simp [Block.chars, empty] at some
  · intro stays
    obtain ⟨c, chunk, s, source, hit⟩ := valid.woven.covers (Nat.zero_le o) (by rw [Nat.zero_add]; exact inside)
    refine ⟨s, ⟨c, (mem_foldr_push source).mpr ⟨chunk, ?_⟩, source⟩, hit⟩
    intro empty
    cases c with
    | made => simp [Block.source?] at source
    | copied start run =>
      rw [show run = [] from empty] at source
      cases source
      simp only [Span.contains_iff, Text.width_nil] at hit
      omega
    | replaced span text =>
      obtain ⟨r, member, rfl, rfl⟩ := valid.woven.replaced_iff.mp chunk
      cases source
      exact stays ⟨r, member, by simpa [Block.chars] using empty, hit⟩

/-- Of the source ranges exactly one has a given byte, and none when the byte was edited away. -/
theorem Consistent.countP_sources (valid : b.Consistent) {o : Nat} (inside : o < b.length) :
    b.render.map.sources.countP (·.contains o) =
      if b.replacements.any (fun r => r.text = "" && r.span.contains o) then 0 else 1 := by
  have found := valid.has_source_iff inside
  rw [countP_contains valid.sources_ordered]
  by_cases gone : ∃ r ∈ b.replacements, r.text = "" ∧ r.span.contains o = true
  · rw [if_neg, if_pos]
    · simpa using gone
    · simpa using mt found.mp fun stays => stays gone
  · rw [if_pos, if_neg]
    · simpa using gone
    · simpa using found.mpr gone

/-- Whatever is called on a buffer, accepted or not: the segments of its rendering tile the edited
text, made-up text is never cut in two, and the source ranges ascend and hold each byte once
unless an accepted edit put nothing in its place. So every offset of the edited text has one
segment, and is either made up or has a source position. -/
theorem render_map_covers (source : String) (calls : List Command) :
    let rendering := ((ofSource source).attempt calls).render
    let map := rendering.map
    let edits := edits ((ofSource source).accepted calls)
    (Tiles 0 (map.segments.toList.map (·.generated)) map.generatedLength ∧
      map.generatedLength = rendering.text.utf8ByteSize) ∧
    (∀ before s t after, map.segments.toList = before ++ s :: t :: after →
      ¬(s.origin = .synthetic ∧ t.origin = .synthetic)) ∧
    (map.sources.Pairwise (fun s t => s.stop ≤ t.start) ∧
      ∀ s ∈ map.sources, s.start < s.stop ∧ s.stop ≤ source.utf8ByteSize) ∧
    (∀ o < source.utf8ByteSize, map.sources.countP (·.contains o) =
      if edits.any (fun r => r.text = "" && r.span.contains o) then 0 else 1) ∧
    ∀ g < map.generatedLength,
      (∃ s ∈ map.segments, map.segmentAt? g = some s ∧ s.generated.contains g = true ∧
        ∀ t ∈ map.segments, t.generated.contains g = true → t = s) ∧
      ((map.isSynthetic g = true ∧ map.sourcePosition? g = none) ∨
        (map.isSynthetic g = false ∧ ∃ o, map.sourcePosition? g = some o)) := by
  intro rendering map edits
  obtain ⟨valid, records, same⟩ := (accepts_accepted (ofSource source) calls).keeps
    (Consistent.ofSource source) (Records.ofSource source)
  have length : ((ofSource source).attempt calls).length = source.utf8ByteSize := by
    rw [Buffer.length, same, Text.width_toList]
    rfl
  rw [← length]
  refine ⟨⟨valid.tiled, ?_⟩, ?_, ⟨valid.sources_ordered, fun s => valid.sources_bounds⟩, ?_, ?_⟩
  · rw [← Text.width_toList]
    exact render_length _
  · intro before s t after split
    exact place_joined (blocks_joined _) 0 (valid.segments.symm.trans split)
  · intro o inside
    rw [valid.countP_sources inside, records.edits.any_eq]
    rfl
  · intro g inside
    refine ⟨?_, valid.tiled.synthetic_or_source inside⟩
    obtain ⟨s, member, contains, found⟩ := valid.tiled.exists_segment inside
    refine ⟨s, Array.mem_toList_iff.mp member, found, contains, fun t other hit => ?_⟩
    exact valid.tiled.unique (Array.mem_toList_iff.mpr other) member hit contains

end Buffer
end SvelteLens.Edit
