import SvelteLens.Proofs.Edit.Tiling

/-! A source byte that no replacement holds is found again: its generated position holds the same
byte and leads back to it, and the generated positions of such bytes keep their order. -/
namespace SvelteLens

open Text (width byteAt?)

/-- A copied segment that alone holds an offset decides the forward search. -/
theorem PositionMap.search_copied {ss : List Segment} {s : Segment} {span : Span} {o : Nat}
    (member : s ∈ ss) (origin : s.origin = .source span) (exact : s.isExact = true)
    (inside : span.contains o = true)
    (alone : ∀ t ∈ ss, ∀ other, t.origin = .source other → other.contains o = true → t = s) (seen : Candidates) :
    search o ss seen = .inr (s.generated.start + (o - span.start)) := by
  induction ss generalizing seen with
  | nil => simp at member
  | cons t ss ih =>
    have rest (elsewhere : s ≠ t) (seen : Candidates) :
        search o ss seen = .inr (s.generated.start + (o - span.start)) := by
      have behind := (List.mem_cons.mp member).resolve_left elsewhere
      exact ih behind (fun u hu => alone u (List.mem_cons_of_mem t hu)) seen
    unfold search
    cases from' : t.origin with
    | synthetic =>
      refine rest ?_ seen
      rintro rfl
      simp [origin] at from'
    | source other =>
      by_cases holds : other.contains o = true
      · have same := alone t List.mem_cons_self other from' holds
        subst same
        obtain rfl : span = other := by simpa [origin] using from'
        simp [inside, exact]
      · have elsewhere : s ≠ t := by
          rintro rfl
          obtain rfl : span = other := by simpa [origin] using from'
          exact holds inside
        simp only [holds]
        split
        · split <;> exact rest elsewhere _
        · contradiction

/-- A source byte and the generated byte that shows it. -/
structure PositionMap.Shows (text source : String) (map : PositionMap) (o g : Nat) : Prop where
  forward : map.generatedPosition? o = some g
  byte : byteAt? text g = byteAt? source o
  back : map.sourcePosition? g = some o
  copied : map.isSynthetic g = false

/-- The generated text from one shown byte to another leads back to the source from the one to the
other, whatever stands between them. -/
theorem PositionMap.Shows.sourceSpan? {text source : String} {map : PositionMap} {o o' g g' : Nat}
    (first : map.Shows text source o g) (last : map.Shows text source o' g') (ordered : o ≤ o') (placed : g ≤ g') :
    map.sourceSpan? ⟨g, g' + 1⟩ = some ⟨o, o' + 1⟩ := by
  have filled : (⟨g, g' + 1⟩ : Span).isEmpty = false := by
    simp only [Span.isEmpty, beq_eq_false_iff_ne]
    omega
  have stop : max (o' + 1) o = o' + 1 := by omega
  simp only [PositionMap.sourceSpan?, first.back, last.back, filled, bind, Option.bind_some, Option.elim_some, stop]
  rfl

namespace Edit.Buffer

variable {b : Buffer}

/-- Where a kept byte lies: in a kept run of the source, which is one segment. -/
structure Keeps (b : Buffer) (o : Nat) (before : List Block) (start : Nat) (run : List Char)
    (after : List Block) : Prop where
  blocks : b.blocks = before ++ .copied start run :: after
  lower : start ≤ o
  upper : o < start + width run

def segmentOf (before : List Block) (start : Nat) (run : List Char) : Segment :=
  let position := width (before.flatMap Block.chars)
  ⟨⟨position, position + width run⟩, .source ⟨start, start + width run⟩⟩

theorem Consistent.keeps (valid : b.Consistent) {o : Nat} (inside : o < b.length)
    (kept : ∀ r ∈ b.replacements, r.span.contains o = false) :
    ∃ before start run after, Keeps b o before start run after := by
  obtain ⟨c, chunk, span, source, holds⟩ :=
    valid.woven.covers (Nat.zero_le o) (by rw [Nat.zero_add]; exact inside)
  cases c with
  | made => simp [Block.source?] at source
  | replaced other text =>
    obtain ⟨r, member, rfl, _⟩ := valid.woven.replaced_iff.mp chunk
    cases source
    rw [kept r member] at holds
    cases holds
  | copied start run =>
    cases source
    rw [Span.contains_iff] at holds
    have ne : run ≠ [] := by
      rintro rfl
      simp only [Text.width_nil] at holds
      omega
    have put : Block.copied start run ∈ b.blocks := (mem_foldr_push rfl).mpr ⟨chunk, ne⟩
    obtain ⟨before, after, split⟩ := List.append_of_mem put
    exact ⟨before, start, run, after, split, holds.1, holds.2⟩

namespace Keeps

variable {o : Nat} {before after : List Block} {start : Nat} {run : List Char}

theorem member (h : Keeps b o before start run after) (valid : b.Consistent) :
    segmentOf before start run ∈ b.render.map.segments.toList := by
  rw [valid.segments, h.blocks, place_append, Nat.zero_add]
  exact List.mem_append_right _ List.mem_cons_self

theorem source_contains (h : Keeps b o before start run after) :
    (⟨start, start + width run⟩ : Span).contains o = true :=
  Span.contains_iff.mpr ⟨h.lower, h.upper⟩

theorem forward (h : Keeps b o before start run after) (valid : b.Consistent) (inside : o < b.length) :
    b.render.map.generatedPosition? o = some (width (before.flatMap Block.chars) + (o - start)) := by
  have exact : (segmentOf before start run).isExact = true := by
    simp [segmentOf, Segment.isExact, Span.length?]
  have alone : ∀ t ∈ b.render.map.segments.toList, ∀ other, t.origin = .source other →
      other.contains o = true → t = segmentOf before start run := by
    intro t member other origin holds
    exact unique_of_ordered valid.sources_ordered member (h.member valid)
      (Segment.source?_eq_some.mpr origin) rfl holds h.source_contains
  have found := PositionMap.search_copied (h.member valid) rfl exact h.source_contains alone ⟨none, none⟩
  have bound : ¬b.render.map.sourceLength < o := Nat.not_lt.mpr (Nat.le_of_lt inside)
  rw [PositionMap.generatedPosition?, if_neg bound, found]
  rfl

theorem generated_contains (h : Keeps b o before start run after) :
    (segmentOf before start run).generated.contains (width (before.flatMap Block.chars) + (o - start)) = true := by
  have := h.lower
  have := h.upper
  refine Span.contains_iff.mpr ⟨?_, ?_⟩ <;> simp only [segmentOf] <;> omega

theorem back (h : Keeps b o before start run after) (valid : b.Consistent) :
    b.render.map.sourcePosition? (width (before.flatMap Block.chars) + (o - start)) = some o := by
  have lower := h.lower
  have upper := h.upper
  have found := valid.tiled.segmentAt? (h.member valid) h.generated_contains
  have bound := valid.tiled.bounds (h.member valid)
  have place := Span.contains_iff.mp h.generated_contains
  have full : (⟨start, start + width run⟩ : Span).isEmpty = false := by
    simp only [Span.isEmpty, beq_eq_false_iff_ne]
    omega
  rw [PositionMap.sourcePosition?_inside (by omega), found, Option.bind_some]
  simp only [Segment.sourceAt?, segmentOf, full, Bool.false_eq_true, if_false, Option.some.injEq]
  omega

theorem copied (h : Keeps b o before start run after) (valid : b.Consistent) :
    b.render.map.isSynthetic (width (before.flatMap Block.chars) + (o - start)) = false := by
  have found := valid.tiled.segmentAt? (h.member valid) h.generated_contains
  rw [PositionMap.isSynthetic, found]
  rfl

theorem byte (h : Keeps b o before start run after) (valid : b.Consistent) :
    byteAt? b.render.text (width (before.flatMap Block.chars) + (o - start)) = byteAt? b.source o := by
  have chunk : Block.copied start run ∈ chunks b.pieces := by
    have put : Block.copied start run ∈ b.blocks := by rw [h.blocks]; simp
    exact ((mem_foldr_push rfl).mp put).1
  obtain ⟨front, rest, source, wide⟩ := valid.woven.copied_occurs chunk
  rw [Nat.zero_add] at wide
  have lower := h.lower
  have upper := h.upper
  have text : b.render.text.toList =
      before.flatMap Block.chars ++ (run ++ after.flatMap Block.chars) := by
    rw [render_text, h.blocks]
    simp [Block.chars]
  have here : o = width front + (o - start) := by omega
  rw [Text.byteAt?_eq, Text.byteAt?_eq, text, source, Text.getElem?_bytes_inside _ _ _ (by omega)]
  conv => rhs; rw [here]
  rw [Text.getElem?_bytes_inside _ _ _ (by omega)]

end Keeps

theorem Consistent.shows (valid : b.Consistent) {o : Nat} (inside : o < b.length)
    (kept : ∀ r ∈ b.replacements, r.span.contains o = false) :
    ∃ g, b.render.map.Shows b.render.text b.source o g := by
  obtain ⟨before, start, run, after, keeps⟩ := valid.keeps inside kept
  exact ⟨_, keeps.forward valid inside, keeps.byte valid, keeps.back valid, keeps.copied valid⟩

theorem Consistent.segments_ordered (valid : b.Consistent) : b.render.map.segments.toList.Pairwise fun s t =>
    s.generated.stop ≤ t.generated.start ∧ ∀ u v, s.source? = some u → t.source? = some v → u.stop ≤ v.start := by
  refine valid.tiled.ordered.and ?_
  have ordered := List.pairwise_filterMap.mp valid.sources_ordered
  exact ordered.imp fun apart u v hu hv => apart u hu v hv

theorem Consistent.shows_ordered (valid : b.Consistent) {o o' g g' : Nat} (less : o < o') (inside : o' < b.length)
    (kept : ∀ r ∈ b.replacements, r.span.contains o = false)
    (kept' : ∀ r ∈ b.replacements, r.span.contains o' = false)
    (shown : b.render.map.generatedPosition? o = some g)
    (shown' : b.render.map.generatedPosition? o' = some g') : g < g' := by
  have inside₀ : o < b.length := Nat.lt_trans less inside
  obtain ⟨before, start, run, after, keeps⟩ := valid.keeps inside₀ kept
  obtain ⟨before', start', run', after', keeps'⟩ := valid.keeps inside kept'
  rw [keeps.forward valid inside₀, Option.some.injEq] at shown
  rw [keeps'.forward valid inside, Option.some.injEq] at shown'
  have lower := keeps.lower
  have upper := keeps.upper
  have lower' := keeps'.lower
  have upper' := keeps'.upper
  rcases related_of_pairwise valid.segments_ordered (keeps.member valid) (keeps'.member valid) with
    same | ⟨earlier, _⟩ | ⟨_, later⟩
  · simp only [segmentOf, Segment.mk.injEq, Span.mk.injEq, Origin.source.injEq] at same
    omega
  · simp only [segmentOf] at earlier
    omega
  · have := later _ _ rfl rfl
    simp only at this
    omega

/-- A segment that stands for a source range shows the text of the range, unless an edit put
other text in its place. -/
theorem Consistent.segment_cases (valid : b.Consistent) {s : Segment} {span : Span}
    (member : s ∈ b.render.map.segments.toList) (origin : s.origin = .source span) :
    (∃ text, s.generated.slice? b.render.text = some text ∧ span.slice? b.source = some text) ∨
      ∃ r ∈ b.replacements, r.span = span ∧ r.text ≠ "" := by
  rw [valid.segments] at member
  obtain ⟨before, c, after, split, start, stop, same⟩ := mem_place member
  have full : c.chars ≠ [] := blocks_full b.pieces c (by rw [← blocks, split]; simp)
  have put : c ∈ b.blocks := by rw [split]; simp
  rw [Nat.zero_add] at start
  rw [origin] at same
  cases c with
  | made => cases same
  | copied first run =>
    cases same
    have chunk := ((mem_foldr_push rfl).mp put).1
    obtain ⟨front, rest, source, wide⟩ := valid.woven.copied_occurs chunk
    rw [Nat.zero_add] at wide
    have text : b.render.text.toList = before.flatMap Block.chars ++ (run ++ after.flatMap Block.chars) := by
      rw [render_text, split]
      simp [Block.chars]
    refine .inl ⟨String.ofList run, ?_, ?_⟩
    · exact Option.map_eq_some_iff.mpr
        ⟨run, Text.slice?_eq_some_iff.mpr ⟨_, _, text, start.symm, stop⟩, rfl⟩
    · exact Option.map_eq_some_iff.mpr
        ⟨run, Text.slice?_eq_some_iff.mpr ⟨_, _, source, wide.symm, rfl⟩, rfl⟩
  | replaced other text =>
    cases same
    have chunk := ((mem_foldr_push rfl).mp put).1
    obtain ⟨r, listed, rfl, rfl⟩ := valid.woven.replaced_iff.mp chunk
    exact .inr ⟨r, listed, rfl, by simpa [Block.chars] using full⟩

def Untouched (source : String) (calls : List Command) (o : Nat) : Prop :=
  o < source.utf8ByteSize ∧ ∀ r ∈ edits ((ofSource source).accepted calls), r.span.contains o = false

/-- Whatever is called on a buffer, accepted or not: each source byte that no accepted edit holds is
shown in the edited text at a place of its own, the places keep the order of the bytes, and the
text from one of them to another leads back to the source between the bytes. -/
theorem untouched_round_trips (source : String) (calls : List Command) :
    let rendering := ((ofSource source).attempt calls).render
    let map := rendering.map
    (∀ o, Untouched source calls o → ∃ g, map.Shows rendering.text source o g ∧
      ∃ byte, byteAt? source o = some byte ∧ byteAt? rendering.text g = some byte) ∧
    ∀ o o' g g', Untouched source calls o → Untouched source calls o' → o ≤ o' →
      map.generatedPosition? o = some g → map.generatedPosition? o' = some g' →
      (o < o' → g < g') ∧ map.sourceSpan? ⟨g, g' + 1⟩ = some ⟨o, o' + 1⟩ := by
  intro rendering map
  obtain ⟨valid, records, same⟩ := (accepts_accepted (ofSource source) calls).keeps
    (Consistent.ofSource source) (Records.ofSource source)
  have same : ((ofSource source).attempt calls).source = source := same
  have length : ((ofSource source).attempt calls).length = source.utf8ByteSize := by
    rw [Buffer.length, same, Text.width_toList]
  have outside {o : Nat} (untouched : Untouched source calls o) :
      o < ((ofSource source).attempt calls).length ∧
        ∀ r ∈ ((ofSource source).attempt calls).replacements, r.span.contains o = false :=
    ⟨length ▸ untouched.1, fun r member => untouched.2 r (records.edits.mem_iff.mp member)⟩
  have shows {o : Nat} (untouched : Untouched source calls o) : ∃ g, map.Shows rendering.text source o g := by
    have shown := valid.shows (outside untouched).1 (outside untouched).2
    rwa [same] at shown
  refine ⟨fun o untouched => ?_, fun o o' g g' first last ordered at' at'' => ?_⟩
  · obtain ⟨g, shown⟩ := shows untouched
    have inside : o < (Text.bytes source.toList).length := by
      rw [Text.length_bytes, Text.width_toList]
      exact untouched.1
    have byte := Text.byteAt?_eq source o
    rw [List.getElem?_eq_getElem inside] at byte
    exact ⟨g, shown, _, byte, shown.byte.trans byte⟩
  · obtain ⟨_, shown⟩ := shows first
    obtain ⟨_, shown'⟩ := shows last
    cases shown.forward.symm.trans at'
    cases shown'.forward.symm.trans at''
    have forward : o < o' → g < g' := fun less =>
      valid.shows_ordered less (outside last).1 (outside first).2 (outside last).2 at' at''
    refine ⟨forward, shown.sourceSpan? shown' ordered ?_⟩
    rcases Nat.eq_or_lt_of_le ordered with rfl | less
    · cases at'.symm.trans at''
      exact Nat.le_refl _
    · exact Nat.le_of_lt (forward less)

/-- A byte between two that are left alone is replaced by another of the same length, which looks
like a copy; a text is inserted, and an overlapping edit is refused. -/
theorem untouched_round_trips_replaced :
    let calls : List Command := [.overwrite ⟨1, 2⟩ "x", .insertBefore 2 "--", .remove ⟨0, 2⟩]
    let map := ((ofSource "abc").attempt calls).render.map
    Untouched "abc" calls 0 ∧ Untouched "abc" calls 2 ∧ ¬Untouched "abc" calls 1 ∧
      map.generatedPosition? 0 = some 0 ∧ map.generatedPosition? 2 = some 4 ∧
      (0 < 2 → 0 < 4) ∧ map.sourceSpan? ⟨0, 5⟩ = some ⟨0, 3⟩ := by
  intro calls map
  have first : Untouched "abc" calls 0 := by unfold Untouched; decide +kernel
  have last : Untouched "abc" calls 2 := by unfold Untouched; decide +kernel
  have placed : map.generatedPosition? 0 = some 0 ∧ map.generatedPosition? 2 = some 4 := by decide +kernel
  refine ⟨first, last, by unfold Untouched; decide +kernel, placed.1, placed.2, ?_⟩
  exact (untouched_round_trips "abc" calls).2 0 2 0 4 first last (by decide) placed.1 placed.2

end Edit.Buffer
end SvelteLens
