import SvelteLens.Proofs.Edit.Forward

/-! Characters across the map to the source. A copied run has the characters of the source, so its boundaries lead
to boundaries. A replacement is taken byte by byte for the range that it replaced, up to the last byte of the
range, whatever characters are on either side. -/
namespace SvelteLens.Edit

open Text (isBoundary)

/-- Behind the first byte of a replacement and before its end, an offset is taken for one of the bytes of the
range that was replaced, which starts a character. -/
def Unsplit (source : String) (edits : List Replacement) (rendering : Rendering) (g : Nat) : Prop :=
  ∀ r ∈ edits, ∀ s, r.StandsIn rendering s → s.generated.start < g → g < s.generated.stop →
    isBoundary source.toList (r.span.start + min (g - s.generated.start) (r.span.stop - r.span.start - 1)) = true

/-- Behind the first byte of a replacement, what ends at an offset covers bytes of the range that was replaced up to
the end of a character. -/
def Whole (source : String) (edits : List Replacement) (rendering : Rendering) (g : Nat) : Prop :=
  ∀ r ∈ edits, ∀ s, r.StandsIn rendering s → s.generated.start < g → g ≤ s.generated.stop →
    isBoundary source.toList (r.span.start + min (g - s.generated.start) (r.span.stop - r.span.start)) = true

namespace Buffer

variable {b : Buffer} {r : Replacement} {s : Segment} {span image : Span} {g h o p : Nat}

/-- A segment that stands for a source range copies it, or is a replacement. -/
theorem Consistent.copied_or_stands (valid : b.Consistent) (member : s ∈ b.render.map.segments.toList)
    (origin : s.origin = .source span) :
    (∃ text, s.generated.slice? b.render.text = some text ∧ span.slice? b.source = some text) ∨
      ∃ r ∈ b.replacements, r.span = span ∧ r.StandsIn b.render s := by
  rcases valid.segment_cases member origin with copied | ⟨r, listed, rfl, filled⟩
  · exact .inl copied
  · obtain ⟨t, stands⟩ := valid.stands listed filled
    have start : r.span.contains r.span.start = true :=
      Span.contains_iff.mpr ⟨Nat.le_refl _, (valid.proper r listed).1⟩
    have same : s = t := unique_of_ordered valid.sources_ordered member stands.member
      (Segment.source?_eq_some.mpr origin) (Segment.source?_eq_some.mpr stands.origin) start start
    exact .inr ⟨r, listed, rfl, same ▸ stands⟩

theorem boundary_of_copied {text : String} (here : s.generated.slice? b.render.text = some text)
    (there : span.slice? b.source = some text) (lower : s.generated.start ≤ g) (upper : g ≤ s.generated.stop)
    (boundary : isBoundary b.render.text.toList g = true) :
    isBoundary b.source.toList (span.start + (g - s.generated.start)) = true := by
  obtain ⟨run, cut, rfl⟩ := Option.map_eq_some_iff.mp here
  obtain ⟨run', cut', same⟩ := Option.map_eq_some_iff.mp there
  have equal : run' = run := by simpa using congrArg String.toList same
  exact Text.boundary_of_same_run cut (equal ▸ cut') lower upper boundary

theorem Consistent.source_boundaries (valid : b.Consistent) (member : s ∈ b.render.map.segments.toList)
    (origin : s.origin = .source span) :
    isBoundary b.source.toList span.start = true ∧ isBoundary b.source.toList span.stop = true := by
  rcases valid.copied_or_stands member origin with ⟨text, -, there⟩ | ⟨r, listed, rfl, -⟩
  · obtain ⟨run, cut, -⟩ := Option.map_eq_some_iff.mp there
    exact Text.boundaries_of_slice? cut
  · exact (valid.proper r listed).2

theorem length_of_copied {text : String} (here : s.generated.slice? b.render.text = some text)
    (there : span.slice? b.source = some text) : s.generated.stop = s.generated.start + (span.stop - span.start) := by
  obtain ⟨run, cut, rfl⟩ := Option.map_eq_some_iff.mp here
  obtain ⟨run', cut', same⟩ := Option.map_eq_some_iff.mp there
  have equal : run' = run := by simpa using congrArg String.toList same
  obtain ⟨-, -, -, -, stop⟩ := Text.slice?_eq_some_iff.mp cut
  obtain ⟨-, -, -, -, stop'⟩ := Text.slice?_eq_some_iff.mp cut'
  rw [equal] at stop'
  omega

/-- A position that has a source is in a copied run, at the same distance from its start, or in a replacement. -/
theorem Consistent.position_cases (valid : b.Consistent) (found : b.render.map.sourcePosition? g = some o)
    (inside : g ≠ b.render.map.generatedLength) : ∃ s ∈ b.render.map.segments.toList, ∃ span,
      s.origin = .source span ∧ s.generated.contains g = true ∧
      o = span.start + min (g - s.generated.start) (span.stop - span.start - 1) := by
  obtain ⟨s, member, holds, found, span, origin⟩ := PositionMap.sourcePosition?_segment found inside
  have proper := (valid.sound.sources span (PositionMap.mem_sources member origin)).1
  exact ⟨s, member, span, origin, holds, (Segment.sourceAt?_bounds origin proper found).1⟩

/-- A boundary of the edited text leads to a boundary, if no character is split in a replacement. -/
theorem Consistent.boundary_of_position (valid : b.Consistent) (boundary : isBoundary b.render.text.toList g = true)
    (unsplit : Unsplit b.source b.replacements b.render g) (found : b.render.map.sourcePosition? g = some o) :
    isBoundary b.source.toList o = true := by
  by_cases atEnd : g = b.render.map.generatedLength
  · rw [PositionMap.sourcePosition?, if_pos atEnd] at found
    split at found
    · next generated span last =>
      cases found
      exact (valid.source_boundaries (Array.mem_toList_iff.mpr (Array.mem_of_back? last)) rfl).2
    · cases found
  · obtain ⟨s, member, span, origin, holds, rfl⟩ := valid.position_cases found atEnd
    rw [Span.contains_iff] at holds
    rcases valid.copied_or_stands member origin with ⟨text, here, there⟩ | ⟨r, listed, rfl, stands⟩
    · have long := length_of_copied here there
      have exact : min (g - s.generated.start) (span.stop - span.start - 1) = g - s.generated.start := by omega
      rw [exact]
      exact boundary_of_copied here there holds.1 (Nat.le_of_lt holds.2) boundary
    · rcases Nat.eq_or_lt_of_le holds.1 with start | behind
      · simpa [start] using (valid.proper r listed).2.1
      · exact unsplit r listed s stands behind holds.2

/-- What ends at a boundary of the edited text leads to what ends at a boundary. -/
theorem Consistent.boundary_of_last (valid : b.Consistent) (boundary : isBoundary b.render.text.toList (g + 1) = true)
    (whole : Whole b.source b.replacements b.render (g + 1)) (found : b.render.map.sourcePosition? g = some o)
    (inside : g < b.render.map.generatedLength) : isBoundary b.source.toList (o + 1) = true := by
  obtain ⟨s, member, span, origin, holds, rfl⟩ := valid.position_cases found (Nat.ne_of_lt inside)
  rw [Span.contains_iff] at holds
  have proper := (valid.sound.sources span (PositionMap.mem_sources member origin)).1
  rcases valid.copied_or_stands member origin with ⟨text, here, there⟩ | ⟨r, listed, rfl, stands⟩
  · have long := length_of_copied here there
    have exact : span.start + min (g - s.generated.start) (span.stop - span.start - 1) + 1 =
        span.start + (g + 1 - s.generated.start) := by omega
    rw [exact]
    exact boundary_of_copied here there (Nat.le_succ_of_le holds.1) holds.2 boundary
  · have next : r.span.start + min (g - s.generated.start) (r.span.stop - r.span.start - 1) + 1 =
        r.span.start + min (g + 1 - s.generated.start) (r.span.stop - r.span.start) := by omega
    rw [next]
    exact whole r listed s stands (by omega) holds.2

/-- The image of a range between two boundaries is a slice of the source, if no character is split at its ends. -/
theorem Consistent.image_sliced (valid : b.Consistent) (order : span.start ≤ span.stop)
    (bound : span.stop ≤ b.render.map.generatedLength)
    (starts : isBoundary b.render.text.toList span.start = true) (stops : isBoundary b.render.text.toList span.stop = true)
    (unsplit : Unsplit b.source b.replacements b.render span.start)
    (whole : span.start < span.stop → Whole b.source b.replacements b.render span.stop)
    (found : b.render.map.sourceSpan? span = some image) : ∃ text, image.slice? b.source = some text := by
  obtain ⟨begins, ordered⟩ := PositionMap.sourceSpan?_eq_some found
  have lower := valid.boundary_of_position starts unsplit begins
  have upper : isBoundary b.source.toList image.stop = true := by
    rcases Nat.eq_or_lt_of_le order with empty | filled
    · rw [PositionMap.sourceSpan?_empty begins empty, Option.some.injEq] at found
      have same : image.start = image.stop := congrArg Span.stop found
      exact same ▸ lower
    · rw [PositionMap.sourceSpan?_filled begins filled, Option.some.injEq] at found
      cases last : b.render.map.sourcePosition? (span.stop - 1) with
      | none =>
        have same : max image.start image.start = image.stop := by simpa [last] using congrArg Span.stop found
        rw [← same, Nat.max_self]
        exact lower
      | some o =>
        have next : span.stop - 1 + 1 = span.stop := by omega
        have stopsThere : isBoundary b.render.text.toList (span.stop - 1 + 1) = true := by
          rw [next]
          exact stops
        have wholeThere : Whole b.source b.replacements b.render (span.stop - 1 + 1) := by
          rw [next]
          exact whole filled
        have ends := valid.boundary_of_last stopsThere wholeThere last (by omega)
        have later : max (o + 1) image.start = image.stop := by simpa [last] using congrArg Span.stop found
        rcases Nat.le_total image.start (o + 1) with le | ge
        · rw [← later, Nat.max_eq_left le]
          exact ends
        · rw [← later, Nat.max_eq_right ge]
          exact lower
  obtain ⟨run, cut⟩ := Text.slice?_of_boundaries lower upper ordered
  exact ⟨String.ofList run, Option.map_eq_some_iff.mpr ⟨run, cut, rfl⟩⟩

/-- Where only characters of one byte were replaced, no character is split. -/
theorem Consistent.unsplit_of_single (valid : b.Consistent)
    (single : ∀ r ∈ b.replacements, r.text ≠ "" → ∀ o, r.span.start ≤ o → o ≤ r.span.stop →
      isBoundary b.source.toList o = true) (g : Nat) :
    Unsplit b.source b.replacements b.render g ∧ Whole b.source b.replacements b.render g := by
  have filled {r : Replacement} {s : Segment} (stands : r.StandsIn b.render s) (lower : s.generated.start < g)
      (upper : g ≤ s.generated.stop) : r.text ≠ "" := by
    intro empty
    have stop := stands.stop
    simp [empty] at stop
    omega
  constructor
  · intro r listed s stands lower upper
    have proper := (valid.proper r listed).1
    exact single r listed (filled stands lower (Nat.le_of_lt upper)) _ (by omega) (by omega)
  · intro r listed s stands lower upper
    have proper := (valid.proper r listed).1
    exact single r listed (filled stands lower upper) _ (by omega) (by omega)

/-- A replacement is taken byte by byte for its range, and all that is too much for the last byte. -/
theorem Consistent.position_of_stands (valid : b.Consistent) (listed : r ∈ b.replacements)
    (stands : r.StandsIn b.render s) (lower : s.generated.start ≤ g) (upper : g < s.generated.stop) :
    b.render.map.sourcePosition? g =
      some (r.span.start + min (g - s.generated.start) (r.span.stop - r.span.start - 1)) := by
  have proper := (valid.proper r listed).1
  have full : r.span.isEmpty = false := beq_eq_false_iff_ne.mpr (Nat.ne_of_lt proper)
  have found := valid.tiled.segmentAt? stands.member (Span.contains_iff.mpr ⟨lower, upper⟩)
  have bound := valid.tiled.bounds stands.member
  rw [PositionMap.sourcePosition?_inside (by omega), found]
  simp [Segment.sourceAt?, stands.origin, full]

/-- Whatever is called on a buffer, accepted or not: a boundary of the edited text has the position of a boundary
of the source, and a range between two boundaries the image of a slice, unless a replacement that is cut there
is taken for a part of a character. Inside a replacement positions go byte by byte through the replaced range, up
to its last byte; so where only characters of one byte were replaced, there is no exception. -/
theorem characters_respected (source : String) (calls : List Command) :
    let rendering := ((ofSource source).attempt calls).render
    let map := rendering.map
    let edits := edits ((ofSource source).accepted calls)
    (∀ g o, isBoundary rendering.text.toList g = true → Unsplit source edits rendering g →
      map.sourcePosition? g = some o → isBoundary source.toList o = true) ∧
    (∀ span image : Span, span.start ≤ span.stop → span.stop ≤ map.generatedLength →
      isBoundary rendering.text.toList span.start = true → isBoundary rendering.text.toList span.stop = true →
      Unsplit source edits rendering span.start → (span.start < span.stop → Whole source edits rendering span.stop) →
      map.sourceSpan? span = some image → ∃ text, image.slice? source = some text) ∧
    (∀ r ∈ edits, ∀ s, r.StandsIn rendering s → ∀ g, s.generated.start ≤ g → g < s.generated.stop →
      map.sourcePosition? g =
        some (r.span.start + min (g - s.generated.start) (r.span.stop - r.span.start - 1))) ∧
    ((∀ r ∈ edits, r.text ≠ "" → ∀ o, r.span.start ≤ o → o ≤ r.span.stop → isBoundary source.toList o = true) →
      ∀ g, Unsplit source edits rendering g ∧ Whole source edits rendering g) := by
  intro rendering map edits
  obtain ⟨valid, records, same⟩ := (accepts_accepted (ofSource source) calls).keeps
    (Consistent.ofSource source) (Records.ofSource source)
  have same : ((ofSource source).attempt calls).source = source := same
  have listed {r : Replacement} := records.edits.mem_iff (a := r)
  have unsplit {g : Nat} (h : Unsplit source edits rendering g) :
      Unsplit ((ofSource source).attempt calls).source ((ofSource source).attempt calls).replacements rendering g :=
    fun r member => same.symm ▸ h r (listed.mp member)
  have whole {g : Nat} (h : Whole source edits rendering g) :
      Whole ((ofSource source).attempt calls).source ((ofSource source).attempt calls).replacements rendering g :=
    fun r member => same.symm ▸ h r (listed.mp member)
  refine ⟨fun g o boundary sharp found => ?_, fun span image order bound starts stops sharp closed found => ?_,
    fun r member s stands g lower upper => ?_, fun single g => ?_⟩
  · exact same ▸ valid.boundary_of_position boundary (unsplit sharp) found
  · exact same ▸ valid.image_sliced order bound starts stops (unsplit sharp) (fun filled => whole (closed filled)) found
  · exact valid.position_of_stands (listed.mpr member) stands lower upper
  · have all := valid.unsplit_of_single (fun r member filled o lower upper =>
      same.symm ▸ single r (listed.mp member) filled o lower upper) g
    exact ⟨fun r member => same ▸ all.1 r (listed.mpr member), fun r member => same ▸ all.2 r (listed.mpr member)⟩

/-- In `é=xyz`, made from `é=ab`, two letters were replaced by three, and a range that ends behind the second of the
three has the image of a slice. -/
theorem characters_respected_single :
    let calls : List Command := [.overwrite ⟨3, 5⟩ "xyz"]
    let rendering := ((ofSource "é=ab").attempt calls).render
    rendering.map.sourceSpan? ⟨2, 5⟩ = some ⟨2, 5⟩ ∧ (∃ text, (⟨2, 5⟩ : Span).slice? "é=ab" = some text) ∧
      rendering.map.sourcePosition? 4 = some 4 ∧ isBoundary "é=ab".toList 4 = true := by
  intro calls rendering
  obtain ⟨positions, ranges, -, single⟩ := characters_respected "é=ab" calls
  have replaced : edits ((ofSource "é=ab").accepted calls) = [⟨⟨3, 5⟩, "xyz"⟩] := by decide +kernel
  have plain := single fun r listed _ o lower upper => by
    rw [replaced, List.mem_singleton] at listed
    subst listed
    obtain rfl | rfl | rfl : o = 3 ∨ o = 4 ∨ o = 5 := by
      simp only at lower upper
      omega
    all_goals decide +kernel
  have position : rendering.map.sourcePosition? 4 = some 4 := by decide +kernel
  have image : rendering.map.sourceSpan? ⟨2, 5⟩ = some ⟨2, 5⟩ := by decide +kernel
  exact ⟨image, ranges ⟨2, 5⟩ ⟨2, 5⟩ (by decide) (by decide +kernel) (by decide +kernel) (by decide +kernel)
    (plain 2).1 (fun _ => (plain 5).2) image, position, positions 4 4 (by decide +kernel) (plain 4).1 position⟩

/-- Between the two letters that replaced a character of two bytes, a position is inside the character, and the
image of the first letter is no slice of the source. -/
theorem replaced_character_split :
    let calls : List Command := [.overwrite ⟨0, 2⟩ "ab"]
    let rendering := ((ofSource "é").attempt calls).render
    isBoundary rendering.text.toList 0 = true ∧ isBoundary rendering.text.toList 1 = true ∧
      rendering.map.sourcePosition? 1 = some 1 ∧ isBoundary "é".toList 1 = false ∧
      rendering.map.sourceSpan? ⟨0, 1⟩ = some ⟨0, 1⟩ ∧ (⟨0, 1⟩ : Span).slice? "é" = none := by
  decide +kernel

end Buffer
end SvelteLens.Edit
