import SvelteLens.Proofs.Edit.Bounds
import SvelteLens.Proofs.Edit.RoundTrip

/-! Source ranges behind ranges of the generated text. The two ends of a range are looked up on their own, in
segments of their own, and a long replacement answers with the last byte of its range for all that is too
much. That the answer is a range, and holds what stands between the ends, is the order of the segments. -/
namespace SvelteLens

/-- Positions inside a segment stay in its source range and keep their order. -/
theorem Segment.sourceAt?_bounds {s : Segment} {source : Span} {g o : Nat} (origin : s.origin = .source source)
    (proper : source.start < source.stop) (found : s.sourceAt? g = some o) :
    o = source.start + min (g - s.generated.start) (source.stop - source.start - 1) ∧
      source.start ≤ o ∧ o < source.stop := by
  have full : source.isEmpty = false := beq_eq_false_iff_ne.mpr (Nat.ne_of_lt proper)
  simp only [Segment.sourceAt?, origin, full, Bool.false_eq_true, if_false, Option.some.injEq] at found
  omega

namespace PositionMap

variable {map : PositionMap} {g h o p : Nat} {span image : Span}

/-- The segments stand in the order of the generated text and in the order of their source ranges. -/
def Ascending (map : PositionMap) : Prop := map.segments.toList.Pairwise fun s t =>
  s.generated.stop ≤ t.generated.start ∧ ∀ u v, s.source? = some u → t.source? = some v → u.stop ≤ v.start

theorem sourcePosition?_segment (found : map.sourcePosition? g = some o) (inside : g ≠ map.generatedLength) :
    ∃ s ∈ map.segments.toList, s.generated.contains g = true ∧ s.sourceAt? g = some o ∧
      ∃ source, s.origin = .source source := by
  rw [sourcePosition?, if_neg inside] at found
  obtain ⟨s, here, found⟩ := Option.bind_eq_some_iff.mp found
  obtain ⟨member, holds⟩ := segmentAt?_eq_some here
  refine ⟨s, member, holds, found, ?_⟩
  cases origin : s.origin with
  | source source => exact ⟨source, rfl⟩
  | synthetic => cases (Segment.sourceAt?_eq_none.mpr origin).symm.trans found

theorem Sound.sourcePosition?_mono (sound : map.Sound) (ascending : map.Ascending) (le : g ≤ h)
    (inside : h < map.generatedLength) (first : map.sourcePosition? g = some o)
    (last : map.sourcePosition? h = some p) : o ≤ p := by
  obtain ⟨s, hs, holds, from_s, source, origin⟩ := sourcePosition?_segment first (by omega)
  obtain ⟨t, ht, holds', from_t, source', origin'⟩ := sourcePosition?_segment last (by omega)
  obtain ⟨at_o, lower, upper⟩ :=
    Segment.sourceAt?_bounds origin (sound.sources source (mem_sources hs origin)).1 from_s
  obtain ⟨at_p, lower', upper'⟩ :=
    Segment.sourceAt?_bounds origin' (sound.sources source' (mem_sources ht origin')).1 from_t
  rw [Span.contains_iff] at holds holds'
  rcases related_of_pairwise ascending hs ht with rfl | ⟨-, earlier⟩ | ⟨later, -⟩
  · -- Both positions are in one segment, where the distance from its start grows.
    obtain rfl : source = source' := by simpa using origin.symm.trans origin'
    omega
  · have := earlier source source' (Segment.source?_eq_some.mpr origin) (Segment.source?_eq_some.mpr origin')
    omega
  · omega

theorem sourceSpan?_empty (starts : map.sourcePosition? span.start = some o) (empty : span.start = span.stop) :
    map.sourceSpan? span = some ⟨o, o⟩ := by
  have none : span.isEmpty = true := beq_iff_eq.mpr empty
  simp only [sourceSpan?, starts, none, if_true, bind, Option.bind_some]
  rfl

/-- The image of any other range ends just past the image of its last byte, if that has one. -/
theorem sourceSpan?_filled (starts : map.sourcePosition? span.start = some o) (filled : span.start < span.stop) :
    map.sourceSpan? span = some ⟨o, max ((map.sourcePosition? (span.stop - 1)).elim o (· + 1)) o⟩ := by
  have some : span.isEmpty = false := beq_eq_false_iff_ne.mpr (Nat.ne_of_lt filled)
  simp only [sourceSpan?, starts, some, Bool.false_eq_true, if_false, bind, Option.bind_some]
  obtain ⟨n, stop⟩ : ∃ n, span.stop = n + 1 := ⟨span.stop - 1, by omega⟩
  rw [stop]
  rfl

/-- What the image of a range is: it starts at the image of the first byte, lies in the source, and when
the last byte was not made up it holds the image of each byte that was not, the last one at its end. -/
structure Images (map : PositionMap) (span image : Span) : Prop where
  start : map.sourcePosition? span.start = some image.start
  order : image.start ≤ image.stop
  bound : image.stop ≤ map.sourceLength
  holds : span.start < span.stop → map.isSynthetic (span.stop - 1) = false →
    ∀ g, span.start ≤ g → g < span.stop → map.isSynthetic g = false →
      ∃ o, map.sourcePosition? g = some o ∧ image.start ≤ o ∧ o < image.stop
  last : span.start < span.stop → map.isSynthetic (span.stop - 1) = false →
    ∃ o, map.sourcePosition? (span.stop - 1) = some o ∧ image.stop = o + 1
  empty : span.start = span.stop ∨ map.isSynthetic (span.stop - 1) = true → image.stop = image.start

theorem Sound.images (sound : map.Sound) (ascending : map.Ascending) (order : span.start ≤ span.stop)
    (inside : span.stop ≤ map.generatedLength) (found : map.sourceSpan? span = some image) :
    map.Images span image := by
  obtain ⟨starts, ordered⟩ := sourceSpan?_eq_some found
  -- A byte that was not made up has an image.
  have mapped {g : Nat} (lt : g < span.stop) (plain : map.isSynthetic g = false) :
      ∃ o, map.sourcePosition? g = some o := by
    rcases sound.tiled.synthetic_or_source (Nat.lt_of_lt_of_le lt inside) with ⟨made, -⟩ | ⟨-, source⟩
    · rw [made] at plain
      cases plain
    · exact source
  have last (filled : span.start < span.stop) (plain : map.isSynthetic (span.stop - 1) = false) :
      ∃ o, map.sourcePosition? (span.stop - 1) = some o ∧ image.stop = o + 1 := by
    obtain ⟨o, ends⟩ := mapped (by omega) plain
    have le := sound.sourcePosition?_mono ascending (by omega) (by omega) starts ends
    rw [sourceSpan?_filled starts filled, ends, Option.some.injEq] at found
    have stop : max (o + 1) image.start = image.stop := congrArg Span.stop found
    exact ⟨o, ends, by omega⟩
  refine ⟨starts, ordered, sound.sourceSpan?_le found (.inr inside), ?_, last, ?_⟩
  · intro filled plain g lower upper own
    obtain ⟨o, here⟩ := mapped upper own
    obtain ⟨p, ends, stop⟩ := last filled plain
    have first := sound.sourcePosition?_mono ascending lower (by omega) starts here
    have second := sound.sourcePosition?_mono ascending (by omega) (by omega) here ends
    exact ⟨o, here, first, by omega⟩
  · intro nothing
    rcases Nat.eq_or_lt_of_le order with empty | filled
    · rw [sourceSpan?_empty starts empty] at found
      exact (congrArg Span.stop (Option.some.inj found)).symm
    · have none := sound.tiled.sourcePosition?_synthetic (nothing.resolve_left (Nat.ne_of_lt filled))
      rw [sourceSpan?_filled starts filled, none, Option.elim_none, Nat.max_self] at found
      exact (congrArg Span.stop (Option.some.inj found)).symm

end PositionMap

namespace Edit.Buffer

/-- Whatever is called on a buffer, accepted or not: a range of the edited text has no image exactly when
its start has none, and otherwise the image is sound. -/
theorem images_sound (source : String) (calls : List Command) (span : Span) (order : span.start ≤ span.stop)
    (inside : span.stop ≤ ((ofSource source).attempt calls).render.map.generatedLength) :
    let map := ((ofSource source).attempt calls).render.map
    (map.sourceSpan? span = none ↔ map.sourcePosition? span.start = none) ∧
    map.sourceLength = source.utf8ByteSize ∧
    ∀ image, map.sourceSpan? span = some image → map.Images span image := by
  intro map
  obtain ⟨valid, -, same⟩ := (accepts_accepted (ofSource source) calls).keeps
    (Consistent.ofSource source) (Records.ofSource source)
  have length : map.sourceLength = source.utf8ByteSize := by
    change Text.width ((ofSource source).attempt calls).source.toList = _
    rw [same]
    exact Text.width_toList source
  exact ⟨PositionMap.sourceSpan?_eq_none, length,
    fun image found => valid.sound.images valid.segments_ordered order inside found⟩

/-- In `a[long]--f`, made from `abcdef`, the range from the second byte of the replacement to the end starts
at the last byte that was replaced, and holds the byte that was kept. -/
theorem images_sound_clamped :
    let calls : List Command := [.overwrite ⟨1, 3⟩ "[long]", .remove ⟨3, 5⟩, .insertBefore 5 "--"]
    let map := ((ofSource "abcdef").attempt calls).render.map
    map.sourceSpan? ⟨3, 10⟩ = some ⟨2, 6⟩ ∧ map.Images ⟨3, 10⟩ ⟨2, 6⟩ ∧
      map.sourceSpan? ⟨7, 10⟩ = none := by
  intro calls map
  have inside : (10 : Nat) ≤ map.generatedLength := by decide +kernel
  have found : map.sourceSpan? ⟨3, 10⟩ = some ⟨2, 6⟩ := by decide +kernel
  have made : map.sourcePosition? 7 = none := by decide +kernel
  have sound := images_sound "abcdef" calls
  exact ⟨found, (sound ⟨3, 10⟩ (by decide) inside).2.2 _ found,
    (sound ⟨7, 10⟩ (by decide) inside).1.mpr made⟩

end Edit.Buffer
end SvelteLens
