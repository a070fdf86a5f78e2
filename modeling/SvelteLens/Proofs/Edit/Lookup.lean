import SvelteLens.Edit.PositionMap
import SvelteLens.Proofs.Edit.Tiles

/-! Look-ups in a position map whose segments tile the generated text. -/
namespace SvelteLens

def Segment.source? (s : Segment) : Option Span :=
  match s.origin with
  | .source span => some span
  | .synthetic => none

theorem Segment.source?_eq_some {s : Segment} {span : Span} : s.source? = some span ↔ s.origin = .source span := by
  cases h : s.origin <;> simp [Segment.source?, h]

theorem Segment.sourceAt?_eq_none {s : Segment} {generated : Nat} :
    s.sourceAt? generated = none ↔ s.origin = .synthetic := by
  cases h : s.origin with
  | synthetic => simp [Segment.sourceAt?, h]
  | source span =>
    by_cases empty : span.isEmpty <;> simp [Segment.sourceAt?, h, empty]

namespace PositionMap

/-- The source ranges of the segments, in the order of the generated text. -/
def sources (map : PositionMap) : List Span := map.segments.toList.filterMap Segment.source?

/-- The segments follow each other through the whole generated text. -/
def Tiled (map : PositionMap) : Prop := Tiles 0 (map.segments.toList.map (·.generated)) map.generatedLength

variable {map : PositionMap} {generated : Nat}

theorem Tiled.ordered (tiled : map.Tiled) :
    map.segments.toList.Pairwise fun s t => s.generated.stop ≤ t.generated.start :=
  List.pairwise_map.mp (Tiles.ordered tiled)

theorem Tiled.bounds (tiled : map.Tiled) {s : Segment} (member : s ∈ map.segments.toList) :
    s.generated.start < s.generated.stop ∧ s.generated.stop ≤ map.generatedLength :=
  (Tiles.bounds tiled (List.mem_map_of_mem member)).2

theorem Tiled.unique (tiled : map.Tiled) {s t : Segment} (hs : s ∈ map.segments.toList)
    (ht : t ∈ map.segments.toList) (inS : s.generated.contains generated = true)
    (inT : t.generated.contains generated = true) : s = t := by
  refine unique_of_ordered (f := fun s : Segment => some s.generated) ?_ hs ht rfl rfl inS inT
  simpa using Tiles.ordered tiled

theorem Tiled.getElem_ordered (tiled : map.Tiled) {i j : Nat} (lt : i < j) {s t : Segment}
    (hi : map.segments[i]? = some s) (hj : map.segments[j]? = some t) :
    s.generated.start < t.generated.start ∧ s.generated.stop ≤ t.generated.start := by
  rw [← Array.getElem?_toList] at hi hj
  have first := tiled.bounds (List.mem_of_getElem? hi)
  obtain ⟨_, rfl⟩ := List.getElem?_eq_some_iff.mp hi
  obtain ⟨_, rfl⟩ := List.getElem?_eq_some_iff.mp hj
  have apart := List.pairwise_iff_getElem.mp tiled.ordered i j ‹_› ‹_› lt
  omega

/-- The binary search finds the segment that holds an offset. -/
theorem Tiled.segmentAt? (tiled : map.Tiled) {s : Segment} (member : s ∈ map.segments.toList)
    (inside : s.generated.contains generated = true) : map.segmentAt? generated = some s := by
  obtain ⟨k, found⟩ := List.getElem?_of_mem member
  rw [Array.getElem?_toList] at found
  obtain ⟨bound, rfl⟩ := Array.getElem?_eq_some_iff.mp found
  obtain ⟨lower, upper⟩ := Span.contains_iff.mp inside
  -- The segments up to this one start at or before the offset, the later ones behind it.
  have turn : Text.partitionPoint (fun s : Segment => s.generated.start ≤ generated) map.segments = k + 1 := by
    refine Text.partitionPoint_eq bound fun i h => ?_
    have at' := Array.getElem?_eq_getElem h
    rw [decide_eq_true_eq]
    rcases Nat.lt_trichotomy i k with lt | rfl | gt
    · have := tiled.getElem_ordered lt at' found
      omega
    · omega
    · have := tiled.getElem_ordered gt found at'
      omega
  unfold PositionMap.segmentAt?
  rw [turn]
  simp [found, inside]

theorem Tiled.exists_segment (tiled : map.Tiled) (inside : generated < map.generatedLength) :
    ∃ s ∈ map.segments.toList, s.generated.contains generated = true ∧ map.segmentAt? generated = some s := by
  obtain ⟨span, listed, contains⟩ := Tiles.covers tiled (Nat.zero_le generated) inside
  obtain ⟨s, member, rfl⟩ := List.mem_map.mp listed
  exact ⟨s, member, contains, tiled.segmentAt? member contains⟩

theorem sourcePosition?_inside (inside : generated < map.generatedLength) :
    map.sourcePosition? generated = (map.segmentAt? generated).bind (·.sourceAt? generated) := by
  rw [sourcePosition?, if_neg (by omega)]

/-- An offset of the generated text is made up or has a source position, and not both. -/
theorem Tiled.synthetic_or_source (tiled : map.Tiled) (inside : generated < map.generatedLength) :
    (map.isSynthetic generated = true ∧ map.sourcePosition? generated = none) ∨
      (map.isSynthetic generated = false ∧ ∃ o, map.sourcePosition? generated = some o) := by
  obtain ⟨s, _, _, found⟩ := tiled.exists_segment inside
  rw [sourcePosition?_inside inside, isSynthetic, found, Option.bind_some, Option.any_some]
  by_cases synthetic : s.origin = .synthetic
  · exact .inl ⟨by simpa using synthetic, Segment.sourceAt?_eq_none.mpr synthetic⟩
  · refine .inr ⟨by simpa using synthetic, Option.isSome_iff_exists.mp ?_⟩
    exact Option.isSome_iff_ne_none.mpr fun none => synthetic (Segment.sourceAt?_eq_none.mp none)

end PositionMap
end SvelteLens
