import SvelteLens.Proofs.Edit.Tiling

/-! Look-ups in a position map answer with positions of the source, whatever they are asked for. Where
text was inserted at the end of the source, the end of the generated text has no position. -/
namespace SvelteLens

namespace PositionMap

/-- The segments follow each other, and each source range is a range of the source. -/
structure Sound (map : PositionMap) : Prop where
  tiled : map.Tiled
  sources : ∀ s ∈ map.sources, s.start < s.stop ∧ s.stop ≤ map.sourceLength

def Closed (map : PositionMap) : Prop := map.sourcePosition? map.generatedLength = none

variable {map : PositionMap} {g o : Nat} {span image : Span}

theorem sound_identity (length : Nat) : (identity length).Sound := by
  unfold identity
  by_cases empty : length = 0
  · subst empty
    exact ⟨rfl, nofun⟩
  · have full := Nat.pos_of_ne_zero empty
    rw [if_neg empty]
    refine ⟨⟨rfl, full, rfl⟩, fun s member => ?_⟩
    obtain rfl := List.mem_singleton.mp member
    exact ⟨full, Nat.le_refl _⟩

theorem segmentAt?_eq_some {s : Segment} (found : map.segmentAt? g = some s) :
    s ∈ map.segments.toList ∧ s.generated.contains g = true := by
  unfold segmentAt? at found
  split at found
  · cases found
  · obtain ⟨held, inside⟩ := Option.filter_eq_some_iff.mp found
    exact ⟨Array.mem_toList_iff.mpr (Array.mem_of_getElem? held), inside⟩

theorem mem_sources {s : Segment} {source : Span} (member : s ∈ map.segments.toList) (origin : s.origin = .source source) :
    source ∈ map.sources :=
  List.mem_filterMap.mpr ⟨s, member, Segment.source?_eq_some.mpr origin⟩

theorem Sound.sourcePosition?_lt (sound : map.Sound) (found : map.sourcePosition? g = some o)
    (inside : g ≠ map.generatedLength) : o < map.sourceLength := by
  rw [sourcePosition?, if_neg inside] at found
  obtain ⟨s, here, found⟩ := Option.bind_eq_some_iff.mp found
  unfold Segment.sourceAt? at found
  cases origin : s.origin with
  | synthetic =>
    rw [origin] at found
    cases found
  | source source =>
    obtain ⟨proper, le⟩ := sound.sources source (mem_sources (segmentAt?_eq_some here).1 origin)
    have full : source.isEmpty = false := by
      simp only [Span.isEmpty, beq_eq_false_iff_ne]
      omega
    simp only [origin, full, Bool.false_eq_true, if_false, Option.some.injEq] at found
    omega

/-- A position at the end of the generated text is the end of a source range. -/
theorem Sound.sourcePosition?_le (sound : map.Sound) (found : map.sourcePosition? g = some o) :
    o ≤ map.sourceLength := by
  by_cases here : g = map.generatedLength
  · rw [sourcePosition?, if_pos here] at found
    split at found
    · next generated source last =>
      cases found
      exact (sound.sources source (mem_sources (Array.mem_toList_iff.mpr (Array.mem_of_back? last)) rfl)).2
    · cases found
  · exact Nat.le_of_lt (sound.sourcePosition?_lt found here)

theorem Tiled.sourcePosition?_synthetic (tiled : map.Tiled) (synthetic : map.isSynthetic g = true) :
    map.sourcePosition? g = none := by
  have inside : g < map.generatedLength := by
    obtain ⟨s, found, -⟩ := (Option.any_eq_true _ _).mp synthetic
    obtain ⟨member, contains⟩ := segmentAt?_eq_some found
    exact Nat.lt_of_lt_of_le (Span.contains_iff.mp contains).2 (tiled.bounds member).2
  rcases tiled.synthetic_or_source inside with ⟨-, none⟩ | ⟨plain, -⟩
  · exact none
  · rw [plain] at synthetic
    cases synthetic

/-- A range has an image when its start has one, and the image begins there. -/
theorem sourceSpan?_eq_some (found : map.sourceSpan? span = some image) :
    map.sourcePosition? span.start = some image.start ∧ image.start ≤ image.stop := by
  obtain ⟨start, begins, found⟩ := Option.bind_eq_some_iff.mp found
  split at found
  · cases found
    exact ⟨begins, Nat.le_refl _⟩
  · cases found
    exact ⟨begins, Nat.le_max_right _ _⟩

theorem sourceSpan?_eq_none : map.sourceSpan? span = none ↔ map.sourcePosition? span.start = none := by
  constructor
  · intro none
    cases begins : map.sourcePosition? span.start with
    | none => rfl
    | some start =>
      rw [sourceSpan?, begins] at none
      simp only [bind, Option.bind_some] at none
      split at none <;> cases none
  · intro none
    rw [sourceSpan?, none]
    rfl

/-- The image of a range lies in the source, unless the range reaches past the end of text that was
not made up. -/
theorem Sound.sourceSpan?_le (sound : map.Sound) (found : map.sourceSpan? span = some image)
    (closed : map.Closed ∨ span.stop ≤ map.generatedLength) : image.stop ≤ map.sourceLength := by
  obtain ⟨start, begins, found⟩ := Option.bind_eq_some_iff.mp found
  have first := sound.sourcePosition?_le begins
  split at found
  · cases found
    exact first
  · cases found
    refine Nat.max_le.mpr ⟨?_, first⟩
    split
    · exact first
    · next n stop =>
      cases last : map.sourcePosition? n with
      | none => exact first
      | some o =>
        refine sound.sourcePosition?_lt last ?_
        rintro rfl
        rcases closed with closed | short
        · cases closed.symm.trans last
        · omega

theorem generatedPosition?_isSome (map : PositionMap) (o : Nat) :
    (map.generatedPosition? o).isSome = true ↔ o ≤ map.sourceLength := by
  unfold generatedPosition?
  by_cases past : map.sourceLength < o
  · rw [if_pos past]
    simpa using past
  · rw [if_neg past]
    refine ⟨fun _ => Nat.le_of_not_lt past, fun _ => ?_⟩
    split
    · rfl
    · next seen _ => cases seen.replaced <;> cases seen.resumes <;> rfl

end PositionMap

namespace Edit

open Text (width)

def EndsMade (bs : List Block) : Prop := ∃ front text, bs = front ++ [.made text]

theorem Block.push_cases (b : Block) (rest : List Block) : b.push rest = rest ∨ b.push rest = b :: rest ∨
    ∃ text more tail, rest = .made more :: tail ∧ b.push rest = .made (text ++ more) :: tail := by
  unfold Block.push
  split
  · exact .inl rfl
  · split
    · exact .inr (.inr ⟨_, _, _, rfl, rfl⟩)
    · exact .inr (.inl rfl)

theorem EndsMade.push {rest : List Block} (ends : EndsMade rest) (b : Block) : EndsMade (b.push rest) := by
  obtain ⟨front, text, rfl⟩ := ends
  rcases b.push_cases (front ++ [.made text]) with same | added | ⟨first, more, tail, split, joined⟩
  · exact ⟨front, text, same⟩
  · exact ⟨b :: front, text, added⟩
  · rw [joined]
    cases front with
    | nil =>
      obtain ⟨-, rfl⟩ := List.cons.inj split
      exact ⟨[], _, rfl⟩
    | cons c front =>
      obtain ⟨-, rfl⟩ := List.cons.inj split
      exact ⟨.made (first ++ more) :: front, text, rfl⟩

theorem EndsMade.foldr_push {rest : List Block} (ends : EndsMade rest) (bs : List Block) :
    EndsMade (bs.foldr Block.push rest) := by
  induction bs with
  | nil => exact ends
  | cons b bs ih => exact ih.push b

/-- Texts at the end leave one block of made-up text, unless they are all empty. -/
theorem endsMade_texts {texts : List String} {text : String} (member : text ∈ texts) (filled : text ≠ "") :
    EndsMade ((texts.map fun text => Block.made text.toList).foldr Block.push []) := by
  have either (texts : List String) : (texts.map fun text => Block.made text.toList).foldr Block.push [] = [] ∨
      EndsMade ((texts.map fun text => Block.made text.toList).foldr Block.push []) := by
    induction texts with
    | nil => exact .inl rfl
    | cons text texts ih =>
      rw [List.map_cons, List.foldr_cons]
      rcases ih with none | ends
      · rw [none]
        unfold Block.push
        split
        · exact .inl rfl
        · exact .inr ⟨[], text.toList, rfl⟩
      · exact .inr (ends.push _)
  refine (either texts).resolve_left fun none => ?_
  have chars := flatMap_foldr_push (texts.map fun text => Block.made text.toList)
  rw [none, List.flatMap_map] at chars
  have empty := List.flatMap_eq_nil_iff.mp chars.symm text member
  exact filled (String.toList_eq_nil_iff.mp empty)

/-- A seam cuts the chunks. -/
theorem chunks_append_seam (front rest : List Piece) : chunks (front ++ .seam :: rest) = chunks front ++ chunks rest := by
  induction front with
  | nil => rfl
  | cons p front ih =>
    cases p with
    | seam => exact ih
    | inserted text => exact congrArg _ ih
    | replaced span text => exact congrArg _ ih
    | kept offset c =>
      rw [List.cons_append, chunks, chunks, ih]
      cases front with
      | nil => rfl
      | cons q front =>
        cases q with
        | kept offset d =>
          obtain ⟨run, more, found⟩ := chunks_kept offset d front
          rw [found]
          rfl
        | _ => rfl

theorem Laid.done_of_later {offset : Nat} {rs : List Replacement} {anchors : List Anchor} {ps : List Piece}
    (h : Laid offset [] rs anchors ps) (later : ∀ a ∈ anchors, offset < a.offset) : ps = [] := by
  generalize ended : ([] : List Char) = cs at h
  cases h with
  | done => rfl
  | anchored => exact absurd (later _ List.mem_cons_self) (Nat.lt_irrefl _)
  | replaced ne => exact absurd (List.append_eq_nil_iff.mp ended.symm).1 ne
  | kept => cases ended

/-- What is inserted at the end of the source comes last. -/
theorem Laid.ends {offset : Nat} {cs : List Char} {rs : List Replacement} {anchors : List Anchor} {ps : List Piece}
    (h : Laid offset cs rs anchors ps) {a : Anchor} (member : a ∈ anchors) (last : a.offset = offset + width cs) :
    ∃ front, ps = front ++ Piece.ofAnchor a := by
  induction h with
  | done => cases member
  | @anchored anchors cs rs ps first later rest ih =>
    rcases List.mem_cons.mp member with rfl | member
    · have nothing : cs = [] := Text.width_eq_zero (by omega)
      subst nothing
      exact ⟨[], by rw [rest.done_of_later later, List.append_nil, List.nil_append]⟩
    · obtain ⟨front, rfl⟩ := ih member last
      exact ⟨Piece.ofAnchor first ++ front, (List.append_assoc ..).symm⟩
  | replaced _ _ _ _ ih =>
    obtain ⟨front, rfl⟩ := ih member (by rw [last, Text.width_append, Nat.add_assoc])
    exact ⟨_ :: front, rfl⟩
  | kept _ _ _ ih =>
    obtain ⟨front, rfl⟩ := ih member (by rw [last, Text.width_cons, Nat.add_assoc])
    exact ⟨_ :: front, rfl⟩

namespace Buffer

variable {b : Buffer}

theorem Consistent.sound (valid : b.Consistent) : b.render.map.Sound :=
  ⟨valid.tiled, fun _ => valid.sources_bounds⟩

theorem Consistent.closed (valid : b.Consistent) (side : Side) {text : String}
    (member : text ∈ textsAt b.anchors side b.length) (filled : text ≠ "") : b.render.map.Closed := by
  cases found : b.anchors.find? (·.offset = b.length) with
  | none => simp [textsAt, found] at member
  | some a =>
    have here : a.offset = b.length := by simpa using List.find?_some found
    obtain ⟨front, split⟩ := valid.laid.ends (List.mem_of_find?_eq_some found) (here.trans (Nat.zero_add _).symm)
    have listed : text ∈ a.after ++ a.before := by
      rw [textsAt, found, Option.elim_some] at member
      cases side with
      | after => exact List.mem_append_left _ member
      | before => exact List.mem_append_right _ member
    have last : chunks (Piece.ofAnchor a) = (a.after ++ a.before).map fun text => .made text.toList := by
      simpa [chunks] using chunks_ofAnchor a []
    have made : EndsMade ((chunks (Piece.ofAnchor a)).foldr Block.push []) := last ▸ endsMade_texts listed filled
    have ends : EndsMade b.blocks := by
      rw [blocks, Edit.blocks, split, Piece.ofAnchor, chunks_append_seam, List.foldr_append]
      exact made.foldr_push _
    obtain ⟨before, text, same⟩ := ends
    have back : ∃ s, b.render.map.segments.back? = some s ∧ s.origin = .synthetic := by
      rw [← Array.getLast?_toList, valid.segments, same, place_append]
      exact ⟨_, List.getLast?_concat, rfl⟩
    obtain ⟨⟨generated, _⟩, back, rfl⟩ := back
    rw [PositionMap.Closed, PositionMap.sourcePosition?, if_pos rfl, back]

end Buffer
end Edit
end SvelteLens
