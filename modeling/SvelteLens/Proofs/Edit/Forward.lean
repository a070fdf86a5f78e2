import Mathlib.Data.List.Find
import SvelteLens.Proofs.Edit.Images

/-! The two maps between the source and the edited text keep the order of positions. The forward search keeps
candidates on its way through all segments; since the segments ascend, it ends where the first segment whose
source range ends behind the position puts it. -/
namespace SvelteLens

open Text (width)

namespace Segment

/-- A segment whose source range ends behind an offset. -/
def endsBehind (o : Nat) (s : Segment) : Bool := s.source?.any (o < ·.stop)

/-- A segment whose source range starts at an offset or behind it. -/
def startsFrom (o : Nat) (s : Segment) : Bool := s.source?.any (o ≤ ·.start)

/-- Where a segment puts an offset of its source range. What comes before the range is put at the start. -/
def target (s : Segment) (o : Nat) : Nat :=
  s.generated.start + if s.isExact then s.source?.elim 0 (o - ·.start) else 0

variable {s : Segment} {span : Span} {o p : Nat}

theorem endsBehind_source (origin : s.origin = .source span) : s.endsBehind o = decide (o < span.stop) := by
  simp [endsBehind, source?, origin]

theorem endsBehind_synthetic (origin : s.origin = .synthetic) : s.endsBehind o = false := by
  simp [endsBehind, source?, origin]

theorem endsBehind_iff : s.endsBehind o = true ↔ ∃ span, s.origin = .source span ∧ o < span.stop := by
  cases origin : s.origin with
  | synthetic => simp [endsBehind_synthetic origin]
  | source span => simp [endsBehind_source origin]

theorem startsFrom_iff : s.startsFrom o = true ↔ ∃ span, s.origin = .source span ∧ o ≤ span.start := by
  cases origin : s.origin with
  | synthetic => simp [startsFrom, source?, origin]
  | source span => simp [startsFrom, source?, origin]

theorem target_mono (s : Segment) (le : o ≤ p) : s.target o ≤ s.target p := by
  cases origin : s.origin with
  | synthetic => simp [target, source?, origin]
  | source span =>
    by_cases exact : s.isExact = true <;> simp [target, source?, origin, exact]
    omega

theorem start_le_target (s : Segment) (o : Nat) : s.generated.start ≤ s.target o := Nat.le_add_right _ _

/-- An offset before the end of the source range is put before the end of the segment. -/
theorem target_le (proper : s.generated.start ≤ s.generated.stop) (behind : s.endsBehind o = true) :
    s.target o ≤ s.generated.stop := by
  obtain ⟨span, origin, less⟩ := endsBehind_iff.mp behind
  by_cases exact : s.isExact = true
  · have same : span.start ≤ span.stop ∧ span.stop - span.start = s.generated.stop - s.generated.start := by
      simpa [isExact, origin, Span.length?, proper] using exact
    simp [target, source?, origin, exact]
    omega
  · simpa [target, exact] using proper

/-- An offset keeps its distance from the start when the lengths agree, and is put at the start otherwise. -/
theorem target_eq (origin : s.origin = .source span) (proper : span.start ≤ span.stop)
    (filled : s.generated.start ≤ s.generated.stop) (o : Nat) : s.target o =
      if s.generated.stop - s.generated.start = span.stop - span.start then s.generated.start + (o - span.start)
      else s.generated.start := by
  have exact : s.isExact = true ↔ span.stop - span.start = s.generated.stop - s.generated.start := by
    simp [isExact, origin, Span.length?, proper, filled]
  by_cases even : s.generated.stop - s.generated.start = span.stop - span.start
  · simp [target, source?, origin, exact.mpr even.symm, even]
  · simp [target, mt exact.mp (Ne.symm even), even]

theorem target_before (origin : s.origin = .source span) (before : o ≤ span.start) : s.target o = s.generated.start := by
  simp [target, source?, origin, Nat.sub_eq_zero_of_le before]

end Segment

namespace PositionMap

variable {map : PositionMap} {ss : List Segment} {s : Segment} {span : Span} {g h o p : Nat}

def found : Candidates ⊕ Nat → Option Nat
  | .inl seen => seen.replaced <|> seen.resumes
  | .inr position => some position

/-- The source ranges of the segments ascend, and none is empty. -/
def Rising (ss : List Segment) : Prop :=
  (ss.filterMap Segment.source?).Pairwise (fun s t => s.stop ≤ t.start) ∧
    ∀ s ∈ ss.filterMap Segment.source?, s.start < s.stop

theorem Rising.tail (rising : Rising (s :: ss)) : Rising ss :=
  ⟨rising.1.sublist ((List.sublist_cons_self s ss).filterMap _),
    fun t member => rising.2 t (((List.sublist_cons_self s ss).filterMap _).subset member)⟩

theorem Rising.head (rising : Rising (s :: ss)) (origin : s.origin = .source span) :
    span.start < span.stop ∧ ∀ t ∈ ss, ∀ later, t.origin = .source later → span.stop ≤ later.start := by
  obtain ⟨ordered, proper⟩ := rising
  have source := Segment.source?_eq_some.mpr origin
  rw [List.filterMap_cons_some source] at ordered proper
  refine ⟨proper span List.mem_cons_self, fun t member later origin' => ?_⟩
  exact (List.pairwise_cons.mp ordered).1 later
    (List.mem_filterMap.mpr ⟨t, member, Segment.source?_eq_some.mpr origin'⟩)

/-- Where all ranges are behind the offset, the candidates that were found stay. -/
theorem search_behind (behind : ∀ t ∈ ss, ∀ later, t.origin = .source later → o < later.start) (seen : Candidates) :
    ∃ r, search o ss seen = .inl ⟨seen.replaced, seen.resumes <|> r⟩ := by
  induction ss generalizing seen with
  | nil => exact ⟨none, by simp [search]⟩
  | cons t ss ih =>
    have rest := ih fun u member => behind u (List.mem_cons_of_mem t member)
    cases origin : t.origin with
    | synthetic => simpa [search, origin] using rest seen
    | source later =>
      have before := behind t List.mem_cons_self later origin
      have outside : later.contains o = false := by simp [Span.contains]; omega
      obtain ⟨r, left⟩ := rest { seen with resumes := seen.resumes <|> some t.generated.start }
      exact ⟨some t.generated.start <|> r, by simpa [search, origin, outside, before] using left⟩

/-- The forward search ends at the first segment whose source range ends behind the offset. -/
theorem found_search (rising : Rising ss) (o : Nat) :
    found (search o ss ⟨none, none⟩) = (ss.find? (·.endsBehind o)).map (·.target o) := by
  induction ss with
  | nil => rfl
  | cons s ss ih =>
    cases origin : s.origin with
    | synthetic => simp [search, origin, Segment.endsBehind_synthetic origin, ih rising.tail]
    | source span =>
      obtain ⟨proper, later⟩ := rising.head origin
      by_cases past : span.stop ≤ o
      · -- the range was passed
        have outside : span.contains o = false := by simp [Span.contains]; omega
        have passed : ¬o < span.start := by omega
        have skipped : s.endsBehind o = false := by simpa [Segment.endsBehind_source origin] using past
        simp [search, origin, outside, passed, skipped, ih rising.tail]
      · have stops : s.endsBehind o = true := by simpa [Segment.endsBehind_source origin] using past
        have behind : ∀ t ∈ ss, ∀ u, t.origin = .source u → o < u.start := fun t member u from' => by
          have := later t member u from'
          omega
        by_cases before : o < span.start
        · -- the first range behind an offset that no range holds
          have outside : span.contains o = false := by simp [Span.contains]; omega
          obtain ⟨r, left⟩ := search_behind behind ⟨none, some s.generated.start⟩
          simp [search, origin, outside, before, stops, left, found, Segment.target_before origin (Nat.le_of_lt before)]
        · have inside : span.contains o = true := Span.contains_iff.mpr (by omega)
          by_cases exact : s.isExact = true
          · simp [search, origin, inside, exact, stops, found, Segment.target, Segment.source?]
          · obtain ⟨r, left⟩ := search_behind behind ⟨some s.generated.start, none⟩
            simp [search, origin, inside, exact, stops, left, found, Segment.target]

/-- The first segment whose source range ends behind an offset. -/
def ahead? (map : PositionMap) (o : Nat) : Option Segment := map.segments.toList.find? (·.endsBehind o)

theorem Ascending.rising (sound : map.Sound) (ascending : map.Ascending) : Rising map.segments.toList := by
  refine ⟨List.pairwise_filterMap.mpr (ascending.imp fun apart u hu v hv => apart.2 u v hu hv), ?_⟩
  exact fun s member => (sound.sources s member).1

theorem Sound.generatedPosition?_eq (sound : map.Sound) (ascending : map.Ascending) (inside : o ≤ map.sourceLength) :
    map.generatedPosition? o = some ((map.ahead? o).elim map.generatedLength (·.target o)) := by
  have settled : map.generatedPosition? o =
      (found (search o map.segments.toList ⟨none, none⟩)).or (some map.generatedLength) := by
    rw [generatedPosition?, if_neg (Nat.not_lt.mpr inside)]
    cases search o map.segments.toList ⟨none, none⟩ with
    | inl seen =>
      obtain ⟨replaced, resumes⟩ := seen
      cases replaced <;> cases resumes <;> rfl
    | inr position => rfl
  rw [settled, found_search (ascending.rising sound), ← ahead?]
  cases map.ahead? o <;> rfl

/-- No offset is put behind the end of the edited text. -/
theorem Sound.generatedPosition?_le (sound : map.Sound) (ascending : map.Ascending)
    (put : map.generatedPosition? o = some g) : g ≤ map.generatedLength := by
  have inside := (generatedPosition?_isSome map o).mp (Option.isSome_iff_exists.mpr ⟨g, put⟩)
  rw [sound.generatedPosition?_eq ascending inside, Option.some.injEq] at put
  subst put
  cases first : map.ahead? o with
  | none => exact Nat.le_refl _
  | some s =>
    obtain ⟨proper, le⟩ := sound.tiled.bounds (List.mem_of_find?_eq_some first)
    exact Nat.le_trans (Segment.target_le (Nat.le_of_lt proper) (List.find?_some first)) le

/-- Of two offsets the later one is put behind the earlier one, or at the same place. -/
theorem Sound.generatedPosition?_mono (sound : map.Sound) (ascending : map.Ascending) (le : o ≤ p)
    (first : map.generatedPosition? o = some g) (second : map.generatedPosition? p = some h) : g ≤ h := by
  have inside := (generatedPosition?_isSome map p).mp (Option.isSome_iff_exists.mpr ⟨h, second⟩)
  have bound := sound.generatedPosition?_le ascending first
  rw [sound.generatedPosition?_eq ascending (Nat.le_trans le inside), Option.some.injEq] at first
  rw [sound.generatedPosition?_eq ascending inside, Option.some.injEq] at second
  cases later : map.ahead? p with
  | none =>
    rw [later] at second
    exact second ▸ bound
  | some t =>
    rw [later, Option.elim_some] at second
    obtain ⟨ends, before, after, split, passed⟩ := List.find?_eq_some_iff_append.mp later
    -- what ends behind the later offset ends behind the earlier one, so the search is over here at the latest
    have stops : t.endsBehind o = true := by
      obtain ⟨span, origin, less⟩ := Segment.endsBehind_iff.mp ends
      exact Segment.endsBehind_iff.mpr ⟨span, origin, by omega⟩
    have found : map.ahead? o = (before.find? (·.endsBehind o)).or (some t) := by
      simp [ahead?, split, List.find?_append, stops]
    cases earlier : before.find? (·.endsBehind o) with
    | none =>
      rw [found, earlier, Option.none_or, Option.elim_some] at first
      subst first second
      exact t.target_mono le
    | some s =>
      rw [found, earlier, Option.some_or, Option.elim_some] at first
      have member := List.mem_of_find?_eq_some earlier
      have order : s.generated.stop ≤ t.generated.start := by
        have ordered := sound.tiled.ordered
        rw [split] at ordered
        exact (List.pairwise_append.mp ordered).2.2 s member t List.mem_cons_self
      have proper := (sound.tiled.bounds (split ▸ List.mem_append_left _ member)).1
      subst first second
      calc s.target o
        _ ≤ s.generated.stop := Segment.target_le (Nat.le_of_lt proper) (List.find?_some earlier)
        _ ≤ t.generated.start := order
        _ ≤ t.target p := t.start_le_target p

/-- Source positions keep their order up to the end of the edited text, which takes the end of the last range. -/
theorem Sound.sourcePosition?_ordered (sound : map.Sound) (ascending : map.Ascending) (le : g ≤ h)
    (bound : h ≤ map.generatedLength) (first : map.sourcePosition? g = some o)
    (last : map.sourcePosition? h = some p) : o ≤ p := by
  rcases Nat.lt_or_eq_of_le bound with inside | rfl
  · exact sound.sourcePosition?_mono ascending le inside first last
  rcases Nat.lt_or_eq_of_le le with before | rfl
  · obtain ⟨s, member, -, from_s, source, origin⟩ := sourcePosition?_segment first (by omega)
    obtain ⟨-, -, upper⟩ := Segment.sourceAt?_bounds origin (sound.sources source (mem_sources member origin)).1 from_s
    rw [sourcePosition?, if_pos rfl] at last
    split at last
    · next generated span back =>
      cases last
      rw [← Array.getLast?_toList] at back
      obtain ⟨front, split⟩ := List.getLast?_eq_some_iff.mp back
      rw [split, List.mem_append, List.mem_singleton] at member
      rcases member with earlier | rfl
      · have order := ascending
        rw [Ascending, split] at order
        have apart := ((List.pairwise_append.mp order).2.2 s earlier _ List.mem_cons_self).2 source span
          (Segment.source?_eq_some.mpr origin) rfl
        have proper := (sound.sources span (mem_sources (split ▸ List.mem_append_right _ List.mem_cons_self) rfl)).1
        omega
      · cases origin
        omega
    · cases last
  · cases first.symm.trans last
    exact Nat.le_refl _

theorem ahead?_of_contains (ascending : map.Ascending) (member : s ∈ map.segments.toList)
    (origin : s.origin = .source span) (inside : span.contains o = true) : map.ahead? o = some s := by
  rw [Span.contains_iff] at inside
  have stops : s.endsBehind o = true := Segment.endsBehind_iff.mpr ⟨span, origin, inside.2⟩
  obtain ⟨before, after, split⟩ := List.append_of_mem member
  refine List.find?_eq_some_iff_append.mpr ⟨stops, before, after, split, fun t earlier => ?_⟩
  have order := ascending
  rw [Ascending, split] at order
  have apart := ((List.pairwise_append.mp order).2.2 t earlier s List.mem_cons_self).2
  cases origin' : t.origin with
  | synthetic => simp [Segment.endsBehind_synthetic origin']
  | source u =>
    have := apart u span (Segment.source?_eq_some.mpr origin') (Segment.source?_eq_some.mpr origin)
    simp [Segment.endsBehind_source origin']
    omega

/-- Where the first run of the source from an offset on starts in the edited text. -/
def resumption (map : PositionMap) (o : Nat) : Nat :=
  (map.segments.toList.find? (·.startsFrom o)).elim map.generatedLength (·.generated.start)

/-- An offset of a range that no source range touches is put where the source goes on behind the range. -/
theorem ahead?_of_apart (apart : ∀ u ∈ map.sources, u.start < u.stop ∧ u.Apart span) (inside : span.contains o = true) :
    (map.ahead? o).elim map.generatedLength (·.target o) = map.resumption span.stop := by
  rw [Span.contains_iff] at inside
  have same : ∀ s ∈ map.segments.toList, s.endsBehind o = s.startsFrom span.stop := by
    intro s member
    rw [Bool.eq_iff_iff, Segment.endsBehind_iff, Segment.startsFrom_iff]
    refine exists_congr fun u => and_congr_right fun origin => ?_
    obtain ⟨proper, before | after⟩ := apart u (mem_sources member origin) <;> omega
  have found : map.ahead? o = map.segments.toList.find? (·.startsFrom span.stop) := List.find?_congr same
  rw [resumption, found]
  cases next : map.segments.toList.find? (·.startsFrom span.stop) with
  | none => rfl
  | some s =>
    obtain ⟨u, origin, behind⟩ := Segment.startsFrom_iff.mp (List.find?_some next)
    exact Segment.target_before origin (by omega)

end PositionMap

namespace Edit

/-- A replacement stands in the edited text as a segment that shows its text. -/
structure Replacement.StandsIn (r : Replacement) (rendering : Rendering) (s : Segment) : Prop where
  member : s ∈ rendering.map.segments.toList
  origin : s.origin = .source r.span
  shows : s.generated.slice? rendering.text = some r.text

theorem Replacement.StandsIn.stop {r : Replacement} {rendering : Rendering} {s : Segment} (stands : r.StandsIn rendering s) :
    s.generated.stop = s.generated.start + r.text.utf8ByteSize := by
  obtain ⟨run, cut, text⟩ := Option.map_eq_some_iff.mp stands.shows
  obtain ⟨-, -, -, -, stop⟩ := Text.slice?_eq_some_iff.mp cut
  rw [stop, ← text, ← Text.width_toList, String.toList_ofList]

namespace Buffer

variable {b : Buffer} {r : Replacement} {o : Nat}

theorem Consistent.stands (valid : b.Consistent) (member : r ∈ b.replacements) (filled : r.text ≠ "") :
    ∃ s, r.StandsIn b.render s := by
  have chunk := valid.woven.replaced_iff.mpr ⟨r, member, rfl, rfl⟩
  have put : Block.replaced r.span r.text.toList ∈ b.blocks :=
    (mem_foldr_push rfl).mpr ⟨chunk, by simpa [Block.chars] using filled⟩
  obtain ⟨before, after, split⟩ := List.append_of_mem put
  have text : b.render.text.toList = before.flatMap Block.chars ++ (r.text.toList ++ after.flatMap Block.chars) := by
    rw [render_text, split]
    simp [Block.chars]
  refine ⟨⟨⟨width (before.flatMap Block.chars), width (before.flatMap Block.chars) + width r.text.toList⟩,
    .source r.span⟩, ?_, rfl, ?_⟩
  · rw [valid.segments, split, place_append, Nat.zero_add]
    exact List.mem_append_right _ List.mem_cons_self
  · exact Option.map_eq_some_iff.mpr
      ⟨r.text.toList, Text.slice?_eq_some_iff.mpr ⟨_, _, text, rfl, rfl⟩, String.ofList_toList⟩

theorem Consistent.removed_apart (valid : b.Consistent) (member : r ∈ b.replacements) (removed : r.text = "") :
    ∀ u ∈ b.render.map.sources, u.start < u.stop ∧ u.Apart r.span := by
  intro u listed
  have proper := (valid.sources_bounds listed).1
  refine ⟨proper, (Span.apart_iff proper (valid.proper r member).1).mpr fun o inside => ?_⟩
  have short := (valid.sources_bounds listed).2
  have shown := (valid.has_source_iff (o := o) (by rw [Span.contains_iff] at inside; omega)).mp ⟨u, listed, inside⟩
  exact Bool.eq_false_iff.mpr fun gone => shown ⟨r, member, removed, gone⟩

/-- Whatever is called on a buffer, accepted or not: both maps keep the order of positions and stay in their
texts, and the map to the edited text has a place for every offset of the source. An offset of a range that was
replaced is put at the start of the replacement, or as far behind it as in the range if the lengths agree; an
offset of a range that was removed is put where the source goes on. -/
theorem maps_monotone (source : String) (calls : List Command) :
    let rendering := ((ofSource source).attempt calls).render
    let map := rendering.map
    let edits := edits ((ofSource source).accepted calls)
    (∀ g h o p, g ≤ h → h ≤ map.generatedLength → map.sourcePosition? g = some o → map.sourcePosition? h = some p →
      o ≤ p ∧ p ≤ source.utf8ByteSize) ∧
    (∀ o, (∃ g, map.generatedPosition? o = some g) ↔ o ≤ source.utf8ByteSize) ∧
    (∀ o g, map.generatedPosition? o = some g → g ≤ map.generatedLength) ∧
    (∀ o p g h, o ≤ p → map.generatedPosition? o = some g → map.generatedPosition? p = some h → g ≤ h) ∧
    (∀ r ∈ edits, r.text ≠ "" →
      ∃ s, r.StandsIn rendering s ∧ ∀ o, r.span.contains o = true → map.generatedPosition? o =
        if r.text.utf8ByteSize = r.span.stop - r.span.start then some (s.generated.start + (o - r.span.start))
        else some s.generated.start) ∧
    ∀ r ∈ edits, r.text = "" → ∀ o, r.span.contains o = true →
      map.generatedPosition? o = some (map.resumption r.span.stop) := by
  intro rendering map edits
  obtain ⟨valid, records, same⟩ := (accepts_accepted (ofSource source) calls).keeps
    (Consistent.ofSource source) (Records.ofSource source)
  have length : map.sourceLength = source.utf8ByteSize := by
    change width ((ofSource source).attempt calls).source.toList = _
    rw [same]
    exact Text.width_toList source
  have ascending : map.Ascending := valid.segments_ordered
  have put {r : Replacement} {o : Nat} (member : r ∈ edits) (inside : r.span.contains o = true) :
      map.generatedPosition? o = some ((map.ahead? o).elim map.generatedLength (·.target o)) := by
    have proper := (valid.proper r (records.edits.mem_iff.mpr member)).2.2
    have short : r.span.stop ≤ map.sourceLength := Text.le_width_of_isBoundary proper
    rw [Span.contains_iff] at inside
    exact valid.sound.generatedPosition?_eq ascending (Nat.le_trans (Nat.le_of_lt inside.2) short)
  refine ⟨fun g h o p le bound first last => ⟨?_, ?_⟩, fun o => ?_, fun o g put => ?_, fun o p g h le first second => ?_,
    fun r member filled => ?_, fun r member removed o inside => ?_⟩
  · exact valid.sound.sourcePosition?_ordered ascending le bound first last
  · exact length ▸ valid.sound.sourcePosition?_le last
  · rw [← length, ← PositionMap.generatedPosition?_isSome, Option.isSome_iff_exists]
  · exact valid.sound.generatedPosition?_le ascending put
  · exact valid.sound.generatedPosition?_mono ascending le first second
  · obtain ⟨s, stands⟩ := valid.stands (records.edits.mem_iff.mpr member) filled
    refine ⟨s, stands, fun o inside => ?_⟩
    have order := (valid.proper r (records.edits.mem_iff.mpr member)).1
    have stop := stands.stop
    have long : s.generated.stop - s.generated.start = r.text.utf8ByteSize := by omega
    rw [put member inside, PositionMap.ahead?_of_contains ascending stands.member stands.origin inside,
      Option.elim_some, Segment.target_eq stands.origin (Nat.le_of_lt order) (by omega), long, apply_ite some]
  · rw [put member inside, PositionMap.ahead?_of_apart (valid.removed_apart (records.edits.mem_iff.mpr member) removed) inside]

/-- In `aXY--f[long]h`, made from `abcdefgh`, the two ranges that were removed one after the other are put where
the source goes on behind the inserted text, and the long replacement leads back into the byte it replaced. -/
theorem maps_monotone_removed :
    let calls : List Command :=
      [.overwrite ⟨1, 3⟩ "XY", .remove ⟨4, 5⟩, .insertBefore 5 "--", .remove ⟨3, 4⟩, .overwrite ⟨6, 7⟩ "[long]"]
    let map := ((ofSource "abcdefgh").attempt calls).render.map
    (2 ≤ 8 ∧ map.sourcePosition? 2 = some 2 ∧ map.sourcePosition? 8 = some 6 ∧ 2 ≤ 6) ∧
      map.resumption 4 = 5 ∧ map.generatedPosition? 3 = some 5 ∧ map.generatedPosition? 2 = some 2 := by
  intro calls map
  have sound := maps_monotone "abcdefgh" calls
  have first : map.sourcePosition? 2 = some 2 := by decide +kernel
  have second : map.sourcePosition? 8 = some 6 := by decide +kernel
  have resumes : map.resumption 4 = 5 := by decide +kernel
  have removed := sound.2.2.2.2.2 ⟨⟨3, 4⟩, ""⟩ (by decide +kernel) rfl 3 (by decide)
  exact ⟨⟨by decide, first, second, (sound.1 2 8 2 6 (by decide) (by decide +kernel) first second).1⟩,
    resumes, resumes ▸ removed, by decide +kernel⟩

theorem Consistent.segment_fits (valid : b.Consistent) (small : b.length < offsetBound)
    (short : b.render.map.generatedLength < offsetBound) {s : Segment} (member : s ∈ b.render.map.segments.toList) :
    s.generated.Fits ∧ ∀ span, s.origin = .source span → span.Fits := by
  obtain ⟨proper, below⟩ := valid.tiled.bounds member
  refine ⟨⟨by omega, by omega⟩, fun span origin => ?_⟩
  obtain ⟨proper, below⟩ := valid.sources_bounds (PositionMap.mem_sources member origin)
  exact ⟨by omega, by omega⟩

theorem Consistent.image_fits (valid : b.Consistent) (small : b.length < offsetBound) {span image : Span}
    (inside : span.stop ≤ b.render.map.generatedLength) (found : b.render.map.sourceSpan? span = some image) :
    image.Fits := by
  have order := (PositionMap.sourceSpan?_eq_some found).2
  have below : image.stop ≤ b.length := valid.sound.sourceSpan?_le found (.inr inside)
  exact ⟨by omega, by omega⟩

/-- Whatever is called on a buffer, 32 bits are enough for every offset that it keeps, for the segments of its map and
for the answers of the map, as long as the source and the edited text are short enough themselves. -/
theorem offsets_fit (source : String) (calls : List Command) :
    let b := (ofSource source).attempt calls
    let map := b.render.map
    source.utf8ByteSize < offsetBound → b.render.text.utf8ByteSize < offsetBound →
      ((∀ r ∈ b.replacements, r.span.Fits) ∧ ∀ a ∈ b.anchors, a.offset < offsetBound) ∧
      (map.sourceLength < offsetBound ∧ map.generatedLength < offsetBound ∧
        ∀ s ∈ map.segments.toList, s.generated.Fits ∧ ∀ span, s.origin = .source span → span.Fits) ∧
      (∀ g o, map.sourcePosition? g = some o → o < offsetBound) ∧
      (∀ o g, map.generatedPosition? o = some g → g < offsetBound) ∧
      ∀ span image, span.stop ≤ map.generatedLength → map.sourceSpan? span = some image → image.Fits := by
  intro b map small short
  obtain ⟨valid, -, same⟩ := (accepts_accepted (ofSource source) calls).keeps
    (Consistent.ofSource source) (Records.ofSource source)
  have small : b.length < offsetBound := by rwa [Buffer.length, same, Text.width_toList]
  have short : map.generatedLength < offsetBound := by rwa [render_length, Text.width_toList]
  refine ⟨valid.fits small, ⟨small, short, fun s => valid.segment_fits small short⟩, fun g o found => ?_,
    fun o g put => ?_, fun span image => valid.image_fits small⟩
  · exact Nat.lt_of_le_of_lt (valid.sound.sourcePosition?_le found) small
  · exact Nat.lt_of_le_of_lt (valid.sound.generatedPosition?_le valid.segments_ordered put) short

end Buffer
end Edit
end SvelteLens
