import SvelteLens.Proofs.Edit.Acceptance

/-! Exactly which calls are accepted, by what was accepted before them. A range can be replaced when
it shares no byte with a replaced range and has no inserted text inside; a text can be inserted
wherever no replaced range is around it. A refusal tells of a condition that the call violates, and
leaves nothing behind. -/
namespace SvelteLens.Edit

open Text (isBoundary)

namespace Buffer

variable {b b' final : Buffer} {c : Command} {calls : List Command} {span : Span} {offset : Nat}

/-- Every anchor has a text, though it may be an empty one. -/
def Filled (b : Buffer) : Prop := ∀ a ∈ b.anchors, ∃ side, a.texts side ≠ []

theorem filled_ofSource (source : String) : Filled (ofSource source) := nofun

theorem changed_or_kept {change : Anchor → Anchor} {anchors : List Anchor} {a : Anchor}
    (h : a ∈ changeAnchor offset change anchors) : (∃ old, a = change old) ∨ a ∈ anchors := by
  induction anchors with
  | nil => exact .inl ⟨_, List.mem_singleton.mp h⟩
  | cons old rest ih =>
    unfold changeAnchor at h
    split at h
    · exact (List.mem_cons.mp h).imp_left fun same => ⟨_, same⟩
    · split at h
      · exact (List.mem_cons.mp h).imp (fun same => ⟨_, same⟩) (List.mem_cons_of_mem old)
      · rcases List.mem_cons.mp h with rfl | later
        · exact .inr List.mem_cons_self
        · exact (ih later).imp_right (List.mem_cons_of_mem old)

theorem Filled.apply (filled : Filled b) (made : b.apply c = .ok b') : Filled b' := by
  rcases apply_cases made with ⟨r, _, _, _, rfl⟩ | ⟨i, _, _, _, rfl⟩ | ⟨_, _, rfl⟩
  · exact filled
  · intro a member
    rcases changed_or_kept member with ⟨old, rfl⟩ | member
    · exact ⟨i.side, by simp [Anchor.add_texts]⟩
    · exact filled a member
  · exact filled

theorem Accepts.filled (run : Accepts b calls final) (filled : Filled b) : Filled final := by
  induction run with
  | nil => exact filled
  | cons made _ ih => exact ih (filled.apply made)

theorem Records.insertion (records : Records b calls) (filled : Filled b) {a : Anchor} (member : a ∈ b.anchors) :
    ∃ i ∈ insertions calls, i.offset = a.offset := by
  obtain ⟨first, found⟩ : ∃ first, b.anchors.find? (·.offset = a.offset) = some first := by
    rw [← Option.isSome_iff_exists, List.find?_isSome]
    exact ⟨a, member, by simp⟩
  obtain ⟨side, some⟩ := filled first (List.mem_of_find?_eq_some found)
  have listed : inserted side a.offset calls ≠ [] := by
    rw [← records.texts, textsAt, found]
    exact some
  obtain ⟨text, listed⟩ := List.exists_mem_of_ne_nil _ listed
  obtain ⟨i, asked, -⟩ := List.mem_map.mp listed
  obtain ⟨asked, here⟩ := List.mem_filter.mp asked
  simp only [Bool.and_eq_true, decide_eq_true_eq] at here
  exact ⟨i, asked, here.1⟩

/-- What a buffer leaves, by the calls that were accepted. -/
theorem Records.leaves_iff (records : Records b calls) (filled : Filled b) : b.Leaves span ↔
    (∀ r ∈ Edit.edits calls, r.span.Apart span) ∧ ∀ i ∈ insertions calls, (Span.empty i.offset).Apart span := by
  constructor
  · intro leaves
    refine ⟨fun r member => leaves.replaced r (records.edits.mem_iff.mpr member), fun i member => ?_⟩
    obtain ⟨a, anchored, here⟩ := records.anchored member
    exact here ▸ leaves.inserted a anchored
  · rintro ⟨replaced, inserted⟩
    refine ⟨fun r member => replaced r (records.edits.mem_iff.mp member), fun a member => ?_⟩
    obtain ⟨i, asked, here⟩ := records.insertion filled member
    exact here ▸ inserted i asked

theorem valid_of_apply (made : b.apply c = .ok b') : c.Valid b.source.toList := by
  cases c with
  | overwrite span text =>
    obtain ⟨⟨⟩, range, made⟩ := chain_ok.mp made
    obtain ⟨start, stop, order⟩ := checkRange_ok range
    split at made
    · cases made
    · next filled =>
      have proper : span.start ≠ span.stop := by simpa [Span.isEmpty] using filled
      exact .overwrite start stop (Nat.lt_of_le_of_ne order proper) text
  | remove span =>
    obtain ⟨⟨⟩, range, -⟩ := chain_ok.mp made
    obtain ⟨start, stop, order⟩ := checkRange_ok range
    exact .remove start stop order
  | insertBefore offset text => exact .insertBefore (insert_ok made).1.boundary text
  | insertAfter offset text => exact .insertAfter (insert_ok made).1.boundary text

theorem Consistent.leaves_of_apply (valid : b.Consistent) (made : b.apply c = .ok b')
    (occupied : c.footprint? = some span) : b.Leaves span := by
  unfold Command.footprint? at occupied
  rcases apply_cases made with ⟨r, edit, _, admits, _⟩ | ⟨i, edit, insertion, admits, _⟩ | ⟨edit, insertion, _⟩
  · rw [edit] at occupied
    cases occupied
    exact ⟨valid.conflict?_eq_none_iff.mp admits.apart, fun a member => admits.clear a member⟩
  · rw [edit, insertion] at occupied
    cases occupied
    exact ⟨valid.conflict?_eq_none_iff.mp admits.clear, fun a _ => Span.apart_empty a.offset i.offset⟩
  · rw [edit, insertion] at occupied
    cases occupied

/-- A call is accepted exactly when it is valid and finds what it occupies free. -/
theorem Consistent.accepted_iff (valid : b.Consistent) : (∃ b', b.apply c = .ok b') ↔
    c.Valid b.source.toList ∧ ∀ span, c.footprint? = some span → b.Leaves span := by
  constructor
  · rintro ⟨b', made⟩
    exact ⟨valid_of_apply made, fun span occupied => valid.leaves_of_apply made occupied⟩
  · rintro ⟨keeps, leaves⟩
    exact apply_of_leaves keeps leaves

theorem Consistent.accepted_iff_leaves (valid : b.Consistent) (occupied : c.footprint? = some span) :
    (∃ b', b.apply c = .ok b') ↔ c.Valid b.source.toList ∧ b.Leaves span := by
  rw [valid.accepted_iff, occupied]
  simp only [Option.some.injEq, forall_eq']

end Buffer

/-- What it takes to replace a range after some accepted calls. -/
structure Replaceable (source : String) (accepted : List Command) (span : Span) : Prop where
  start_le : span.start ≤ source.utf8ByteSize
  stop_le : span.stop ≤ source.utf8ByteSize
  start : isBoundary source.toList span.start = true
  stop : isBoundary source.toList span.stop = true
  unshared : ∀ r ∈ edits accepted, ∀ o, r.span.contains o = true → span.contains o = false
  clear : ∀ i ∈ insertions accepted, ¬(span.start < i.offset ∧ i.offset < span.stop)

/-- What it takes to insert a text after some accepted calls. -/
structure Insertable (source : String) (accepted : List Command) (offset : Nat) : Prop where
  le : offset ≤ source.utf8ByteSize
  boundary : isBoundary source.toList offset = true
  clear : ∀ r ∈ edits accepted, ¬(r.span.start < offset ∧ offset < r.span.stop)

def Command.range? : Command → Option Span
  | .overwrite span _ | .remove span => some span
  | .insertBefore _ _ | .insertAfter _ _ => none

/-- A refusal tells of a condition that the call violates, after some accepted calls. -/
def Refusal.Violated (source : String) (accepted : List Command) (call : Command) : Refusal → Prop
  | .outOfBounds offset length =>
    (offset = call.reach.start ∨ offset = call.reach.stop) ∧ length = source.utf8ByteSize ∧ length < offset
  | .insideCharacter offset =>
    (offset = call.reach.start ∨ offset = call.reach.stop) ∧ offset ≤ source.utf8ByteSize ∧
      isBoundary source.toList offset = false
  | .reversed start stop => call.range? = some ⟨start, stop⟩ ∧ stop < start
  | .emptyOverwrite offset => ∃ text, call = .overwrite (Span.empty offset) text
  | .overlap existing new =>
    call.range? = some new ∧ (∃ r ∈ edits accepted, r.span = existing) ∧
      ∃ o, existing.contains o = true ∧ new.contains o = true
  | .insideEdit offset edit =>
    (edit.start < offset ∧ offset < edit.stop) ∧
      ((call.range? = some edit ∧ ∃ i ∈ insertions accepted, i.offset = offset) ∨
        (call.range? = none ∧ call.reach = Span.empty offset ∧ ∃ r ∈ edits accepted, r.span = edit))

namespace Buffer

variable {b : Buffer} {c : Command} {calls : List Command} {span : Span} {offset : Nat} {refusal : Refusal}

theorem length_eq (b : Buffer) : b.length = b.source.utf8ByteSize := Text.width_toList b.source

theorem le_of_boundary (h : isBoundary b.source.toList offset = true) : offset ≤ b.source.utf8ByteSize :=
  Text.width_toList b.source ▸ Text.le_width_of_isBoundary h

/-- What it takes to replace a range is that its ends are boundaries and that the buffer leaves it. -/
theorem Records.replaceable_iff (valid : b.Consistent) (records : Records b calls) (filled : Filled b)
    (order : span.start < span.stop) : Replaceable b.source calls span ↔
      (isBoundary b.source.toList span.start = true ∧ isBoundary b.source.toList span.stop = true) ∧ b.Leaves span := by
  have apart (r : Replacement) (member : r ∈ Edit.edits calls) :
      r.span.Apart span ↔ ∀ o, r.span.contains o = true → span.contains o = false :=
    Span.apart_iff (valid.proper r (records.edits.mem_iff.mpr member)).1 order
  have outside (o : Nat) : (Span.empty o).Apart span ↔ ¬(span.start < o ∧ o < span.stop) := by
    unfold Span.Apart Span.empty
    dsimp only
    omega
  rw [records.leaves_iff filled]
  constructor
  · rintro ⟨-, -, start, stop, unshared, clear⟩
    exact ⟨⟨start, stop⟩, fun r member => (apart r member).mpr (unshared r member),
      fun i member => (outside i.offset).mpr (clear i member)⟩
  · rintro ⟨⟨start, stop⟩, replaced, inserted⟩
    exact ⟨le_of_boundary start, le_of_boundary stop, start, stop, fun r member => (apart r member).mp (replaced r member),
      fun i member => (outside i.offset).mp (inserted i member)⟩

theorem Records.insertable_iff (records : Records b calls) (filled : Filled b) : Insertable b.source calls offset ↔
    isBoundary b.source.toList offset = true ∧ b.Leaves (Span.empty offset) := by
  have outside (span : Span) : span.Apart (Span.empty offset) ↔ ¬(span.start < offset ∧ offset < span.stop) := by
    unfold Span.Apart Span.empty
    dsimp only
    omega
  rw [records.leaves_iff filled]
  constructor
  · rintro ⟨-, boundary, clear⟩
    exact ⟨boundary, fun r member => (outside r.span).mpr (clear r member), fun i _ => Span.apart_empty i.offset offset⟩
  · rintro ⟨boundary, replaced, -⟩
    exact ⟨le_of_boundary boundary, boundary, fun r member => (outside r.span).mp (replaced r member)⟩

theorem checkOffset_violated (refused : b.checkOffset offset = .error refusal)
    (mentioned : offset = c.reach.start ∨ offset = c.reach.stop) : refusal.Violated b.source calls c := by
  unfold checkOffset at refused
  split at refused
  · next beyond =>
    cases refused
    exact ⟨mentioned, b.length_eq, beyond⟩
  · next within =>
    split at refused
    · next inside =>
      cases refused
      exact ⟨mentioned, b.length_eq ▸ Nat.le_of_not_lt within, by simpa using inside⟩
    · cases refused

theorem checkRange_violated (refused : b.checkRange c.reach = .error refusal) (range : c.range? = some c.reach) :
    refusal.Violated b.source calls c := by
  rcases chain_error.mp refused with start | ⟨⟨⟩, -, refused⟩
  · exact checkOffset_violated start (.inl rfl)
  · rcases chain_error.mp refused with stop | ⟨⟨⟩, -, refused⟩
    · exact checkOffset_violated stop (.inr rfl)
    · split at refused
      · cases refused
        exact ⟨range, ‹_›⟩
      · cases refused

/-- The conflict that is told of is with a range that was replaced, or with a text that was inserted. -/
theorem Records.replace_violated (valid : b.Consistent) (records : Records b calls) (filled : Filled b) {text : String}
    (order : span.start < span.stop) (range : c.range? = some span) (refused : b.replace span text = .error refusal) :
    refusal.Violated b.source calls c := by
  unfold replace at refused
  split at refused
  · next existing conflict =>
    cases refused
    obtain ⟨r, member, rfl, starts, stops⟩ := conflict?_eq_some conflict
    have proper := (valid.proper r member).1
    refine ⟨range, ⟨r, records.edits.mem_iff.mp member, rfl⟩, max r.span.start span.start, ?_⟩
    rw [Span.contains_iff, Span.contains_iff]
    omega
  · split at refused
    · next offset inside =>
      cases refused
      obtain ⟨a, found, rfl⟩ := Option.map_eq_some_iff.mp inside
      obtain ⟨i, asked, here⟩ := records.insertion filled (List.mem_of_find?_eq_some found)
      have strictly := List.find?_some found
      simp only [Bool.and_eq_true, decide_eq_true_eq] at strictly
      exact ⟨strictly, .inl ⟨range, i, asked, here⟩⟩
    · cases refused

theorem Records.insert_violated (records : Records b calls) {change : Anchor → Anchor} (range : c.range? = none)
    (reach : c.reach = Span.empty offset) (refused : b.insert offset change = .error refusal) :
    refusal.Violated b.source calls c := by
  rcases chain_error.mp refused with misplaced | ⟨⟨⟩, -, refused⟩
  · exact checkOffset_violated misplaced (.inl (by rw [reach]; rfl))
  · split at refused
    · next edit covered =>
      cases refused
      obtain ⟨r, member, rfl, starts, stops⟩ := conflict?_eq_some covered
      exact ⟨⟨starts, stops⟩, .inr ⟨range, reach, r, records.edits.mem_iff.mp member, rfl⟩⟩
    · cases refused

theorem Records.refused_violated (valid : b.Consistent) (records : Records b calls) (filled : Filled b)
    (refused : b.apply c = .error refusal) : refusal.Violated b.source calls c := by
  cases c with
  | overwrite span text =>
    rcases chain_error.mp refused with range | ⟨⟨⟩, range, refused⟩
    · exact checkRange_violated range rfl
    · obtain ⟨-, -, order⟩ := checkRange_ok range
      split at refused
      · next empty =>
        cases refused
        obtain ⟨start, stop⟩ := span
        obtain rfl : start = stop := by simpa [Span.isEmpty] using empty
        exact ⟨text, rfl⟩
      · next filled' =>
        have proper : span.start ≠ span.stop := by simpa [Span.isEmpty] using filled'
        exact records.replace_violated valid filled (Nat.lt_of_le_of_ne order proper) rfl refused
  | remove span =>
    rcases chain_error.mp refused with range | ⟨⟨⟩, range, refused⟩
    · exact checkRange_violated range rfl
    · obtain ⟨-, -, order⟩ := checkRange_ok range
      split at refused
      · cases refused
      · next filled' =>
        have proper : span.start ≠ span.stop := by simpa [Span.isEmpty] using filled'
        exact records.replace_violated valid filled (Nat.lt_of_le_of_ne order proper) rfl refused
  | insertBefore offset text => exact records.insert_violated rfl rfl refused
  | insertAfter offset text => exact records.insert_violated rfl rfl refused

theorem attempt_append (b : Buffer) (calls later : List Command) :
    b.attempt (calls ++ later) = (b.attempt calls).attempt later := by
  induction calls generalizing b with
  | nil => rfl
  | cons call calls ih =>
    rw [List.cons_append, attempt, attempt]
    split
    · exact ih _
    · exact ih _

/-- After whatever calls: a range that is not empty can be overwritten or removed exactly when its ends
are boundaries of the source, it shares no byte with a replaced range and no inserted text is strictly
inside; a text can be inserted exactly at the boundaries that are strictly inside no replaced range. A
reversed range and an empty overwrite are always refused; removing an empty range at a boundary does
nothing. A refusal tells of a condition that the call violates, and all later calls go as if the
refused one had not been made. -/
theorem accepts_exactly (source : String) (calls : List Command) :
    let b := (ofSource source).attempt calls
    let accepted := (ofSource source).accepted calls
    (∀ span : Span, span.start < span.stop → ∀ text,
      ((∃ b', b.apply (.overwrite span text) = .ok b') ↔ Replaceable source accepted span) ∧
      ((∃ b', b.apply (.remove span) = .ok b') ↔ Replaceable source accepted span)) ∧
    (∀ offset text,
      ((∃ b', b.apply (.insertBefore offset text) = .ok b') ↔ Insertable source accepted offset) ∧
      ((∃ b', b.apply (.insertAfter offset text) = .ok b') ↔ Insertable source accepted offset)) ∧
    (∀ span : Span, span.stop < span.start → ∀ text,
      (∃ refusal, b.apply (.overwrite span text) = .error refusal) ∧
      ∃ refusal, b.apply (.remove span) = .error refusal) ∧
    (∀ offset, offset ≤ source.utf8ByteSize → isBoundary source.toList offset = true →
      b.apply (.remove (Span.empty offset)) = .ok b) ∧
    (∀ offset text, ∃ refusal, b.apply (.overwrite (Span.empty offset) text) = .error refusal) ∧
    ∀ call refusal, b.apply call = .error refusal → refusal.Violated source accepted call ∧
      ∀ later, (ofSource source).attempt (calls ++ call :: later) = (ofSource source).attempt (calls ++ later) := by
  intro b accepted
  have run := accepts_accepted (ofSource source) calls
  obtain ⟨valid, records, same⟩ := run.keeps (Consistent.ofSource source) (Records.ofSource source)
  have filled : Filled b := run.filled (filled_ofSource source)
  have refused (c : Command) (invalid : ¬c.Valid b.source.toList) : ∃ refusal, b.apply c = .error refusal := by
    cases made : b.apply c with
    | error refusal => exact ⟨refusal, rfl⟩
    | ok b' => exact absurd (valid_of_apply made) invalid
  have same : b.source = source := same
  have records : Records b accepted := records
  rw [← same]
  refine ⟨fun span order text => ⟨?_, ?_⟩, fun offset text => ⟨?_, ?_⟩, fun span reversed text => ⟨?_, ?_⟩,
    fun offset _ boundary => ?_, fun offset text => ?_, fun call refusal made => ⟨?_, fun later => ?_⟩⟩
  · rw [records.replaceable_iff valid filled order, valid.accepted_iff_leaves rfl]
    exact and_congr_left' ⟨fun keeps => ⟨keeps.start, keeps.stop⟩,
      fun ⟨start, stop⟩ => .overwrite start stop order text⟩
  · have proper : span.isEmpty = false := beq_eq_false_iff_ne.mpr (Nat.ne_of_lt order)
    have occupied : (Command.remove span).footprint? = some span := by
      simp [Command.footprint?, Command.edit?, proper]
    rw [records.replaceable_iff valid filled order, valid.accepted_iff_leaves occupied]
    exact and_congr_left' ⟨fun keeps => ⟨keeps.start, keeps.stop⟩,
      fun ⟨start, stop⟩ => .remove start stop (Nat.le_of_lt order)⟩
  · rw [records.insertable_iff filled, valid.accepted_iff_leaves rfl]
    exact and_congr_left' ⟨fun keeps => keeps.start, fun boundary => .insertBefore boundary text⟩
  · rw [records.insertable_iff filled, valid.accepted_iff_leaves rfl]
    exact and_congr_left' ⟨fun keeps => keeps.start, fun boundary => .insertAfter boundary text⟩
  · exact refused _ fun keeps => Nat.not_lt.mpr keeps.order reversed
  · exact refused _ fun keeps => Nat.not_lt.mpr keeps.order reversed
  · refine chain_ok.mpr ⟨(), checkRange_of_boundaries boundary boundary (Nat.le_refl offset), ?_⟩
    simp [Span.isEmpty, Span.empty]
    rfl
  · exact refused _ fun keeps => Nat.lt_irrefl offset (keeps.filled _ _ rfl)
  · exact records.refused_violated valid filled made
  · rw [attempt_append, attempt_append, same]
    change b.attempt (call :: later) = b.attempt later
    rw [attempt, made]

end Buffer
end SvelteLens.Edit
