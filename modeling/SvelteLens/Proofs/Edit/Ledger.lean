import SvelteLens.Proofs.Edit.Calls
import SvelteLens.Proofs.Text.Spans

/-! What a buffer keeps of the calls made on it. `Consistent` is what every call preserves;
`Records` says that the two tables hold exactly what the accepted calls asked for, with the
texts at one boundary and side in call order. Both hold after any calls, refused ones included. -/
namespace SvelteLens

structure Span.Fits (s : Span) : Prop where
  start : s.start < Edit.offsetBound
  stop : s.stop < Edit.offsetBound

theorem Span.Fits.empty {offset : Nat} (below : offset < Edit.offsetBound) : (Span.empty offset).Fits := ⟨below, below⟩

namespace Edit

def Anchor.texts (a : Anchor) : Side → List String
  | .after => a.after
  | .before => a.before

@[simp] theorem Anchor.texts_empty (offset : Nat) (side : Side) :
    (⟨offset, [], []⟩ : Anchor).texts side = [] := by
  cases side <;> rfl

theorem Anchor.add_texts (i : Insertion) (a : Anchor) (side : Side) :
    (a.add i).texts side = a.texts side ++ if i.side = side then [i.text] else [] := by
  cases hi : i.side <;> cases side <;> simp [Anchor.add, Anchor.texts, hi]

namespace Buffer

def textsAt (anchors : List Anchor) (side : Side) (offset : Nat) : List String :=
  (anchors.find? (·.offset = offset)).elim [] (·.texts side)

/-- Replaced ranges ascend and are not empty, boundaries with inserted texts ascend, and none of
them lies strictly inside a replaced range. -/
structure Consistent (b : Buffer) : Prop where
  ordered : b.replacements.Pairwise fun r s => r.span.stop ≤ s.span.start
  proper : ∀ r ∈ b.replacements, r.span.start < r.span.stop ∧
    Text.isBoundary b.source.toList r.span.start = true ∧ Text.isBoundary b.source.toList r.span.stop = true
  ascending : b.anchors.Pairwise fun a c => a.offset < c.offset
  anchored : ∀ a ∈ b.anchors, Text.isBoundary b.source.toList a.offset = true
  outside : ∀ a ∈ b.anchors, ∀ r ∈ b.replacements, a.offset ≤ r.span.start ∨ r.span.stop ≤ a.offset

theorem Consistent.fits {b : Buffer} (valid : b.Consistent) (small : b.length < offsetBound) :
    (∀ r ∈ b.replacements, r.span.Fits) ∧ ∀ a ∈ b.anchors, a.offset < offsetBound := by
  have fits {n : Nat} (boundary : Text.isBoundary b.source.toList n = true) : n < offsetBound :=
    Nat.lt_of_le_of_lt (Text.le_width_of_isBoundary boundary) small
  exact ⟨fun r member => ⟨fits (valid.proper r member).2.1, fits (valid.proper r member).2.2⟩,
    fun a member => fits (valid.anchored a member)⟩

structure Records (b : Buffer) (calls : List Command) : Prop where
  edits : b.replacements.Perm (edits calls)
  texts : ∀ side offset, textsAt b.anchors side offset = inserted side offset calls

theorem addReplacement_perm (new : Replacement) (rs : List Replacement) :
    (addReplacement new rs).Perm (new :: rs) := by
  induction rs with
  | nil => exact .refl _
  | cons r rs ih =>
    unfold addReplacement
    split
    · exact .refl _
    · exact (ih.cons r).trans (.swap new r rs)

theorem mem_addReplacement {new r : Replacement} {rs : List Replacement} :
    r ∈ addReplacement new rs ↔ r = new ∨ r ∈ rs := by
  rw [(addReplacement_perm new rs).mem_iff, List.mem_cons]

theorem addReplacement_ordered {new : Replacement} {rs : List Replacement}
    (ordered : rs.Pairwise fun r s => r.span.stop ≤ s.span.start)
    (proper : ∀ r ∈ rs, r.span.start < r.span.stop)
    (apart : ∀ r ∈ rs, r.span.stop ≤ new.span.start ∨ new.span.stop ≤ r.span.start)
    (order : new.span.start < new.span.stop) :
    (addReplacement new rs).Pairwise fun r s => r.span.stop ≤ s.span.start := by
  induction rs with
  | nil => simp [addReplacement]
  | cons r rs ih =>
    obtain ⟨after, ordered⟩ := List.pairwise_cons.mp ordered
    have properHead := proper r (by simp)
    have apartHead := apart r (by simp)
    unfold addReplacement
    split
    · refine List.pairwise_cons.mpr ⟨?_, List.pairwise_cons.mpr ⟨after, ordered⟩⟩
      intro s member
      rcases List.mem_cons.mp member with rfl | member
      · omega
      · have := after s member
        omega
    · refine List.pairwise_cons.mpr ⟨?_, ih ordered (fun s h => proper s (by simp [h]))
        (fun s h => apart s (by simp [h]))⟩
      intro s member
      rcases mem_addReplacement.mp member with rfl | member
      · omega
      · exact after s member

/-- Every anchor after a change was there before or stands at the changed boundary. -/
theorem mem_changeAnchor {offset : Nat} {change : Anchor → Anchor} {anchors : List Anchor} {a : Anchor}
    (kept : ∀ c, (change c).offset = c.offset) (h : a ∈ changeAnchor offset change anchors) :
    a.offset = offset ∨ a ∈ anchors := by
  induction anchors with
  | nil =>
    simp only [changeAnchor, List.mem_singleton] at h
    exact .inl (by rw [h, kept])
  | cons c rest ih =>
    unfold changeAnchor at h
    split at h
    · rcases List.mem_cons.mp h with rfl | h
      · exact .inl (kept _)
      · exact .inr h
    · split at h
      · rcases List.mem_cons.mp h with rfl | h
        · exact .inl (by rw [kept]; exact ‹offset = c.offset›.symm)
        · exact .inr (by simp [h])
      · rcases List.mem_cons.mp h with rfl | h
        · exact .inr (by simp)
        · exact (ih h).imp_right (by simp [·])

theorem changeAnchor_ascending {offset : Nat} {change : Anchor → Anchor} {anchors : List Anchor}
    (kept : ∀ c, (change c).offset = c.offset)
    (ascending : anchors.Pairwise fun a c => a.offset < c.offset) :
    (changeAnchor offset change anchors).Pairwise fun a c => a.offset < c.offset := by
  induction anchors with
  | nil => simp [changeAnchor]
  | cons c rest ih =>
    obtain ⟨after, tail⟩ := List.pairwise_cons.mp ascending
    unfold changeAnchor
    split
    · refine List.pairwise_cons.mpr ⟨?_, ascending⟩
      intro a member
      rw [kept]
      rcases List.mem_cons.mp member with rfl | member
      · assumption
      · have := after a member
        simp only
        omega
    · split
      · refine List.pairwise_cons.mpr ⟨?_, tail⟩
        rw [kept]
        exact after
      · refine List.pairwise_cons.mpr ⟨?_, ih tail⟩
        intro a member
        rcases mem_changeAnchor kept member with same | member
        · omega
        · exact after a member

theorem find?_changeAnchor {offset : Nat} {change : Anchor → Anchor} {anchors : List Anchor}
    (kept : ∀ c, (change c).offset = c.offset)
    (ascending : anchors.Pairwise fun a c => a.offset < c.offset) (at' : Nat) :
    (changeAnchor offset change anchors).find? (·.offset = at') =
      if offset = at' then some (change ((anchors.find? (·.offset = at')).getD ⟨offset, [], []⟩))
      else anchors.find? (·.offset = at') := by
  induction anchors with
  | nil => by_cases same : offset = at' <;> simp [changeAnchor, kept, same]
  | cons c rest ih =>
    obtain ⟨after, tail⟩ := List.pairwise_cons.mp ascending
    unfold changeAnchor
    by_cases same : offset = at'
    · subst same
      split
      · have absent : (c :: rest).find? (·.offset = offset) = none := by
          simp only [List.find?_eq_none, List.mem_cons, decide_eq_true_eq]
          rintro a (rfl | member)
          · omega
          · have := after a member
            omega
        simp [kept, absent]
      · split
        · have found : c.offset = offset := by omega
          simp [kept, found]
        · have other : c.offset ≠ offset := by omega
          simpa [other] using ih tail
    · split
      · simp [kept, same]
      · split
        · have other : c.offset ≠ at' := by omega
          simp [kept, other]
        · by_cases found : c.offset = at'
          · simp [found]
          · simpa [found, same] using ih tail

theorem Consistent.ofSource (source : String) : Consistent (ofSource source) := by
  constructor <;> simp [Buffer.ofSource]

theorem Records.ofSource (source : String) : Records (ofSource source) [] := by
  constructor <;> simp [Buffer.ofSource, Edit.edits, inserted, insertions, textsAt]

theorem source_apply {b b' : Buffer} {call : Command} (h : b.apply call = .ok b') : b'.source = b.source := by
  rcases apply_cases h with ⟨r, _, _, _, rfl⟩ | ⟨i, _, _, _, rfl⟩ | ⟨_, _, rfl⟩ <;> rfl

/-- The replaced range that a span is compared with is one that it conflicts with. -/
theorem conflict?_eq_some {b : Buffer} {span existing : Span} (h : b.conflict? span = some existing) :
    ∃ r ∈ b.replacements, r.span = existing ∧ existing.start < span.stop ∧ span.start < existing.stop := by
  obtain ⟨r, kept, rfl⟩ := Option.map_eq_some_iff.mp h
  obtain ⟨found, reaches⟩ := Option.filter_eq_some_iff.mp kept
  have starts := List.find?_some found
  exact ⟨r, List.mem_reverse.mp (List.mem_of_find?_eq_some found), rfl, by simpa using starts, by simpa using reaches⟩

theorem conflict?_of_apart {b : Buffer} {span : Span} (apart : ∀ r ∈ b.replacements, r.span.Apart span) :
    b.conflict? span = none := by
  cases found : b.conflict? span with
  | none => rfl
  | some existing =>
    obtain ⟨r, member, rfl, starts, stops⟩ := conflict?_eq_some found
    rcases apart r member with before | after <;> omega

/-- The one comparison with the last range in front finds a conflict with any range. -/
theorem Consistent.conflict?_eq_none_iff {b : Buffer} (valid : b.Consistent) {span : Span} :
    b.conflict? span = none ↔ ∀ r ∈ b.replacements, r.span.Apart span := by
  refine ⟨fun none r member => ?_, conflict?_of_apart⟩
  by_cases starts : r.span.start < span.stop
  · refine .inl ?_
    cases found : b.replacements.reverse.find? (·.span.start < span.stop) with
    | none => simpa [starts] using List.find?_eq_none.mp found r (List.mem_reverse.mpr member)
    | some last =>
      have short : last.span.stop ≤ span.start := by
        simp only [conflict?, found, Option.map_eq_none_iff, Option.filter_eq_none_iff] at none
        simpa using none last rfl
      obtain ⟨-, later, earlier, split, passed⟩ := List.find?_eq_some_iff_append.mp found
      have order : b.replacements = earlier.reverse ++ last :: later.reverse := by
        rw [← List.reverse_reverse b.replacements, split]
        simp
      have ordered := valid.ordered
      rw [order] at ordered
      rw [order, List.mem_append, List.mem_cons] at member
      rcases member with before | rfl | behind
      · have := (List.pairwise_append.mp ordered).2.2 r before last List.mem_cons_self
        have := (valid.proper last (order ▸ by simp)).1
        omega
      · exact short
      · simpa [starts] using passed r (List.mem_reverse.mp behind)
  · exact .inr (Nat.le_of_not_lt starts)

theorem Consistent.apply {b b' : Buffer} {call : Command} (valid : Consistent b)
    (h : b.apply call = .ok b') : Consistent b' := by
  rcases apply_cases h with ⟨r, _, _, admits, rfl⟩ | ⟨i, _, _, admits, rfl⟩ | ⟨_, _, rfl⟩
  · constructor
    · exact addReplacement_ordered valid.ordered (fun s h => (valid.proper s h).1)
        (valid.conflict?_eq_none_iff.mp admits.apart) admits.order
    · intro s member
      rcases mem_addReplacement.mp member with rfl | member
      · exact ⟨admits.order, admits.start, admits.stop⟩
      · exact valid.proper s member
    · exact valid.ascending
    · exact valid.anchored
    · intro a anchor s member
      rcases mem_addReplacement.mp member with rfl | member
      · exact admits.clear a anchor
      · exact valid.outside a anchor s member
  · constructor
    · exact valid.ordered
    · exact valid.proper
    · exact changeAnchor_ascending (Anchor.add_offset i) valid.ascending
    · intro a member
      rcases mem_changeAnchor (Anchor.add_offset i) member with same | member
      · rw [same]
        exact admits.boundary
      · exact valid.anchored a member
    · intro a member r edited
      rcases mem_changeAnchor (Anchor.add_offset i) member with same | member
      · rw [same]
        exact (valid.conflict?_eq_none_iff.mp admits.clear r edited).symm
      · exact valid.outside a member r edited
  · exact valid

theorem textsAt_changeAnchor {anchors : List Anchor} (i : Insertion)
    (ascending : anchors.Pairwise fun a c => a.offset < c.offset) (side : Side) (offset : Nat) :
    textsAt (changeAnchor i.offset (Anchor.add i) anchors) side offset =
      textsAt anchors side offset ++ if i.offset = offset ∧ i.side = side then [i.text] else [] := by
  unfold textsAt
  rw [find?_changeAnchor (Anchor.add_offset i) ascending]
  by_cases same : i.offset = offset
  · subst same
    cases found : anchors.find? (·.offset = i.offset) with
    | none => simp [Anchor.add_texts]
    | some a => simp [Anchor.add_texts]
  · simp [same]

theorem Records.apply {b b' : Buffer} {call : Command} {calls : List Command} (valid : Consistent b)
    (records : Records b calls) (h : b.apply call = .ok b') : Records b' (calls ++ [call]) := by
  rcases apply_cases h with ⟨r, edit, none, _, rfl⟩ | ⟨i, none, insertion, _, rfl⟩ | ⟨none, none', rfl⟩
  · constructor
    · have added := (addReplacement_perm r b.replacements).trans (records.edits.cons r)
      simpa [Edit.edits, edit] using added.trans (List.perm_append_singleton r _).symm
    · simpa [inserted, insertions, none] using records.texts
  · constructor
    · simpa [Edit.edits, none] using records.edits
    · intro side offset
      rw [textsAt_changeAnchor i valid.ascending, records.texts]
      by_cases here : i.offset = offset ∧ i.side = side <;>
        simp [inserted, insertions, insertion, here]
  · constructor
    · simpa [Edit.edits, none] using records.edits
    · simpa [inserted, insertions, none'] using records.texts

theorem Records.anchored {b : Buffer} {calls : List Command} (records : Records b calls) {i : Insertion}
    (member : i ∈ insertions calls) : ∃ a ∈ b.anchors, a.offset = i.offset := by
  have listed : i.text ∈ inserted i.side i.offset calls :=
    List.mem_map.mpr ⟨i, List.mem_filter.mpr ⟨member, by simp⟩, rfl⟩
  rw [← records.texts] at listed
  cases found : b.anchors.find? (·.offset = i.offset) with
  | none => simp [textsAt, found] at listed
  | some a => exact ⟨a, List.mem_of_find?_eq_some found, by simpa using List.find?_some found⟩

/-- What a buffer keeps of calls that were all accepted. -/
theorem Accepts.keeps {b final : Buffer} {calls before : List Command} (run : Accepts b calls final)
    (valid : Consistent b) (records : Records b before) :
    Consistent final ∧ Records final (before ++ calls) ∧ final.source = b.source := by
  induction run generalizing before with
  | nil => exact ⟨valid, by simpa using records, rfl⟩
  | cons step _ ih =>
    obtain ⟨consistent, kept, same⟩ := ih (valid.apply step) (records.apply valid step)
    exact ⟨consistent, by simpa using kept, same.trans (source_apply step)⟩

end Buffer
end Edit
end SvelteLens
