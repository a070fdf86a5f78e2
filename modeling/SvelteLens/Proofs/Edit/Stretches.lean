import SvelteLens.Proofs.Edit.Reference

/-! A rendering stretch by stretch. A boundary that lies strictly inside no replaced range cuts the
rendering in two, and what is written of a stretch depends only on what was called inside it. -/
namespace SvelteLens.Edit

open Text (width bytes)

/-- A boundary that every rendering comes by: it lies strictly inside no replaced range. -/
def Meets (edit? : Nat → Option Replacement) (j : Nat) : Prop := ∀ k r, edit? k = some r → j ≤ k ∨ r.span.stop ≤ j

/-- What is written from one boundary up to another, without what is inserted at the second one. -/
def stretch (texts : Nat → List UInt8) (edit? : Nat → Option Replacement) (source : List UInt8)
    (i stop : Nat) : List UInt8 :=
  if i < stop then texts i ++ (standing edit? source i ++ stretch texts edit? source (nextStop edit? i) stop) else []
termination_by stop - i
decreasing_by
  have := lt_nextStop edit? i
  omega

def inside (texts : Nat → List UInt8) (edit? : Nat → Option Replacement) (source : List UInt8)
    (i stop : Nat) : List UInt8 :=
  standing edit? source i ++ stretch texts edit? source (nextStop edit? i) stop

def closed (texts : Nat → List UInt8) (edit? : Nat → Option Replacement) (source : List UInt8)
    (i stop : Nat) : List UInt8 :=
  stretch texts edit? source i stop ++ texts stop

section Cuts

variable {texts texts' : Nat → List UInt8} {edit? edit' : Nat → Option Replacement} {source : List UInt8}
  {i j k : Nat}

theorem stretch_nil (h : j ≤ i) : stretch texts edit? source i j = [] := by
  rw [stretch, if_neg (Nat.not_lt.mpr h)]

theorem stretch_cons (h : i < j) : stretch texts edit? source i j = texts i ++ inside texts edit? source i j := by
  rw [stretch, if_pos h, inside]

theorem Meets.nextStop_le (met : Meets edit? j) (before : i < j) : nextStop edit? i ≤ j := by
  unfold nextStop
  cases edit : edit? i with
  | none => exact before
  | some r =>
    have := met i r edit
    simp only [Option.elim]
    omega

theorem stretch_append (met : Meets edit? j) (lower : i ≤ j) (upper : j ≤ k) :
    stretch texts edit? source i k = stretch texts edit? source i j ++ stretch texts edit? source j k := by
  fun_induction stretch texts edit? source i j with
  | case1 i before ih =>
    have more : i < k := Nat.lt_of_lt_of_le before upper
    rw [stretch, if_pos more, ih (met.nextStop_le before)]
    simp only [List.append_assoc]
  | case2 i behind =>
    obtain rfl : i = j := Nat.le_antisymm lower (Nat.le_of_not_lt behind)
    rfl

/-- A rendering is cut at a boundary that is met. -/
theorem written_cut (texts : Nat → List UInt8) (source : List UInt8) (met : Meets edit? j) (lower : i ≤ j)
    (upper : j ≤ source.length) :
    written texts edit? source i = stretch texts edit? source i j ++ written texts edit? source j := by
  fun_induction stretch texts edit? source i j with
  | case1 i before ih =>
    have more : i < source.length := Nat.lt_of_lt_of_le before upper
    rw [written_eq, if_pos more, ih (met.nextStop_le before)]
    simp only [List.append_assoc]
  | case2 i behind =>
    obtain rfl : i = j := Nat.le_antisymm lower (Nat.le_of_not_lt behind)
    rfl

theorem written_end (texts : Nat → List UInt8) (source : List UInt8) (none : edit? source.length = none) :
    written texts edit? source source.length = texts source.length := by
  rw [written_eq, if_neg (Nat.lt_irrefl _), standing, none]
  simp

theorem written_removed (removed : edit? i = some ⟨⟨i, j⟩, ""⟩) (order : i < j) (upper : j ≤ source.length) :
    written texts edit? source i = texts i ++ written texts edit? source j := by
  have next : nextStop edit? i = j := by
    rw [nextStop, removed]
    simp only [Option.elim]
    omega
  rw [written_eq, if_pos (Nat.lt_of_lt_of_le order upper), next, standing, removed]
  rfl

theorem stretch_congr (sameTexts : ∀ n, i ≤ n → n < j → texts n = texts' n)
    (sameEdits : ∀ n, i ≤ n → n < j → edit? n = edit' n) :
    stretch texts edit? source i j = stretch texts' edit' source i j := by
  fun_induction stretch texts edit? source i j with
  | case1 i before ih =>
    have here := sameEdits i (Nat.le_refl i) before
    have forward := lt_nextStop edit? i
    have rest := ih (fun n lower => sameTexts n (by omega)) fun n lower => sameEdits n (by omega)
    have next : nextStop edit' i = nextStop edit? i := by rw [nextStop, nextStop, here]
    rw [stretch.eq_def texts' edit', if_pos before, sameTexts i (Nat.le_refl i) before, rest, next, standing, standing, here]
  | case2 i behind => rw [stretch_nil (Nat.le_of_not_lt behind)]

theorem inside_congr (order : i < j) (sameTexts : ∀ n, i < n → n < j → texts n = texts' n)
    (sameEdits : ∀ n, i ≤ n → n < j → edit? n = edit' n) :
    inside texts edit? source i j = inside texts' edit' source i j := by
  have here := sameEdits i (Nat.le_refl i) order
  have forward := lt_nextStop edit? i
  have next : nextStop edit' i = nextStop edit? i := by rw [nextStop, nextStop, here]
  rw [inside, inside, standing, standing, here, next]
  exact congrArg _ (stretch_congr (fun n lower => sameTexts n (by omega)) fun n lower => sameEdits n (by omega))

/-- A stretch without what is inserted at its ends, cut at a boundary that is met. -/
theorem inside_append (met : Meets edit? j) (lower : i < j) (upper : j < k) :
    inside texts edit? source i k =
      inside texts edit? source i j ++ (texts j ++ inside texts edit? source j k) := by
  rw [inside, stretch_append met (met.nextStop_le lower) (Nat.le_of_lt upper), stretch_cons upper]
  simp only [inside, List.append_assoc]

theorem closed_append (met : Meets edit? j) (lower : i ≤ j) (upper : j ≤ k) :
    closed texts edit? source i k = stretch texts edit? source i j ++ closed texts edit? source j k := by
  rw [closed, stretch_append met lower upper, List.append_assoc, closed]

theorem closed_congr (order : i ≤ j) (sameTexts : ∀ n, i ≤ n → n ≤ j → texts n = texts' n)
    (sameEdits : ∀ n, i ≤ n → n < j → edit? n = edit' n) :
    closed texts edit? source i j = closed texts' edit' source i j := by
  rw [closed, closed, sameTexts j order (Nat.le_refl j)]
  exact congrArg (· ++ _) (stretch_congr (fun n lower upper => sameTexts n lower (Nat.le_of_lt upper)) sameEdits)

theorem closed_prefixed {more : List UInt8} (order : i ≤ j) (first : texts i = more ++ texts' i)
    (sameTexts : ∀ n, i < n → n ≤ j → texts n = texts' n) (sameEdits : ∀ n, i ≤ n → n < j → edit? n = edit' n) :
    closed texts edit? source i j = more ++ closed texts' edit' source i j := by
  unfold closed
  rcases Nat.eq_or_lt_of_le order with rfl | before
  · rw [stretch_nil (Nat.le_refl i), stretch_nil (Nat.le_refl i), first]
    rfl
  · have rest : inside texts edit? source i j = inside texts' edit' source i j :=
      inside_congr before (fun n lower upper => sameTexts n lower (Nat.le_of_lt upper)) sameEdits
    rw [stretch_cons before, stretch_cons before, first, rest, sameTexts j before (Nat.le_refl j)]
    simp only [List.append_assoc]

end Cuts

section Calls

variable {calls more : List Command} {i : Nat}

theorem inserted_append (side : Side) (offset : Nat) (calls more : List Command) :
    inserted side offset (calls ++ more) = inserted side offset calls ++ inserted side offset more := by
  simp [inserted, insertions]

theorem inserted_nil {side : Side} {offset : Nat}
    (h : ∀ i ∈ insertions calls, i.side = side → i.offset ≠ offset) : inserted side offset calls = [] := by
  refine List.map_eq_nil_iff.mpr (List.filter_eq_nil_iff.mpr fun i member both => ?_)
  rw [Bool.and_eq_true, decide_eq_true_eq, decide_eq_true_eq] at both
  exact h i member both.2 both.1

theorem insertions_append (calls more : List Command) :
    insertions (calls ++ more) = insertions calls ++ insertions more := List.filterMap_append

theorem edits_append (calls more : List Command) : edits (calls ++ more) = edits calls ++ edits more :=
  List.filterMap_append

theorem inserted_flatMap {α : Type} (side : Side) (offset : Nat) (xs : List α) (f : α → List Command) :
    inserted side offset (xs.flatMap f) = xs.flatMap fun x => inserted side offset (f x) := by
  induction xs with
  | nil => rfl
  | cons x xs ih => rw [List.flatMap_cons, inserted_append, ih, List.flatMap_cons]

theorem insertedAt_nil (quiet : ∀ j ∈ insertions calls, j.offset ≠ i) : insertedAt calls i = [] := by
  rw [insertedAt, inserted_nil fun j member _ => quiet j member, inserted_nil fun j member _ => quiet j member]
  rfl

theorem insertedAt_append_left (quiet : ∀ j ∈ insertions more, j.offset ≠ i) :
    insertedAt (calls ++ more) i = insertedAt calls i := by
  have none (side : Side) : inserted side i more = [] := inserted_nil fun j member _ => quiet j member
  simp only [insertedAt, inserted_append, none, List.append_nil]

theorem insertedAt_append_right (quiet : ∀ j ∈ insertions calls, j.offset ≠ i) :
    insertedAt (calls ++ more) i = insertedAt more i := by
  have none (side : Side) : inserted side i calls = [] := inserted_nil fun j member _ => quiet j member
  simp only [insertedAt, inserted_append, none, List.nil_append]

theorem editAt?_append (calls more : List Command) (i : Nat) :
    editAt? (calls ++ more) i = (editAt? calls i).or (editAt? more i) := by
  rw [editAt?, edits, List.filterMap_append, List.find?_append]
  rfl

theorem editAt?_none (h : ∀ r ∈ edits calls, r.span.start ≠ i) : editAt? calls i = none := by
  simpa [editAt?] using h

theorem mem_of_editAt? {r : Replacement} (h : editAt? calls i = some r) : r ∈ edits calls ∧ r.span.start = i :=
  ⟨List.mem_of_find?_eq_some h, by simpa using List.find?_some h⟩

/-- An insertion that belongs to a byte of a text of so many bytes, the one before it or the one behind it. -/
def Insertion.Attached (length : Nat) (i : Insertion) : Prop :=
  (i.side = .before ∧ i.offset < length) ∨ (i.side = .after ∧ 0 < i.offset)

variable {length : Nat}

theorem inserted_before_end (attached : ∀ i ∈ insertions calls, i.Attached length) : inserted .before length calls = [] := by
  refine inserted_nil fun i member side => ?_
  rcases attached i member with ⟨_, inner⟩ | ⟨other, _⟩
  · exact Nat.ne_of_lt inner
  · rw [side] at other
    cases other

theorem inserted_after_start (attached : ∀ i ∈ insertions calls, i.Attached length) : inserted .after 0 calls = [] := by
  refine inserted_nil fun i member side => ?_
  rcases attached i member with ⟨other, _⟩ | ⟨_, inner⟩
  · rw [side] at other
    cases other
  · exact Nat.ne_of_gt inner

end Calls

namespace Buffer

variable {b : Buffer} {calls left : List Command} {i : Insertion} {r : Replacement}

/-- A buffer for some of the calls that a buffer records, when only insertions are left out. -/
theorem Consistent.fewer (valid : b.Consistent) (records : Records b calls) (same : (Edit.edits left).Perm (Edit.edits calls))
    (listed : ∀ i ∈ insertions left, i ∈ insertions calls) :
    ∃ b' : Buffer, b'.source = b.source ∧ b'.Consistent ∧ Records b' left := by
  let kept (a : Anchor) : Anchor := ⟨a.offset, inserted .after a.offset left, inserted .before a.offset left⟩
  refine ⟨⟨b.source, b.replacements, b.anchors.map kept⟩, rfl, ?_, records.edits.trans same.symm, fun side offset => ?_⟩
  · refine ⟨valid.ordered, valid.proper, List.pairwise_map.mpr valid.ascending, fun a member => ?_, fun a member => ?_⟩
    · obtain ⟨old, found, rfl⟩ := List.mem_map.mp member
      exact valid.anchored old found
    · obtain ⟨old, found, rfl⟩ := List.mem_map.mp member
      exact valid.outside old found
  · cases found : (b.anchors.map kept).find? (·.offset = offset) with
    | none =>
      -- an insertion of the fewer calls would have an anchor
      rw [textsAt, found]
      refine (inserted_nil fun i member _ here => ?_).symm
      obtain ⟨a, anchor, at'⟩ := records.anchored (listed i member)
      have absent := List.find?_eq_none.mp found (kept a) (List.mem_map_of_mem anchor)
      exact absent (by simpa using at'.trans here)
    | some a =>
      obtain ⟨old, _, rfl⟩ := List.mem_map.mp (List.mem_of_find?_eq_some found)
      obtain rfl : old.offset = offset := by simpa using List.find?_some found
      rw [textsAt, found]
      cases side <;> rfl

theorem Records.mem_edits (records : Records b calls) : r ∈ b.replacements ↔ r ∈ Edit.edits calls := records.edits.mem_iff

theorem Consistent.editAt? (valid : b.Consistent) (records : Records b calls) (member : r ∈ edits calls) :
    editAt? calls r.span.start = some r := by
  cases found : Edit.editAt? calls r.span.start with
  | none =>
    have absent := List.find?_eq_none.mp found r member
    simp at absent
  | some s =>
    obtain ⟨listed, start⟩ := mem_of_editAt? found
    have first := valid.proper s (records.mem_edits.mpr listed)
    have second := valid.proper r (records.mem_edits.mpr member)
    rcases related_of_pairwise valid.ordered (records.mem_edits.mpr listed) (records.mem_edits.mpr member) with
      rfl | before | behind
    · rfl
    · omega
    · omega

theorem Consistent.meets_edit (valid : b.Consistent) (records : Records b calls) (member : r ∈ edits calls) :
    Meets (Edit.editAt? calls) r.span.start ∧ Meets (Edit.editAt? calls) r.span.stop := by
  have apart (k : Nat) (s : Replacement) (found : Edit.editAt? calls k = some s) :
      s = r ∨ s.span.stop ≤ r.span.start ∨ r.span.stop ≤ s.span.start :=
    related_of_pairwise valid.ordered (records.mem_edits.mpr (mem_of_editAt? found).1) (records.mem_edits.mpr member)
  have order := (valid.proper r (records.mem_edits.mpr member)).1
  constructor
  · intro k s found
    have start := (mem_of_editAt? found).2
    rcases apart k s found with rfl | before | behind
    · exact .inl (Nat.le_of_eq start)
    · exact .inr before
    · exact .inl (by omega)
  · intro k s found
    have start := (mem_of_editAt? found).2
    rcases apart k s found with rfl | before | behind
    · exact .inr (Nat.le_refl _)
    · exact .inr (by omega)
    · exact .inl (by omega)

theorem Consistent.meets_insertion (valid : b.Consistent) (records : Records b calls) (member : i ∈ insertions calls) :
    Meets (Edit.editAt? calls) i.offset := by
  obtain ⟨a, anchor, same⟩ := records.anchored member
  intro k r found
  obtain ⟨listed, rfl⟩ := mem_of_editAt? found
  rw [← same]
  exact valid.outside a anchor r (records.mem_edits.mpr listed)

theorem Consistent.editAt?_end (valid : b.Consistent) (records : Records b calls) :
    Edit.editAt? calls (width b.source.toList) = none := by
  refine editAt?_none fun r member here => ?_
  have proper := valid.proper r (records.mem_edits.mpr member)
  have upper := Text.le_width_of_isBoundary proper.2.2
  omega

theorem Consistent.meets_end (valid : b.Consistent) (records : Records b calls) :
    Meets (Edit.editAt? calls) (width b.source.toList) := by
  intro k r found
  have proper := valid.proper r (records.mem_edits.mpr (mem_of_editAt? found).1)
  exact .inr (Text.le_width_of_isBoundary proper.2.2)

section Margins

variable {front back : String}

/-- Calls between an insertion at the start of a text and one at its end. -/
def framed (front : String) (calls : List Command) (length : Nat) (back : String) : List Command :=
  .insertBefore 0 front :: (calls ++ [.insertAfter length back])

theorem inserted_framed (side : Side) (offset length : Nat) : inserted side offset (framed front calls length back) =
    (if 0 = offset ∧ side = .before then [front] else []) ++
      (inserted side offset calls ++ if length = offset ∧ side = .after then [back] else []) := by
  have whole : framed front calls length back =
      [.insertBefore 0 front] ++ (calls ++ [.insertAfter length back]) := rfl
  have first : inserted side offset [.insertBefore 0 front] = if 0 = offset ∧ side = .before then [front] else [] := by
    by_cases here : 0 = offset <;> cases side <;> simp [inserted, insertions, Command.insertion?, here]
  have last : inserted side offset [.insertAfter length back] = if length = offset ∧ side = .after then [back] else [] := by
    by_cases here : length = offset <;> cases side <;> simp [inserted, insertions, Command.insertion?, here]
  rw [whole, inserted_append, inserted_append, first, last]

theorem edits_framed (length : Nat) : Edit.edits (framed front calls length back) = Edit.edits calls := by
  rw [framed, Edit.edits, List.filterMap_cons_none rfl, List.filterMap_append]
  exact List.append_nil _

/-- What is called at the two ends of a text stands around everything else, unless the text is empty. -/
theorem Consistent.reference_framed (valid : b.Consistent) (records : Records b calls)
    (attached : ∀ i ∈ insertions calls, i.Attached (width b.source.toList)) (filled : b.source ≠ "") :
    reference b.source (framed front calls (width b.source.toList) back) =
      bytes front.toList ++ (reference b.source calls ++ bytes back.toList) := by
  have pos : 0 < width b.source.toList := Text.width_pos fun empty => filled (String.toList_eq_nil_iff.mp empty)
  have edits : Edit.editAt? (framed front calls (width b.source.toList) back) = Edit.editAt? calls := by
    funext i
    rw [Edit.editAt?, edits_framed, Edit.editAt?]
  have start : insertedAt (framed front calls (width b.source.toList) back) 0 =
      bytes front.toList ++ insertedAt calls 0 := by
    simp [insertedAt, inserted_framed, inserted_after_start attached, Nat.ne_of_gt pos]
  have stop : insertedAt (framed front calls (width b.source.toList) back) (width b.source.toList) =
      insertedAt calls (width b.source.toList) ++ bytes back.toList := by
    simp [insertedAt, inserted_framed, inserted_before_end attached, Nat.ne_of_lt pos]
  have between (i : Nat) (lower : 0 < i) (upper : i < width b.source.toList) :
      insertedAt (framed front calls (width b.source.toList) back) i = insertedAt calls i := by
    simp [insertedAt, inserted_framed, Nat.ne_of_lt lower, Nat.ne_of_gt upper]
  have whole (texts : Nat → List UInt8) : Edit.written texts (Edit.editAt? calls) (bytes b.source.toList) 0 =
      texts 0 ++ (inside texts (Edit.editAt? calls) (bytes b.source.toList) 0 (width b.source.toList) ++
        texts (width b.source.toList)) := by
    have cut := written_cut texts (bytes b.source.toList) (valid.meets_end records) (Nat.zero_le _)
      (Nat.le_of_eq (Text.length_bytes _).symm)
    have last := written_end texts (bytes b.source.toList)
      (by rw [Text.length_bytes]; exact valid.editAt?_end records)
    rw [Text.length_bytes] at last
    rw [cut, stretch_cons pos, last, List.append_assoc]
  rw [reference, reference, edits, whole, whole, start, stop, inside_congr pos between fun _ _ _ => rfl]
  simp only [List.append_assoc]

/-- In an empty text what belongs to the byte before stands in front of what belongs to the byte behind. -/
theorem Consistent.reference_framed_empty (valid : b.Consistent) (records : Records b calls)
    (attached : ∀ i ∈ insertions calls, i.Attached 0) (empty : b.source = "") :
    reference "" (framed front calls 0 back) = bytes back.toList ++ bytes front.toList := by
  have none := valid.editAt?_end records
  rw [empty] at none
  have unedited : Edit.editAt? (framed front calls 0 back) 0 = Option.none := by
    rw [Edit.editAt?, edits_framed]
    exact none
  have last : reference "" (framed front calls 0 back) = insertedAt (framed front calls 0 back) 0 :=
    written_end _ [] unedited
  rw [last]
  simp [insertedAt, inserted_framed, inserted_after_start attached, inserted_before_end attached]

end Margins

end Buffer
end SvelteLens.Edit
