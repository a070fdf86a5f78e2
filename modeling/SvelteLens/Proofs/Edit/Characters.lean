import SvelteLens.Proofs.Edit.Stretches

/-! The characters of a rendering. Ranges are replaced and texts inserted at boundaries of characters only, so what is
written of a stretch between two boundaries is a text of its own. -/
namespace SvelteLens

open Text (width bytes)

namespace Text

theorem utf8EncodeChar_append {c d : Char} {xs ys : List UInt8}
    (h : String.utf8EncodeChar c ++ xs = String.utf8EncodeChar d ++ ys) : c = d ∧ xs = ys := by
  have first := congrArg (fun bs : List UInt8 => bs.toByteArray.utf8DecodeChar? 0) h
  simp only [List.toByteArray_append, ByteArray.utf8DecodeChar?_utf8EncodeChar_append, Option.some.injEq] at first
  subst first
  exact ⟨rfl, List.append_cancel_left h⟩

theorem bytes_inj {a b : List Char} (h : bytes a = bytes b) : a = b := by
  have same : String.ofList a = String.ofList b := eq_of_bytes (by rwa [String.toList_ofList, String.toList_ofList])
  rw [← String.toList_ofList (l := a), same, String.toList_ofList]

theorem append_of_bytes {front whole : List Char} {rest : List UInt8} (h : bytes front ++ rest = bytes whole) :
    ∃ back, whole = front ++ back ∧ rest = bytes back := by
  induction front generalizing whole with
  | nil => exact ⟨whole, rfl, h⟩
  | cons c front ih =>
    rw [bytes_cons, List.append_assoc] at h
    cases whole with
    | nil =>
      have filled := c.utf8Size_pos
      have length := congrArg List.length h
      simp only [List.length_append, String.length_utf8EncodeChar, bytes_nil, List.length_nil] at length
      omega
    | cons d whole =>
      obtain ⟨rfl, later⟩ := utf8EncodeChar_append (h.trans (bytes_cons d whole))
      obtain ⟨back, rfl, same⟩ := ih later
      exact ⟨back, rfl, same⟩

end Text

namespace Edit

section Plain

variable {texts : Nat → List UInt8} {edit? : Nat → Option Replacement} {i stop : Nat} {front rest : List UInt8}

/-- Bytes of a stretch at which nothing is called are written as they are, behind what is inserted in front of them. -/
theorem stretch_run {byte : UInt8} {run : List UInt8} (at' : i = front.length) (upper : i + (byte :: run).length ≤ stop)
    (unedited : ∀ j, i ≤ j → j < i + (byte :: run).length → edit? j = none)
    (quiet : ∀ j, i < j → j < i + (byte :: run).length → texts j = []) :
    stretch texts edit? (front ++ (byte :: run ++ rest)) i stop = texts i ++ (byte :: run ++
      stretch texts edit? (front ++ (byte :: run ++ rest)) (i + (byte :: run).length) stop) := by
  induction run generalizing front i byte with
  | nil =>
    have noEdit := unedited i (Nat.le_refl i) (by simp)
    have stands : standing edit? (front ++ ([byte] ++ rest)) i = [byte] := by
      rw [standing, noEdit, at']
      simp
    have next : nextStop edit? i = i + 1 := by rw [nextStop, noEdit]; rfl
    rw [stretch_cons upper, inside, stands, next]
    rfl
  | cons second run ih =>
    simp only [List.length_cons] at upper unedited quiet
    have noEdit := unedited i (Nat.le_refl i) (by omega)
    have stands : standing edit? (front ++ (byte :: second :: run ++ rest)) i = [byte] := by
      rw [standing, noEdit, at']
      simp
    have next : nextStop edit? i = i + 1 := by rw [nextStop, noEdit]; rfl
    have more : stretch texts edit? (front ++ [byte] ++ (second :: run ++ rest)) (i + 1) stop =
        texts (i + 1) ++ (second :: run ++ stretch texts edit? (front ++ [byte] ++ (second :: run ++ rest))
          (i + 1 + (second :: run).length) stop) :=
      ih (by simp [at']) (by simp only [List.length_cons]; omega)
        (fun j lower high => unedited j (by omega) (by simp only [List.length_cons] at high; omega))
        fun j lower high => quiet j (by omega) (by simp only [List.length_cons] at high; omega)
    have whole : front ++ [byte] ++ (second :: run ++ rest) = front ++ (byte :: second :: run ++ rest) := by simp
    have length : i + 1 + (second :: run).length = i + (byte :: second :: run).length := by
      simp only [List.length_cons]
      omega
    rw [whole, quiet (i + 1) (by omega) (by omega), List.nil_append, length] at more
    rw [stretch_cons (by omega), inside, stands, next, more]
    rfl

theorem stretch_untouched {run : List UInt8} (at' : i = front.length)
    (untouched : ∀ j, i ≤ j → j < i + run.length → texts j = [] ∧ edit? j = none) :
    stretch texts edit? (front ++ (run ++ rest)) i (i + run.length) = run := by
  cases run with
  | nil => exact stretch_nil (Nat.le_refl i)
  | cons byte run =>
    rw [stretch_run at' (Nat.le_refl _) (fun j low high => (untouched j low high).2) fun j low high =>
      (untouched j (Nat.le_of_lt low) high).1, (untouched i (Nat.le_refl i) (by simp)).1, stretch_nil (Nat.le_refl _)]
    simp

end Plain

theorem insertedAt_chars (calls : List Command) (i : Nat) : ∃ out, bytes out = insertedAt calls i := by
  refine ⟨(inserted .after i calls ++ inserted .before i calls).flatMap String.toList, ?_⟩
  rw [insertedAt]
  induction inserted .after i calls ++ inserted .before i calls with
  | nil => rfl
  | cons text texts ih => rw [List.flatMap_cons, List.flatMap_cons, Text.bytes_append, ih]

namespace Buffer

variable {b : Buffer} {calls : List Command} {front run rest : List Char} {c : Char} {j : Nat}

theorem not_boundary_inside (lower : width front < j) (upper : j < width front + c.utf8Size) :
    Text.isBoundary (front ++ c :: rest) j = false := by
  refine Bool.eq_false_iff.mpr fun boundary => ?_
  have cut := (Cut.of_isBoundary boundary).rest (by omega)
  have := cut.next (by omega)
  omega

theorem Consistent.quiet_inside (valid : b.Consistent) (records : Records b calls)
    (whole : b.source.toList = front ++ c :: rest) (lower : width front < j) (upper : j < width front + c.utf8Size) :
    insertedAt calls j = [] ∧ Edit.editAt? calls j = none := by
  have inner : Text.isBoundary (front ++ c :: rest) j = false := not_boundary_inside lower upper
  rw [← whole] at inner
  constructor
  · refine insertedAt_nil fun i member same => ?_
    obtain ⟨a, anchor, at'⟩ := records.anchored member
    rw [← same, ← at', valid.anchored a anchor] at inner
    cases inner
  · refine editAt?_none fun r member same => ?_
    rw [← same, (valid.proper r (records.mem_edits.mpr member)).2.1] at inner
    cases inner

theorem Consistent.stretch_kept (valid : b.Consistent) (records : Records b calls) {stop : Nat}
    (whole : b.source.toList = front ++ c :: rest) (unedited : Edit.editAt? calls (width front) = none)
    (upper : width front + c.utf8Size ≤ stop) :
    stretch (insertedAt calls) (Edit.editAt? calls) (bytes b.source.toList) (width front) stop =
      insertedAt calls (width front) ++ (bytes [c] ++
        stretch (insertedAt calls) (Edit.editAt? calls) (bytes b.source.toList) (width (front ++ [c])) stop) := by
  have size := String.length_utf8EncodeChar c
  have quiet (j : Nat) (lower : width front < j) (upper : j < width front + (String.utf8EncodeChar c).length) :=
    valid.quiet_inside records whole lower (by rwa [size] at upper)
  have source : bytes b.source.toList = bytes front ++ (String.utf8EncodeChar c ++ bytes rest) := by
    rw [whole, Text.bytes_append, Text.bytes_cons]
  have next : width (front ++ [c]) = width front + (String.utf8EncodeChar c).length := by simp
  obtain ⟨byte, others, encoded⟩ := List.exists_cons_of_length_pos (l := String.utf8EncodeChar c) (by
    rw [size]
    exact c.utf8Size_pos)
  rw [Text.bytes_cons, Text.bytes_nil, List.append_nil, source, next]
  rw [← size] at upper
  rw [encoded] at quiet upper ⊢
  refine stretch_run (Text.length_bytes front).symm upper (fun j lower high => ?_) fun j lower high => (quiet j lower high).1
  rcases Nat.eq_or_lt_of_le lower with rfl | more
  · exact unedited
  · exact (quiet j more high).2

theorem Consistent.stretch_replaced (valid : b.Consistent) (records : Records b calls) {r : Replacement}
    (whole : b.source.toList = front ++ (run ++ rest)) (filled : run ≠ [])
    (edit : Edit.editAt? calls (width front) = some r) (met : Meets (Edit.editAt? calls) (width front + width run)) :
    ∃ covered more, run = covered ++ more ∧ covered ≠ [] ∧
      stretch (insertedAt calls) (Edit.editAt? calls) (bytes b.source.toList) (width front) (width front + width run) =
        insertedAt calls (width front) ++ (bytes r.text.toList ++ stretch (insertedAt calls) (Edit.editAt? calls)
          (bytes b.source.toList) (width (front ++ covered)) (width front + width run)) := by
  have long := Text.width_pos filled
  obtain ⟨listed, starts⟩ := mem_of_editAt? edit
  obtain ⟨order, _, boundary⟩ := valid.proper r (records.mem_edits.mpr listed)
  have before : r.span.stop ≤ width front + width run := (met _ r edit).resolve_left (by omega)
  obtain ⟨covered, behind, cut, stop⟩ := (Cut.of_isBoundary (whole ▸ boundary)).rest (by omega)
  obtain ⟨more, split, _⟩ := Text.cut_after cut.symm (by omega)
  have next : nextStop (Edit.editAt? calls) (width front) = width (front ++ covered) := by
    rw [nextStop, edit, Option.elim, Text.width_append]
    omega
  have stands : standing (Edit.editAt? calls) (bytes b.source.toList) (width front) = bytes r.text.toList := by
    rw [standing, edit]
    rfl
  refine ⟨covered, more, split, ?_, ?_⟩
  · rintro rfl
    simp only [Text.width_nil] at stop
    omega
  · rw [stretch_cons (by omega), inside, next, stands]

/-- What is written of a stretch between two boundaries is a text. The induction is on the number of characters left,
for a replaced range takes several of them at once. -/
theorem Consistent.stretch_chars (valid : b.Consistent) (records : Records b calls)
    (whole : b.source.toList = front ++ (run ++ rest)) (met : Meets (Edit.editAt? calls) (width front + width run)) :
    ∃ out, bytes out = stretch (insertedAt calls) (Edit.editAt? calls) (bytes b.source.toList) (width front)
      (width front + width run) := by
  induction short : run.length using Nat.strongRecOn generalizing front run with
  | ind n ih =>
    subst short
    have later {taken more : List Char} (split : run = taken ++ more) (filled : taken ≠ []) : ∃ out, bytes out =
        stretch (insertedAt calls) (Edit.editAt? calls) (bytes b.source.toList) (width (front ++ taken))
          (width front + width run) := by
      have length := List.length_pos_of_ne_nil filled
      have stops : width front + width run = width (front ++ taken) + width more := by
        simp only [split, Text.width_append]
        omega
      rw [stops] at met ⊢
      exact ih more.length (by rw [split, List.length_append]; omega) (by rw [whole, split]; simp) met rfl
    obtain ⟨texts, inserted⟩ := insertedAt_chars calls (width front)
    cases run with
    | nil => exact ⟨[], (stretch_nil (Nat.le_refl _)).symm⟩
    | cons c run =>
      cases edit : Edit.editAt? calls (width front) with
      | none =>
        have split : c :: run = [c] ++ run := rfl
        obtain ⟨out, more⟩ := later split (List.cons_ne_nil c [])
        refine ⟨texts ++ ([c] ++ out), ?_⟩
        rw [valid.stretch_kept records whole edit (by simp only [Text.width_cons]; omega), Text.bytes_append,
          Text.bytes_append, more, inserted]
      | some r =>
        obtain ⟨covered, behind, split, filled, written⟩ :=
          valid.stretch_replaced records whole (List.cons_ne_nil c run) edit met
        obtain ⟨out, more⟩ := later split filled
        refine ⟨texts ++ (r.text.toList ++ out), ?_⟩
        rw [written, Text.bytes_append, Text.bytes_append, more, inserted]

theorem Consistent.closed_chars (valid : b.Consistent) (records : Records b calls)
    (whole : b.source.toList = front ++ (run ++ rest)) (met : Meets (Edit.editAt? calls) (width front + width run)) :
    ∃ out, bytes out = closed (insertedAt calls) (Edit.editAt? calls) (bytes b.source.toList) (width front)
      (width front + width run) := by
  obtain ⟨out, written⟩ := valid.stretch_chars records whole met
  obtain ⟨texts, inserted⟩ := insertedAt_chars calls (width front + width run)
  exact ⟨out ++ texts, by rw [closed, Text.bytes_append, written, inserted]⟩

end Buffer

end Edit
end SvelteLens
