import SvelteLens.Proofs.Edit.Layout

/-! The rendering of calls, byte by byte and without a buffer. At each boundary stand the texts
inserted there, then the replacement of the range that starts there or else the next byte; behind
a replaced range the rendering goes on at its end. -/
namespace SvelteLens.Edit

open Text (width bytes)

/-- The boundary behind this one. Replaced ranges are not empty, so the larger bound is theirs. -/
def nextStop (edit? : Nat → Option Replacement) (i : Nat) : Nat :=
  (edit? i).elim (i + 1) fun r => max r.span.stop (i + 1)

theorem lt_nextStop (edit? : Nat → Option Replacement) (i : Nat) : i < nextStop edit? i := by
  unfold nextStop
  cases edit? i <;> simp only [Option.elim] <;> omega

/-- The boundaries that a rendering comes by, from `i` to the end of a text of `length` bytes. -/
def stops (edit? : Nat → Option Replacement) (length i : Nat) : List Nat :=
  i :: if i < length then stops edit? length (nextStop edit? i) else []
termination_by length - i
decreasing_by
  have := lt_nextStop edit? i
  omega

/-- What stands in the place of the byte at a boundary. -/
def standing (edit? : Nat → Option Replacement) (source : List UInt8) (i : Nat) : List UInt8 :=
  (edit? i).elim source[i]?.toList fun r => bytes r.text.toList

def written (texts : Nat → List UInt8) (edit? : Nat → Option Replacement) (source : List UInt8)
    (i : Nat) : List UInt8 :=
  (stops edit? source.length i).flatMap fun i => texts i ++ standing edit? source i

/-- The bytes that calls insert at a boundary: what belongs to the byte before it comes first. -/
def insertedAt (calls : List Command) (i : Nat) : List UInt8 :=
  (inserted .after i calls ++ inserted .before i calls).flatMap fun text => bytes text.toList

/-- The replacement that calls make of a range that starts at a boundary. -/
def editAt? (calls : List Command) (i : Nat) : Option Replacement := (edits calls).find? (·.span.start = i)

def reference (source : String) (calls : List Command) : List UInt8 :=
  written (insertedAt calls) (editAt? calls) (bytes source.toList) 0

variable {texts texts' : Nat → List UInt8} {edit? edit' : Nat → Option Replacement} {source : List UInt8}
  {length i : Nat}

theorem le_of_mem_stops {j : Nat} (h : j ∈ stops edit? length i) : i ≤ j := by
  fun_induction stops edit? length i with
  | case1 i ih =>
    have := lt_nextStop edit? i
    rcases List.mem_cons.mp h with rfl | h
    · exact Nat.le_refl j
    · split at h
      · have := ih ‹_› h
        omega
      · simp at h

theorem stops_ascending (edit? : Nat → Option Replacement) (length i : Nat) :
    (stops edit? length i).Pairwise (· < ·) := by
  fun_induction stops edit? length i with
  | case1 i ih =>
    refine List.pairwise_cons.mpr ⟨fun j later => ?_, ?_⟩
    · have := lt_nextStop edit? i
      split at later
      · have := le_of_mem_stops later
        omega
      · simp at later
    · split
      · exact ih ‹_›
      · exact .nil

theorem mem_stops_of_outside {j : Nat} (lower : i ≤ j) (upper : j ≤ length)
    (outside : ∀ k r, edit? k = some r → j ≤ k ∨ r.span.stop ≤ j) : j ∈ stops edit? length i := by
  fun_induction stops edit? length i with
  | case1 i ih =>
    by_cases here : j = i
    · exact here ▸ List.mem_cons_self
    · have more : i < length := by omega
      rw [if_pos more]
      refine List.mem_cons_of_mem i (ih more ?_)
      unfold nextStop
      cases edit : edit? i with
      | none => exact Nat.lt_of_le_of_ne lower (Ne.symm here)
      | some r =>
        have := outside i r edit
        simp only [Option.elim]
        omega

theorem written_eq (texts : Nat → List UInt8) (edit? : Nat → Option Replacement) (source : List UInt8)
    (i : Nat) : written texts edit? source i =
      texts i ++ (standing edit? source i ++
        if i < source.length then written texts edit? source (nextStop edit? i) else []) := by
  rw [written, stops, List.flatMap_cons, List.append_assoc]
  split <;> rfl

theorem stops_congr (same : ∀ j, i ≤ j → edit? j = edit' j) : stops edit? length i = stops edit' length i := by
  fun_induction stops edit? length i with
  | case1 i ih =>
    have next : nextStop edit' i = nextStop edit? i := by rw [nextStop, nextStop, same i (Nat.le_refl i)]
    rw [stops.eq_def edit' length i, next]
    split
    · have := lt_nextStop edit? i
      rw [ih ‹_› fun j later => same j (by omega)]
    · rfl

theorem written_congr (sameTexts : ∀ j, i ≤ j → texts j = texts' j)
    (sameEdits : ∀ j, i ≤ j → edit? j = edit' j) :
    written texts edit? source i = written texts' edit' source i := by
  unfold written
  rw [stops_congr sameEdits, List.flatMap_def, List.flatMap_def]
  refine congrArg List.flatten (List.map_congr_left fun j member => ?_)
  have later := le_of_mem_stops member
  rw [sameTexts j later, standing, standing, sameEdits j later]

theorem written_plain (texts : Nat → List UInt8) (edit? : Nat → Option Replacement)
    (front run rest : List UInt8) (at' : i = front.length)
    (plain : ∀ j, i ≤ j → j < i + run.length → texts j = [] ∧ edit? j = none) :
    written texts edit? (front ++ (run ++ rest)) i =
      run ++ written texts edit? (front ++ (run ++ rest)) (i + run.length) := by
  induction run generalizing front i with
  | nil => rfl
  | cons byte run ih =>
    obtain ⟨noText, noEdit⟩ := plain i (Nat.le_refl i) (by simp)
    have stands : standing edit? (front ++ (byte :: run ++ rest)) i = [byte] := by
      rw [standing, noEdit, at']
      simp
    have next : nextStop edit? i = i + 1 := by rw [nextStop, noEdit]; rfl
    have shorter := ih (i := i + 1) (front ++ [byte]) (by simp [at']) fun j lower upper =>
      plain j (by omega) (by simp only [List.length_cons]; omega)
    simp only [List.append_assoc, List.singleton_append] at shorter
    rw [written_eq, noText, stands, next, if_pos (by simp [at'])]
    simp only [List.cons_append, List.nil_append, List.length_cons, shorter]
    rw [Nat.add_assoc, Nat.add_comm 1]

/-- The same two questions asked of the tables of a buffer. -/
def textsIn (anchors : List Anchor) (i : Nat) : List UInt8 :=
  (Buffer.textsAt anchors .after i ++ Buffer.textsAt anchors .before i).flatMap fun text => bytes text.toList

def editIn (rs : List Replacement) (i : Nat) : Option Replacement := rs.find? (·.span.start = i)

theorem textsAt_none {anchors : List Anchor} (h : ∀ a ∈ anchors, a.offset ≠ i) (side : Side) :
    Buffer.textsAt anchors side i = [] := by
  have absent : anchors.find? (·.offset = i) = none := by simpa using h
  simp [Buffer.textsAt, absent]

theorem textsIn_none {anchors : List Anchor} (h : ∀ a ∈ anchors, a.offset ≠ i) : textsIn anchors i = [] := by
  simp [textsIn, textsAt_none h]

theorem textsIn_here (a : Anchor) (anchors : List Anchor) :
    textsIn (a :: anchors) a.offset = (a.after ++ a.before).flatMap fun text => bytes text.toList := by
  simp [textsIn, Buffer.textsAt, Anchor.texts]

theorem textsIn_skip {a : Anchor} (ne : a.offset ≠ i) (anchors : List Anchor) :
    textsIn (a :: anchors) i = textsIn anchors i := by
  simp [textsIn, Buffer.textsAt, ne]

theorem editIn_none {rs : List Replacement} (h : ∀ r ∈ rs, r.span.start ≠ i) : editIn rs i = none := by
  simpa [editIn] using h

theorem editIn_skip {r : Replacement} (ne : r.span.start ≠ i) (rs : List Replacement) :
    editIn (r :: rs) i = editIn rs i := by
  simp [editIn, ne]

theorem bytes_ofAnchor (a : Anchor) : bytes ((Piece.ofAnchor a).flatMap Piece.chars) =
    (a.after ++ a.before).flatMap fun text => bytes text.toList := by
  unfold Piece.ofAnchor
  rw [List.flatMap_cons]
  induction a.after ++ a.before with
  | nil => rfl
  | cons text texts ih => simpa [Piece.chars] using ih

/-- A layout writes the bytes of the rendering. The induction is on the layout; `front` holds
the bytes that were passed. -/
theorem Laid.written (h : Laid offset cs rs anchors ps) (front : List UInt8) (at' : offset = front.length) :
    bytes (ps.flatMap Piece.chars) = written (textsIn anchors) (editIn rs) (front ++ bytes cs) offset := by
  induction h generalizing front with
  | done =>
    rw [written_eq, if_neg (by simp [at']), textsIn_none (by simp), standing, editIn_none (by simp), at']
    simp
  | @anchored anchors cs rs ps a later _ ih =>
    have passed : textsIn anchors a.offset = [] :=
      textsIn_none fun c member => Nat.ne_of_gt (later c member)
    rw [List.flatMap_append, Text.bytes_append, bytes_ofAnchor, ih front at', written_eq, written_eq (textsIn (a :: anchors)),
      passed, textsIn_here, List.nil_append]
    congr 2
    split
    · have forward := lt_nextStop (editIn rs) a.offset
      exact written_congr (fun j le => (textsIn_skip (by omega) anchors).symm) fun j _ => rfl
    · rfl
  | @replaced covered anchors offset rs rest ps text ne behindAnchors behindEdits _ ih =>
    have pos := Text.width_pos ne
    have here : editIn (⟨⟨offset, offset + width covered⟩, text⟩ :: rs) offset =
        some ⟨⟨offset, offset + width covered⟩, text⟩ := by simp [editIn]
    have next : nextStop (editIn (⟨⟨offset, offset + width covered⟩, text⟩ :: rs)) offset =
        offset + width covered := by
      rw [nextStop, here]
      simp only [Option.elim]
      omega
    have tail := ih (front ++ bytes covered) (by simp [at'])
    rw [List.append_assoc, ← Text.bytes_append] at tail
    rw [List.flatMap_cons, Text.bytes_append, tail, written_eq (textsIn anchors) (editIn (_ :: rs)), next,
      textsIn_none (fun a member => by have := behindAnchors a member; omega), standing, here,
      if_pos (by simp [at']; omega), List.nil_append]
    congr 1
    refine written_congr (fun j _ => rfl) fun j later => (editIn_skip ?_ rs).symm
    simp only
    omega
  | @kept anchors offset rs cs ps c behindAnchors behindEdits _ ih =>
    have tail := ih (front ++ String.utf8EncodeChar c) (by simp [at'])
    have plain := written_plain (textsIn anchors) (editIn rs) front (String.utf8EncodeChar c) (bytes cs)
      at' fun j lower upper => by
        rw [String.length_utf8EncodeChar] at upper
        exact ⟨textsIn_none fun a member => by have := behindAnchors a member; omega,
          editIn_none fun r member => by have := behindEdits r member; omega⟩
    rw [List.append_assoc] at tail
    rw [String.length_utf8EncodeChar] at plain
    rw [List.flatMap_cons, Text.bytes_append, tail, Text.bytes_cons, plain]
    simp [Piece.chars]

namespace Buffer

variable {b : Buffer} {calls : List Command}

theorem Records.textsIn (records : Records b calls) : textsIn b.anchors = insertedAt calls := by
  funext i
  rw [Edit.textsIn, insertedAt, records.texts, records.texts]

/-- At most one replaced range starts at a boundary, so the order of the calls does not matter. -/
theorem Records.editIn (valid : b.Consistent) (records : Records b calls) : editIn b.replacements = editAt? calls := by
  funext i
  unfold Edit.editIn editAt?
  cases found : (Edit.edits calls).find? (·.span.start = i) with
  | none =>
    simp only [List.find?_eq_none] at found ⊢
    exact fun r member => found r (records.edits.mem_iff.mp member)
  | some r =>
    have start : r.span.start = i := by simpa using List.find?_some found
    have member := records.edits.mem_iff.mpr (List.mem_of_find?_eq_some found)
    have order := (valid.proper r member).1
    refine List.find?_eq_some_iff_append.mpr ⟨by simpa using start, ?_⟩
    obtain ⟨before, after, split⟩ := List.append_of_mem member
    refine ⟨before, after, split, fun s earlier => ?_⟩
    have ordered := valid.ordered
    rw [split] at ordered
    have apart := (List.pairwise_append.mp ordered).2.2 s earlier r (by simp)
    have proper := (valid.proper s (by rw [split]; simp [earlier])).1
    simp only [Bool.not_eq_true', decide_eq_false_iff_not]
    omega

/-- The rendering of a buffer is written from the calls alone. -/
theorem Consistent.written (valid : b.Consistent) (records : Records b calls) :
    bytes b.render.text.toList = reference b.source calls := by
  have laid := valid.laid.written [] rfl
  rw [List.nil_append, records.textsIn, records.editIn valid] at laid
  rw [reference, ← laid]
  exact congrArg bytes String.toList_ofList

end Buffer
end SvelteLens.Edit
