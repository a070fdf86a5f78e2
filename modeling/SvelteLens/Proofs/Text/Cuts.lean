import SvelteLens.Text.Bytes

/-! Cuts of a text, the runs between two cuts, and the bytes that a text is stored as. -/
namespace SvelteLens.Text

theorem split?_eq_some_iff {n : Nat} {cs a b : List Char} :
    split? n cs = some (a, b) ↔ cs = a ++ b ∧ width a = n := by
  constructor
  · exact append_of_split?
  · rintro ⟨rfl, rfl⟩
    exact split?_width a b

theorem isBoundary_iff {cs : List Char} {n : Nat} :
    isBoundary cs n = true ↔ ∃ a b, cs = a ++ b ∧ width a = n := by
  simp only [isBoundary, Option.isSome_iff_exists, Prod.exists, split?_eq_some_iff]

theorem le_width_of_isBoundary {cs : List Char} {n : Nat} (h : isBoundary cs n = true) : n ≤ width cs := by
  obtain ⟨a, b, rfl, rfl⟩ := isBoundary_iff.mp h
  simp

theorem slice?_eq_some_iff {cs run : List Char} {start stop : Nat} :
    slice? cs start stop = some run ↔
      ∃ a b, cs = a ++ (run ++ b) ∧ width a = start ∧ stop = start + width run := by
  unfold slice?
  constructor
  · intro h
    split at h
    · simp at h
    · simp only [Option.bind_eq_bind, Option.bind_eq_some_iff, Prod.exists, Option.pure_def,
        Option.some.injEq, split?_eq_some_iff] at h
      obtain ⟨a, rest, ⟨rfl, rfl⟩, inner, b, ⟨rfl, wide⟩, rfl⟩ := h
      exact ⟨a, b, rfl, rfl, by omega⟩
  · rintro ⟨a, b, rfl, rfl, rfl⟩
    simp [split?_width]

theorem width_pos {cs : List Char} (h : cs ≠ []) : 0 < width cs := by
  cases cs with
  | nil => exact absurd rfl h
  | cons c cs =>
    have := c.utf8Size_pos
    simp only [width_cons]
    omega

theorem width_eq_zero {cs : List Char} (h : width cs = 0) : cs = [] := by
  by_cases empty : cs = []
  · exact empty
  · have := width_pos empty
    omega

/-- Of two cuts of one text the later one is a cut of what the earlier one leaves. -/
theorem cut_after {a b c d : List Char} (same : a ++ b = c ++ d) (le : width a ≤ width c) :
    ∃ e, c = a ++ e ∧ b = e ++ d := by
  rcases List.append_eq_append_iff.mp same with ⟨e, rfl, rfl⟩ | ⟨e, rfl, rfl⟩
  · exact ⟨e, rfl, rfl⟩
  · have none : e = [] := width_eq_zero (by simp at le; omega)
    exact ⟨[], by simp [none], by simp [none]⟩

theorem slice?_of_boundaries {text : List Char} {start stop : Nat} (lower : isBoundary text start = true)
    (upper : isBoundary text stop = true) (order : start ≤ stop) : ∃ run, slice? text start stop = some run := by
  obtain ⟨a, b, whole, rfl⟩ := isBoundary_iff.mp lower
  obtain ⟨c, d, whole', rfl⟩ := isBoundary_iff.mp upper
  obtain ⟨e, rfl, rfl⟩ := cut_after (whole.symm.trans whole') order
  exact ⟨e, slice?_eq_some_iff.mpr ⟨a, d, whole, rfl, width_append a e⟩⟩

theorem boundaries_of_slice? {cs run : List Char} {start stop : Nat} (h : slice? cs start stop = some run) :
    isBoundary cs start = true ∧ isBoundary cs stop = true := by
  obtain ⟨a, b, whole, rfl, rfl⟩ := slice?_eq_some_iff.mp h
  exact ⟨isBoundary_iff.mpr ⟨a, run ++ b, whole, rfl⟩,
    isBoundary_iff.mpr ⟨a ++ run, b, by rw [whole, List.append_assoc], width_append _ _⟩⟩

theorem boundary_of_same_run {cs ds run : List Char} {start stop start' stop' n : Nat}
    (here : slice? cs start stop = some run) (there : slice? ds start' stop' = some run) (lower : start ≤ n)
    (upper : n ≤ stop) (boundary : isBoundary cs n = true) : isBoundary ds (start' + (n - start)) = true := by
  obtain ⟨a, b, whole, rfl, rfl⟩ := slice?_eq_some_iff.mp here
  obtain ⟨c, d, rfl, rfl, -⟩ := slice?_eq_some_iff.mp there
  obtain ⟨front, back, split, rfl⟩ := isBoundary_iff.mp boundary
  obtain ⟨e, rfl, cut⟩ := cut_after (whole.symm.trans split) lower
  rw [width_append] at upper
  obtain ⟨f, rfl, -⟩ := cut_after cut.symm (by omega)
  exact isBoundary_iff.mpr ⟨c ++ e, f ++ d, by simp, by simp⟩

theorem breakAt?_eq_none {c : Char} {cs : List Char} : breakAt? [c] cs = none ↔ c ∉ cs := by
  induction cs with
  | nil => simp [breakAt?]
  | cons d cs ih =>
    rw [breakAt?]
    by_cases same : c = d
    · simp [same]
    · simp [same, ih]

theorem breakAt?_eq_some {c : Char} {cs before after : List Char} :
    breakAt? [c] cs = some (before, after) ↔ cs = before ++ c :: after ∧ c ∉ before := by
  induction cs generalizing before with
  | nil => simp [breakAt?]
  | cons d cs ih =>
    rw [breakAt?]
    by_cases same : c = d
    · subst same
      cases before with
      | nil => simp
      | cons e before => simpa using fun here _ other => absurd here other
    · rw [if_neg (by simpa using same), Option.map_eq_some_iff]
      cases before with
      | nil => simpa using fun here _ => same here.symm
      | cons e before =>
        constructor
        · rintro ⟨⟨first, rest⟩, found, parts⟩
          cases parts
          obtain ⟨rfl, free⟩ := ih.mp found
          exact ⟨rfl, by simpa using ⟨same, free⟩⟩
        · rintro ⟨whole, free⟩
          cases whole
          exact ⟨_, ih.mpr ⟨rfl, fun member => free (List.mem_cons_of_mem _ member)⟩, rfl⟩

theorem breakAt?_getD {c : Char} {cs before after : List Char} :
    (breakAt? [c] cs).getD (cs, []) = (before, after) ↔
      c ∉ before ∧ (cs = before ∧ after = [] ∨ cs = before ++ c :: after) := by
  cases split : breakAt? [c] cs with
  | none =>
    have absent := breakAt?_eq_none.mp split
    rw [Option.getD_none, Prod.mk.injEq]
    constructor
    · rintro ⟨rfl, rfl⟩
      exact ⟨absent, .inl ⟨rfl, rfl⟩⟩
    · rintro ⟨-, ⟨rfl, rfl⟩ | rfl⟩
      · exact ⟨rfl, rfl⟩
      · simp at absent
  | some parts =>
    obtain ⟨first, rest⟩ := parts
    obtain ⟨rfl, unbroken⟩ := breakAt?_eq_some.mp split
    rw [Option.getD_some, Prod.mk.injEq]
    constructor
    · rintro ⟨rfl, rfl⟩
      exact ⟨unbroken, .inr rfl⟩
    · rintro ⟨free, ⟨rfl, rfl⟩ | whole⟩
      · simp at free
      · rw [whole] at split
        simpa using split.symm.trans (breakAt?_eq_some.mpr ⟨rfl, free⟩)

def bytes (cs : List Char) : List UInt8 := cs.flatMap String.utf8EncodeChar

@[simp] theorem bytes_nil : bytes [] = [] := rfl
@[simp] theorem bytes_cons (c : Char) (cs : List Char) :
    bytes (c :: cs) = String.utf8EncodeChar c ++ bytes cs := rfl

@[simp] theorem bytes_append (a b : List Char) : bytes (a ++ b) = bytes a ++ bytes b :=
  List.flatMap_append

@[simp] theorem length_bytes (cs : List Char) : (bytes cs).length = width cs := by
  induction cs with
  | nil => rfl
  | cons c cs ih => simp [ih]

theorem toList_toUTF8 (text : String) : text.toUTF8.data.toList = bytes text.toList := by
  rw [String.toUTF8_eq_toByteArray, ← String.utf8Encode_toList, List.utf8Encode,
    List.toList_data_toByteArray, bytes]

theorem width_toList (text : String) : width text.toList = text.utf8ByteSize := by
  rw [← length_bytes, ← toList_toUTF8, Array.length_toList]
  rfl

theorem eq_of_bytes {a b : String} (h : bytes a.toList = bytes b.toList) : a = b := by
  rw [← toList_toUTF8, ← toList_toUTF8, Array.toList_inj, String.toUTF8_eq_toByteArray, String.toUTF8_eq_toByteArray] at h
  exact String.toByteArray_inj.mp (ByteArray.ext h)

def byteAt? (text : String) (offset : Nat) : Option UInt8 := text.toUTF8.data[offset]?

theorem byteAt?_eq (text : String) (offset : Nat) : byteAt? text offset = (bytes text.toList)[offset]? := by
  rw [byteAt?, ← toList_toUTF8, Array.getElem?_toList]

theorem getElem?_bytes_inside (a run b : List Char) {i : Nat} (h : i < width run) :
    (bytes (a ++ (run ++ b)))[width a + i]? = (bytes run)[i]? := by
  rw [bytes_append, bytes_append, List.getElem?_append_right (by simp)]
  rw [length_bytes, Nat.add_sub_cancel_left, List.getElem?_append_left (by simpa using h)]

end SvelteLens.Text
