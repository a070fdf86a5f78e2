import SvelteLens.Proofs.Text.Cuts
import SvelteLens.Text.Lines

/-! Lines and columns as one reads them off the bytes of a text, one after the other. The index finds
the position of every offset, also inside a character, and finds the offset again. -/
namespace SvelteLens

open Text (width bytes)

namespace Text

def lineFeed : UInt8 := 10

theorem bytes_lineFeed : String.utf8EncodeChar '\n' = [lineFeed] := by decide

theorem lineFeed_ne_ofNat {n : Nat} (other : n % 256 ≠ 10) : lineFeed ≠ UInt8.ofNat n := by
  intro same
  have low := congrArg UInt8.toNat same
  rw [UInt8.toNat_ofNat'] at low
  exact other low.symm

/-- No other character is stored with a line feed among its bytes. -/
theorem lineFeed_unencoded {c : Char} (other : c ≠ '\n') : lineFeed ∉ String.utf8EncodeChar c := by
  have apart : c.val.toNat ≠ 10 := fun same => other (Char.ext (UInt32.toNat_inj.mp same))
  unfold String.utf8EncodeChar
  dsimp only
  split
  · simp only [List.mem_singleton]
    exact lineFeed_ne_ofNat (by omega)
  -- each byte of a longer encoding is marked as part of one
  · split
    · simp only [List.mem_cons, List.not_mem_nil, or_false, not_or]
      exact ⟨lineFeed_ne_ofNat (by omega), lineFeed_ne_ofNat (by omega)⟩
    · split <;> simp only [List.mem_cons, List.not_mem_nil, or_false, not_or]
      · exact ⟨lineFeed_ne_ofNat (by omega), lineFeed_ne_ofNat (by omega), lineFeed_ne_ofNat (by omega)⟩
      · exact ⟨lineFeed_ne_ofNat (by omega), lineFeed_ne_ofNat (by omega), lineFeed_ne_ofNat (by omega),
          lineFeed_ne_ofNat (by omega)⟩

end Text

namespace LineCol

def next (position : LineCol) (byte : UInt8) : LineCol :=
  if byte = Text.lineFeed then ⟨position.line + 1, 0⟩ else ⟨position.line, position.col + 1⟩

def behind (read : List UInt8) (from' : LineCol) : LineCol := read.foldl next from'

theorem behind_append (first later : List UInt8) (position : LineCol) :
    behind (first ++ later) position = behind later (behind first position) := List.foldl_append

theorem behind_sameLine {read : List UInt8} (unbroken : Text.lineFeed ∉ read) (position : LineCol) :
    behind read position = ⟨position.line, position.col + read.length⟩ := by
  induction read generalizing position with
  | nil => rfl
  | cons byte read ih =>
    rw [List.mem_cons, not_or] at unbroken
    have step : next position byte = ⟨position.line, position.col + 1⟩ := if_neg (Ne.symm unbroken.1)
    change behind read (next position byte) = _
    rw [ih unbroken.2, step, List.length_cons, Nat.add_assoc, Nat.add_comm 1]

def of (text : String) (offset : Nat) : LineCol := behind ((bytes text.toList).take offset) ⟨0, 0⟩

end LineCol

namespace LineIndex

theorem lt_of_startsAfter {offset n : Nat} {cs : List Char} (member : n ∈ startsAfter offset cs) : offset < n := by
  fun_induction startsAfter offset cs with
  | case1 => cases member
  | case2 offset cs next ih =>
    have size := Char.utf8Size_pos '\n'
    rcases List.mem_cons.mp member with rfl | member
    · omega
    · have := ih member
      omega
  | case3 offset c cs next other ih =>
    have := ih member
    omega

theorem startsAfter_ordered (offset : Nat) (cs : List Char) : (startsAfter offset cs).Pairwise (· < ·) := by
  fun_induction startsAfter offset cs with
  | case1 => exact .nil
  | case2 offset cs next ih => exact List.pairwise_cons.mpr ⟨fun n member => lt_of_startsAfter member, ih⟩
  | case3 offset c cs next other ih => exact ih

theorem startsAfter_lineFeed (offset : Nat) (cs : List Char) :
    startsAfter offset ('\n' :: cs) = (offset + 1) :: startsAfter (offset + 1) cs := by
  rw [startsAfter, if_pos rfl]
  rfl

theorem startsAfter_other {c : Char} (other : c ≠ '\n') (offset : Nat) (cs : List Char) :
    startsAfter offset (c :: cs) = startsAfter (offset + c.utf8Size) cs := by
  rw [startsAfter, if_neg other]

theorem startsAfter_behind {n offset : Nat} {c : Char} {cs : List Char} (member : n ∈ startsAfter offset (c :: cs)) :
    offset + c.utf8Size ≤ n := by
  by_cases newline : c = '\n'
  · subst newline
    rw [startsAfter_lineFeed] at member
    rcases List.mem_cons.mp member with rfl | member
    · exact Nat.le_refl _
    · exact Nat.le_of_lt (lt_of_startsAfter member)
  · rw [startsAfter_other newline] at member
    exact Nat.le_of_lt (lt_of_startsAfter member)

theorem le_iff_lt_countP {starts : List Nat} (ordered : starts.Pairwise (· < ·)) {i : Nat} (h : i < starts.length)
    (bound : Nat) : starts[i] ≤ bound ↔ i < starts.countP (· ≤ bound) := by
  induction ordered generalizing i with
  | nil => simp at h
  | @cons first rest after _ ih =>
    by_cases below : first ≤ bound
    · rw [List.countP_cons_of_pos (by simpa using below)]
      cases i with
      | zero => simpa using below
      | succ i => simpa using ih (by simpa using h)
    · have none : rest.countP (· ≤ bound) = 0 := List.countP_eq_zero.mpr fun n member => by
        have := after n member
        rw [decide_eq_true_eq]
        omega
      rw [List.countP_cons_of_neg (by simpa using below), none]
      cases i with
      | zero => simpa using below
      | succ i =>
        have inside : i < rest.length := by simpa using h
        have := after _ (List.getElem_mem inside)
        rw [List.getElem_cons_succ]
        omega

theorem behind_inside {c : Char} {cs : List Char} {count : Nat} (short : count < c.utf8Size) (position : LineCol) :
    LineCol.behind ((bytes (c :: cs)).take count) position = ⟨position.line, position.col + count⟩ := by
  have read : (bytes (c :: cs)).take count = (String.utf8EncodeChar c).take count := by
    rw [Text.bytes_cons, List.take_append_of_le_length (by rw [String.length_utf8EncodeChar]; omega)]
  have unbroken : Text.lineFeed ∉ (String.utf8EncodeChar c).take count := by
    by_cases newline : c = '\n'
    · subst newline
      have here : count = 0 := Nat.lt_one_iff.mp short
      simp [here]
    · exact fun member => Text.lineFeed_unencoded newline (List.mem_of_mem_take member)
  rw [read, LineCol.behind_sameLine unbroken, List.length_take, String.length_utf8EncodeChar,
    Nat.min_eq_left (Nat.le_of_lt short)]

theorem behind_past {c : Char} {cs : List Char} {count : Nat} (past : c.utf8Size ≤ count) (position : LineCol) :
    LineCol.behind ((bytes (c :: cs)).take count) position =
      LineCol.behind ((bytes cs).take (count - c.utf8Size)) (LineCol.behind (String.utf8EncodeChar c) position) := by
  have whole : (String.utf8EncodeChar c).take count = String.utf8EncodeChar c :=
    List.take_of_length_le (by rw [String.length_utf8EncodeChar]; exact past)
  rw [Text.bytes_cons, List.take_append, String.length_utf8EncodeChar, LineCol.behind_append, whole]

/-- Reading on from a line that starts at `start`: the last line start up to an offset is the one that
its column is counted from. -/
theorem behind_startsAfter (line : Nat) {cs : List Char} {start at' offset : Nat} (began : start ≤ at')
    (reached : at' ≤ offset) (inside : offset ≤ at' + width cs) :
    ∃ last, (start :: startsAfter at' cs)[(startsAfter at' cs).countP (· ≤ offset)]? = some last ∧ last ≤ offset ∧
      LineCol.behind ((bytes cs).take (offset - at')) ⟨line, at' - start⟩ =
        ⟨line + (startsAfter at' cs).countP (· ≤ offset), offset - last⟩ := by
  induction cs generalizing start at' line with
  | nil =>
    obtain rfl : offset = at' := by simp only [Text.width_nil] at inside; omega
    exact ⟨start, rfl, began, by simp [startsAfter, LineCol.behind]⟩
  | cons c cs ih =>
    rw [Text.width_cons] at inside
    by_cases past : at' + c.utf8Size ≤ offset
    · rw [behind_past (by omega), Nat.sub_sub]
      by_cases newline : c = '\n'
      · subst newline
        have size : '\n'.utf8Size = 1 := rfl
        rw [size] at past inside ⊢
        obtain ⟨last, found, le, rest⟩ := ih (line + 1) (Nat.le_refl _) past (by omega)
        have step : LineCol.behind (String.utf8EncodeChar '\n') ⟨line, at' - start⟩ = ⟨line + 1, 0⟩ := by
          rw [Text.bytes_lineFeed]
          rfl
        have count : (startsAfter at' ('\n' :: cs)).countP (· ≤ offset) =
            (startsAfter (at' + 1) cs).countP (· ≤ offset) + 1 := by
          rw [startsAfter_lineFeed, List.countP_cons_of_pos (by simpa using past)]
        rw [Nat.sub_self, Nat.add_right_comm] at rest
        rw [count, startsAfter_lineFeed, List.getElem?_cons_succ, step]
        exact ⟨last, found, le, rest⟩
      · obtain ⟨last, found, le, rest⟩ := ih line (by omega : start ≤ at' + c.utf8Size) past (by omega)
        have passed : at' - start + c.utf8Size = at' + c.utf8Size - start := by omega
        rw [startsAfter_other newline, LineCol.behind_sameLine (Text.lineFeed_unencoded newline),
          String.length_utf8EncodeChar, passed]
        exact ⟨last, found, le, rest⟩
    · have none : (startsAfter at' (c :: cs)).countP (· ≤ offset) = 0 := List.countP_eq_zero.mpr fun n member => by
        have := startsAfter_behind member
        rw [decide_eq_true_eq]
        omega
      rw [none, behind_inside (by omega)]
      refine ⟨start, rfl, by omega, ?_⟩
      simp only [Nat.add_zero, LineCol.mk.injEq, true_and]
      omega

/-- The line that an offset lies on. -/
theorem lineCol?_ofText (text : String) {offset : Nat} (inside : offset ≤ width text.toList) :
    (ofText text).lineCol? offset = some (LineCol.of text offset) ∧
      ∃ start, (ofText text).starts[(LineCol.of text offset).line]? = some start ∧ start ≤ offset ∧
        (LineCol.of text offset).col = offset - start ∧
        ∀ next, (ofText text).starts[(LineCol.of text offset).line + 1]? = some next → offset < next := by
  have ordered : (0 :: startsAfter 0 text.toList).Pairwise (· < ·) :=
    List.pairwise_cons.mpr ⟨fun n member => lt_of_startsAfter member, startsAfter_ordered 0 _⟩
  obtain ⟨start, found, le, read⟩ := behind_startsAfter 0 (Nat.le_refl 0) (Nat.zero_le offset)
    (by rw [Nat.zero_add]; exact inside)
  rw [Nat.zero_add, Nat.sub_zero, Nat.sub_self] at read
  have position : LineCol.of text offset = ⟨(startsAfter 0 text.toList).countP (· ≤ offset), offset - start⟩ := read
  have count : (0 :: startsAfter 0 text.toList).countP (· ≤ offset) =
      (startsAfter 0 text.toList).countP (· ≤ offset) + 1 := by simp
  have turn : Text.partitionPoint (· ≤ offset) (ofText text).starts =
      (startsAfter 0 text.toList).countP (· ≤ offset) + 1 := by
    refine Text.partitionPoint_eq ?_ fun i h => ?_
    · rw [← count]
      exact List.countP_le_length
    · rw [decide_eq_true_eq, ← count]
      exact le_iff_lt_countP ordered h offset
  have found : (ofText text).starts[(startsAfter 0 text.toList).countP (· ≤ offset)]? = some start := by
    rw [ofText, List.getElem?_toArray]
    exact found
  rw [position]
  refine ⟨?_, start, found, le, rfl, fun next behind => ?_⟩
  · have bound : ¬(ofText text).length < offset := Nat.not_lt.mpr inside
    simp only [lineCol?, if_neg bound, turn, Nat.add_sub_cancel, found, Option.map_some]
  · rw [ofText, List.getElem?_toArray] at behind
    obtain ⟨h, rfl⟩ := List.getElem?_eq_some_iff.mp behind
    refine Nat.lt_of_not_le fun before => ?_
    have early := (le_iff_lt_countP ordered h offset).mp before
    rw [count] at early
    exact absurd early (Nat.lt_irrefl _)

theorem lineCol?_isSome (text : String) (offset : Nat) :
    ((ofText text).lineCol? offset).isSome = true ↔ offset ≤ width text.toList := by
  constructor
  · intro found
    by_cases past : (ofText text).length < offset
    · rw [lineCol?, if_pos past] at found
      cases found
    · exact Nat.not_lt.mp past
  · intro inside
    rw [(lineCol?_ofText text inside).1]
    rfl

/-- The position of an offset leads back to the offset. -/
theorem offset?_of (text : String) {offset : Nat} (inside : offset ≤ width text.toList) :
    (ofText text).offset? (LineCol.of text offset) = some offset := by
  obtain ⟨-, start, found, le, col, before⟩ := lineCol?_ofText text inside
  have back : start + (LineCol.of text offset).col = offset := by omega
  have bound : offset ≤ ((ofText text).starts[(LineCol.of text offset).line + 1]?).elim (ofText text).length (· - 1) := by
    cases next : (ofText text).starts[(LineCol.of text offset).line + 1]? with
    | none => exact inside
    | some next' =>
      have := before next' next
      rw [Option.elim_some]
      omega
  simp only [offset?, found, bind, Option.bind_some, back, if_pos bound]

end LineIndex
end SvelteLens
