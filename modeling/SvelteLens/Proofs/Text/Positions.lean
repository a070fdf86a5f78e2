import SvelteLens.Proofs.Text.Lines

/-! Positions and offsets of a text determine each other. The lines are read off the bytes; the index keeps
where each of them starts, and a column may go up to the line feed or to the end of the text. -/
namespace SvelteLens

open Text (bytes byteAt? lineFeed)

namespace Text

/-- The bytes of each line without its line feed. Behind the last line feed there is one more line. -/
def lines (text : String) : List (List UInt8) := (bytes text.toList).splitOn lineFeed

/-- Where a line starts: behind all lines before it and their line feeds. -/
def lineStart : (lines : List (List UInt8)) → (line : Nat) → Nat
  | _, 0 | [], _ => 0
  | first :: rest, line + 1 => first.length + 1 + lineStart rest line

/-- The line of an offset starts behind the last line feed before the offset, or with the text. -/
structure StartsLine (text : String) (offset start : Nat) : Prop where
  le : start ≤ offset
  opened : start = 0 ∨ byteAt? text (start - 1) = some lineFeed
  unbroken : ∀ i, start ≤ i → i < offset → byteAt? text i ≠ some lineFeed

theorem splitOn_lineFeed (bs : List UInt8) : (lineFeed :: bs).splitOn lineFeed = [] :: bs.splitOn lineFeed := by
  simp [List.splitOn, List.splitOnP_cons_eq_if_modifyHead]

theorem splitOn_unbroken {run : List UInt8} (unbroken : lineFeed ∉ run) (bs : List UInt8) :
    (run ++ bs).splitOn lineFeed = (bs.splitOn lineFeed).modifyHead (run ++ ·) := by
  induction run with
  | nil =>
    change bs.splitOn lineFeed = (bs.splitOn lineFeed).modifyHead id
    rw [List.modifyHead_id, id]
  | cons byte run ih =>
    simp only [List.mem_cons, not_or] at unbroken
    have other : (byte == lineFeed) = false := beq_eq_false_iff_ne.mpr (Ne.symm unbroken.1)
    have behind := ih unbroken.2
    simp only [List.splitOn] at behind
    simp [List.splitOn, List.splitOnP_cons_eq_if_modifyHead, other, behind, Function.comp_def]

@[simp] theorem lineStart_zero (lines : List (List UInt8)) : lineStart lines 0 = 0 := by
  simp [lineStart]

@[simp] theorem lineStart_cons (first : List UInt8) (rest : List (List UInt8)) (line : Nat) :
    lineStart (first :: rest) (line + 1) = first.length + 1 + lineStart rest line := by
  simp [lineStart]

theorem lineStart_succ {lines : List (List UInt8)} {line : Nat} {content : List UInt8}
    (here : lines[line]? = some content) : lineStart lines (line + 1) = lineStart lines line + content.length + 1 := by
  induction lines generalizing line with
  | nil => simp at here
  | cons first rest ih =>
    cases line with
    | zero => simp_all
    | succ line => simp [ih here, Nat.add_assoc]

theorem lineStart_mono (lines : List (List UInt8)) {line later : Nat} (le : line ≤ later) :
    lineStart lines line ≤ lineStart lines later := by
  induction lines generalizing line later with
  | nil => cases line <;> simp [lineStart]
  | cons first rest ih =>
    cases line with
    | zero => simp
    | succ line =>
      obtain ⟨later, rfl⟩ := Nat.exists_eq_add_one_of_ne_zero (show later ≠ 0 by omega)
      simpa using ih (Nat.le_of_succ_le_succ le)

theorem lineStart_lt {lines : List (List UInt8)} {line later : Nat} {content : List UInt8}
    (here : lines[line]? = some content) (less : line < later) :
    lineStart lines line + content.length < lineStart lines later := by
  have grows : lineStart lines (line + 1) ≤ lineStart lines later := lineStart_mono lines less
  have := lineStart_succ here
  omega

/-- All lines together, with a line feed behind each, are one byte longer than the text. -/
theorem lineStart_end (bs : List UInt8) :
    lineStart (bs.splitOn lineFeed) (bs.splitOn lineFeed).length = bs.length + 1 := by
  induction bs with
  | nil => rfl
  | cons byte bs ih =>
    by_cases same : byte = lineFeed
    · subst same
      simp [splitOn_lineFeed, ih]
      omega
    · have unbroken : lineFeed ∉ [byte] := by simpa using Ne.symm same
      have split := splitOn_unbroken unbroken bs
      rw [List.singleton_append] at split
      obtain ⟨first, rest, parts⟩ := List.exists_cons_of_ne_nil (List.splitOn_ne_nil lineFeed bs)
      simp [parts] at ih
      simp [split, parts]
      omega

end Text

namespace LineIndex

open Text (lines lineStart)

/-- The starts that follow a start belong to the lines of the text from there on. -/
theorem startsAfter_lines (offset : Nat) (cs : List Char) (line : Nat) :
    (offset :: startsAfter offset cs)[line]? =
      (((bytes cs).splitOn lineFeed)[line]?).map fun _ => offset + lineStart ((bytes cs).splitOn lineFeed) line := by
  induction cs generalizing offset line with
  | nil => cases line <;> simp [startsAfter]
  | cons c cs ih =>
    by_cases newline : c = '\n'
    · subst newline
      have split := Text.splitOn_lineFeed (bytes cs)
      cases line with
      | zero => simp [Text.bytes_lineFeed, split]
      | succ line => simp [Text.bytes_lineFeed, split, startsAfter_lineFeed, ih, Nat.add_assoc]
    · have split := Text.splitOn_unbroken (Text.lineFeed_unencoded newline) (bytes cs)
      obtain ⟨first, rest, parts⟩ := List.exists_cons_of_ne_nil (List.splitOn_ne_nil lineFeed (bytes cs))
      have next := ih (offset + c.utf8Size) line
      simp only [parts] at next
      cases line with
      | zero => simp [split, parts]
      | succ line =>
        simp only [List.getElem?_cons_succ, Text.lineStart_cons] at next
        simp [split, parts, startsAfter_other newline, next, Nat.add_assoc]

theorem starts_ofText (text : String) (line : Nat) :
    (ofText text).starts[line]? = ((lines text)[line]?).map fun _ => lineStart (lines text) line := by
  have starts := startsAfter_lines 0 text.toList line
  simpa [ofText, lines] using starts

theorem stop_ofText {text : String} {line : Nat} {content : List UInt8} (here : (lines text)[line]? = some content) :
    ((ofText text).starts[line + 1]?).elim (ofText text).length (· - 1) =
      lineStart (lines text) line + content.length := by
  have next := Text.lineStart_succ here
  rw [starts_ofText]
  cases more : (lines text)[line + 1]? with
  | some later => simp [next]
  | none =>
    obtain ⟨inside, -⟩ := List.getElem?_eq_some_iff.mp here
    have last : line + 1 = (lines text).length := by
      have := List.getElem?_eq_none_iff.mp more
      omega
    have all := Text.lineStart_end (bytes text.toList)
    change lineStart (lines text) (lines text).length = _ at all
    rw [← last, next] at all
    simpa [ofText] using all.symm

/-- A position has an offset when there is such a line and the column is not behind its end. -/
theorem offset?_eq_some_iff {text : String} {line col o : Nat} : (ofText text).offset? ⟨line, col⟩ = some o ↔
    ∃ content, (lines text)[line]? = some content ∧ col ≤ content.length ∧ o = lineStart (lines text) line + col := by
  cases here : (lines text)[line]? with
  | none => simp [offset?, starts_ofText, here]
  | some content =>
    have stop := stop_ofText here
    have found : (ofText text).starts[line]? = some (lineStart (lines text) line) := by simp [starts_ofText, here]
    by_cases short : col ≤ content.length
    · simp [offset?, found, stop, short, eq_comm]
    · simp [offset?, found, stop, short]

theorem offset?_inj {text : String} {p q : LineCol} {o : Nat} (first : (ofText text).offset? p = some o)
    (second : (ofText text).offset? q = some o) : p = q := by
  obtain ⟨line, col⟩ := p
  obtain ⟨line', col'⟩ := q
  obtain ⟨content, here, le, at'⟩ := offset?_eq_some_iff.mp first
  obtain ⟨content', here', le', at''⟩ := offset?_eq_some_iff.mp second
  rcases Nat.lt_trichotomy line line' with less | rfl | more
  · have := Text.lineStart_lt here less
    omega
  · simp only [LineCol.mk.injEq, true_and]
    omega
  · have := Text.lineStart_lt here' more
    omega

end LineIndex

namespace LineCol

variable {text : String} {o o' : Nat} {p q r : LineCol}

def Before (p q : LineCol) : Prop := p.line < q.line ∨ p.line = q.line ∧ p.col < q.col

theorem Before.trans (h : p.Before q) (k : q.Before r) : p.Before r := by
  simp only [Before] at *
  omega

theorem before_next (p : LineCol) (byte : UInt8) : p.Before (next p byte) := by
  by_cases newline : byte = lineFeed <;> simp [Before, next, newline]

theorem of_succ (inside : o < (bytes text.toList).length) :
    of text (o + 1) = next (of text o) (bytes text.toList)[o] := by
  rw [of, ← List.take_append_getElem inside, behind_append]
  rfl

/-- Each byte that is read leads to a later position. -/
theorem of_before (less : o < o') (inside : o' ≤ (bytes text.toList).length) : (of text o).Before (of text o') := by
  induction less with
  | refl =>
    rw [of_succ inside]
    apply before_next
  | step less ih =>
    rw [of_succ inside]
    exact (ih (Nat.le_of_succ_le inside)).trans (before_next _ _)

/-- A position tells the line feeds that were passed and the way from the start of the line. -/
theorem of_reads (inside : o ≤ (bytes text.toList).length) :
    (of text o).line = ((bytes text.toList).take o).count lineFeed ∧
      ∃ start, Text.StartsLine text o start ∧ (of text o).col = o - start := by
  induction o with
  | zero => exact ⟨rfl, 0, ⟨Nat.le_refl 0, .inl rfl, by omega⟩, rfl⟩
  | succ o ih =>
    obtain ⟨line, start, starts, col⟩ := ih (Nat.le_of_succ_le inside)
    have byte : byteAt? text o = some (bytes text.toList)[o] := by
      rw [Text.byteAt?_eq, List.getElem?_eq_getElem]
    have read := List.take_append_getElem inside
    by_cases newline : (bytes text.toList)[o] = lineFeed
    · refine ⟨?_, o + 1, ⟨Nat.le_refl _, .inr ?_, by omega⟩, ?_⟩
      · rw [of_succ inside, ← read, List.count_append]
        simp [next, newline, line]
      · simp [byte, newline]
      · simp [of_succ inside, next, newline]
    · refine ⟨?_, start, ⟨Nat.le_succ_of_le starts.le, starts.opened, fun i lower upper => ?_⟩, ?_⟩
      · rw [of_succ inside, ← read, List.count_append]
        simp [next, newline, line]
      · rcases Nat.lt_succ_iff_lt_or_eq.mp upper with before | rfl
        · exact starts.unbroken i lower before
        · simp [byte, newline]
      · have := starts.le
        simp [of_succ inside, next, newline, col]
        omega

end LineCol

namespace LineIndex

open Text (lines lineStart)

/-- For every text: the offsets up to its end have positions, which tell the line feeds before the offset and
the distance from the start of its line, keep the order of the offsets and lead back to them. A position has
an offset exactly when there is such a line with so many bytes or more before its line feed; it is counted
from the start of the line, and leads back to the position. -/
theorem positions_biject (text : String) :
    let index := ofText text
    (∀ o, (∃ p, index.lineCol? o = some p) ↔ o ≤ text.utf8ByteSize) ∧
    (∀ o o' p q, index.lineCol? o = some p → index.lineCol? o' = some q → o < o' → p.Before q) ∧
    (∀ o p, index.lineCol? o = some p →
      p.line = ((bytes text.toList).take o).count lineFeed ∧
      (∃ start, Text.StartsLine text o start ∧ p.col = o - start) ∧ index.offset? p = some o) ∧
    ∀ line col,
      ((∃ o, index.offset? ⟨line, col⟩ = some o) ↔
        ∃ content, (lines text)[line]? = some content ∧ col ≤ content.length) ∧
      ∀ o, index.offset? ⟨line, col⟩ = some o →
        o = lineStart (lines text) line + col ∧ index.lineCol? o = some ⟨line, col⟩ := by
  intro index
  have width : Text.width text.toList = text.utf8ByteSize := Text.width_toList text
  have defined (o : Nat) : (∃ p, index.lineCol? o = some p) ↔ o ≤ text.utf8ByteSize := by
    rw [← width, ← lineCol?_isSome, Option.isSome_iff_exists]
  have position {o : Nat} {p : LineCol} (found : index.lineCol? o = some p) :
      o ≤ Text.width text.toList ∧ p = LineCol.of text o := by
    have inside := width ▸ (defined o).mp ⟨p, found⟩
    exact ⟨inside, Option.some.inj (found.symm.trans (lineCol?_ofText text inside).1)⟩
  refine ⟨defined, fun o o' p q first second less => ?_, fun o p found => ?_, fun line col => ⟨?_, fun o found => ?_⟩⟩
  · obtain ⟨-, rfl⟩ := position first
    obtain ⟨inside, rfl⟩ := position second
    apply LineCol.of_before less
    simpa using inside
  · obtain ⟨inside, rfl⟩ := position found
    have short : o ≤ (bytes text.toList).length := by simpa using inside
    obtain ⟨line, start⟩ := LineCol.of_reads short
    exact ⟨line, start, offset?_of text inside⟩
  · simp only [index, offset?_eq_some_iff]
    constructor
    · rintro ⟨o, content, here, short, -⟩
      exact ⟨content, here, short⟩
    · rintro ⟨content, here, short⟩
      exact ⟨_, content, here, short, rfl⟩
  · obtain ⟨content, here, short, rfl⟩ := offset?_eq_some_iff.mp found
    refine ⟨rfl, ?_⟩
    have inside : lineStart (lines text) line + col ≤ Text.width text.toList := by
      have all := Text.lineStart_end (bytes text.toList)
      have := Text.lineStart_lt here (List.getElem?_eq_some_iff.mp here).1
      rw [Text.length_bytes, ← lines] at all
      omega
    have back := offset?_of text inside
    rw [offset?_inj found back]
    exact (lineCol?_ofText text inside).1

/-- In `é`, two line feeds and `ab`, the end of the first line comes before the second letter of the last. -/
theorem positions_biject_sample :
    let index := ofText "é\n\nab"
    let first : LineCol := ⟨0, 2⟩
    let second : LineCol := ⟨2, 1⟩
    index.lineCol? 2 = some first ∧ index.lineCol? 5 = some second ∧ first.Before second ∧
      second.line = ((bytes "é\n\nab".toList).take 5).count lineFeed ∧ index.offset? second = some 5 := by
  intro index first second
  have sound := positions_biject "é\n\nab"
  have here : index.lineCol? 2 = some first := by decide +kernel
  have there : index.lineCol? 5 = some second := by decide +kernel
  obtain ⟨line, -, back⟩ := sound.2.2.1 5 second there
  exact ⟨here, there, sound.2.1 2 5 first second here there (by decide), line, back⟩

end LineIndex
end SvelteLens
