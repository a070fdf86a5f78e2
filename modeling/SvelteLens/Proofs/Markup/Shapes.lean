import SvelteLens.Proofs.Markup.Boundaries

/-! The shape of an attribute. Its spans say where its parts stand in the text: the name and the modifiers of a directive
in its head, and the value behind the head, an expression directly between two braces. -/
namespace SvelteLens.Markup

open Text (width)

theorem Cursor.Reads.slice {text front run : List Char} {c d : Cursor} (h : c.Reads run d)
    (here : (Cursor.start text).Reads front c) : Text.slice? text c.offset d.offset = some run := by
  obtain ⟨whole, offset⟩ := here.cut
  refine Text.slice?_eq_some_iff.mpr ⟨front, d.rest, ?_, offset.symm, h.2⟩
  rw [whole, h.1]

theorem Cursor.Reads.first_byte {text front run : List Char} {x : Char} {c d : Cursor} (h : c.Reads (x :: run) d)
    (here : (Cursor.start text).Reads front c) (single : x.utf8Size = 1) :
    Text.slice? text c.offset (c.offset + 1) = some [x] := by
  obtain ⟨past, reads, -, offset⟩ := h.first
  rw [Text.width_cons, Text.width_nil, single] at offset
  rw [← offset]
  exact reads.slice here

theorem Cursor.Reads.last_byte {text front run : List Char} {x : Char} {c d : Cursor} (h : c.Reads (run ++ [x]) d)
    (here : (Cursor.start text).Reads front c) (single : x.utf8Size = 1) :
    Text.slice? text (d.offset - 1) d.offset = some [x] := by
  obtain ⟨middle, before, reads, -⟩ := h.split
  have offset := reads.2
  rw [Text.width_cons, Text.width_nil, single] at offset
  rw [show d.offset - 1 = middle.offset by omega]
  exact reads.slice (here.trans before)

theorem mem_splitOn {sep : Char} {cs part : List Char} (member : part ∈ cs.splitOn sep) : sep ∉ part := by
  induction cs generalizing part with
  | nil =>
    rw [List.splitOn_nil, List.mem_singleton] at member
    simp [member]
  | cons c cs ih =>
    rw [List.splitOn, List.splitOnP_cons_eq_if_modifyHead] at member
    split at member
    · rcases List.mem_cons.mp member with rfl | later
      · exact List.not_mem_nil
      · exact ih later
    · next other =>
      cases parts : cs.splitOnP (· == sep) with
      | nil => simp [parts] at member
      | cons first rest =>
        rw [parts, List.modifyHead_cons] at member
        have inside (part : List Char) (listed : part ∈ first :: rest) : sep ∉ part := ih (by rwa [List.splitOn, parts])
        rcases List.mem_cons.mp member with rfl | later
        · have unbroken := inside first List.mem_cons_self
          have apart : sep ≠ c := fun same => other (by simp [same])
          simp [unbroken, apart]
        · exact inside part (List.mem_cons_of_mem first later)

def DirectiveValue.spans : DirectiveValue → List Span
  | .shorthand => []
  | .text v => [v.span]
  | .expression v => [v.span]

/-- A value that stands in a part of the text. An expression stands directly between two braces of that part. -/
inductive DirectiveValue.Within (text : List Char) (inside : Span) : DirectiveValue → Prop where
  | shorthand : Within text inside .shorthand
  | text : Text.slice? text v.span.start v.span.stop = some v.value.toList → inside.start ≤ v.span.start →
      v.span.stop ≤ inside.stop → Within text inside (.text v)
  | expression : Text.slice? text v.span.start v.span.stop = some v.expression.toList →
      Text.slice? text (v.span.start - 1) v.span.start = some ['\x7b'] →
      Text.slice? text v.span.stop (v.span.stop + 1) = some ['\x7d'] → inside.start < v.span.start →
      v.span.stop < inside.stop → Within text inside (.expression v)

namespace Attribute

def span : Attribute → Span
  | .plain a => a.span
  | .directive d => d.span

/-- The offset just past the name, and past the modifiers of a directive. -/
def headEnd : Attribute → Nat
  | .plain a => a.span.start + width a.name.toList
  | .directive d => d.headEnd

def value : Attribute → DirectiveValue
  | .plain ⟨_, _, .present⟩ => .shorthand
  | .plain ⟨_, _, .text v⟩ => .text v
  | .plain ⟨_, _, .expression v⟩ => .expression v
  | .directive d => d.value

def spans : Attribute → List Span
  | .plain a => a.span :: (Attribute.plain a).value.spans
  | .directive d => d.span :: d.nameSpan :: d.value.spans

end Attribute

/-- A directive starts with its word, a colon, its name and its modifiers, each behind a bar. -/
structure Directive.Headed (text : List Char) (d : Directive) : Prop where
  word : ∃ word, DirectiveKind.ofWord? (String.ofList word) = some d.kind ∧
    Text.slice? text d.span.start d.nameSpan.start = some (word ++ [':'])
  name : Text.slice? text d.nameSpan.start d.nameSpan.stop = some d.name.toList
  modifiers : Text.slice? text d.nameSpan.stop d.headEnd = some (modifierText d.modifiers)
  plainName : '|' ∉ d.name.toList
  plainModifiers : ∀ m ∈ d.modifiers, '|' ∉ m.toList

inductive Attribute.Headed (text : List Char) : Attribute → Prop where
  | plain : Text.slice? text a.span.start (a.span.start + width a.name.toList) = some a.name.toList →
      Headed text (.plain a)
  | directive : d.Headed text → Headed text (.directive d)

/-- An attribute whose spans hold what they should. The head is as long as it can be, and there is no value exactly when
the attribute stops there. -/
structure Attribute.WellFormed (text : List Char) (a : Attribute) : Prop where
  headed : a.Headed text
  ended : ∀ x, Text.slice? text a.headEnd (a.headEnd + x.utf8Size) = some [x] → isNameChar x = false
  order : a.span.start ≤ a.headEnd ∧ a.headEnd ≤ a.span.stop
  shorthand : a.value = .shorthand ↔ a.headEnd = a.span.stop
  value : a.value.Within text ⟨a.headEnd, a.span.stop⟩
  stop : Text.isBoundary text a.span.stop = true

section Reading

variable {text front : List Char} {start named after : Cursor} {full : String} {a : Attribute} {value : DirectiveValue}

/-- A character that stands where a cursor was reached is the first one that is left. -/
theorem Cursor.Reads.next {c : Cursor} (here : (Cursor.start text).Reads front c) {x : Char}
    (slice : Text.slice? text c.offset (c.offset + x.utf8Size) = some [x]) : x ∈ c.rest.head? := by
  obtain ⟨whole, offset⟩ := here.cut
  obtain ⟨before, behind, whole', offset', -⟩ := Text.slice?_eq_some_iff.mp slice
  obtain ⟨e, same, rest⟩ := Text.cut_after (whole.symm.trans whole') (Nat.le_of_eq (offset.symm.trans offset'.symm))
  have none : e = [] := by
    refine Text.width_eq_zero ?_
    rw [same, Text.width_append] at offset'
    omega
  simp [rest, none]

theorem Valued.within {c : Cursor} (h : Valued c value after) (here : (Cursor.start text).Reads front c) {lower : Nat}
    (le : lower ≤ c.offset) : value.Within text ⟨lower, after.offset⟩ ∧ c.offset ≤ after.offset ∧ value ≠ .shorthand := by
  obtain ⟨run, reads⟩ := h.reads
  cases h with
  | text _ opening inner closing =>
    refine ⟨.text ?_ (Nat.le_trans le opening.le) closing.le, reads.le, nofun⟩
    rw [String.toList_ofList]
    exact inner.slice (here.trans opening)
  | expression _ opening inner closing =>
    refine ⟨.expression ?_ (opening.last_byte here rfl) (closing.first_byte ((here.trans opening).trans inner) rfl)
      (Nat.lt_of_le_of_lt le (opening.lt (by simp))) (closing.lt (by simp)), reads.le, nofun⟩
    rw [String.toList_ofList]
    exact inner.slice (here.trans opening)

/-- The value stands behind the head, and there is one exactly when the attribute goes on there. -/
theorem Assigned.within (h : Assigned named value after) (here : (Cursor.start text).Reads front named) :
    value.Within text ⟨named.offset, after.offset⟩ ∧ (value = .shorthand ↔ named.offset = after.offset) := by
  cases h with
  | shorthand => exact ⟨.shorthand, iff_of_true rfl rfl⟩
  | valued equals sign valued =>
    have lt : named.offset < _ := sign.lt (by obtain ⟨before, behind, -, -, rfl⟩ := equals; simp)
    obtain ⟨within, le, filled⟩ := valued.within (here.trans sign) (Nat.le_of_lt lt)
    exact ⟨within, iff_of_false filled (by omega)⟩

theorem directiveHead?_plain {kind : DirectiveKind} {word name : String} {modifiers : List String}
    (h : directiveHead? full = some (kind, word, name, modifiers)) :
    '|' ∉ name.toList ∧ ∀ m ∈ modifiers, '|' ∉ m.toList := by
  obtain ⟨⟨front, rest⟩, -, h⟩ := Option.bind_eq_some_iff.mp h
  obtain ⟨known, -, h⟩ := Option.bind_eq_some_iff.mp h
  have plain (part : String) (member : part ∈ (rest.splitOn '|').map String.ofList) : '|' ∉ part.toList := by
    obtain ⟨cs, listed, rfl⟩ := List.mem_map.mp member
    rw [String.toList_ofList]
    exact mem_splitOn listed
  split at h
  · next head tail parts =>
    cases h
    rw [parts] at plain
    exact ⟨plain _ List.mem_cons_self, fun m member => plain m (List.mem_cons_of_mem _ member)⟩
  · cases h

theorem Attribute.Made.headed (made : a.Made start after full value) (here : (Cursor.start text).Reads front start)
    (name : start.Reads full.toList named) : a.Headed text ∧ a.headEnd = named.offset := by
  cases made with
  | plain =>
    have stop : start.offset + width full.toList = named.offset := name.2.symm
    refine ⟨.plain ?_, stop⟩
    rw [stop]
    exact name.slice here
  | directive head =>
    obtain ⟨plainName, plainModifiers⟩ := directiveHead?_plain head
    obtain ⟨kindOf, nameStart, nameStop, first, second, third, start', stop'⟩ := directiveHead?_reads head name
    rw [start', stop']
    refine ⟨.directive ⟨⟨_, kindOf, first.slice here⟩, second.slice (here.trans first), ?_, plainName, plainModifiers⟩,
      headEnd_spelled third⟩
    rw [headEnd_spelled third]
    exact third.slice ((here.trans first).trans second)

/-- A scanned attribute is well formed. -/
theorem scanAttribute_wellFormed (here : (Cursor.start text).Reads front start) (h : scanAttribute start = .ok (a, after)) :
    a.span = ⟨start.offset, after.offset⟩ ∧ a.WellFormed text := by
  obtain ⟨full, named, value, name, stops, assigned, made⟩ := scanAttribute_parts h
  obtain ⟨headed, headEnd⟩ := made.headed here name
  obtain ⟨within, shorthand⟩ := assigned.within (here.trans name)
  obtain ⟨run, reads⟩ := assigned.reads
  have span : a.span = ⟨start.offset, after.offset⟩ := by cases made <;> rfl
  have own : a.value = value := by
    cases made with
    | plain => cases value <;> rfl
    | directive => rfl
  refine ⟨span, headed, ?_, ?_, ?_, ?_, ?_⟩
  · intro x slice
    rw [headEnd] at slice
    exact stops x ((here.trans name).next slice)
  · rw [headEnd, span]
    exact ⟨name.le, reads.le⟩
  · rw [own, headEnd, span]
    exact shorthand
  · rw [own, headEnd, span]
    exact within
  · rw [span]
    exact ((here.trans name).trans reads).boundary

/-- Attributes in a row are well formed and follow each other between the two cursors. -/
theorem scanAttributes_wellFormed {fuel : Nat} {c d : Cursor} {as : List Attribute}
    (here : (Cursor.start text).Reads front c) (h : scanAttributes fuel c = .ok (as, d)) :
    (∀ a ∈ as, a.WellFormed text ∧ c.offset ≤ a.span.start ∧ a.span.stop ≤ d.offset) ∧
      as.Pairwise fun a b => a.span.stop ≤ b.span.start := by
  induction fuel generalizing c as front with
  | zero => cases h
  | succ fuel ih =>
    unfold scanAttributes at h
    simp only at h
    split at h
    · cases h
      exact ⟨List.forall_mem_nil _, .nil⟩
    · obtain ⟨⟨first, next⟩, scanned, h⟩ := chain_ok.mp h
      obtain ⟨⟨more, last⟩, rest, h⟩ := chain_ok.mp h
      cases h
      have blank := c.skipBlank_reads
      have atFirst := here.trans blank
      obtain ⟨span, formed⟩ := scanAttribute_wellFormed atFirst scanned
      obtain ⟨run, reads⟩ := (scanAttribute_written scanned).reads
      obtain ⟨tail, ordered⟩ := ih (atFirst.trans reads) rest
      obtain ⟨run', reads'⟩ := (scanAttributes_listed rest).reads
      have lower := blank.le
      have middle := reads.le
      have upper := reads'.le
      refine ⟨fun a member => ?_, List.pairwise_cons.mpr ⟨fun b later => ?_, ordered⟩⟩
      · rcases List.mem_cons.mp member with rfl | later
        · rw [span]
          exact ⟨formed, lower, upper⟩
        · obtain ⟨formed, start, stop⟩ := tail a later
          exact ⟨formed, by omega, stop⟩
      · rw [span]
        exact (tail b later).2.1

end Reading

end SvelteLens.Markup
