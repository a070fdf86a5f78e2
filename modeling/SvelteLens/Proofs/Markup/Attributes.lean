import SvelteLens.Proofs.Markup.Cursors

/-! How an attribute is written: its parts follow each other from one cursor to the next. What the
scanner returns for an attribute is spelled out by the text between its cursors. -/
namespace SvelteLens.Markup

open Text (width)

def Equals (cs : List Char) : Prop :=
  ∃ before after, before.all Text.isBlank = true ∧ after.all Text.isBlank = true ∧ cs = before ++ '=' :: after

def IsQuote (c : Char) : Prop := c = '"' ∨ c = '\''

/-- The value behind the equals sign. A quoted value is closed by one more byte. -/
inductive Valued : Cursor → DirectiveValue → Cursor → Prop where
  | text {c first last after : Cursor} {quote : Option Char} : (∀ q ∈ quote, IsQuote q) →
      c.Reads quote.toList first → first.Reads text last → last.Reads closing after →
      closing.length = quote.toList.length → (∀ x ∈ closing, x.utf8Size = 1) →
      Valued c (.text ⟨⟨first.offset, last.offset⟩, String.ofList text⟩) after
  | expression {c first last after : Cursor} {quote : Option Char} : (∀ q ∈ quote, IsQuote q) →
      c.Reads (quote.toList ++ ['\x7b']) first → first.Reads text last →
      last.Reads ('\x7d' :: closing) after →
      closing.length = quote.toList.length → (∀ x ∈ closing, x.utf8Size = 1) →
      Valued c (.expression ⟨⟨first.offset, last.offset⟩, String.ofList text, quote⟩) after

inductive Assigned : Cursor → DirectiveValue → Cursor → Prop where
  | shorthand : Assigned c .shorthand c
  | valued : Equals sign → c.Reads sign first → Valued first value after → Assigned c value after

def modifierText (modifiers : List String) : List Char := modifiers.flatMap fun m => '|' :: m.toList

/-- A directive is written as its word, a colon, its name, its modifiers and its value. -/
inductive Spelled : Cursor → Directive → Cursor → Prop where
  | mk {start nameStart nameStop head after : Cursor} {word : List Char} {kind : DirectiveKind} {name : String}
      {modifiers : List String} {value : DirectiveValue} :
      DirectiveKind.ofWord? (String.ofList word) = some kind →
      start.Reads (word ++ [':']) nameStart → nameStart.Reads name.toList nameStop →
      nameStop.Reads (modifierText modifiers) head → Assigned head value after →
      Spelled start ⟨⟨start.offset, after.offset⟩, kind, name, ⟨nameStart.offset, nameStop.offset⟩,
        modifiers, value⟩ after

inductive Written : Cursor → Attribute → Cursor → Prop where
  | plain {start after : Cursor} : start.Reads run after →
      Written start (.plain ⟨⟨start.offset, after.offset⟩, name, value⟩) after
  | directive : Spelled start d after → Written start (.directive d) after

inductive Listed : Cursor → List Attribute → Cursor → Prop where
  | nil : c.Reads gap d → Listed c [] d
  | cons {c start next d : Cursor} {gap : List Char} {a : Attribute} {as : List Attribute} :
      c.Reads gap start → Written start a next → Listed next as d → Listed c (a :: as) d

theorem Valued.reads (h : Valued c value d) : ∃ run, c.Reads run d := by
  cases h with
  | text _ opening text closing => exact ⟨_, (opening.trans text).trans closing⟩
  | expression _ opening text closing => exact ⟨_, (opening.trans text).trans closing⟩

theorem Assigned.reads (h : Assigned c value d) : ∃ run, c.Reads run d := by
  cases h with
  | shorthand => exact ⟨[], .refl c⟩
  | valued _ sign valued =>
    obtain ⟨run, reads⟩ := valued.reads
    exact ⟨_, sign.trans reads⟩

theorem Spelled.reads (h : Spelled start d after) : ∃ run, run ≠ [] ∧ start.Reads run after := by
  cases h with
  | mk _ word name modifiers assigned =>
    obtain ⟨run, value⟩ := assigned.reads
    exact ⟨_, by simp, ((word.trans name).trans modifiers).trans value⟩

theorem Written.reads (h : Written start a after) : ∃ run, start.Reads run after := by
  cases h with
  | plain reads => exact ⟨_, reads⟩
  | directive spelled =>
    obtain ⟨run, _, reads⟩ := spelled.reads
    exact ⟨run, reads⟩

theorem Listed.reads (h : Listed c as d) : ∃ run, c.Reads run d := by
  induction h with
  | nil gap => exact ⟨_, gap⟩
  | cons gap written _ ih =>
    obtain ⟨run, reads⟩ := written.reads
    obtain ⟨more, rest⟩ := ih
    exact ⟨_, (gap.trans reads).trans rest⟩

theorem headEnd_eq (d : Directive) : d.headEnd = d.nameSpan.stop + width (modifierText d.modifiers) := by
  unfold Directive.headEnd modifierText
  generalize d.nameSpan.stop = stop
  induction d.modifiers generalizing stop with
  | nil => rfl
  | cons m modifiers ih =>
    have bar : ('|' : Char).utf8Size = 1 := rfl
    rw [List.foldl_cons, ih, List.flatMap_cons, List.cons_append, Text.width_cons, Text.width_append, bar]
    omega

theorem headEnd_spelled {nameStop head : Cursor} {span : Span} {nameStart : Nat} {value : DirectiveValue}
    (h : nameStop.Reads (modifierText modifiers) head) :
    (⟨span, kind, name, ⟨nameStart, nameStop.offset⟩, modifiers, value⟩ : Directive).headEnd = head.offset := by
  rw [headEnd_eq, h.2]

theorem append_of_splitOn {sep : Char} {cs first : List Char} {more : List (List Char)}
    (h : cs.splitOn sep = first :: more) : cs = first ++ more.flatMap (sep :: ·) := by
  have joined : [sep].intercalate (cs.splitOn sep) = cs := List.intercalate_splitOn sep
  rw [h] at joined
  rw [← joined]
  clear h joined
  induction more generalizing first with
  | nil => simp
  | cons next more ih => simp [List.intercalate_cons_cons, ih]

theorem directiveHead?_eq {full word name : String} {kind : DirectiveKind} {modifiers : List String}
    (h : directiveHead? full = some (kind, word, name, modifiers)) :
    DirectiveKind.ofWord? word = some kind ∧
      full.toList = word.toList ++ [':'] ++ (name.toList ++ modifierText modifiers) := by
  obtain ⟨⟨front, rest⟩, found, h⟩ := Option.bind_eq_some_iff.mp h
  obtain ⟨known, kindOf, h⟩ := Option.bind_eq_some_iff.mp h
  split at h
  · rename_i head tail parts
    cases h
    obtain ⟨first, more, split, rfl, rfl⟩ := List.map_eq_cons_iff.mp parts
    refine ⟨kindOf, ?_⟩
    rw [Text.append_of_breakAt? found, append_of_splitOn split, modifierText, List.flatMap_map]
    simp [String.toList_ofList]
  · cases h

/-- The name of a directive's attribute is read as its word, a colon, its name and its modifiers. -/
theorem directiveHead?_reads {start named : Cursor} {full word name : String} {kind : DirectiveKind} {modifiers : List String}
    (h : directiveHead? full = some (kind, word, name, modifiers)) (reads : start.Reads full.toList named) :
    DirectiveKind.ofWord? (String.ofList word.toList) = some kind ∧ ∃ nameStart nameStop : Cursor,
      start.Reads (word.toList ++ [':']) nameStart ∧ nameStart.Reads name.toList nameStop ∧
        nameStop.Reads (modifierText modifiers) named ∧ start.offset + width word.toList + 1 = nameStart.offset ∧
        nameStart.offset + width name.toList = nameStop.offset := by
  obtain ⟨kindOf, parts⟩ := directiveHead?_eq h
  rw [parts] at reads
  obtain ⟨nameStart, first, rest, offset⟩ := reads.split
  obtain ⟨nameStop, second, third, offset'⟩ := rest.split
  have colon : (':' : Char).utf8Size = 1 := rfl
  refine ⟨by simpa using kindOf, nameStart, nameStop, first, second, third, ?_, offset'.symm⟩
  simp only [offset, Text.width_append, Text.width_cons, Text.width_nil, colon]
  omega

/-- The byte that closes a quoted value is passed, whatever it is. -/
theorem closing_reads {c after : Cursor} {quote : Option Char} {v value : DirectiveValue}
    (h : (if quote.isSome = true then do let d ← c.skipByte; pure (v, d)
      else do let d ← pure c; pure (v, d)) = (.ok (value, after) : Except ScanError _)) :
    v = value ∧ ∃ closing, c.Reads closing after ∧ closing.length = quote.toList.length ∧
      ∀ x ∈ closing, x.utf8Size = 1 := by
  cases quote with
  | none =>
    cases h
    exact ⟨rfl, [], .refl c, rfl, by simp⟩
  | some q =>
    obtain ⟨d, byte, h⟩ := chain_ok.mp h
    cases h
    obtain ⟨x, single, reads⟩ := Cursor.skipByte_reads byte
    exact ⟨rfl, [x], reads, rfl, by simpa using single⟩

theorem opening_reads (c : Cursor) :
    let quote := c.rest.head?.filter fun x => x = '"' || x = '\''
    (∀ q ∈ quote, IsQuote q) ∧ c.Reads quote.toList (if quote.isSome then c.skip 1 else c) := by
  intro quote
  obtain ⟨offset, rest⟩ := c
  cases rest with
  | nil => exact ⟨by simp [quote], .refl _⟩
  | cons x rest =>
    by_cases isQuote : (x = '"' || x = '\'') = true
    · have some : quote = some x := by simp [quote, isQuote]
      rw [some]
      refine ⟨fun q found => ?_, Cursor.skip_reads _ 1⟩
      cases found
      simpa [IsQuote] using isQuote
    · have none : quote = none := by simpa [quote] using isQuote
      rw [none]
      exact ⟨by simp, .refl _⟩

theorem scanValue_valued {c after : Cursor} {value : DirectiveValue} (h : scanValue c = .ok (value, after)) :
    Valued c value after := by
  obtain ⟨isQuote, opening⟩ := opening_reads c
  unfold scanValue at h
  simp only at h
  generalize c.rest.head?.filter (fun x => x = '"' || x = '\'') = quote at h isQuote opening
  generalize (if quote.isSome = true then c.skip 1 else c) = first at h opening
  split at h
  · rename_i brace
    obtain ⟨⟨text, last⟩, inside, h⟩ := chain_ok.mp h
    obtain ⟨rfl, closing, close, size, single⟩ := closing_reads h
    obtain ⟨brace', inner, closed, offset⟩ := (braced_reads inside).split
    rw [← offset]
    exact .expression isQuote (opening.trans (Cursor.skip_mark brace)) inner (closed.trans close) size single
  · obtain ⟨rfl, closing, close, size, single⟩ := closing_reads h
    cases quote with
    | none => exact .text isQuote opening (first.takeWhile_reads _) close size single
    | some q => exact .text isQuote opening (first.takeWhile_reads _) close size single

def isNameChar (x : Char) : Bool := !Text.isBlank x && x ≠ '=' && x ≠ '>' && x ≠ '/'

/-- The value as it is kept in an attribute that is no directive. -/
def DirectiveValue.plain : DirectiveValue → AttributeValue
  | .shorthand => .present
  | .text v => .text v
  | .expression v => .expression v

/-- The attribute that is made of a name and a value between two cursors. -/
inductive Attribute.Made (start after : Cursor) (full : String) (value : DirectiveValue) : Attribute → Prop where
  | plain : Made start after full value (.plain ⟨⟨start.offset, after.offset⟩, full, value.plain⟩)
  | directive : directiveHead? full = some (kind, word, name, modifiers) → Made start after full value
      (.directive ⟨⟨start.offset, after.offset⟩, kind, name, ⟨start.offset + width word.toList + 1,
        start.offset + width word.toList + 1 + width name.toList⟩, modifiers, value⟩)

theorem made_of_name {start after : Cursor} {full : String} {value : DirectiveValue} {result : Attribute × Cursor}
    (h : (match directiveHead? full with
      | some (kind, word, name, modifiers) =>
        let nameStart := start.offset + width word.toList + 1
        pure (.directive ⟨⟨start.offset, after.offset⟩, kind, name,
          ⟨nameStart, nameStart + width name.toList⟩, modifiers, value⟩, after)
      | none =>
        let value := match value with
          | .shorthand => .present
          | .text text => .text text
          | .expression expression => .expression expression
        pure (.plain ⟨⟨start.offset, after.offset⟩, full, value⟩, after)) =
          (.ok result : Except ScanError (Attribute × Cursor))) :
    result.1.Made start after full value ∧ result.2 = after := by
  split at h
  · next head =>
    cases h
    exact ⟨.directive head, rfl⟩
  · cases h
    cases value <;> exact ⟨.plain, rfl⟩

/-- The parts of an attribute: its name, which goes on as long as it can, and its value. -/
theorem scanAttribute_parts {start after : Cursor} {a : Attribute} (h : scanAttribute start = .ok (a, after)) :
    ∃ full named value, start.Reads full.toList named ∧ (∀ x ∈ named.rest.head?, isNameChar x = false) ∧
      Assigned named value after ∧ a.Made start after full value := by
  have name : start.Reads (start.takeWhile isNameChar).1.toList (start.takeWhile isNameChar).2 := by
    rw [Cursor.takeWhile_fst]
    exact start.takeWhile_reads isNameChar
  have stops : ∀ x ∈ (start.takeWhile isNameChar).2.rest.head?, isNameChar x = false := by
    intro x found
    have head := List.head?_dropWhile_not isNameChar start.rest
    rw [show start.rest.dropWhile isNameChar = (start.takeWhile isNameChar).2.rest from rfl, found] at head
    simpa using head
  unfold scanAttribute at h
  simp only at h
  rw [show (fun x => !Text.isBlank x && decide (x ≠ '=') && decide (x ≠ '>') && decide (x ≠ '/')) = isNameChar from rfl] at h
  split at h
  · next equals =>
    obtain ⟨⟨value, stop⟩, scanned, h⟩ := chain_ok.mp h
    have before := (start.takeWhile isNameChar).2.skipBlank_reads
    have behind := ((start.takeWhile isNameChar).2.skipBlank.skip 1).skipBlank_reads
    have sign := (before.trans (Cursor.skip_mark equals)).trans behind
    rw [List.append_assoc] at sign
    obtain ⟨made, rfl⟩ := made_of_name h
    refine ⟨_, _, value, name, stops, .valued ?_ sign (scanValue_valued scanned), made⟩
    exact ⟨_, _, List.all_takeWhile, List.all_takeWhile, rfl⟩
  · obtain ⟨made, same⟩ := made_of_name h
    obtain rfl : after = _ := same
    exact ⟨_, _, .shorthand, name, stops, .shorthand, made⟩

theorem scanAttribute_written {start after : Cursor} {a : Attribute} (h : scanAttribute start = .ok (a, after)) :
    Written start a after := by
  obtain ⟨full, named, value, reads, -, assigned, made⟩ := scanAttribute_parts h
  cases made with
  | plain =>
    obtain ⟨run, rest⟩ := assigned.reads
    exact .plain (reads.trans rest)
  | directive found =>
    obtain ⟨kindOf, nameStart, nameStop, first, second, third, start', stop'⟩ := directiveHead?_reads found reads
    rw [start', stop']
    exact .directive (.mk kindOf first second third assigned)

theorem scanAttributes_listed {fuel : Nat} {c after : Cursor} {as : List Attribute}
    (h : scanAttributes fuel c = .ok (as, after)) : Listed c as after := by
  induction fuel generalizing c as with
  | zero => cases h
  | succ fuel ih =>
    unfold scanAttributes at h
    simp only at h
    split at h
    · cases h
      exact .nil c.skipBlank_reads
    · obtain ⟨⟨first, next⟩, scanned, h⟩ := chain_ok.mp h
      obtain ⟨⟨more, last⟩, rest, h⟩ := chain_ok.mp h
      cases h
      exact .cons c.skipBlank_reads (scanAttribute_written scanned) (ih rest)

end SvelteLens.Markup
