import Mathlib.Data.List.Infix

/-! The names in a text that begin with a mark. A name is a longest run of letters, digits and underscores, so
a character of another kind is an edge that no name crosses. -/
namespace SvelteLens.Text

def isWordPart (c : Char) : Bool := c.isAlphanum || c == '_'

/-- From each occurrence of a mark on, the longest run of letters, digits and underscores. -/
def markedWords (mark : List Char) : List Char → List (List Char)
  | [] => []
  | c :: cs =>
    let rest := markedWords mark cs
    if mark.isPrefixOf (c :: cs) then (c :: cs).takeWhile isWordPart :: rest else rest

variable {mark : List Char}

theorem mem_markedWords (filled : mark ≠ []) {text word : List Char} :
    word ∈ markedWords mark text ↔
      ∃ before rest, text = before ++ rest ∧ mark <+: rest ∧ word = rest.takeWhile isWordPart := by
  induction text with
  | nil =>
    refine ⟨nofun, ?_⟩
    rintro ⟨before, rest, split, starts, -⟩
    rw [(List.append_eq_nil_iff.mp split.symm).2] at starts
    exact absurd (List.prefix_nil.mp starts) filled
  | cons c cs ih =>
    have unfolded : word ∈ markedWords mark (c :: cs) ↔
        (mark <+: c :: cs ∧ word = (c :: cs).takeWhile isWordPart) ∨ word ∈ markedWords mark cs := by
      rw [markedWords]
      by_cases starts : mark.isPrefixOf (c :: cs)
      · rw [if_pos starts, List.mem_cons, ← List.isPrefixOf_iff_prefix]
        simp only [starts, true_and]
      · rw [if_neg starts, ← List.isPrefixOf_iff_prefix]
        simp only [starts, Bool.false_eq_true, false_and, false_or]
    rw [unfolded, ih]
    constructor
    · rintro (⟨starts, same⟩ | ⟨before, rest, rfl, found⟩)
      · exact ⟨[], _, rfl, starts, same⟩
      · exact ⟨c :: before, rest, rfl, found⟩
    · rintro ⟨before, rest, split, starts, same⟩
      cases before with
      | nil =>
        obtain rfl : c :: cs = rest := split
        exact .inl ⟨starts, same⟩
      | cons d before =>
        obtain ⟨-, rfl⟩ := List.cons.inj split
        exact .inr ⟨before, rest, rfl, starts, same⟩

theorem markedWords_eq_nil (filled : mark ≠ []) {text : List Char} :
    markedWords mark text = [] ↔ ¬mark <:+: text := by
  rw [List.eq_nil_iff_forall_not_mem]
  constructor
  · rintro none ⟨before, after, rfl⟩
    refine none _ ((mem_markedWords filled).mpr ⟨before, mark ++ after, ?_, List.prefix_append _ _, rfl⟩)
    rw [List.append_assoc]
  · rintro absent word member
    obtain ⟨before, rest, rfl, ⟨after, rfl⟩, -⟩ := (mem_markedWords filled).mp member
    exact absent ⟨before, after, List.append_assoc ..⟩

/-- A mark of word characters does not reach over a character of another kind. -/
theorem prefix_before_edge (whole : ∀ c ∈ mark, isWordPart c = true) {c : Char} (edge : isWordPart c = false)
    (before after : List Char) : mark <+: before ++ c :: after ↔ mark <+: before := by
  refine ⟨fun starts => ?_, fun starts => starts.trans (List.prefix_append _ _)⟩
  by_cases short : mark.length ≤ before.length
  · exact List.prefix_of_prefix_length_le starts (List.prefix_append _ _) short
  · have reaches : before ++ [c] <+: before ++ c :: after := (List.prefix_append_right_inj before).mpr ⟨after, rfl⟩
    have inside : before ++ [c] <+: mark :=
      List.prefix_of_prefix_length_le reaches starts (by simp only [List.length_append, List.length_singleton]; omega)
    have member : c ∈ mark := inside.subset (List.mem_append_right _ List.mem_cons_self)
    rw [whole c member] at edge
    cases edge

theorem takeWhile_before_edge {c : Char} (edge : isWordPart c = false) (before after : List Char) :
    (before ++ c :: after).takeWhile isWordPart = before.takeWhile isWordPart := by
  induction before with
  | nil => rw [List.nil_append, List.takeWhile_cons, edge]; rfl
  | cons d before ih => rw [List.cons_append, List.takeWhile_cons, List.takeWhile_cons, ih]

theorem markedWords_edge (filled : mark ≠ []) (whole : ∀ c ∈ mark, isWordPart c = true) {c : Char}
    (edge : isWordPart c = false) (before after : List Char) :
    markedWords mark (before ++ c :: after) = markedWords mark before ++ markedWords mark after := by
  have prefixes (before : List Char) : mark.isPrefixOf (before ++ c :: after) = mark.isPrefixOf before := by
    rw [Bool.eq_iff_iff, List.isPrefixOf_iff_prefix, List.isPrefixOf_iff_prefix]
    exact prefix_before_edge whole edge before after
  induction before with
  | nil =>
    have none : mark.isPrefixOf (c :: after) = false := by
      rw [← Bool.not_eq_true, List.isPrefixOf_iff_prefix, ← List.nil_append (c :: after),
        prefix_before_edge whole edge]
      exact fun starts => filled (List.prefix_nil.mp starts)
    simp only [List.nil_append, markedWords, none, Bool.false_eq_true, if_false]
  | cons d before ih =>
    have words : (d :: (before ++ c :: after)).takeWhile isWordPart = (d :: before).takeWhile isWordPart :=
      takeWhile_before_edge edge (d :: before) after
    have starts : mark.isPrefixOf (d :: (before ++ c :: after)) = mark.isPrefixOf (d :: before) := prefixes (d :: before)
    rw [List.cons_append, markedWords, markedWords, starts, words, ih]
    split <;> rfl

def startsApart (text : List Char) : Bool := text.head?.any fun c => !isWordPart c
def endsApart (text : List Char) : Bool := text.getLast?.any fun c => !isWordPart c

theorem startsApart_append {a : List Char} (starts : startsApart a = true) (b : List Char) :
    startsApart (a ++ b) = true := by
  obtain ⟨c, first, apart⟩ := (Option.any_eq_true _ _).mp starts
  rw [startsApart, List.head?_append, first]
  exact apart

theorem endsApart_append (a : List Char) {b : List Char} (ends : endsApart b = true) : endsApart (a ++ b) = true := by
  obtain ⟨c, last, apart⟩ := (Option.any_eq_true _ _).mp ends
  rw [endsApart, List.getLast?_append, last]
  exact apart

/-- Texts that meet at an edge keep their words. -/
theorem markedWords_append (filled : mark ≠ []) (whole : ∀ c ∈ mark, isWordPart c = true) {a b : List Char}
    (edge : endsApart a = true ∨ startsApart b = true) :
    markedWords mark (a ++ b) = markedWords mark a ++ markedWords mark b := by
  rcases edge with ends | starts
  · obtain ⟨c, last, apart⟩ := (Option.any_eq_true _ _).mp ends
    obtain ⟨front, rfl⟩ := List.getLast?_eq_some_iff.mp last
    have edge : isWordPart c = false := by simpa using apart
    rw [List.append_assoc, List.singleton_append, markedWords_edge filled whole edge,
      markedWords_edge filled whole edge front [], markedWords, List.append_nil]
  · obtain ⟨c, first, apart⟩ := (Option.any_eq_true _ _).mp starts
    obtain ⟨rest, rfl⟩ := List.head?_eq_some_iff.mp first
    have edge : isWordPart c = false := by simpa using apart
    rw [markedWords_edge filled whole edge, ← List.nil_append (c :: rest), markedWords_edge filled whole edge [] rest,
      markedWords, List.nil_append]

end SvelteLens.Text
