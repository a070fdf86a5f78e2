import SvelteLens.Proofs.Edit.Stretches
import SvelteLens.Proofs.Projection.Regions

/-! What the wrapper around a stretch of markup encloses: everything from the first character that is not
blank through the last one. -/
namespace SvelteLens

open Text (width)

namespace Text

/-- The part of a stretch between two offsets that is left without the blanks at its ends. -/
structure Trimmed (text : List Char) (start stop first last : Nat) : Prop where
  lead : BlankBetween text start first
  trail : BlankBetween text last stop
  opens : ∃ before x after, text = before ++ x :: after ∧ width before = first ∧ isBlank x = false
  closes : ∃ before x after, text = before ++ x :: after ∧ width before + x.utf8Size = last ∧ isBlank x = false
  order : first < last

/-- What is left of a text starts and ends with characters that are not blank. -/
theorem trim_ends (cs : List Char) {x : Char} {run : List Char} :
    ((trim cs).2 = x :: run → isBlank x = false) ∧ ((trim cs).2 = run ++ [x] → isBlank x = false) := by
  have solid {ds rest : List Char} {y : Char} (found : ds.dropWhile isBlank = y :: rest) : isBlank y = false := by
    have stops := List.head?_dropWhile_not isBlank ds
    rw [found] at stops
    simpa using stops
  constructor
  · intro starts
    -- what is left is a prefix of what follows the blanks in front
    have whole := (List.takeWhile_append_dropWhile (p := isBlank) (l := (cs.dropWhile isBlank).reverse))
    have turned := congrArg List.reverse whole
    rw [List.reverse_append, List.reverse_reverse] at turned
    have body : ((cs.dropWhile isBlank).reverse.dropWhile isBlank).reverse = x :: run := starts
    rw [body] at turned
    exact solid turned.symm
  · intro ends
    have body : ((cs.dropWhile isBlank).reverse.dropWhile isBlank).reverse = run ++ [x] := ends
    have turned := congrArg List.reverse body
    rw [List.reverse_reverse, List.reverse_append] at turned
    exact solid turned

/-- A stretch of text is blank, or there is something left when it is trimmed. -/
theorem trim_cases {text region : List Char} {start stop : Nat} (cut : slice? text start stop = some region) :
    (trim region).2 = [] ∧ BlankBetween text start stop ∨ (trim region).2 ≠ [] ∧
      Trimmed text start stop (start + (trim region).1) (start + (trim region).1 + width (trim region).2) := by
  obtain ⟨front, back, whole, rfl, rfl⟩ := slice?_eq_some_iff.mp cut
  obtain ⟨lead, trail, parts, leading, blank, blank'⟩ := trim_parts region
  obtain ⟨starts, ends⟩ : (∀ x run, (trim region).2 = x :: run → isBlank x = false) ∧
      ∀ x run, (trim region).2 = run ++ [x] → isBlank x = false :=
    ⟨fun _ _ => (trim_ends region).1, fun _ _ => (trim_ends region).2⟩
  rw [← leading]
  generalize (trim region).2 = body at parts starts ends ⊢
  subst parts
  by_cases empty : body = []
  · subst empty
    refine .inl ⟨rfl, front, lead ++ ([] ++ trail), back, whole, rfl, rfl, ?_⟩
    rw [List.nil_append, List.all_append, blank, blank']
    rfl
  · refine .inr ⟨empty, ?_, ?_, ?_, ?_, Nat.lt_add_of_pos_right (width_pos empty)⟩
    · exact ⟨front, lead, body ++ (trail ++ back), by rw [whole]; simp only [List.append_assoc], rfl, rfl, blank⟩
    · refine ⟨front ++ (lead ++ body), trail, back, by rw [whole]; simp only [List.append_assoc], ?_, ?_, blank'⟩
      · rw [width_append, width_append, Nat.add_assoc]
      · simp only [width_append]
        omega
    · obtain ⟨x, rest, rfl⟩ := List.exists_cons_of_ne_nil empty
      refine ⟨front ++ lead, x, rest ++ (trail ++ back), ?_, width_append front lead, starts x rest rfl⟩
      rw [whole]
      simp only [List.append_assoc, List.cons_append]
    · obtain ⟨rest, x, rfl⟩ := (List.eq_nil_or_concat body).resolve_left empty
      rw [List.concat_eq_append] at ends whole ⊢
      refine ⟨front ++ (lead ++ rest), x, trail ++ back, ?_, ?_, ends x rest rfl⟩
      · rw [whole]
        simp only [List.append_assoc, List.cons_append, List.nil_append]
      · simp only [width_append, width_cons, width_nil]
        omega

theorem BlankBetween.order {text : List Char} {start stop : Nat} (h : BlankBetween text start stop) : start ≤ stop := by
  obtain ⟨_, gap, _, _, _, rfl, _⟩ := h
  exact Nat.le_add_right _ _

theorem Trimmed.upper {text : List Char} {start stop first last : Nat} (h : Trimmed text start stop first last) :
    last ≤ width text := by
  obtain ⟨before, x, after, rfl, rfl, _⟩ := h.closes
  simp only [width_append, width_cons]
  omega

end Text

namespace Projection

open Edit

def wrapper (first last : Nat) : List Command :=
  [.insertBefore first markupOpening, .insertAfter last markupClosing]

/-- A stretch is left alone when it cannot be cut out or is blank. Anything else is wrapped once. -/
theorem wrapPlan_cases (source : String) (start stop : Nat) :
    ((wrapPlan source start stop).commands = [] ∧
      (Text.slice? source.toList start (max stop start) = none ∨ Text.BlankBetween source.toList start (max stop start))) ∨
    ∃ first last, Text.Trimmed source.toList start (max stop start) first last ∧
      (wrapPlan source start stop).commands = wrapper first last := by
  unfold wrapPlan
  split
  · next uncut => exact .inl ⟨rfl, .inl uncut⟩
  · next region cut =>
    simp only
    rcases Text.trim_cases cut with ⟨empty, blank⟩ | ⟨filled, trimmed⟩
    · rw [if_pos (by rw [empty]; rfl)]
      exact .inl ⟨rfl, .inr blank⟩
    · rw [if_neg (by simpa using filled)]
      exact .inr ⟨_, _, trimmed, rfl⟩

theorem markupPlan_attached {source : String} {start : Nat} {blocks : List Span} {i : Insertion}
    (member : i ∈ insertions (markupPlan source start blocks).commands) : i.Attached (width source.toList) := by
  have once {start stop : Nat} (member : i ∈ insertions (wrapPlan source start stop).commands) :
      i.Attached (width source.toList) := by
    rcases wrapPlan_cases source start stop with ⟨none, _⟩ | ⟨first, last, trimmed, made⟩
    · rw [none] at member
      cases member
    · rw [made] at member
      rcases List.mem_pair.mp member with rfl | rfl
      · exact .inl ⟨rfl, Nat.lt_of_lt_of_le trimmed.order trimmed.upper⟩
      · exact .inr ⟨rfl, Nat.zero_lt_of_lt trimmed.order⟩
  induction blocks generalizing start with
  | nil => exact once member
  | cons block blocks ih =>
    rw [markupPlan, Plan.commands_append, insertions, List.filterMap_append] at member
    exact (List.mem_append.mp member).elim once ih

end Projection
end SvelteLens
