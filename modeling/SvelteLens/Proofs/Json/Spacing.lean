import SvelteLens.Proofs.Json.Lexemes
import SvelteLens.Proofs.Json.Grammar

/-! The texts of a list of tokens. What may stand between two tokens is a parameter: blanks in strict JSON, more in
the files that people write. The reader of strict JSON finds the tokens of its texts and of no others. -/
namespace SvelteLens.Json

/-- What may stand between two tokens. None is for the ends of a text. -/
abbrev Separator := Option Token → Option Token → List Char → Prop

/-- A text of the tokens that follow a token. -/
inductive Written (between : Separator) : Option Token → List Token → List Char → Prop
  | done : between prev none gap → Written between prev [] gap
  | token : between prev (some t) gap → Written between (some t) ts cs →
      Written between prev (t :: ts) (gap ++ (t.chars ++ cs))

def Blank (cs : List Char) : Prop := ∀ c ∈ cs, isBlank c = true

/-- Between the tokens of strict JSON are blanks and nothing else. -/
def Spaced : Separator := fun _ _ gap => Blank gap

/-- Strict JSON and its tokens. -/
structure Strict (ts : List Token) (text : String) : Prop where
  spells : Spells .value ts
  proper : ∀ t ∈ ts, t.Proper
  written : Written Spaced none ts text.toList

theorem isBlank_le {c : Char} (blank : isBlank c = true) : c.toNat ≤ 0x20 := by
  simp [isBlank] at blank
  rcases blank with ((rfl | rfl) | rfl) | rfl <;> decide

theorem isNumeral_bounds {c : Char} (numeral : isNumeral c = true) : 0x20 < c.toNat ∧ c.toNat < 0x7F := by
  simp only [isNumeral, Bool.or_eq_true, List.contains_iff_mem, List.mem_cons, List.not_mem_nil, or_false] at numeral
  rcases numeral with digit | rfl | rfl | rfl | rfl | rfl
  · have range : '0'.toNat ≤ c.toNat ∧ c.toNat ≤ '9'.toNat := Char.isDigit_iff_toNat.mp digit
    simp only [Char.reduceToNat] at range
    omega
  all_goals decide

theorem Token.Proper.front {t : Token} (proper : t.Proper) :
    ∃ c cs, t.chars = c :: cs ∧ 0x20 < c.toNat ∧ c.toNat < 0x7F := by
  cases t with
  | mark c =>
    simp [Proper, isMark] at proper
    rcases proper with rfl | rfl | rfl | rfl | rfl | rfl <;> exact ⟨_, _, rfl, by decide, by decide⟩
  | null => exact ⟨_, _, rfl, by decide, by decide⟩
  | bool b => cases b <;> exact ⟨_, _, rfl, by decide, by decide⟩
  | number digits =>
    obtain ⟨c, cs, spelled⟩ := List.exists_cons_of_ne_nil (IsNumber.ne_nil proper)
    exact ⟨c, cs, spelled, isNumeral_bounds (IsNumber.numerals proper c (by simp [spelled]))⟩
  | text body => exact ⟨_, _, rfl, by decide, by decide⟩

section Reading

variable {prev : Option Token} {ts : List Token} {gap cs : List Char}

theorem Ends.cons {c : Char} (digit : c.isDigit = false) (other : c ∉ ['.', 'e', 'E']) : Ends (c :: cs) := by
  intro d first
  cases first
  exact ⟨digit, other⟩

theorem Blank.ends (blank : Blank gap) (ends : Ends cs) : Ends (gap ++ cs) := by
  cases gap with
  | nil => exact ends
  | cons c gap =>
    have first := blank c (by simp)
    simp [isBlank] at first
    rcases first with ((rfl | rfl) | rfl) | rfl <;> exact .cons (by decide) (by decide)

theorem Token.Proper.ends {t : Token} (proper : t.Proper) (mark : t.isPunctuation = true) : Ends (t.chars ++ cs) := by
  cases t with
  | mark c =>
    simp [Proper, isMark] at proper
    rcases proper with rfl | rfl | rfl | rfl | rfl | rfl <;> exact .cons (by decide) (by decide)
  | _ => cases mark

theorem Written.ends (written : Written Spaced prev ts cs) (proper : ∀ t ∈ ts, t.Proper)
    (marked : ∀ t ∈ ts.head?, t.isPunctuation = true) : Ends cs := by
  cases written with
  | done blank => simpa using Blank.ends blank (show Ends [] by simp [Ends])
  | token blank _ => exact Blank.ends blank ((proper _ (by simp)).ends (marked _ rfl))

theorem tokensWithin_gap (blank : Blank gap) {n : Nat} : tokensWithin n (gap ++ cs) = tokensWithin n cs := by
  rw [tokensWithin.eq_1 n (gap ++ cs), tokensWithin.eq_1 n cs, List.dropWhile_append_of_pos blank]

theorem tokensWithin_token {t : Token} (proper : t.Proper) (ends : t.isNumber = true → Ends cs) {n : Nat} :
    tokensWithin (n + 1) (t.chars ++ cs) = (tokensWithin n cs).map (t :: ·) := by
  obtain ⟨c, tail, spelled, visible, -⟩ := proper.front
  have solid : isBlank c = false := by
    by_contra blank
    have := isBlank_le (by simpa using blank)
    omega
  have next := Token.next?_append proper ends
  simp only [spelled, List.cons_append] at next ⊢
  rw [tokensWithin.eq_1]
  cases rest : tokensWithin n cs <;> simp [solid, next, rest]

/-- A text of tokens is read as these tokens. -/
theorem Written.read (written : Written Spaced prev ts cs) (proper : ∀ t ∈ ts, t.Proper)
    (chain : ts.IsChain Token.Meets) {n : Nat} (enough : cs.length ≤ n) : tokensWithin n cs = some ts := by
  induction written generalizing n with
  | @done prev gap blank =>
    have none : gap.dropWhile isBlank = [] := List.dropWhile_eq_nil_iff.mpr blank
    cases n <;> simp [tokensWithin, none]
  | @token prev t gap ts cs blank written ih =>
    obtain ⟨c, tail, spelled, -⟩ := (proper t (by simp)).front
    obtain ⟨meets, rest⟩ := List.isChain_cons.mp chain
    have others : ∀ u ∈ ts, u.Proper := fun u member => proper u (by simp [member])
    -- Behind a number stands punctuation, since the number is none.
    have ends : t.isNumber = true → Ends cs := by
      intro number
      refine written.ends others fun u first => ?_
      cases t <;> simp_all [Token.isNumber, Token.Meets, Token.isPunctuation]
    rw [tokensWithin_gap blank]
    cases n with
    | zero => simp [spelled] at enough
    | succ n =>
      have shorter : cs.length ≤ n := by
        simp [spelled] at enough
        omega
      simp [tokensWithin_token (proper t (by simp)) ends, ih others rest shorter]

/-- What is read as tokens is a text of these tokens. -/
theorem written_of_read {n : Nat} (found : tokensWithin n cs = some ts) :
    (∀ t ∈ ts, t.Proper) ∧ Written Spaced prev ts cs := by
  induction n generalizing prev ts cs with
  | zero =>
    rw [tokensWithin.eq_1] at found
    split at found
    · next blank =>
      cases found
      exact ⟨by simp, .done (List.dropWhile_eq_nil_iff.mp blank)⟩
    · cases found
  | succ n ih =>
    rw [tokensWithin.eq_1] at found
    split at found
    · next blank =>
      cases found
      exact ⟨by simp, .done (List.dropWhile_eq_nil_iff.mp blank)⟩
    · obtain ⟨⟨t, rest⟩, next, going⟩ := Option.bind_eq_some_iff.mp found
      obtain ⟨ts, read, same⟩ := Option.bind_eq_some_iff.mp going
      cases same
      obtain ⟨proper, split⟩ := Token.next?_eq_some next
      obtain ⟨others, written⟩ : (∀ u ∈ ts, u.Proper) ∧ Written Spaced (some t) ts rest := ih read
      have blank : Blank (cs.takeWhile isBlank) := fun c member => List.mem_takeWhile_imp member
      have whole : cs = cs.takeWhile isBlank ++ (t.chars ++ rest) := by
        rw [← split, List.takeWhile_append_dropWhile]
      rw [whole]
      exact ⟨by simpa using ⟨proper, others⟩, .token blank written⟩

/-- Strict JSON is what the reader of values takes. -/
theorem strict_iff {text : String} :
    Strict ts text ↔ (Value.ofText? text).isSome = true ∧ tokens? text.toList = some ts := by
  constructor
  · intro strict
    have read := strict.written.read strict.proper strict.spells.tidy.chain (Nat.le_refl _)
    exact ⟨Value.ofText?_isSome_iff.mpr ⟨ts, read, strict.spells⟩, read⟩
  · rintro ⟨value, read⟩
    obtain ⟨us, again, spells⟩ := Value.ofText?_isSome_iff.mp value
    cases read.symm.trans again
    obtain ⟨proper, written⟩ := written_of_read read
    exact ⟨spells, proper, written⟩

end Reading

end SvelteLens.Json
