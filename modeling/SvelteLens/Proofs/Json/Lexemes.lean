import Mathlib.Data.List.TakeWhile
import SvelteLens.Json.Token

/-! How the tokens of a JSON text are spelled. Reading the front of a text finds a spelling of the token that it
returns, and finds every token that is spelled there. A number has to end before it can be read, since what follows
it may be taken for more of it. -/
namespace SvelteLens.Json

def IsDigits (cs : List Char) : Prop := cs ≠ [] ∧ ∀ c ∈ cs, c.isDigit = true

/-- A whole number without needless zeros at its front. -/
def IsWhole (cs : List Char) : Prop := cs = ['0'] ∨ IsDigits cs ∧ cs.head? ≠ some '0'

def IsSign (signs cs : List Char) : Prop := cs = [] ∨ ∃ c ∈ signs, cs = [c]

def IsFraction (cs : List Char) : Prop := cs = [] ∨ ∃ ds, IsDigits ds ∧ cs = '.' :: ds

def IsExponent (cs : List Char) : Prop :=
  cs = [] ∨ ∃ e sign ds, (e = 'e' ∨ e = 'E') ∧ IsSign ['+', '-'] sign ∧ IsDigits ds ∧ cs = e :: sign ++ ds

def IsNumber (cs : List Char) : Prop :=
  ∃ sign whole fraction exponent, IsSign ['-'] sign ∧ IsWhole whole ∧ IsFraction fraction ∧ IsExponent exponent ∧
    cs = sign ++ whole ++ fraction ++ exponent

inductive IsBody : List Char → Prop
  | nil : IsBody []
  | plain : c ≠ '"' → c ≠ '\\' → ¬ c.toNat < 0x20 → IsBody cs → IsBody (c :: cs)
  | short : "\"\\/bfnrt".toList.contains c = true → IsBody cs → IsBody ('\\' :: c :: cs)
  | long : [c₁, c₂, c₃, c₄].all isHex = true → IsBody cs → IsBody ('\\' :: 'u' :: c₁ :: c₂ :: c₃ :: c₄ :: cs)

namespace Token

def chars : Token → List Char
  | .mark c => [c]
  | .null => "null".toList
  | .bool true => "true".toList
  | .bool false => "false".toList
  | .number digits => digits.toList
  | .text body => '"' :: body ++ ['"']

/-- A token that can stand in a text. -/
def Proper : Token → Prop
  | .mark c => isMark c = true
  | .number digits => IsNumber digits.toList
  | .text body => IsBody body
  | _ => True

def isNumber : Token → Bool
  | .number _ => true
  | _ => false

end Token

/-- No number that ends here goes on with these characters. -/
def Ends (cs : List Char) : Prop := ∀ c ∈ cs.head?, c.isDigit = false ∧ c ∉ ['.', 'e', 'E']

section Numbers

variable {cs ds rest sign whole fraction exponent : List Char}

theorem ne_of_class {p : Char → Bool} {c d : Char} (inside : p c = true) (outside : p d = false) : c ≠ d := by
  rintro rfl
  simp_all

theorem digits?_append (digits : IsDigits ds) (ends : ∀ c ∈ rest.head?, c.isDigit = false) :
    digits? (ds ++ rest) = some (ds, rest) := by
  have taken : rest.takeWhile Char.isDigit = [] ∧ rest.dropWhile Char.isDigit = rest := by
    cases rest with
    | nil => simp
    | cons c rest => simp [ends c rfl]
  have front : (ds ++ rest).takeWhile Char.isDigit = ds := by
    simp [List.takeWhile_append_of_pos digits.2, taken.1]
  have back : (ds ++ rest).dropWhile Char.isDigit = rest := by
    simp [List.dropWhile_append_of_pos digits.2, taken.2]
  cases ds with
  | nil => exact absurd rfl digits.1
  | cons d ds => simp only [digits?, front, back]

theorem digits?_eq_some (found : digits? cs = some (ds, rest)) : IsDigits ds ∧ cs = ds ++ rest := by
  unfold digits? at found
  split at found
  · cases found
  · next front =>
    cases found
    refine ⟨⟨front, fun c member => List.mem_takeWhile_imp member⟩, ?_⟩
    exact (List.takeWhile_append_dropWhile ..).symm

theorem whole?_append (correct : IsWhole whole) (ends : ∀ c ∈ rest.head?, c.isDigit = false) :
    whole? (whole ++ rest) = some (whole, rest) := by
  rcases correct with rfl | ⟨digits, leading⟩
  · rfl
  · have other : ∀ tail, whole ++ rest = '0' :: tail → False := by
      intro tail same
      cases whole with
      | nil => exact digits.1 rfl
      | cons c whole => simp_all
    simp [whole?.eq_2 _ other, digits?_append digits ends]

theorem whole?_eq_some (found : whole? cs = some (whole, rest)) : IsWhole whole ∧ cs = whole ++ rest := by
  unfold whole? at found
  split at found
  · cases found
    exact ⟨.inl rfl, rfl⟩
  · next other =>
    obtain ⟨digits, rfl⟩ := digits?_eq_some found
    refine ⟨.inr ⟨digits, fun leading => ?_⟩, rfl⟩
    obtain ⟨tail, rfl⟩ := List.head?_eq_some_iff.mp leading
    exact other _ rfl

theorem fraction?_append (correct : IsFraction fraction) (ends : ∀ c ∈ rest.head?, c.isDigit = false ∧ c ≠ '.') :
    fraction? (fraction ++ rest) = some (fraction, rest) := by
  rcases correct with rfl | ⟨ds, digits, rfl⟩
  · cases rest with
    | nil => rfl
    | cons c rest => simp [fraction?, (ends c rfl).2]
  · simp [fraction?, digits?_append digits fun c first => (ends c first).1]

theorem fraction?_eq_some (found : fraction? cs = some (fraction, rest)) :
    IsFraction fraction ∧ cs = fraction ++ rest := by
  unfold fraction? at found
  split at found
  · obtain ⟨⟨ds, after⟩, read, same⟩ := Option.map_eq_some_iff.mp found
    cases same
    obtain ⟨digits, rfl⟩ := digits?_eq_some read
    exact ⟨.inr ⟨ds, digits, rfl⟩, rfl⟩
  · cases found
    exact ⟨.inl rfl, rfl⟩

theorem exponent?_append (correct : IsExponent exponent) (ends : Ends rest) :
    exponent? (exponent ++ rest) = some (exponent, rest) := by
  rcases correct with rfl | ⟨e, sign, ds, marked, signed, digits, rfl⟩
  · cases rest with
    | nil => rfl
    | cons c rest =>
      have other := (ends c rfl).2
      simp_all [exponent?]
  · have read := digits?_append digits fun c first => (ends c first).1
    obtain ⟨d, ds, rfl⟩ := List.exists_cons_of_ne_nil digits.1
    have plus : d ≠ '+' := ne_of_class (digits.2 d (by simp)) (by decide)
    have minus : d ≠ '-' := ne_of_class (digits.2 d (by simp)) (by decide)
    rcases signed with rfl | ⟨c, listed, rfl⟩
    · simp_all [exponent?]
    · simp at listed
      rcases listed with rfl | rfl <;> simp_all [exponent?]

theorem exponent?_eq_some (found : exponent? cs = some (exponent, rest)) :
    IsExponent exponent ∧ cs = exponent ++ rest := by
  cases cs with
  | nil =>
    cases found
    exact ⟨.inl rfl, rfl⟩
  | cons e cs =>
    by_cases marked : e = 'e' ∨ e = 'E'
    · obtain ⟨sign, after, signed, rfl, read⟩ : ∃ sign after, IsSign ['+', '-'] sign ∧ cs = sign ++ after ∧
          (digits? after).map (fun p => (e :: sign ++ p.1, p.2)) = some (exponent, rest) := by
        simp only [exponent?, beq_iff_eq, Bool.or_eq_true, marked, if_true] at found
        split at found
        · exact ⟨_, _, .inr ⟨'+', by simp, rfl⟩, rfl, found⟩
        · exact ⟨_, _, .inr ⟨'-', by simp, rfl⟩, rfl, found⟩
        · exact ⟨_, _, .inl rfl, rfl, found⟩
      obtain ⟨⟨ds, back⟩, reached, same⟩ := Option.map_eq_some_iff.mp read
      cases same
      obtain ⟨digits, rfl⟩ := digits?_eq_some reached
      exact ⟨.inr ⟨e, sign, ds, marked, signed, digits, rfl⟩, by simp⟩
    · simp [exponent?, marked] at found
      obtain ⟨rfl, rfl⟩ := found
      exact ⟨.inl rfl, rfl⟩

theorem head_of_fraction (correct : IsFraction fraction) (ends : ∀ c ∈ rest.head?, c.isDigit = false) :
    ∀ c ∈ (fraction ++ rest).head?, c.isDigit = false := by
  rcases correct with rfl | ⟨ds, -, rfl⟩
  · exact ends
  · simp

theorem head_of_exponent (correct : IsExponent exponent) (ends : Ends rest) :
    ∀ c ∈ (exponent ++ rest).head?, c.isDigit = false ∧ c ≠ '.' := by
  rcases correct with rfl | ⟨e, sign, ds, rfl | rfl, -, -, rfl⟩
  · intro c first
    have other := ends c first
    simp_all
  · simp
  · simp

theorem number?_append (correct : IsNumber cs) (ends : Ends rest) : number? (cs ++ rest) = some (cs, rest) := by
  obtain ⟨sign, whole, fraction, exponent, signed, isWhole, isFraction, isExponent, rfl⟩ := correct
  have behind := head_of_exponent isExponent ends
  have readExponent := exponent?_append isExponent ends
  have readFraction := fraction?_append isFraction behind
  have readWhole := whole?_append isWhole (head_of_fraction isFraction fun c first => (behind c first).1)
  rcases signed with rfl | ⟨c, listed, rfl⟩
  · have unsigned : ∀ tail, whole ++ (fraction ++ (exponent ++ rest)) = '-' :: tail → False := by
      intro tail same
      simp [same, whole?, digits?] at readWhole
    simp [number?, readWhole, readFraction, readExponent]
  · simp at listed
    simp [number?, listed, readWhole, readFraction, readExponent]

theorem number?_eq_some (found : number? cs = some (ds, rest)) : IsNumber ds ∧ cs = ds ++ rest := by
  obtain ⟨sign, after, signed, rfl, read⟩ : ∃ sign after, IsSign ['-'] sign ∧ cs = sign ++ after ∧
      ((whole? after).bind fun w => (fraction? w.2).bind fun f => (exponent? f.2).bind fun e =>
        some (sign ++ w.1 ++ f.1 ++ e.1, e.2)) = some (ds, rest) := by
    simp only [number?] at found
    split at found
    · exact ⟨_, _, .inr ⟨'-', by simp, rfl⟩, rfl, found⟩
    · exact ⟨_, _, .inl rfl, rfl, found⟩
  simp only [Option.bind_eq_some_iff] at read
  obtain ⟨⟨whole, _⟩, readWhole, ⟨fraction, _⟩, readFraction, ⟨exponent, _⟩, readExponent, same⟩ := read
  cases same
  obtain ⟨isWhole, rfl⟩ := whole?_eq_some readWhole
  obtain ⟨isFraction, rfl⟩ := fraction?_eq_some readFraction
  obtain ⟨isExponent, rfl⟩ := exponent?_eq_some readExponent
  exact ⟨⟨sign, whole, fraction, exponent, signed, isWhole, isFraction, isExponent, rfl⟩, by simp⟩

end Numbers

section Bodies

variable {cs body rest : List Char}

theorem body?_append (correct : IsBody body) : body? (body ++ '"' :: rest) = some (body, rest) := by
  induction correct with
  | nil => simp [body?]
  | plain quote slash printed _ ih => simp [body?, slash, printed, ih]
  | @short c _ listed _ ih =>
    have other : c ≠ 'u' := by
      rintro rfl
      simp at listed
    simp_all [body?]
  | long hex _ ih => simp [body?, hex, ih]

theorem body?_eq_some (found : body? cs = some (body, rest)) : IsBody body ∧ cs = body ++ '"' :: rest := by
  fun_induction body? cs generalizing body rest with
  | case1 => cases found
  | case2 rest =>
    cases found
    exact ⟨.nil, rfl⟩
  | case3 a b c d rest hex ih =>
    obtain ⟨⟨body, after⟩, read, same⟩ := Option.map_eq_some_iff.mp found
    cases same
    obtain ⟨correct, rfl⟩ := ih read
    exact ⟨.long hex correct, rfl⟩
  | case5 c rest _ listed ih =>
    obtain ⟨⟨body, after⟩, read, same⟩ := Option.map_eq_some_iff.mp found
    cases same
    obtain ⟨correct, rfl⟩ := ih read
    exact ⟨.short listed correct, rfl⟩
  | case8 c rest quote _ slash printed ih =>
    obtain ⟨⟨body, after⟩, read, same⟩ := Option.map_eq_some_iff.mp found
    cases same
    obtain ⟨correct, rfl⟩ := ih read
    refine ⟨.plain quote ?_ printed correct, rfl⟩
    rintro rfl
    -- A backslash has a character behind it, if only the closing quote.
    have filled : body ++ '"' :: rest ≠ [] := by simp
    obtain ⟨next, tail, same⟩ := List.exists_cons_of_ne_nil filled
    exact slash next tail rfl same
  | _ => cases found

end Bodies

def isNumeral (c : Char) : Bool := c.isDigit || ['+', '-', '.', 'e', 'E'].contains c

theorem IsDigits.numerals {ds : List Char} (digits : IsDigits ds) : ∀ c ∈ ds, isNumeral c = true := by
  intro c member
  simp [isNumeral, digits.2 c member]

theorem IsSign.numerals {signs cs : List Char} (signed : IsSign signs cs) (listed : ∀ c ∈ signs, isNumeral c = true) :
    ∀ c ∈ cs, isNumeral c = true := by
  rcases signed with rfl | ⟨c, member, rfl⟩
  · simp
  · simpa using listed c member

theorem IsNumber.numerals {cs : List Char} (correct : IsNumber cs) : ∀ c ∈ cs, isNumeral c = true := by
  obtain ⟨sign, whole, fraction, exponent, signed, isWhole, isFraction, isExponent, rfl⟩ := correct
  have inSign := signed.numerals (by simp [isNumeral])
  have inWhole : ∀ c ∈ whole, isNumeral c = true := by
    rcases isWhole with rfl | ⟨digits, -⟩
    · simp [isNumeral]
    · exact digits.numerals
  have inFraction : ∀ c ∈ fraction, isNumeral c = true := by
    rcases isFraction with rfl | ⟨ds, digits, rfl⟩
    · simp
    · simpa [isNumeral] using digits.numerals
  have inExponent : ∀ c ∈ exponent, isNumeral c = true := by
    rcases isExponent with rfl | ⟨e, signs, ds, marked, signed, digits, rfl⟩
    · simp
    · have first : isNumeral e = true := by
        rcases marked with rfl | rfl <;> simp [isNumeral]
      have after := signed.numerals (by simp [isNumeral])
      intro c member
      simp at member
      rcases member with rfl | member | member
      · exact first
      · exact after c member
      · exact digits.numerals c member
  intro c member
  simp only [List.mem_append] at member
  rcases member with ((member | member) | member) | member
  · exact inSign c member
  · exact inWhole c member
  · exact inFraction c member
  · exact inExponent c member

theorem IsNumber.ne_nil {cs : List Char} (correct : IsNumber cs) : cs ≠ [] := by
  obtain ⟨sign, whole, fraction, exponent, -, isWhole, -, -, rfl⟩ := correct
  rcases isWhole with rfl | ⟨⟨filled, -⟩, -⟩ <;> simp_all

namespace Token

variable {t : Token} {cs rest : List Char}

theorem next?_of_numeral {c : Char} (numeral : isNumeral c = true) :
    next? (c :: cs) = (number? (c :: cs)).map fun (cs, rest) => (.number (String.ofList cs), rest) := by
  have noMark : ¬ isMark c = true := by
    intro mark
    simp [isMark] at mark
    rcases mark with rfl | rfl | rfl | rfl | rfl | rfl <;> simp [isNumeral] at numeral
  have noNull : c ≠ 'n' := ne_of_class numeral (by decide)
  have noTrue : c ≠ 't' := ne_of_class numeral (by decide)
  have noFalse : c ≠ 'f' := ne_of_class numeral (by decide)
  have noText : c ≠ '"' := ne_of_class numeral (by decide)
  have front := next?.eq_5 c cs (fun _ same => absurd same noNull) (fun _ same => absurd same noTrue)
    (fun _ same => absurd same noFalse) noText
  simp [front, noMark]

theorem next?_append (proper : t.Proper) (ends : t.isNumber = true → Ends rest) :
    next? (t.chars ++ rest) = some (t, rest) := by
  cases t with
  | mark c =>
    simp [Proper, isMark] at proper
    rcases proper with rfl | rfl | rfl | rfl | rfl | rfl <;> rfl
  | null => rfl
  | bool b => cases b <;> rfl
  | number digits =>
    have read := number?_append proper (ends rfl)
    obtain ⟨c, tail, spelled⟩ := List.exists_cons_of_ne_nil proper.ne_nil
    have numeral : isNumeral c = true := proper.numerals c (by simp [spelled])
    simp only [chars, spelled, List.cons_append] at read ⊢
    simp [next?_of_numeral numeral, read, spelled.symm]
  | text body => simp [chars, next?, body?_append proper]

theorem next?_eq_some (found : next? cs = some (t, rest)) : t.Proper ∧ cs = t.chars ++ rest := by
  unfold next? at found
  split at found
  · cases found
    exact ⟨trivial, rfl⟩
  · cases found
    exact ⟨trivial, rfl⟩
  · cases found
    exact ⟨trivial, rfl⟩
  · obtain ⟨⟨body, after⟩, read, same⟩ := Option.map_eq_some_iff.mp found
    cases same
    obtain ⟨correct, rfl⟩ := body?_eq_some read
    exact ⟨correct, by simp [chars]⟩
  · split at found
    · next mark =>
      cases found
      exact ⟨mark, rfl⟩
    · obtain ⟨⟨digits, after⟩, read, same⟩ := Option.map_eq_some_iff.mp found
      cases same
      obtain ⟨correct, spelled⟩ := number?_eq_some read
      exact ⟨by simpa [Proper] using correct, by simpa [chars] using spelled⟩
  · cases found

end Token

end SvelteLens.Json
