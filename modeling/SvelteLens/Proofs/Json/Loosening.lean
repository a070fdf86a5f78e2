import Mathlib.Data.List.Infix
import SvelteLens.Json.Relaxed
import SvelteLens.Proofs.Json.Spacing

/-! Comments and last commas leave the tokens of a JSON text alone. The passes are followed one after the other. The
first leaves blanks and commas between tokens, the second leaves blanks, and both keep every token as it is written.
A comment may stand between a comma and its bracket, so that a comma is seen to be the last one only when the comments
are gone. -/
namespace SvelteLens.Json

/-- Blanks and comments that end. -/
inductive Gap : List Char → Prop
  | nil : Gap []
  | blank : isBlank c = true → Gap cs → Gap (c :: cs)
  | block : ¬ ['*', '/'] <:+: body → Gap cs → Gap ('/' :: '*' :: body ++ '*' :: '/' :: cs)
  | line : '\n' ∉ body → Gap cs → Gap ('/' :: '/' :: body ++ '\n' :: cs)

/-- What people write between tokens. A comma may stand before the bracket that closes what is not empty, and the last
comment may end with the text. -/
inductive Loose : Separator
  | gap : Gap gap → Loose prev next gap
  | comma : Gap before → Gap after → t.opens = false → u.closes = true →
      Loose (some t) (some u) (before ++ ',' :: after)
  | unfinished : Gap gap → '\n' ∉ body → Loose prev none (gap ++ '/' :: '/' :: body)

/-- What is left between tokens without the comments. -/
inductive Bare : Separator
  | gap : Blank gap → Bare prev next gap
  | comma : Blank before → Blank after → u.closes = true → Bare (some t) (some u) (before ++ ',' :: after)

/-- The body of a string for one who looks for its end: a backslash hides the character behind it. -/
inductive Quoted : List Char → Prop
  | nil : Quoted []
  | plain : c ≠ '"' → c ≠ '\\' → Quoted cs → Quoted (c :: cs)
  | escape : Quoted cs → Quoted ('\\' :: c :: cs)

theorem IsBody.quoted {body : List Char} (correct : IsBody body) : Quoted body := by
  induction correct with
  | nil => exact .nil
  | plain quote slash _ _ ih => exact .plain quote slash ih
  | short _ _ ih => exact .escape ih
  | long hex _ ih =>
    simp only [List.all_cons, List.all_nil, Bool.and_true, Bool.and_eq_true] at hex
    obtain ⟨first, second, third, fourth⟩ := hex
    have keep {c cs} (digit : isHex c = true) : Quoted cs → Quoted (c :: cs) :=
      .plain (ne_of_class digit (by decide)) (ne_of_class digit (by decide))
    exact .escape (keep first (keep second (keep third (keep fourth ih))))

/-- Only strings have quotes and slashes, and a comma is a token by itself. -/
theorem Token.Proper.text_or_plain {t : Token} (proper : t.Proper) :
    (∃ body, t = .text body) ∨ ∀ c ∈ t.chars, c ≠ '"' ∧ c ≠ '/' ∧ (c = ',' → t = .mark ',') := by
  cases t with
  | mark c =>
    simp [Proper, isMark] at proper
    rcases proper with rfl | rfl | rfl | rfl | rfl | rfl <;> simp [chars]
  | null => simp [chars]
  | bool b => cases b <;> simp [chars]
  | number digits =>
    refine .inr fun c member => ?_
    have numeral := IsNumber.numerals proper c member
    exact ⟨ne_of_class numeral (by decide), ne_of_class numeral (by decide),
      fun comma => absurd comma (ne_of_class numeral (by decide))⟩
  | text body => exact .inl ⟨body, rfl⟩

section Comments

variable {gap body cs rest : List Char} {t : Token} {prev next : Option Token} {ts : List Token}

theorem dropComments_append (plain : ∀ c ∈ cs, c ≠ '"' ∧ c ≠ '/') :
    dropComments (cs ++ rest) = cs ++ dropComments rest := by
  induction cs with
  | nil => rfl
  | cons c cs ih =>
    obtain ⟨quote, slash⟩ := plain c (by simp)
    simp [dropComments, slash, ih fun d member => plain d (by simp [member])]

theorem dropComments_blank (blank : Blank gap) (rest : List Char) :
    dropComments (gap ++ rest) = gap ++ dropComments rest := by
  apply dropComments_append
  intro c member
  exact ⟨ne_of_class (blank c member) (by decide), ne_of_class (blank c member) (by decide)⟩

theorem dropCommentsInText_append (quoted : Quoted body) :
    dropCommentsInText (body ++ '"' :: rest) = body ++ '"' :: dropComments rest := by
  induction quoted with
  | nil => simp [dropCommentsInText]
  | plain quote slash _ ih => simp [dropCommentsInText, slash, ih]
  | escape _ ih => simp [dropCommentsInText, ih]

theorem dropComments_token (proper : t.Proper) : dropComments (t.chars ++ rest) = t.chars ++ dropComments rest := by
  rcases proper.text_or_plain with ⟨body, rfl⟩ | plain
  · simp [Token.chars, dropComments, dropCommentsInText_append (IsBody.quoted proper)]
  · exact dropComments_append fun c member => ⟨(plain c member).1, (plain c member).2.1⟩

theorem dropBlockComment_closed (closed : ¬ ['*', '/'] <:+: body) :
    dropBlockComment (body ++ '*' :: '/' :: rest) = dropComments rest := by
  induction body with
  | nil => simp [dropBlockComment]
  | cons c body ih =>
    have later := ih fun inside => closed (List.infix_cons inside)
    have front : ∀ tail, c = '*' → body ++ '*' :: '/' :: rest = '/' :: tail → False := by
      rintro tail rfl same
      cases body with
      | nil => cases same
      | cons d body =>
        cases same
        exact closed (List.IsPrefix.isInfix (by simp))
    simpa [dropBlockComment] using later

theorem dropLineComment_append (ends : '\n' ∉ body) :
    dropLineComment (body ++ '\n' :: rest) = '\n' :: dropComments rest := by
  induction body with
  | nil => simp [dropLineComment]
  | cons c body ih =>
    have other : c ≠ '\n' := by rintro rfl; simp at ends
    simpa [dropLineComment] using ih fun member => ends (by simp [member])

theorem dropLineComment_unfinished (ends : '\n' ∉ body) : dropLineComment body = [] := by
  induction body with
  | nil => rfl
  | cons c body ih =>
    have other : c ≠ '\n' := by rintro rfl; simp at ends
    simpa [dropLineComment] using ih fun member => ends (by simp [member])

theorem Gap.blanks_left (gap : Gap cs) :
    ∃ blanks, Blank blanks ∧ ∀ rest, dropComments (cs ++ rest) = blanks ++ dropComments rest := by
  induction gap with
  | nil => exact ⟨[], by simp [Blank], fun _ => rfl⟩
  | @blank c cs blank _ ih =>
    obtain ⟨blanks, left, drop⟩ := ih
    have single : Blank [c] := by simpa [Blank] using blank
    refine ⟨c :: blanks, by simpa [Blank] using ⟨blank, left⟩, fun rest => ?_⟩
    simpa [drop] using dropComments_blank single (cs ++ rest)
  | @block body cs closed _ ih =>
    obtain ⟨blanks, left, drop⟩ := ih
    exact ⟨blanks, left, fun rest => by simp [dropComments, dropBlockComment_closed closed, drop]⟩
  | @line body cs ends _ ih =>
    obtain ⟨blanks, left, drop⟩ := ih
    refine ⟨'\n' :: blanks, by simpa [Blank] using ⟨rfl, left⟩, fun rest => ?_⟩
    simp [dropComments, dropLineComment_append ends, drop]

theorem Loose.bare_left (loose : Loose prev next cs) :
    ∃ gap, Bare prev next gap ∧
      ∀ rest, (next = none → rest = []) → dropComments (cs ++ rest) = gap ++ dropComments rest := by
  cases loose with
  | gap gap =>
    obtain ⟨blanks, left, drop⟩ := gap.blanks_left
    exact ⟨blanks, .gap left, fun rest _ => drop rest⟩
  | @comma before after t u front back _ closes =>
    obtain ⟨blanks, left, drop⟩ := front.blanks_left
    obtain ⟨others, also, dropOthers⟩ := back.blanks_left
    refine ⟨blanks ++ ',' :: others, .comma left also closes, fun rest _ => ?_⟩
    simp [drop, dropComments, dropOthers]
  | @unfinished gap body _ front ends =>
    obtain ⟨blanks, left, drop⟩ := front.blanks_left
    refine ⟨blanks, .gap left, fun rest last => ?_⟩
    simp [last rfl, drop, dropComments, dropLineComment_unfinished ends]

/-- The first pass keeps the tokens and leaves nothing but blanks and commas between them. -/
theorem Written.without_comments (written : Written Loose prev ts cs) (proper : ∀ t ∈ ts, t.Proper) :
    Written Bare prev ts (dropComments cs) := by
  induction written with
  | @done prev gap loose =>
    obtain ⟨left, bare, drop⟩ := loose.bare_left
    have whole : dropComments gap = left := by simpa [dropComments] using drop [] fun _ => rfl
    exact whole ▸ .done bare
  | @token prev t gap ts cs loose _ ih =>
    obtain ⟨left, bare, drop⟩ := loose.bare_left
    rw [drop _ (by simp), dropComments_token (proper t (by simp))]
    exact .token bare (ih fun u member => proper u (by simp [member]))

/-- Strict JSON has no comments. -/
theorem Written.dropComments_eq (written : Written Spaced prev ts cs) (proper : ∀ t ∈ ts, t.Proper) :
    dropComments cs = cs := by
  induction written with
  | done blank => simpa [dropComments] using dropComments_blank blank []
  | @token prev t gap ts cs blank _ ih =>
    rw [dropComments_blank blank, dropComments_token (proper t (by simp)),
      ih fun u member => proper u (by simp [member])]

end Comments

section Commas

variable {gap body cs rest : List Char} {t : Token} {prev next : Option Token} {ts : List Token}

theorem isBlank_text {c : Char} (blank : isBlank c = true) : Text.isBlank c = true := by
  simp [isBlank] at blank
  rcases blank with ((rfl | rfl) | rfl) | rfl <;> rfl

theorem closesNext_gap (blank : Blank gap) (cs : List Char) : closesNext (gap ++ cs) = closesNext cs := by
  unfold closesNext
  rw [List.dropWhile_append_of_pos fun c member => isBlank_text (blank c member)]

theorem closesNext_numeral {c : Char} (numeral : isNumeral c = true) : closesNext (c :: cs) = false := by
  obtain ⟨lower, upper⟩ := isNumeral_bounds numeral
  have solid : Text.isBlank c = false := by
    simp [Text.isBlank]
    omega
  have square : c ≠ ']' := ne_of_class numeral (by decide)
  have curly : c ≠ '\x7d' := ne_of_class numeral (by decide)
  unfold closesNext
  split <;> simp_all

theorem closesNext_token (proper : t.Proper) : closesNext (t.chars ++ cs) = t.closes := by
  cases t with
  | mark c =>
    simp [Token.Proper, isMark] at proper
    rcases proper with rfl | rfl | rfl | rfl | rfl | rfl <;> rfl
  | null => rfl
  | bool b => cases b <;> rfl
  | number digits =>
    obtain ⟨c, tail, spelled⟩ := List.exists_cons_of_ne_nil (IsNumber.ne_nil proper)
    have numeral : isNumeral c = true := IsNumber.numerals proper c (by simp [spelled])
    simp [Token.chars, Token.closes, spelled, closesNext_numeral numeral]
  | text body => rfl

theorem dropTrailingCommas_append (plain : ∀ c ∈ cs, c ≠ '"' ∧ c ≠ ',') :
    dropTrailingCommas (cs ++ rest) = cs ++ dropTrailingCommas rest := by
  induction cs with
  | nil => rfl
  | cons c cs ih =>
    obtain ⟨quote, comma⟩ := plain c (by simp)
    simp [dropTrailingCommas, ih fun d member => plain d (by simp [member])]

theorem dropTrailingCommas_blank (blank : Blank gap) (rest : List Char) :
    dropTrailingCommas (gap ++ rest) = gap ++ dropTrailingCommas rest := by
  apply dropTrailingCommas_append
  intro c member
  exact ⟨ne_of_class (blank c member) (by decide), ne_of_class (blank c member) (by decide)⟩

theorem dropTrailingCommasInText_append (quoted : Quoted body) :
    dropTrailingCommasInText (body ++ '"' :: rest) = body ++ '"' :: dropTrailingCommas rest := by
  induction quoted with
  | nil => simp [dropTrailingCommasInText]
  | plain quote slash _ ih => simp [dropTrailingCommasInText, slash, ih]
  | escape _ ih => simp [dropTrailingCommasInText, ih]

theorem dropTrailingCommas_token (proper : t.Proper) (more : t = .mark ',' → closesNext rest = false) :
    dropTrailingCommas (t.chars ++ rest) = t.chars ++ dropTrailingCommas rest := by
  rcases proper.text_or_plain with ⟨body, rfl⟩ | plain
  · simp [Token.chars, dropTrailingCommas, dropTrailingCommasInText_append (IsBody.quoted proper)]
  · by_cases comma : t = .mark ','
    · simp [comma, Token.chars, dropTrailingCommas, more comma]
    · exact dropTrailingCommas_append fun c member =>
        ⟨(plain c member).1, fun same => comma ((plain c member).2.2 same)⟩

/-- No bracket follows a comma of a value: another comma before the bracket is written behind something else. -/
theorem Written.more_behind (written : Written Bare (some t) ts cs) (proper : ∀ u ∈ ts, u.Proper)
    (chain : (t :: ts).IsChain Token.Meets) (comma : t = .mark ',') : closesNext cs = false := by
  have meets := (List.isChain_cons.mp chain).1
  cases written with
  | done bare =>
    cases bare with
    | gap blank => simpa [closesNext] using closesNext_gap blank []
  | @token _ u gap ts cs bare _ =>
    have closes : u.closes = false := (meets u rfl).2 comma
    cases bare with
    | gap blank => rw [closesNext_gap blank, closesNext_token (proper u (by simp)), closes]
    | comma _ _ closing => simp [closes] at closing

/-- The second pass keeps the tokens and leaves nothing but blanks between them. -/
theorem Written.without_commas (written : Written Bare prev ts cs) (proper : ∀ t ∈ ts, t.Proper)
    (chain : ts.IsChain Token.Meets) : Written Spaced prev ts (dropTrailingCommas cs) := by
  induction written with
  | @done prev gap bare =>
    cases bare with
    | gap blank =>
      have whole : dropTrailingCommas gap = gap := by
        simpa [dropTrailingCommas] using dropTrailingCommas_blank blank []
      exact whole.symm ▸ .done blank
  | @token prev t gap ts cs bare written ih =>
    have here : t.Proper := proper t (by simp)
    have others : ∀ u ∈ ts, u.Proper := fun u member => proper u (by simp [member])
    have kept := dropTrailingCommas_token here (written.more_behind others chain)
    have left := ih others chain.tail
    cases bare with
    | gap blank =>
      rw [dropTrailingCommas_blank blank, kept]
      exact .token blank left
    | @comma before after p _ front back closes =>
      -- The comma is dropped for the bracket behind it, and the blanks on both sides come together.
      have last : closesNext (after ++ (t.chars ++ cs)) = true := by
        rw [closesNext_gap back, closesNext_token here, closes]
      have dropped : dropTrailingCommas (before ++ ',' :: after ++ (t.chars ++ cs)) =
          (before ++ after) ++ (t.chars ++ dropTrailingCommas cs) := by
        simp [dropTrailingCommas_blank front, dropTrailingCommas, last, dropTrailingCommas_blank back, kept]
      rw [dropped]
      have blank : Blank (before ++ after) := fun c member => (List.mem_append.mp member).elim (front c) (back c)
      exact .token blank left

theorem Written.bare (written : Written Spaced prev ts cs) : Written Bare prev ts cs := by
  induction written with
  | done blank => exact .done (.gap blank)
  | token blank _ ih => exact .token (.gap blank) ih

/-- Strict JSON has no commas before brackets. -/
theorem Written.dropTrailingCommas_eq (written : Written Spaced prev ts cs) (proper : ∀ t ∈ ts, t.Proper)
    (chain : ts.IsChain Token.Meets) : dropTrailingCommas cs = cs := by
  induction written with
  | done blank => simpa [dropTrailingCommas] using dropTrailingCommas_blank blank []
  | @token prev t gap ts cs blank written ih =>
    have others : ∀ u ∈ ts, u.Proper := fun u member => proper u (by simp [member])
    have kept := dropTrailingCommas_token (proper t (by simp)) (written.bare.more_behind others chain)
    rw [dropTrailingCommas_blank blank, kept, ih others chain.tail]

end Commas

section Reading

variable {ts : List Token} {strict relaxed : String}

/-- What the passes leave of a loose text is strict JSON with the same tokens. -/
theorem Strict.plain (isStrict : Strict ts strict) (loose : Written Loose none ts relaxed.toList) :
    Strict ts (plain relaxed) := by
  have bare := loose.without_comments isStrict.proper
  have spaced := bare.without_commas isStrict.proper isStrict.spells.tidy.chain
  exact ⟨isStrict.spells, isStrict.proper, by simpa [Json.plain] using spaced⟩

/-- The value of a text depends on its tokens alone. -/
theorem Strict.same_value (isStrict : Strict ts strict) (also : Strict ts relaxed) :
    Value.ofText? strict = Value.ofText? relaxed := by
  simp [Value.ofText?, (strict_iff.mp isStrict).2, (strict_iff.mp also).2]

/-- JSON with comments and last commas is read like the strict JSON of the same tokens, and the passes leave strict
JSON as it is. -/
theorem relaxed_reads_strict (isStrict : Strict ts strict) (loose : Written Loose none ts relaxed.toList) :
    Strict ts (plain relaxed) ∧ tokens? (plain relaxed).toList = some ts ∧
      (∃ v, Value.ofText? strict = some v ∧ Value.ofText? (plain relaxed) = some v) ∧
      dropComments strict.toList = strict.toList ∧ dropTrailingCommas strict.toList = strict.toList := by
  have left := isStrict.plain loose
  obtain ⟨v, value⟩ := Option.isSome_iff_exists.mp (strict_iff.mp isStrict).1
  refine ⟨left, (strict_iff.mp left).2, ⟨v, value, ?_⟩, ?_, ?_⟩
  · rw [← isStrict.same_value left, value]
  · exact isStrict.written.dropComments_eq isStrict.proper
  · exact isStrict.written.dropTrailingCommas_eq isStrict.proper isStrict.spells.tidy.chain

/-- The tokens of an object whose one string has comment marks, a comma, a bracket and a quote. -/
def markedTokens : List Token :=
  [.mark '\x7b', .text "a".toList, .mark ':', .mark '[', .text "/*,]*/\\\"//".toList, .mark ']', .mark '\x7d']

/-- Comments with a comma and a bracket in them stand between a comma and its bracket, and another one ends the text. -/
theorem relaxed_reads_strict_marked :
    let strict := "\x7b\"a\": [\"/*,]*/\\\"//\"]\x7d"
    let relaxed := "\x7b\"a\"/**/:[\"/*,]*/\\\"//\"/* ,] */,//]\n],\x7d//\x7d"
    Strict markedTokens strict ∧ Written Loose none markedTokens relaxed.toList ∧
      Strict markedTokens (plain relaxed) ∧ tokens? (plain relaxed).toList = some markedTokens ∧
      (∃ v, Value.ofText? strict = some v ∧ Value.ofText? (plain relaxed) = some v) ∧
      dropComments strict.toList = strict.toList ∧ dropTrailingCommas strict.toList = strict.toList := by
  intro strict relaxed
  have isStrict : Strict markedTokens strict := strict_iff.mpr ⟨by decide +kernel, by decide +kernel⟩
  have next (t : Token) {p ts cs} (rest : Written Loose (some t) ts cs) : Written Loose p (t :: ts) (t.chars ++ cs) :=
    .token (.gap .nil) rest
  have colon : Loose (some (.text "a".toList)) (some (.mark ':')) "/**/".toList :=
    .gap (@Gap.block [] [] (by decide) .nil)
  have block : Gap "/* ,] */".toList := @Gap.block " ,] ".toList [] (by decide +kernel) .nil
  have line : Gap "//]\n".toList := @Gap.line "]".toList [] (by decide +kernel) .nil
  have inner : Loose (some (.text "/*,]*/\\\"//".toList)) (some (.mark ']')) "/* ,] */,//]\n".toList :=
    .comma block line rfl rfl
  have outer : Loose (some (.mark ']')) (some (.mark '\x7d')) ",".toList := .comma .nil .nil rfl rfl
  have ending : Loose (some (.mark '\x7d')) none "//\x7d".toList :=
    @Loose.unfinished [] "\x7d".toList _ .nil (by decide)
  have written : Written Loose none markedTokens _ :=
    next (.mark '\x7b') <| next (.text "a".toList) <| .token colon <| next (.mark '[') <|
      next (.text "/*,]*/\\\"//".toList) <| .token inner <| .token outer <| .done ending
  have loose : Written Loose none markedTokens relaxed.toList := by
    apply Eq.subst (motive := Written Loose none markedTokens) _ written
    decide +kernel
  exact ⟨isStrict, loose, relaxed_reads_strict isStrict loose⟩

end Reading

end SvelteLens.Json
