import SvelteLens.Config.ProjectFile
import SvelteLens.Proofs.Path.Normal
import SvelteLens.Proofs.Text.Cuts

/-! Directories that are written as patterns. A pattern without a star or a dot in its last part is read as the glob
for everything below it, any other as it stands, and a glob of plain characters matches no text but its own. So a
directory with a dot in its name takes none of its files. -/
namespace SvelteLens.Config

open SvelteLens.Path (Nameable lastWord)

section Bytes

theorem eq_of_utf8EncodeChar {c d : Char} {xs ys : List UInt8}
    (same : String.utf8EncodeChar c ++ xs = String.utf8EncodeChar d ++ ys) : c = d := by
  have encoded (c : Char) (xs : List UInt8) :
      (String.utf8EncodeChar c ++ xs).toByteArray = [c].utf8Encode ++ xs.toByteArray := by
    rw [List.toByteArray_append, List.utf8Encode, List.flatMap_singleton]
  have decoded := congrArg (fun bs : List UInt8 => bs.toByteArray.utf8DecodeChar? 0) same
  rw [encoded, encoded, List.utf8DecodeChar?_utf8Encode_singleton_append,
    List.utf8DecodeChar?_utf8Encode_singleton_append] at decoded
  exact Option.some.inj decoded

theorem prefix_of_bytes {a b : List Char} (leads : Text.bytes a <+: Text.bytes b) : a <+: b := by
  induction a generalizing b with
  | nil => exact List.nil_prefix
  | cons c a ih =>
    obtain ⟨rest, whole⟩ := leads
    rw [Text.bytes_cons, List.append_assoc] at whole
    cases b with
    | nil => exact absurd (List.append_eq_nil_iff.mp whole).1 String.utf8EncodeChar_ne_nil
    | cons d b =>
      rw [Text.bytes_cons] at whole
      obtain rfl := eq_of_utf8EncodeChar whole
      exact List.cons_prefix_cons.mpr ⟨rfl, ih ⟨rest, List.append_cancel_left whole⟩⟩

end Bytes

namespace Glob

/-- Characters that a pattern reads as themselves. -/
def Plain (cs : List Char) : Prop := ∀ c ∈ cs, c ∉ ['*', '?', '[', '\x7b', '\x7d', '\\']

-- by the list itself, not by a search through all characters
instance (cs : List Char) : Decidable (Plain cs) := List.decidableBAll _ cs

def literals (cs : List Char) : List Token := cs.map .literal

section Reading

theorem readWithin_literal {c : Char} (plain : c ∉ ['*', '?', '[', '\x7b', '\x7d', '\\']) (n : Nat) (branch : List Token)
    (last : Option Char) (cs : List Char) :
    readWithin (n + 1) ⟨[branch], [], last⟩ (c :: cs) = readWithin n ⟨[.literal c :: branch], [], some c⟩ cs := by
  rw [readWithin.eq_def]
  dsimp only
  split
  all_goals first | exact absurd plain (by decide) | rfl

theorem readWithin_plain {cs : List Char} (plain : Plain cs) (n : Nat) (branch : List Token) (last : Option Char)
    (rest : List Char) : readWithin (cs.length + n) ⟨[branch], [], last⟩ (cs ++ rest) =
      readWithin n ⟨[(literals cs).reverse ++ branch], [], cs.getLast?.or last⟩ rest := by
  induction cs generalizing branch last with
  | nil => simp [literals]
  | cons c cs ih =>
    have more : (c :: cs).length + n = cs.length + n + 1 := by simp only [List.length_cons]; omega
    have tail := ih (fun d member => plain d (List.mem_cons_of_mem c member)) (.literal c :: branch) (some c)
    have ends : (c :: cs).getLast?.or last = cs.getLast?.or (some c) := by
      cases cs with
      | nil => rfl
      | cons d cs => simp [List.getLast?_cons]
    rw [more, List.cons_append, readWithin_literal (plain c List.mem_cons_self), tail, ends]
    simp [literals]

theorem ofText?_plain {text : String} (plain : Plain text.toList) : ofText? text = some (literals text.toList) := by
  have read := readWithin_plain plain 0 [] none []
  rw [List.append_nil, Nat.add_zero, List.append_nil] at read
  have length : text.length = text.toList.length := String.length_toList.symm
  rw [ofText?, length, Reading.start, read]
  simp [readWithin]

theorem ofText?_below {body : List Char} (plain : Plain body) :
    ofText? (String.ofList (body ++ "/**/*".toList)) = some (literals body ++ [.between, .many]) := by
  have read := readWithin_plain plain 5 [] none "/**/*".toList
  have length : (String.ofList (body ++ "/**/*".toList)).length = body.length + 5 := by
    rw [String.length_ofList, List.length_append]
    rfl
  have ends : readWithin 5 ⟨[(literals body).reverse ++ []], [], body.getLast?.or none⟩ "/**/*".toList =
      some ⟨[.many :: .between :: (literals body).reverse], [], some '*'⟩ := by
    rw [List.append_nil]
    rfl
  rw [ofText?, length, String.toList_ofList, Reading.start, read, ends]
  simp

end Reading

section Matching

theorem mem_after {lead bs rest : List UInt8} : rest ∈ after lead bs ↔ bs = lead ++ rest := by
  induction lead generalizing bs with
  | nil => simp [after, eq_comm]
  | cons a lead ih =>
    cases bs with
    | nil => simp [after]
    | cons b bs =>
      rw [after]
      split
      · next same => simp [ih, same]
      · next other => simp [Ne.symm other]

theorem nil_mem_suffixes (bs : List UInt8) : [] ∈ suffixes bs := by
  induction bs with
  | nil => exact List.mem_cons_self
  | cons b bs ih => exact List.mem_cons_of_mem _ ih

theorem mem_restsOfAll {ts : List Token} {texts : List (List UInt8)} {rest : List UInt8} :
    rest ∈ restsOfAll ts texts ↔ ∃ bs ∈ texts, rest ∈ restsOfAll ts [bs] := by
  induction ts generalizing texts with
  | nil => simp [restsOfAll]
  | cons t ts ih =>
    rw [restsOfAll, ih]
    simp only [restsOfAll, List.mem_eraseDups, List.mem_flatMap]
    constructor
    · rintro ⟨bs, ⟨first, member, left⟩, taken⟩
      exact ⟨first, member, ih.mpr ⟨bs, by simpa using left, taken⟩⟩
    · rintro ⟨first, member, taken⟩
      obtain ⟨bs, left, taken⟩ := ih.mp taken
      exact ⟨bs, ⟨first, member, by simpa using left⟩, taken⟩

theorem mem_restsOfAll_cons {t : Token} {ts : List Token} {bs rest : List UInt8} :
    rest ∈ restsOfAll (t :: ts) [bs] ↔ ∃ left ∈ t.rests bs, rest ∈ restsOfAll ts [left] := by
  rw [restsOfAll, mem_restsOfAll]
  simp

theorem mem_restsOfAll_literals {cs : List Char} {ts : List Token} {bs rest : List UInt8} :
    rest ∈ restsOfAll (literals cs ++ ts) [bs] ↔
      ∃ left, bs = Text.bytes cs ++ left ∧ rest ∈ restsOfAll ts [left] := by
  induction cs generalizing bs with
  | nil => simp [literals, Text.bytes]
  | cons c cs ih =>
    have split : literals (c :: cs) ++ ts = .literal c :: (literals cs ++ ts) := rfl
    rw [split, mem_restsOfAll_cons]
    simp only [Token.rests, mem_after, ih, Text.bytes_cons, List.append_assoc]
    constructor
    · rintro ⟨behind, rfl, left, rfl, taken⟩
      exact ⟨left, rfl, taken⟩
    · rintro ⟨left, rfl, taken⟩
      exact ⟨_, rfl, left, rfl, taken⟩

theorem nil_mem_restsOfAll_below {bs : List UInt8} :
    [] ∈ restsOfAll [.between, .many] [bs] ↔ ∃ rest, bs = separator :: rest := by
  have every (bs : List UInt8) : [] ∈ restsOfAll [.many] [bs] :=
    mem_restsOfAll_cons.mpr ⟨[], nil_mem_suffixes bs, by simp [restsOfAll]⟩
  rw [mem_restsOfAll_cons]
  simp only [Token.rests, List.mem_flatMap, mem_after, List.singleton_append]
  constructor
  · rintro ⟨-, ⟨rest, whole, -⟩, -⟩
    exact ⟨rest, whole⟩
  · rintro ⟨rest, rfl⟩
    exact ⟨rest, ⟨rest, rfl, List.mem_cons_self⟩, every rest⟩

theorem matchesText_plain {body : List Char} {text : String} :
    matchesText (literals body) text = true ↔ text.toList = body := by
  have tokens : matchesText (literals body) text = (restsOfAll (literals body) [Text.bytes text.toList]).contains [] := by
    unfold matchesText
    split
    · next whole => cases body <;> cases whole
    · rfl
  have whole : [] ∈ restsOfAll (literals body ++ []) [Text.bytes text.toList] ↔
      ∃ left, Text.bytes text.toList = Text.bytes body ++ left ∧ [] ∈ restsOfAll [] [left] := mem_restsOfAll_literals
  rw [List.append_nil] at whole
  rw [tokens, List.contains_iff_mem, whole]
  constructor
  · rintro ⟨left, same, taken⟩
    obtain rfl : left = [] := by simpa [restsOfAll, eq_comm] using taken
    rw [List.append_nil] at same
    simpa using congrArg String.toList (Text.eq_of_bytes (a := text) (b := String.ofList body) (by simpa using same))
  · rintro rfl
    exact ⟨[], (List.append_nil _).symm, by simp [restsOfAll]⟩

/-- A directory with everything below it matches what stands behind it and a separator. -/
theorem matchesText_below {body : List Char} {text : String} :
    matchesText (literals body ++ [.between, .many]) text = true ↔ body ++ ['/'] <+: text.toList := by
  have tokens : matchesText (literals body ++ [.between, .many]) text =
      (restsOfAll (literals body ++ [.between, .many]) [Text.bytes text.toList]).contains [] := by
    unfold matchesText
    split
    · next whole =>
      have length := congrArg List.length whole
      simp at length
    · rfl
  have lead (rest : List UInt8) : Text.bytes (body ++ ['/']) ++ rest = Text.bytes body ++ separator :: rest := by
    rw [Text.bytes_append, List.append_assoc]
    rfl
  rw [tokens, List.contains_iff_mem, mem_restsOfAll_literals]
  simp only [nil_mem_restsOfAll_below]
  constructor
  · rintro ⟨left, same, rest, rfl⟩
    exact prefix_of_bytes ⟨rest, (lead rest).trans same.symm⟩
  · rintro ⟨rest, whole⟩
    refine ⟨separator :: Text.bytes rest, ?_, Text.bytes rest, rfl⟩
    rw [← whole, Text.bytes_append, lead]

end Matching

end Glob

namespace Libraries

/-- Whether a pattern takes a text, a path below the root of its project. -/
def takes (libs : Libraries) (pattern text : String) : Bool := (libs.glob? (ProjectFile.globText pattern)).any (· text)

def IsGlob (libs : Libraries) (pattern : String) : Prop := (libs.glob? (ProjectFile.globText pattern)).isSome = true

/-- What is asked of a reader of globs: plain characters take their own text alone, and a plain directory with everything
below it takes what stands behind the directory and a separator. -/
structure ReadsGlobs (libs : Libraries) : Prop where
  plain {text : String} : Glob.Plain text.toList → ∃ takes, libs.glob? text = some takes ∧ ∀ t, takes t = true ↔ t = text
  below {body : List Char} : Glob.Plain body → ∃ takes, libs.glob? (String.ofList (body ++ "/**/*".toList)) = some takes ∧
    ∀ t : String, takes t = true ↔ body ++ ['/'] <+: t.toList

theorem standard_readsGlobs : standard.ReadsGlobs where
  plain plain := ⟨_, congrArg (·.map Glob.matchesText) (Glob.ofText?_plain plain), fun t => by
    rw [Glob.matchesText_plain, String.toList_inj]⟩
  below plain := ⟨_, congrArg (·.map Glob.matchesText) (Glob.ofText?_below plain), fun _ => Glob.matchesText_below⟩

end Libraries

/-- A directory below the root, written as plain names: dots in front of it and separators behind it do not count. -/
structure DirectoryEntry (entry : String) (names : List String) : Prop where
  filled : names ≠ []
  nameable : ∀ n ∈ names, Nameable n.toList
  plain : ∀ n ∈ names, Glob.Plain n.toList
  spelled : ∃ dots separators : Nat, entry.toList =
    (List.replicate dots ['.', '/']).flatten ++ (("/".intercalate names).toList ++ List.replicate separators '/')

/-- The last name of a directory reads as the name of a file. -/
def Dotted (names : List String) : Prop := ∃ n ∈ names.getLast?, '.' ∈ n.toList

instance (names : List String) : Decidable (Dotted names) :=
  inferInstanceAs (Decidable (∃ n ∈ names.getLast?, '.' ∈ n.toList))

section Written

variable {libs : Libraries} {entry : String} {names more : List String}

theorem dropHere_dots (dots : Nat) (cs : List Char) :
    ProjectFile.dropHere ((List.replicate dots ['.', '/']).flatten ++ cs) = ProjectFile.dropHere cs := by
  induction dots with
  | zero => rfl
  | succ dots ih => rw [List.replicate_succ, List.flatten_cons, List.append_assoc]; exact ih

theorem dropHere_name {name : List Char} (nameable : Nameable name) (tail : List Char) :
    ProjectFile.dropHere (name ++ tail) = name ++ tail := by
  unfold ProjectFile.dropHere
  split
  · next cs same =>
    exfalso
    cases name with
    | nil => exact nameable.filled rfl
    | cons c name =>
      obtain ⟨rfl, behind⟩ := List.cons_eq_cons.mp (show c :: (name ++ tail) = '.' :: '/' :: cs from same)
      cases name with
      | nil => exact nameable.notHere rfl
      | cons d name =>
        obtain ⟨rfl, -⟩ := List.cons_eq_cons.mp (show d :: (name ++ tail) = '/' :: cs from behind)
        exact nameable.whole (List.mem_cons_of_mem _ List.mem_cons_self)
  · rfl

theorem intercalate_first (first : String) (rest : List String) :
    first.toList <+: ("/".intercalate (first :: rest)).toList := by
  cases rest with
  | nil => simp
  | cons second rest => simp [String.intercalate_cons_cons]

theorem dropWhile_separators {text name : List Char} (ends : Path.EndsIn text name) (nameable : Nameable name) (n : Nat) :
    ((text ++ List.replicate n '/').reverse.dropWhile (· = '/')).reverse = text := by
  obtain ⟨front, rfl, -⟩ := ends
  have kept : ((front ++ name).reverse.dropWhile (· = '/')) = (front ++ name).reverse := by
    rw [List.reverse_append]
    cases whole : name.reverse with
    | nil => exact absurd (List.reverse_eq_nil_iff.mp whole) nameable.filled
    | cons c cs =>
      have member : c ∈ name := List.mem_reverse.mp (whole ▸ List.mem_cons_self)
      have other : c ≠ '/' := fun same => nameable.whole (same ▸ member)
      rw [List.cons_append, List.dropWhile_cons_of_neg (by simpa using other)]
  rw [List.reverse_append, List.dropWhile_append_of_pos, kept, List.reverse_reverse]
  simp

theorem mem_intercalate {c : Char} (member : c ∈ ("/".intercalate names).toList) : c = '/' ∨ ∃ n ∈ names, c ∈ n.toList := by
  induction names with
  | nil => simp at member
  | cons first rest ih =>
    cases rest with
    | nil => exact .inr ⟨first, List.mem_cons_self, by simpa using member⟩
    | cons second rest =>
      rw [String.intercalate_cons_cons, String.toList_append, String.toList_append] at member
      simp only [List.mem_append] at member
      rcases member with (own | separator) | later
      · exact .inr ⟨first, List.mem_cons_self, own⟩
      · exact .inl (by simpa using separator)
      · obtain same | ⟨n, listed, inside⟩ := ih later
        · exact .inl same
        · exact .inr ⟨n, List.mem_cons_of_mem _ listed, inside⟩

namespace DirectoryEntry

variable (h : DirectoryEntry entry names)
include h

theorem plain_text : Glob.Plain ("/".intercalate names).toList := by
  intro c member
  rcases mem_intercalate member with rfl | ⟨n, listed, inside⟩
  · decide
  · exact h.plain n listed c inside

/-- The glob of a directory: everything below it, or the name as it stands when a dot is in it. -/
theorem globText_eq : ProjectFile.globText entry = String.ofList
    (if Dotted names then ("/".intercalate names).toList else ("/".intercalate names).toList ++ "/**/*".toList) := by
  obtain ⟨dots, separators, spelled⟩ := h.spelled
  obtain ⟨first, rest, split⟩ := List.exists_cons_of_ne_nil h.filled
  obtain ⟨front, last, split'⟩ := (List.eq_nil_or_concat names).resolve_left h.filled
  rw [List.concat_eq_append] at split'
  have final : names.getLast? = some last := by rw [split', List.getLast?_concat]
  have isName : Nameable last.toList := h.nameable last (List.mem_of_getLast? final)
  have ends : Path.EndsIn ("/".intercalate names).toList last.toList := split' ▸ Path.endsIn_intercalate front last
  have begun : ProjectFile.dropHere entry.toList =
      ("/".intercalate names).toList ++ List.replicate separators '/' := by
    obtain ⟨tail, whole⟩ := intercalate_first first rest
    rw [spelled, dropHere_dots, split, ← whole, List.append_assoc]
    exact dropHere_name (h.nameable first (split ▸ List.mem_cons_self)) _
  have starless : '*' ∉ last.toList := fun member => h.plain last (List.mem_of_getLast? final) '*' member (by decide)
  have word : ("/".intercalate names).toList.reverse.takeWhile (· ≠ '/') = last.toList.reverse := by
    rw [← ends.lastWord_eq isName.whole, lastWord, List.reverse_reverse]
  have dotted : Dotted names ↔ '.' ∈ last.toList := by simp [Dotted, final]
  unfold ProjectFile.globText
  dsimp only
  rw [begun, dropWhile_separators ends isName, word]
  by_cases here : '.' ∈ last.toList
  · rw [if_pos (dotted.mpr here), if_pos (by simp [here])]
  · rw [if_neg (mt dotted.mp here), if_neg (by simp [here, starless])]

/-- A directory is always a glob. It takes what is written below it, and one with a dot in its name the text of that name
alone. -/
theorem glob_reads (reads : libs.ReadsGlobs) : ∃ takes, libs.glob? (ProjectFile.globText entry) = some takes ∧
    ∀ text : String, takes text = true ↔
      if Dotted names then text = "/".intercalate names else ("/".intercalate names).toList ++ ['/'] <+: text.toList := by
  rw [h.globText_eq]
  split
  · rw [String.ofList_toList]
    exact reads.plain h.plain_text
  · exact reads.below h.plain_text

theorem isGlob (reads : libs.ReadsGlobs) : libs.IsGlob entry := by
  obtain ⟨takes, read, -⟩ := h.glob_reads reads
  rw [Libraries.IsGlob, read, Option.isSome_some]

theorem takes_iff (reads : libs.ReadsGlobs) (text : String) : libs.takes entry text = true ↔
    if Dotted names then text = "/".intercalate names else ("/".intercalate names).toList ++ ['/'] <+: text.toList := by
  obtain ⟨takes, read, taken⟩ := h.glob_reads reads
  rw [Libraries.takes, read, Option.any_some, taken]

theorem takes_below (reads : libs.ReadsGlobs) (inside : more ≠ []) :
    libs.takes entry ("/".intercalate (names ++ more)) = true ↔ ¬Dotted names := by
  have longer : ("/".intercalate names).toList ++ '/' :: ("/".intercalate more).toList =
      ("/".intercalate (names ++ more)).toList := by
    rw [String.intercalate_append_of_ne_nil h.filled inside]
    simp
  rw [h.takes_iff reads]
  split
  · next dotted =>
    refine iff_of_false (fun same => ?_) (not_not.mpr dotted)
    have length := congrArg (List.length ∘ String.toList) same
    simp only [Function.comp_apply, ← longer, List.length_append, List.length_cons] at length
    omega
  · next bare => exact iff_of_true ⟨("/".intercalate more).toList, by rw [← longer]; simp⟩ bare

end DirectoryEntry

end Written

end SvelteLens.Config
