import Mathlib.Data.List.TakeWhile
import SvelteLens.Proofs.Projection.Helpers
import SvelteLens.Script.Token

/-! The name of a component's class. It is made of the letters, digits and underscores of the file's name, and these are
not the characters of an identifier: circled letters and some vowel signs are letters that start none, and raised digits
and fractions are numbers that continue none. -/
namespace SvelteLens

open Text (isAlphabetic isAlphanumeric isIdentifierStart isIdentifierPart)

def isKept (c : Char) : Bool := isAlphanumeric c || c == '_'

/-- An identifier: a character that may start one, then characters that may continue it. -/
def IsIdentifier (name : List Char) : Prop :=
  ∃ first rest, name = first :: rest ∧ isIdentifierStart first = true ∧ rest.all isIdentifierPart = true

/-- The first letter of a stem may start an identifier, and what is kept behind it may continue one. -/
def Nominal (stem : String) : Prop :=
  ∀ first rest, stem.toList.dropWhile (!isAlphabetic ·) = first :: rest →
    isIdentifierStart first = true ∧ (rest.filter isKept).all isIdentifierPart = true

section Capitals

theorem isLower_toUpper (c : Char) : c.toUpper.isLower = false := by
  unfold Char.toUpper Char.isLower
  grind

theorem isAlpha_of_bounds {c : Char} (lower : 65 ≤ c.toNat) (upper : c.toNat ≤ 90 ∨ 97 ≤ c.toNat ∧ c.toNat ≤ 122) :
    c.toNat < 0x80 ∧ c.isAlpha = true := by
  change 65 ≤ c.val.toNat at lower
  change c.val.toNat ≤ 90 ∨ 97 ≤ c.val.toNat ∧ c.val.toNat ≤ 122 at upper
  refine ⟨show c.val.toNat < 0x80 by omega, ?_⟩
  refine Bool.or_eq_true_iff.mpr (upper.imp (fun below => ?_) fun between => ?_)
  · change decide ('A'.val ≤ c.val ∧ c.val ≤ 'Z'.val) = true
    exact decide_eq_true ⟨UInt32.le_iff_toNat_le.mpr lower, UInt32.le_iff_toNat_le.mpr below⟩
  · change (decide ('a'.val ≤ c.val) && decide (c.val ≤ 'z'.val)) = true
    rw [Bool.and_eq_true]
    exact ⟨decide_eq_true (UInt32.le_iff_toNat_le.mpr between.1), decide_eq_true (UInt32.le_iff_toNat_le.mpr between.2)⟩

/-- Only an ASCII letter has another capital, and that is an ASCII letter. -/
theorem toUpper_cases (c : Char) : c.toUpper = c ∨
    (c.toNat < 0x80 ∧ c.isAlpha = true) ∧ c.toUpper.toNat < 0x80 ∧ c.toUpper.isAlpha = true := by
  unfold Char.toUpper
  split
  · next small =>
    have lower : 97 ≤ c.val.toNat := UInt32.le_iff_toNat_le.mp small.1
    have upper : c.val.toNat ≤ 122 := UInt32.le_iff_toNat_le.mp small.2
    have capital : (c.val + ('A'.val - 'a'.val)).toNat = c.val.toNat - 32 := by
      rw [UInt32.toNat_add]
      change (c.val.toNat + 4294967264) % 4294967296 = _
      omega
    refine .inr ⟨isAlpha_of_bounds (by simp only [Char.toNat]; omega) (.inr ⟨lower, upper⟩), isAlpha_of_bounds ?_ (.inl ?_)⟩
    · simp only [Char.toNat, capital]
      omega
    · simp only [Char.toNat, capital]
      omega
  · exact .inl rfl

theorem isIdentifierStart_toUpper (c : Char) : isIdentifierStart c.toUpper = isIdentifierStart c := by
  rcases toUpper_cases c with same | ⟨⟨ascii, letter⟩, ascii', letter'⟩
  · rw [same]
  · simp [isIdentifierStart, ascii, letter, ascii', letter']

theorem isIdentifierPart_toUpper (c : Char) : isIdentifierPart c.toUpper = isIdentifierPart c := by
  rcases toUpper_cases c with same | ⟨⟨ascii, letter⟩, ascii', letter'⟩
  · rw [same]
  · simp [isIdentifierPart, Char.isAlphanum, ascii, letter, ascii', letter']

end Capitals

theorem pascal_cons (capital : Bool) (c : Char) (cs : List Char) : pascal capital (c :: cs) =
    if isKept c then (if capital then c.toUpper else c) :: pascal false cs
    else pascal (capital || c == '-' || c == '.') cs := by
  rw [pascal, isKept]
  split
  · rfl
  · cases sep : (c == '-' || c == '.') <;> simp [Bool.or_assoc, sep]

theorem pascal_parts (capital : Bool) (cs : List Char) :
    (pascal capital cs).all isIdentifierPart = (cs.filter isKept).all isIdentifierPart := by
  induction cs generalizing capital with
  | nil => rfl
  | cons c cs ih =>
    rw [pascal_cons, List.filter_cons]
    cases isKept c with
    | false => rw [if_neg Bool.false_ne_true, if_neg Bool.false_ne_true, ih]
    | true =>
      rw [if_pos rfl, if_pos rfl, List.all_cons, List.all_cons, ih]
      cases capital with
      | false => rfl
      | true => rw [if_pos rfl, isIdentifierPart_toUpper]

/-- What is left of a text once all before its first letter is dropped begins with that letter. -/
theorem isAlphabetic_of_dropWhile {cs rest : List Char} {first : Char}
    (letters : cs.dropWhile (!isAlphabetic ·) = first :: rest) : isAlphabetic first = true := by
  have head := List.head?_dropWhile_not (!isAlphabetic ·) cs
  rw [letters] at head
  simpa using head

/-- The class name of a stem: a fixed word, or the capital of the first letter and what is kept behind it. -/
theorem componentName_cases (stem : String) :
    (stem.toList.dropWhile (!isAlphabetic ·) = [] ∧ componentName stem = "Component") ∨
      ∃ first rest, stem.toList.dropWhile (!isAlphabetic ·) = first :: rest ∧
        (componentName stem).toList = first.toUpper :: pascal false rest := by
  cases letters : stem.toList.dropWhile (!isAlphabetic ·) with
  | nil => exact .inl ⟨rfl, by rw [componentName, letters]; rfl⟩
  | cons first rest =>
    have letter : isAlphabetic first = true := isAlphabetic_of_dropWhile letters
    have kept : isKept first = true := by simp [isKept, isAlphanumeric, letter]
    have name : pascal true (first :: rest) = first.toUpper :: pascal false rest := by
      rw [pascal_cons, if_pos kept, if_pos rfl]
    refine .inr ⟨first, rest, rfl, ?_⟩
    rw [componentName, letters]
    simp [name]

theorem isIdentifier_componentName (stem : String) : IsIdentifier (componentName stem).toList ↔ Nominal stem := by
  rcases componentName_cases stem with ⟨none, name⟩ | ⟨first, rest, letters, name⟩
  · rw [name]
    refine ⟨fun _ first rest letters => ?_, fun _ => ⟨'C', "omponent".toList, rfl, by decide, by decide⟩⟩
    rw [none] at letters
    cases letters
  · rw [name]
    constructor
    · rintro ⟨c, cs, same, start, parts⟩ first' rest' letters'
      obtain ⟨rfl, rfl⟩ := List.cons_eq_cons.mp same
      obtain ⟨rfl, rfl⟩ := List.cons_eq_cons.mp (letters.symm.trans letters')
      exact ⟨isIdentifierStart_toUpper first ▸ start, pascal_parts false rest ▸ parts⟩
    · intro nominal
      obtain ⟨start, parts⟩ := nominal first rest letters
      exact ⟨_, _, rfl, (isIdentifierStart_toUpper first).trans start, (pascal_parts false rest).trans parts⟩

section Word

variable {name : List Char}

theorem isIdentifier_append {more : List Char} (parts : more.all isIdentifierPart = true) (filled : name ≠ []) :
    IsIdentifier (name ++ more) ↔ IsIdentifier name := by
  obtain ⟨first, rest, rfl⟩ := List.exists_cons_of_ne_nil filled
  constructor
  · rintro ⟨c, cs, same, start, all⟩
    obtain ⟨rfl, rfl⟩ := List.cons_eq_cons.mp (show first :: (rest ++ more) = c :: cs from same)
    rw [List.all_append, Bool.and_eq_true] at all
    exact ⟨first, rest, rfl, start, all.1⟩
  · rintro ⟨c, cs, same, start, all⟩
    obtain ⟨rfl, rfl⟩ := List.cons_eq_cons.mp same
    exact ⟨first, rest ++ more, rfl, start, by rw [List.all_append, all, parts]; rfl⟩

theorem isIdentifierPart_of_start {c : Char} (start : isIdentifierStart c = true) : isIdentifierPart c = true := by
  unfold isIdentifierStart at start
  unfold isIdentifierPart
  split
  · next ascii =>
    rw [if_pos ascii] at start
    simp_all [Char.isAlphanum]
    tauto
  · next other =>
    rw [if_neg other] at start
    simp [start]

/-- A stretch without escapes in front of a blank is read up to the first character that is not of a word. -/
theorem wordChars_plain (plain : '\\' ∉ name) (after : List Char) : Script.wordChars 0 (name ++ ' ' :: after) =
    some (name.takeWhile isIdentifierPart, (name.takeWhile isIdentifierPart).length, false) := by
  induction name with
  | nil =>
    have blank : isIdentifierPart ' ' = false := by decide
    simp [Script.wordChars, blank]
  | cons c name ih =>
    have other : c ≠ '\\' := fun same => plain (same ▸ List.mem_cons_self)
    have read := ih fun member => plain (List.mem_cons_of_mem c member)
    rw [List.cons_append, Script.wordChars, if_neg other, List.takeWhile_cons]
    split
    · simp [read]
    · rfl

/-- A stretch in front of a blank is one word when it is an identifier, and only then. -/
theorem word?_eq_whole (plain : '\\' ∉ name) (after : List Char) :
    Script.word? (name ++ ' ' :: after) = some (String.ofList name, false, name, ' ' :: after) ↔ IsIdentifier name := by
  have read := wordChars_plain plain after
  constructor
  · intro word
    cases run : name.takeWhile isIdentifierPart with
    | nil =>
      rw [Script.word?, read, run] at word
      cases word
    | cons first rest =>
      rw [Script.word?, read, run] at word
      dsimp only at word
      split at word
      · next start =>
        have same : first :: rest = name := String.ofList_inj.mp (Prod.mk.inj (Option.some.inj word)).1
        refine ⟨first, rest, same.symm, start, List.all_eq_true.mpr fun c member => ?_⟩
        exact List.mem_takeWhile_imp (run ▸ List.mem_cons_of_mem first member)
      · cases word
  · rintro ⟨first, rest, rfl, start, parts⟩
    have whole : (first :: rest).takeWhile isIdentifierPart = first :: rest := by
      refine List.takeWhile_eq_self_iff.mpr fun c member => ?_
      rcases List.mem_cons.mp member with rfl | behind
      · exact isIdentifierPart_of_start start
      · exact List.all_eq_true.mp parts c behind
    unfold Script.word?
    rw [read, whole]
    simp [start]

end Word

theorem pascal_unescaped (capital : Bool) (cs : List Char) : '\\' ∉ pascal capital cs := by
  have letter {c : Char} (kept : isKept c = true) : c ≠ '\\' := by
    rintro rfl
    exact absurd kept (by decide)
  have upper {c : Char} (kept : isKept c = true) : c.toUpper ≠ '\\' := by
    intro same
    rcases toUpper_cases c with own | ⟨-, -, alpha⟩
    · exact letter kept (own.symm.trans same)
    · rw [same] at alpha
      exact absurd alpha (by decide)
  induction cs generalizing capital with
  | nil => exact List.not_mem_nil
  | cons c cs ih =>
    rw [pascal_cons]
    split
    · next kept =>
      refine List.not_mem_cons_of_ne_of_not_mem ?_ (ih false)
      cases capital with
      | false => exact (letter kept).symm
      | true => exact (upper kept).symm
    · exact ih _

theorem componentName_unescaped (stem : String) : '\\' ∉ (componentName stem).toList := by
  unfold componentName
  dsimp only
  split
  · decide
  · rw [String.toList_ofList]
    exact pascal_unescaped true _

namespace Projection

theorem footer_keyword : "\x7d, slots: \x7b\x7d, events: \x7b\x7d \x7d;\nexport default class " =
    "\x7d, slots: \x7b\x7d, events: \x7b\x7d \x7d;\nexport default " ++ "class " :=
  append_fixed rfl rfl rfl

theorem footer_heritage :
    " extends __sveltets_1_createSvelte2TsxComponent(__sveltets_1_render) \x7b\n\x7d\n" =
      " " ++ "extends __sveltets_1_createSvelte2TsxComponent(__sveltets_1_render) \x7b\n\x7d\n" :=
  append_fixed rfl rfl rfl

theorem regrouped (a b keyword name suffix after : String) :
    a ++ b ++ (keyword ++ "class ") ++ name ++ (suffix ++ (" " ++ after)) =
      (a ++ b ++ keyword) ++ "class " ++ ((name ++ suffix) ++ " " ++ after) := by
  simp only [String.append_assoc]

/-- The name of the class stands in the footer behind its keyword and in front of a blank. -/
theorem className_placed (p : Path) (declarations : List Script.Declaration) : ∃ front after : String,
    footer p.componentName declarations = front ++ "class " ++ (className (some p) ++ " " ++ after) := by
  unfold footer className
  rw [footer_suffix, footer_keyword, footer_heritage]
  exact ⟨_, _, regrouped _ _ _ _ _ _⟩

/-- The class of a component has a name whose first character is no lowercase letter of ASCII. The name is an
identifier, which the footer then declares as one word, exactly when the letters and numbers that are kept of the file
name are those of identifiers. -/
theorem class_names_identify (p : Path) :
    (∃ first rest, p.componentName.toList = first :: rest ∧ first.isLower = false) ∧
      (IsIdentifier p.componentName.toList ↔ Nominal (p.fileStem?.getD "")) ∧
      ∀ declarations, ∃ front after : String,
        footer p.componentName declarations = front ++ "class " ++ (className (some p) ++ " " ++ after) ∧
          (Script.word? (className (some p) ++ " " ++ after).toList =
              some (className (some p), false, (className (some p)).toList, ' ' :: after.toList) ↔
            Nominal (p.fileStem?.getD "")) := by
  have named : IsIdentifier p.componentName.toList ↔ _ := isIdentifier_componentName (p.fileStem?.getD "")
  have capital : ∃ first rest, p.componentName.toList = first :: rest ∧ first.isLower = false := by
    rcases componentName_cases (p.fileStem?.getD "") with ⟨-, name⟩ | ⟨first, rest, -, name⟩
    · exact ⟨'C', "omponent".toList, by rw [Path.componentName, name]; rfl, by decide⟩
    · exact ⟨_, _, name, isLower_toUpper first⟩
  refine ⟨capital, named, fun declarations => ?_⟩
  have filled : p.componentName.toList ≠ [] := by
    obtain ⟨first, rest, name, -⟩ := capital
    simp [name]
  obtain ⟨front, after, whole⟩ := className_placed p declarations
  refine ⟨front, after, whole, ?_⟩
  have suffixed : (className (some p)).toList = p.componentName.toList ++ "__SvelteComponent_".toList := by
    rw [className, Option.elim_some, String.toList_append]
  have plain : '\\' ∉ (className (some p)).toList := by
    rw [suffixed]
    exact List.not_mem_append (componentName_unescaped _) (by decide)
  have word := word?_eq_whole plain after.toList
  rw [String.ofList_toList] at word
  rw [← named, String.toList_append, String.toList_append, List.append_assoc]
  refine word.trans ?_
  rw [suffixed]
  exact isIdentifier_append (by decide) filled

/-- A raised digit is a number and continues no identifier. -/
theorem raised_digit_kept : Path.componentName ⟨"a².svelte"⟩ = "A²" ∧
    ¬IsIdentifier (Path.componentName ⟨"a².svelte"⟩).toList := by
  have name : Path.componentName ⟨"a².svelte"⟩ = "A²" := by decide +kernel
  refine ⟨name, ?_⟩
  rw [name]
  rintro ⟨first, rest, same, -, parts⟩
  obtain ⟨rfl, rfl⟩ := List.cons_eq_cons.mp (show 'A' :: ['²'] = first :: rest from same)
  exact absurd parts (by decide +kernel)

/-- A circled letter is a letter and starts no identifier. -/
theorem circled_letter_kept : Path.componentName ⟨"ⓐ.svelte"⟩ = "ⓐ" ∧
    ¬IsIdentifier (Path.componentName ⟨"ⓐ.svelte"⟩).toList := by
  have name : Path.componentName ⟨"ⓐ.svelte"⟩ = "ⓐ" := by decide +kernel
  refine ⟨name, ?_⟩
  rw [name]
  rintro ⟨first, rest, same, start, -⟩
  obtain ⟨rfl, rfl⟩ := List.cons_eq_cons.mp (show 'ⓐ' :: [] = first :: rest from same)
  exact absurd start (by decide +kernel)

end Projection
end SvelteLens
