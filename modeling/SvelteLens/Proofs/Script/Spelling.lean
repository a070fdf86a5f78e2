import SvelteLens.Proofs.Text.Cuts
import SvelteLens.Script.Token

/-! How an identifier is written. Written plainly it is its own name. Every escape is longer than the character that it
stands for, so a name with an escape is written with more bytes than it has. -/
namespace SvelteLens.Script

open Text (width)

theorem length_le_width (cs : List Char) : cs.length ≤ width cs := by
  induction cs with
  | nil => exact Nat.le_refl _
  | cons c cs ih =>
    have := c.utf8Size_pos
    simp only [List.length_cons, Text.width_cons]
    omega

theorem unicodeEscape?_length {cs : List Char} {x : Char} {n : Nat} (h : unicodeEscape? cs = some (x, n)) :
    4 ≤ n ∧ n ≤ cs.length := by
  unfold unicodeEscape? at h
  simp only at h
  split at h
  · next rest =>
    split at h
    · next closed =>
      obtain ⟨value, digits, h⟩ := Option.bind_eq_some_iff.mp h
      obtain ⟨c, -, same⟩ := Option.map_eq_some_iff.mp h
      cases same
      have some : rest.takeWhile (· ≠ '\x7d') ≠ [] := by
        intro none
        rw [none] at digits
        cases digits
      have filled := List.length_pos_iff.mpr some
      simp only [List.length_cons]
      omega
    · cases h
  · obtain ⟨value, -, h⟩ := Option.bind_eq_some_iff.mp h
    obtain ⟨c, -, same⟩ := Option.map_eq_some_iff.mp h
    cases same
    simp only [List.length_cons]
    omega
  · cases h

theorem wordChars_skip {k n : Nat} {cs name : List Char} {escaped : Bool} (inside : k ≤ cs.length)
    (h : wordChars k cs = some (name, n, escaped)) : k ≤ n ∧ wordChars 0 (cs.drop k) = some (name, n - k, escaped) := by
  induction k generalizing cs n with
  | zero => exact ⟨Nat.zero_le _, h⟩
  | succ k ih =>
    cases cs with
    | nil => simp at inside
    | cons c cs =>
      rw [wordChars] at h
      obtain ⟨⟨rest, m, more⟩, read, same⟩ := Option.map_eq_some_iff.mp h
      simp only [List.nil_append, Bool.false_or, Prod.mk.injEq] at same
      obtain ⟨rfl, rfl, rfl⟩ := same
      obtain ⟨le, found⟩ := ih (Nat.le_of_succ_le_succ inside) read
      exact ⟨Nat.succ_le_succ le, by rwa [List.drop_succ_cons, Nat.add_sub_add_right]⟩

/-- How the characters of a name are written. -/
structure Spells (name token : List Char) (escaped : Bool) : Prop where
  plain : escaped = false → name = token
  longer : escaped = true → width name < width token

theorem Spells.le {name token : List Char} {escaped : Bool} (h : Spells name token escaped) : width name ≤ width token := by
  cases escaped with
  | false => exact Nat.le_of_eq (congrArg width (h.plain rfl))
  | true => exact Nat.le_of_lt (h.longer rfl)

theorem Spells.cons {name token : List Char} {escaped : Bool} (h : Spells name token escaped) (c : Char) :
    Spells (c :: name) (c :: token) escaped :=
  ⟨fun plain => congrArg _ (h.plain plain), fun longer => Nat.add_lt_add_left (h.longer longer) _⟩

theorem Spells.escape {name token digits : List Char} {escaped : Bool} (h : Spells name token escaped) (x : Char)
    (long : 4 ≤ digits.length) : Spells (x :: name) ('\\' :: (digits ++ token)) true := by
  refine ⟨nofun, fun _ => ?_⟩
  have small : x.utf8Size ≤ 4 := x.utf8Size_le_four
  have digits := Nat.le_trans long (length_le_width digits)
  have rest := h.le
  have slash : '\\'.utf8Size = 1 := rfl
  simp only [Text.width_cons, Text.width_append, slash]
  omega

theorem wordChars_spells {cs name : List Char} {n : Nat} {escaped : Bool} (h : wordChars 0 cs = some (name, n, escaped)) :
    Spells name (cs.take n) escaped := by
  -- The characters of an escape are passed over at once, so the induction is on the length.
  induction length : cs.length using Nat.strongRecOn generalizing cs name n escaped with
  | ind length ih =>
    subst length
    cases cs with
    | nil =>
      cases h
      exact ⟨fun _ => rfl, nofun⟩
    | cons c cs =>
      rw [wordChars] at h
      split at h
      · next slash =>
        subst slash
        split at h
        · next x k escape =>
          split at h
          · obtain ⟨⟨rest, m, more⟩, read, same⟩ := Option.map_eq_some_iff.mp h
            simp only [List.singleton_append, Bool.true_or, Prod.mk.injEq] at same
            obtain ⟨rfl, rfl, rfl⟩ := same
            obtain ⟨long, inside⟩ := unicodeEscape?_length escape
            obtain ⟨le, found⟩ := wordChars_skip inside read
            have spells := ih (cs.drop k).length (by simp only [List.length_drop, List.length_cons]; omega) found rfl
            have split : (cs.take k) ++ (cs.drop k).take (m - k) = cs.take m := by
              rw [← List.take_add, Nat.add_sub_cancel' le]
            rw [List.take_succ_cons, ← split]
            exact spells.escape x (by simp only [List.length_take]; omega)
          · cases h
        · cases h
      · split at h
        · obtain ⟨⟨rest, m, more⟩, read, same⟩ := Option.map_eq_some_iff.mp h
          simp only [List.singleton_append, Bool.false_or, Prod.mk.injEq] at same
          obtain ⟨rfl, rfl, rfl⟩ := same
          exact (ih cs.length (by simp) read rfl).cons c
        · cases h
          exact ⟨fun _ => rfl, nofun⟩

structure WordAt (content : List Char) (start : Nat) (token : List Char) (name : String) (escaped : Bool) : Prop where
  read : ∃ front behind, content = front ++ (token ++ behind) ∧ width front = start ∧
    word? (token ++ behind) = some (name, escaped, token, behind)

namespace WordAt

variable {content token : List Char} {start : Nat} {name : String} {escaped : Bool}

theorem spells (h : WordAt content start token name escaped) : Spells name.toList token escaped ∧ name.toList ≠ [] := by
  obtain ⟨front, behind, -, -, read⟩ := h.read
  unfold word? at read
  split at read
  · next c rest n more found =>
    split at read
    · simp only [Option.some.injEq, Prod.mk.injEq] at read
      obtain ⟨rfl, rfl, same, -⟩ := read
      have spells := wordChars_spells found
      rw [same] at spells
      rw [String.toList_ofList]
      exact ⟨spells, nofun⟩
    · cases read
  · cases read

/-- The name is as long as the word exactly when the word is written plainly. -/
theorem width_eq_iff (h : WordAt content start token name escaped) :
    width name.toList = width token ↔ escaped = false := by
  obtain ⟨spells, -⟩ := h.spells
  constructor
  · intro same
    cases escaped with
    | false => rfl
    | true => exact absurd same (Nat.ne_of_lt (spells.longer rfl))
  · intro plain
    rw [spells.plain plain]

end WordAt
end SvelteLens.Script
