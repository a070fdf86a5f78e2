/-! Text is measured in UTF-8 bytes. A cut is possible only between two characters;
`split?` is the one primitive cut and every other cut is written with it. -/
namespace SvelteLens.Text

def width : List Char → Nat
  | [] => 0
  | c :: cs => c.utf8Size + width cs

@[simp] theorem width_nil : width [] = 0 := rfl
@[simp] theorem width_cons (c : Char) (cs : List Char) : width (c :: cs) = c.utf8Size + width cs := rfl

@[simp] theorem width_append (a b : List Char) : width (a ++ b) = width a + width b := by
  induction a with
  | nil => simp
  | cons c cs ih => simp [ih, Nat.add_assoc]

/-- Cuts the text after `n` bytes. There is no cut past the end or inside a character. -/
def split? : Nat → List Char → Option (List Char × List Char)
  | 0, cs => some ([], cs)
  | _ + 1, [] => none
  | n + 1, c :: cs =>
    if c.utf8Size ≤ n + 1 then (split? (n + 1 - c.utf8Size) cs).map fun (a, b) => (c :: a, b) else none

/-- An offset is a boundary when the text can be cut there. -/
def isBoundary (cs : List Char) (n : Nat) : Bool := (split? n cs).isSome

/-- The characters from byte `start` up to byte `stop`. -/
def slice? (cs : List Char) (start stop : Nat) : Option (List Char) := do
  if stop < start then none
  let (_, rest) ← split? start cs
  let (inner, _) ← split? (stop - start) rest
  pure inner

theorem append_of_split? {n : Nat} {cs a b : List Char} (h : split? n cs = some (a, b)) :
    cs = a ++ b ∧ width a = n := by
  induction cs generalizing n a b with
  | nil => cases n <;> simp_all [split?]
  | cons c cs ih =>
    cases n with
    | zero => simp_all [split?]
    | succ n =>
      simp only [split?] at h
      split at h
      · simp only [Option.map_eq_some_iff, Prod.mk.injEq, Prod.exists] at h
        obtain ⟨a', b', eq, rfl, rfl⟩ := h
        obtain ⟨rfl, w⟩ := ih eq
        exact ⟨rfl, by simp only [width_cons, w]; omega⟩
      · simp at h

theorem split?_width (a b : List Char) : split? (width a) (a ++ b) = some (a, b) := by
  induction a with
  | nil => simp [split?]
  | cons c cs ih =>
    have pos : 0 < c.utf8Size := c.utf8Size_pos
    obtain ⟨n, hn⟩ : ∃ n, width (c :: cs) = n + 1 := ⟨width (c :: cs) - 1, by simp; omega⟩
    simp only [width_cons] at hn
    simp only [width_cons, hn, List.cons_append, split?]
    rw [if_pos (by omega), show n + 1 - c.utf8Size = width cs by omega, ih]
    rfl

/-- The text before the first occurrence of `needle` and the text after it. -/
def breakAt? (needle : List Char) : List Char → Option (List Char × List Char)
  | [] => if needle.isEmpty then some ([], []) else none
  | c :: cs =>
    if needle.isPrefixOf (c :: cs) then some ([], (c :: cs).drop needle.length)
    else (breakAt? needle cs).map fun (before, after) => (c :: before, after)

/-- The offsets of the occurrences of `needle`, from left to right and without overlaps. The
first `skip` characters belong to an occurrence that was found already. -/
def occurrences (needle : List Char) (skip offset : Nat) : List Char → List Nat
  | [] => if needle.isEmpty then [offset] else []
  | c :: cs =>
    let next := offset + c.utf8Size
    match skip with
    | n + 1 => occurrences needle n next cs
    | 0 =>
      if needle.isPrefixOf (c :: cs) then offset :: occurrences needle (needle.length - 1) next cs
      else occurrences needle 0 next cs

end SvelteLens.Text
