import Mathlib.Data.List.Chain
import SvelteLens.Json.Value

/-! The grammar of JSON over tokens, and that values are read from the lists of tokens that it has and from no
others. -/
namespace SvelteLens.Json

namespace Token

def isPunctuation : Token → Bool
  | .mark _ => true
  | _ => false

def opens : Token → Bool
  | .mark c => c == '[' || c == '\x7b'
  | _ => false

def closes : Token → Bool
  | .mark c => c == ']' || c == '\x7d'
  | _ => false

/-- May stand next to each other in a value. Of two neighbours, one is punctuation, and a comma does not stand before a
closing bracket. -/
def Meets (t u : Token) : Prop := (t.isPunctuation = true ∨ u.isPunctuation = true) ∧ (t = .mark ',' → u.closes = false)

variable {t : Token}

theorem opens_cases (opens : t.opens = true) : t = .mark '[' ∨ t = .mark '\x7b' := by
  cases t <;> simp_all [Token.opens]

theorem closes_cases (closes : t.closes = true) : t = .mark ']' ∨ t = .mark '\x7d' := by
  cases t <;> simp_all [Token.closes]

end Token

/-- What a list of tokens stands for: a value, or the items or members between two brackets. -/
inductive Part where
  | value
  | items
  | members

/-- The lists of tokens that the grammar has for a part. -/
inductive Spells : Part → List Token → Prop
  | null : Spells .value [.null]
  | bool : Spells .value [.bool b]
  | number : Spells .value [.number digits]
  | text : Spells .value [.text body]
  | emptyArray : Spells .value [.mark '[', .mark ']']
  | array : Spells .items ts → Spells .value (.mark '[' :: ts ++ [.mark ']'])
  | emptyObject : Spells .value [.mark '\x7b', .mark '\x7d']
  | object : Spells .members ts → Spells .value (.mark '\x7b' :: ts ++ [.mark '\x7d'])
  | item : Spells .value ts → Spells .items ts
  | items : Spells .value ts → Spells .items us → Spells .items (ts ++ .mark ',' :: us)
  | member : Spells .value ts → Spells .members (.text key :: .mark ':' :: ts)
  | members : Spells .value ts → Spells .members us →
      Spells .members (.text key :: .mark ':' :: ts ++ .mark ',' :: us)

/-- Neighbours meet, and brackets may stand on both sides. -/
structure Tidy (ts : List Token) : Prop where
  chain : ts.IsChain Token.Meets
  filled : ts ≠ []
  first : ∀ t ∈ ts.head?, t.closes = false
  last : ∀ t ∈ ts.getLast?, t ≠ .mark ','

namespace Tidy

variable {ts us : List Token} {t u : Token} {key : List Char}

theorem single (closes : t.closes = false) (comma : t ≠ .mark ',') : Tidy [t] :=
  ⟨by simp, by simp, by simpa using closes, by simpa using comma⟩

theorem separated (front : Tidy ts) (back : Tidy us) : Tidy (ts ++ .mark ',' :: us) := by
  refine ⟨List.isChain_append.mpr ⟨front.chain, List.isChain_cons.mpr ⟨?_, back.chain⟩, ?_⟩, by simp, ?_, ?_⟩
  · intro u first
    exact ⟨.inl rfl, fun _ => back.first u first⟩
  · intro t _ u first
    cases first
    exact ⟨.inr rfl, fun _ => rfl⟩
  · rw [List.head?_append_of_ne_nil _ front.filled]
    exact front.first
  · rw [List.getLast?_append_of_ne_nil _ (by simp), List.getLast?_cons_of_ne_nil back.filled]
    exact back.last

theorem enclosed (opens : t.opens = true) (tidy : Tidy ts) (closes : u.closes = true) : Tidy (t :: ts ++ [u]) := by
  have openMark : t.isPunctuation = true ∧ t.closes = false ∧ t ≠ .mark ',' := by
    rcases Token.opens_cases opens with rfl | rfl <;> exact ⟨rfl, rfl, by decide⟩
  have closeMark : u.isPunctuation = true ∧ u ≠ .mark ',' := by
    rcases Token.closes_cases closes with rfl | rfl <;> exact ⟨rfl, by decide⟩
  have inner : (ts ++ [u]).IsChain Token.Meets := by
    refine List.isChain_append.mpr ⟨tidy.chain, by simp, ?_⟩
    intro v last w first
    cases first
    exact ⟨.inr closeMark.1, fun comma => absurd comma (tidy.last v last)⟩
  refine ⟨List.isChain_cons.mpr ⟨?_, inner⟩, by simp, ?_, ?_⟩
  · intro v _
    exact ⟨.inl openMark.1, fun comma => absurd comma openMark.2.2⟩
  · simpa using openMark.2.1
  · rw [List.getLast?_concat]
    simpa using closeMark.2

theorem keyed (tidy : Tidy ts) : Tidy (.text key :: .mark ':' :: ts) := by
  refine ⟨List.isChain_cons_cons.mpr ⟨⟨.inr rfl, by simp⟩, List.isChain_cons.mpr ⟨?_, tidy.chain⟩⟩, by simp, ?_, ?_⟩
  · intro u first
    exact ⟨.inl rfl, by simp⟩
  · simp [Token.closes]
  · rw [List.getLast?_cons_of_ne_nil (by simp), List.getLast?_cons_of_ne_nil tidy.filled]
    exact tidy.last

end Tidy

theorem Spells.tidy {part : Part} {ts : List Token} (spells : Spells part ts) : Tidy ts := by
  induction spells with
  | null => exact .single rfl (by simp)
  | bool => exact .single rfl (by simp)
  | number => exact .single rfl (by simp)
  | text => exact .single rfl (by simp)
  | emptyArray => exact ⟨by simp [Token.Meets, Token.isPunctuation], by simp, by simp [Token.closes], by simp⟩
  | array _ ih => exact ih.enclosed rfl rfl
  | emptyObject => exact ⟨by simp [Token.Meets, Token.isPunctuation], by simp, by simp [Token.closes], by simp⟩
  | object _ ih => exact ih.enclosed rfl rfl
  | item _ ih => exact ih
  | items _ _ front back => exact front.separated back
  | member _ ih => exact ih.keyed
  | members _ _ front back => exact front.keyed.separated back

/-- Within enough depth, a part is read from the front of any tokens, together with the bracket that closes it. -/
def Part.Reads : Part → List Token → Prop
  | .value, ts => ∀ depth rest, ts.length ≤ depth → ∃ v, Value.next? depth (ts ++ rest) = some (v, rest)
  | .items, ts => ∀ depth rest, ts.length < depth → ∃ vs, itemsOf? depth (ts ++ .mark ']' :: rest) = some (vs, rest)
  | .members, ts =>
    ∀ depth rest, ts.length < depth → ∃ ms, membersOf? depth (ts ++ .mark '\x7d' :: rest) = some (ms, rest)

theorem Tidy.head_ne {ts rest tail : List Token} {u : Token} (tidy : Tidy ts) (closes : u.closes = true) :
    ts ++ rest = u :: tail → False := by
  intro same
  obtain ⟨t, ts, rfl⟩ := List.exists_cons_of_ne_nil tidy.filled
  cases same
  exact absurd (tidy.first u rfl) (by simp [closes])

/-- What the grammar has is read. -/
theorem Spells.reads {part : Part} {ts : List Token} (spells : Spells part ts) : part.Reads ts := by
  induction spells with
  | null | bool | number | text | emptyArray | emptyObject =>
    intro depth rest enough
    cases depth with
    | zero => simp at enough
    | succ depth => exact ⟨_, rfl⟩
  | @array ts items ih =>
    intro depth rest enough
    cases depth with
    | zero => simp at enough
    | succ depth =>
      obtain ⟨vs, read⟩ := ih depth rest (by simp at enough; omega)
      have front := Value.next?.eq_7 depth (ts ++ .mark ']' :: rest) fun _ => items.tidy.head_ne rfl
      exact ⟨.array vs, by simp [front, read]⟩
  | @object ts members ih =>
    intro depth rest enough
    cases depth with
    | zero => simp at enough
    | succ depth =>
      obtain ⟨ms, read⟩ := ih depth rest (by simp at enough; omega)
      have front := Value.next?.eq_9 depth (ts ++ .mark '\x7d' :: rest) fun _ => members.tidy.head_ne rfl
      exact ⟨.object ms, by simp [front, read]⟩
  | item _ ih =>
    intro depth rest enough
    cases depth with
    | zero => simp at enough
    | succ depth =>
      obtain ⟨v, read⟩ := ih depth (.mark ']' :: rest) (by omega)
      exact ⟨[v], by simp [itemsOf?, read]⟩
  | @items ts us _ _ first others =>
    intro depth rest enough
    cases depth with
    | zero => simp at enough
    | succ depth =>
      simp at enough
      obtain ⟨v, read⟩ := first depth (.mark ',' :: us ++ .mark ']' :: rest) (by omega)
      obtain ⟨vs, more⟩ := others depth rest (by omega)
      exact ⟨v :: vs, by simp_all [itemsOf?]⟩
  | @member ts key _ ih =>
    intro depth rest enough
    cases depth with
    | zero => simp at enough
    | succ depth =>
      obtain ⟨v, read⟩ := ih depth (.mark '\x7d' :: rest) (by simp at enough; omega)
      exact ⟨[(bodyText? key, v)], by simp [membersOf?, read]⟩
  | @members ts us key _ _ first others =>
    intro depth rest enough
    cases depth with
    | zero => simp at enough
    | succ depth =>
      simp at enough
      obtain ⟨v, read⟩ := first depth (.mark ',' :: us ++ .mark '\x7d' :: rest) (by omega)
      obtain ⟨ms, more⟩ := others depth rest (by omega)
      exact ⟨(bodyText? key, v) :: ms, by simp_all [membersOf?]⟩

/-- Within a depth, only what the grammar has is read. -/
structure Sound (depth : Nat) : Prop where
  value : Value.next? depth tokens = some (v, rest) → ∃ ts, Spells .value ts ∧ tokens = ts ++ rest
  items : itemsOf? depth tokens = some (vs, rest) → ∃ ts, Spells .items ts ∧ tokens = ts ++ .mark ']' :: rest
  members : membersOf? depth tokens = some (ms, rest) →
    ∃ ts, Spells .members ts ∧ tokens = ts ++ .mark '\x7d' :: rest

namespace Sound

variable {depth : Nat} {tokens rest : List Token}

theorem value_step (sound : Sound depth) {v : Value} (found : Value.next? (depth + 1) tokens = some (v, rest)) :
    ∃ ts, Spells .value ts ∧ tokens = ts ++ rest := by
  unfold Value.next? at found
  split at found
  · cases found; exact ⟨_, .null, rfl⟩
  · cases found; exact ⟨_, .bool, rfl⟩
  · cases found; exact ⟨_, .number, rfl⟩
  · cases found; exact ⟨_, .text, rfl⟩
  · cases found; exact ⟨_, .emptyArray, rfl⟩
  · obtain ⟨⟨vs, behind⟩, read, same⟩ := Option.map_eq_some_iff.mp found
    cases same
    obtain ⟨ts, spells, rfl⟩ := sound.items read
    exact ⟨_, .array spells, by simp⟩
  · cases found; exact ⟨_, .emptyObject, rfl⟩
  · obtain ⟨⟨ms, behind⟩, read, same⟩ := Option.map_eq_some_iff.mp found
    cases same
    obtain ⟨ts, spells, rfl⟩ := sound.members read
    exact ⟨_, .object spells, by simp⟩
  · cases found

theorem items_step (sound : Sound depth) {vs : List Value} (found : itemsOf? (depth + 1) tokens = some (vs, rest)) :
    ∃ ts, Spells .items ts ∧ tokens = ts ++ .mark ']' :: rest := by
  unfold itemsOf? at found
  obtain ⟨⟨v, behind⟩, first, going⟩ := Option.bind_eq_some_iff.mp found
  obtain ⟨ts, spells, rfl⟩ := sound.value first
  simp only at going
  split at going
  · obtain ⟨⟨others, behind⟩, read, same⟩ := Option.map_eq_some_iff.mp going
    cases same
    obtain ⟨us, more, rfl⟩ := sound.items read
    exact ⟨_, .items spells more, by simp⟩
  · cases going
    exact ⟨ts, .item spells, rfl⟩
  · cases going

theorem members_step (sound : Sound depth) {ms : List (Option String × Value)}
    (found : membersOf? (depth + 1) tokens = some (ms, rest)) :
    ∃ ts, Spells .members ts ∧ tokens = ts ++ .mark '\x7d' :: rest := by
  unfold membersOf? at found
  split at found
  · next key _ =>
    obtain ⟨⟨v, behind⟩, first, going⟩ := Option.bind_eq_some_iff.mp found
    obtain ⟨ts, spells, rfl⟩ := sound.value first
    simp only at going
    split at going
    · obtain ⟨⟨others, behind⟩, read, same⟩ := Option.map_eq_some_iff.mp going
      cases same
      obtain ⟨us, more, rfl⟩ := sound.members read
      exact ⟨.text key :: .mark ':' :: ts ++ .mark ',' :: us, .members spells more, by simp⟩
    · cases going
      exact ⟨.text key :: .mark ':' :: ts, .member spells, rfl⟩
    · cases going
  · cases found

end Sound

theorem sound (depth : Nat) : Sound depth := by
  induction depth with
  | zero => exact ⟨by simp [Value.next?], by simp [itemsOf?], by simp [membersOf?]⟩
  | succ depth ih => exact ⟨ih.value_step, ih.items_step, ih.members_step⟩

/-- A text holds a value just when it has tokens, and the grammar has them for a value. -/
theorem Value.ofText?_isSome_iff {text : String} :
    (Value.ofText? text).isSome = true ↔ ∃ ts, tokens? text.toList = some ts ∧ Spells .value ts := by
  constructor
  · intro found
    obtain ⟨v, whole⟩ := Option.isSome_iff_exists.mp found
    obtain ⟨ts, tokens, going⟩ := Option.bind_eq_some_iff.mp whole
    obtain ⟨⟨u, rest⟩, read, last⟩ := Option.bind_eq_some_iff.mp going
    obtain ⟨us, spells, rfl⟩ := (sound _).value read
    cases rest with
    | nil => exact ⟨_, tokens, by simpa using spells⟩
    | cons => cases last
  · rintro ⟨ts, tokens, spells⟩
    obtain ⟨v, read⟩ := spells.reads (ts.length + 1) [] (by simp)
    rw [List.append_nil] at read
    simp [Value.ofText?, tokens, read]

end SvelteLens.Json
