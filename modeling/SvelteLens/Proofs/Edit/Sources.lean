import SvelteLens.Proofs.Edit.Blocks
import SvelteLens.Proofs.Edit.Tiles

/-! Where the blocks of a layout come from. The source ranges of all chunks tile the source; the
chunks that are not put out are the ones of empty replacements. -/
namespace SvelteLens.Edit

open Text (width)

/-- `Woven offset cs rs bs` reads the characters from `offset` on as kept runs and replaced ranges,
one for each replacement, with made-up text anywhere between them. -/
inductive Woven : Nat → List Char → List Replacement → List Block → Prop where
  | done : Woven offset [] [] []
  | made : Woven offset cs rs bs → Woven offset cs rs (.made text :: bs)
  | copied : run ≠ [] → Woven (offset + width run) cs rs bs →
      Woven offset (run ++ cs) rs (.copied offset run :: bs)
  | replaced : covered ≠ [] → Woven (offset + width covered) cs rs bs →
      Woven offset (covered ++ cs) (⟨⟨offset, offset + width covered⟩, text⟩ :: rs)
        (.replaced ⟨offset, offset + width covered⟩ text.toList :: bs)

def spans (bs : List Block) : List Span := bs.filterMap Block.source?

@[simp] theorem spans_made (text : List Char) (bs : List Block) : spans (.made text :: bs) = spans bs := rfl
@[simp] theorem spans_copied (offset : Nat) (run : List Char) (bs : List Block) :
    spans (.copied offset run :: bs) = ⟨offset, offset + width run⟩ :: spans bs := rfl
@[simp] theorem spans_replaced (span : Span) (text : List Char) (bs : List Block) :
    spans (.replaced span text :: bs) = span :: spans bs := rfl

theorem Woven.made_all {texts : List String} (h : Woven offset cs rs bs) :
    Woven offset cs rs ((texts.map fun text => Block.made text.toList) ++ bs) := by
  induction texts with
  | nil => exact h
  | cons text texts ih => exact .made ih

theorem Woven.extend {c : Char} (h : Woven (offset + c.utf8Size) cs rs (.copied at' run :: bs)) :
    Woven offset (c :: cs) rs (.copied offset (c :: run) :: bs) := by
  cases h with
  | copied _ tail =>
    refine .copied (List.cons_ne_nil c run) ?_
    simpa [Nat.add_assoc] using tail

theorem Laid.woven (h : Laid offset cs rs anchors ps) : Woven offset cs rs (chunks ps) := by
  induction h with
  | done => exact .done
  | anchored _ _ ih =>
    rw [chunks_ofAnchor]
    exact ih.made_all
  | replaced ne _ _ _ ih => exact .replaced ne ih
  | @kept anchors offset rs cs ps c _ _ _ ih =>
    unfold chunks
    split
    · rename_i found
      rw [found] at ih
      exact ih.extend
    · exact .copied (List.cons_ne_nil c []) (by simpa using ih)

namespace Woven

theorem tiles (h : Woven offset cs rs bs) : Tiles offset (spans bs) (offset + width cs) := by
  induction h with
  | done => rfl
  | made _ ih => exact ih
  | copied ne _ ih =>
    have pos := Text.width_pos ne
    rw [spans_copied, Text.width_append, ← Nat.add_assoc]
    exact ⟨rfl, Nat.lt_add_of_pos_right pos, ih⟩
  | replaced ne _ ih =>
    have pos := Text.width_pos ne
    rw [spans_replaced, Text.width_append, ← Nat.add_assoc]
    exact ⟨rfl, Nat.lt_add_of_pos_right pos, ih⟩

theorem copied_occurs (h : Woven offset cs rs bs) {start : Nat} {run : List Char}
    (member : Block.copied start run ∈ bs) :
    ∃ before after, cs = before ++ (run ++ after) ∧ start = offset + width before := by
  induction h with
  | done => simp at member
  | made _ ih => exact ih (by simpa using member)
  | @copied first offset cs rs bs _ _ ih =>
    rcases List.mem_cons.mp member with same | member
    · cases same
      exact ⟨[], cs, rfl, by simp⟩
    · obtain ⟨before, after, rfl, rfl⟩ := ih member
      exact ⟨first ++ before, after, by simp, by simp [Nat.add_assoc]⟩
  | @replaced covered offset cs rs bs text _ _ ih =>
    obtain ⟨before, after, rfl, rfl⟩ := ih (by simpa using member)
    exact ⟨covered ++ before, after, by simp, by simp [Nat.add_assoc]⟩

theorem replaced_iff (h : Woven offset cs rs bs) {span : Span} {text : List Char} :
    Block.replaced span text ∈ bs ↔ ∃ r ∈ rs, r.span = span ∧ r.text.toList = text := by
  induction h with
  | done => simp
  | made _ ih => simpa using ih
  | copied _ _ ih => simpa using ih
  | replaced _ _ ih =>
    rw [List.mem_cons, ih]
    simp [eq_comm]

/-- Every offset lies in a kept run or in a replaced range. -/
theorem covers (h : Woven offset cs rs bs) {n : Nat} (lower : offset ≤ n) (upper : n < offset + width cs) :
    ∃ b ∈ bs, ∃ span, b.source? = some span ∧ span.contains n = true := by
  obtain ⟨span, member, inside⟩ := h.tiles.covers lower upper
  obtain ⟨b, member, source⟩ := List.mem_filterMap.mp member
  exact ⟨b, member, span, source, inside⟩

end Woven

theorem spans_push {b : Block} (ne : b.chars ≠ []) (rest : List Block) :
    spans (b.push rest) = spans (b :: rest) := by
  unfold Block.push
  split
  · simp_all
  · split <;> rfl

/-- The blocks that are put out have the source ranges of the chunks that are not empty. -/
theorem spans_foldr_push (bs : List Block) :
    spans (bs.foldr Block.push []) = spans (bs.filter fun b => !b.chars.isEmpty) := by
  induction bs with
  | nil => rfl
  | cons b bs ih =>
    rw [List.foldr_cons]
    by_cases empty : b.chars = []
    · simp [Block.push_empty empty, empty, ih]
    · rw [spans_push empty, List.filter_cons_of_pos (by simpa using empty)]
      cases b <;> simp [ih]

theorem mem_push {b c : Block} {span : Span} (source : b.source? = some span) (rest : List Block) :
    b ∈ c.push rest ↔ (b = c ∧ b.chars ≠ []) ∨ b ∈ rest := by
  unfold Block.push
  split
  · constructor
    · exact .inr
    · rintro (⟨rfl, ne⟩ | member)
      · simp_all
      · exact member
  · split
    · have ne : ∀ text, b ≠ .made text := by
        rintro text rfl
        simp [Block.source?] at source
      simp [ne]
    · rw [List.mem_cons]
      refine or_congr_left ⟨?_, And.left⟩
      rintro rfl
      exact ⟨rfl, by simp_all⟩

/-- Of the chunks that come from the source, those that are not empty are put out as they are. -/
theorem mem_foldr_push {bs : List Block} {b : Block} {span : Span} (source : b.source? = some span) :
    b ∈ bs.foldr Block.push [] ↔ b ∈ bs ∧ b.chars ≠ [] := by
  induction bs with
  | nil => simp
  | cons c bs ih =>
    rw [List.foldr_cons, mem_push source, ih, List.mem_cons, or_and_right]

end SvelteLens.Edit
