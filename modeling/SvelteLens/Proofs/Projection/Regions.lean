import SvelteLens.Proofs.Edit.Acceptance
import SvelteLens.Proofs.Projection.Trace

/-! The stretches of markup between the blocks. A stretch is wrapped at two offsets: where the blanks at
its front end, and where those at its back begin. -/
namespace SvelteLens

open Text (width)

namespace Text

variable {text : List Char} {start stop : Nat}

def BlankBetween (text : List Char) (start stop : Nat) : Prop :=
  ∃ before gap after, text = before ++ (gap ++ after) ∧ width before = start ∧ stop = start + width gap ∧
    gap.all isBlank = true

theorem mem_of_between {front gap back before after : List Char} {x : Char} (cut : text = front ++ (gap ++ back))
    (whole : text = before ++ x :: after) (lower : width front ≤ width before) (upper : width before < width front + width gap) :
    x ∈ gap := by
  obtain ⟨inner, rfl, same⟩ := cut_after (cut.symm.trans whole) lower
  rw [width_append] at upper
  have short : width inner < width gap := by omega
  obtain ⟨more, rfl, found⟩ := cut_after same.symm (Nat.le_of_lt short)
  cases more with
  | nil => simp at short
  | cons y more =>
    obtain ⟨rfl, _⟩ := List.cons.inj found
    exact List.mem_append_right _ List.mem_cons_self

theorem BlankBetween.blank_of_mem (h : BlankBetween text start stop) {before after : List Char} {x : Char}
    (whole : text = before ++ x :: after) (lower : start ≤ width before) (upper : width before < stop) :
    isBlank x = true := by
  obtain ⟨front, gap, back, cut, rfl, rfl, blank⟩ := h
  exact List.all_eq_true.mp blank x (mem_of_between cut whole lower upper)

theorem trim_parts (cs : List Char) : ∃ lead trail, cs = lead ++ ((trim cs).2 ++ trail) ∧ width lead = (trim cs).1 ∧
    lead.all isBlank = true ∧ trail.all isBlank = true := by
  refine ⟨cs.takeWhile isBlank, ((cs.dropWhile isBlank).reverse.takeWhile isBlank).reverse, ?_, rfl, List.all_takeWhile, ?_⟩
  · have back : (trim cs).2 ++ ((cs.dropWhile isBlank).reverse.takeWhile isBlank).reverse = cs.dropWhile isBlank := by
      rw [trim, ← List.reverse_append, List.takeWhile_append_dropWhile, List.reverse_reverse]
    rw [back, List.takeWhile_append_dropWhile]
  · rw [List.all_reverse]
    exact List.all_takeWhile

/-- The offset behind the last character that is not blank. -/
def contentEnd (text : List Char) : Nat := width (text.reverse.dropWhile isBlank).reverse

theorem BlankBetween.contentEnd_le (h : BlankBetween text start (width text)) : contentEnd text ≤ start := by
  obtain ⟨before, gap, after, whole, rfl, upper, blank⟩ := h
  have length := congrArg width whole
  rw [upper, width_append, width_append] at length
  obtain rfl : after = [] := width_eq_zero (by omega)
  have parts : (text.reverse.dropWhile isBlank).reverse ++ (text.reverse.takeWhile isBlank).reverse = text := by
    rw [← List.reverse_append, List.takeWhile_append_dropWhile, List.reverse_reverse]
  rw [List.append_nil] at whole
  rcases Nat.le_total (contentEnd text) (width before) with le | ge
  · exact le
  · obtain ⟨more, body, rest⟩ := cut_after (whole.symm.trans parts.symm) ge
    -- the content would end with a blank
    have last := List.head?_dropWhile_not isBlank text.reverse
    rw [List.reverse_eq_iff.mp body, List.reverse_append] at last
    cases turned : more.reverse with
    | nil =>
      rw [List.reverse_eq_nil_iff.mp turned, List.append_nil] at body
      exact Nat.le_of_eq (by rw [contentEnd, body])
    | cons x others =>
      have member : x ∈ gap := by
        rw [rest]
        exact List.mem_append_left _ (List.mem_reverse.mp (turned ▸ List.mem_cons_self))
      rw [turned] at last
      have solid : isBlank x = false := by simpa using last
      rw [List.all_eq_true.mp blank x member] at solid
      cases solid

end Text

namespace Projection

open Edit Markup

/-- An offset in a stretch of text with nothing but blanks before it or behind it. -/
structure Edge (text : List Char) (start stop offset : Nat) : Prop where
  boundary : Text.isBoundary text offset = true
  lower : start ≤ offset
  upper : offset ≤ stop
  blank : Text.BlankBetween text start offset ∨ Text.BlankBetween text offset stop

inductive InsertsAt (offset : Nat) : Command → Prop where
  | before (text : String) : InsertsAt offset (.insertBefore offset text)
  | after (text : String) : InsertsAt offset (.insertAfter offset text)

theorem InsertsAt.reach {offset : Nat} {c : Command} (h : InsertsAt offset c) : c.reach = Span.empty offset := by
  cases h <;> rfl

theorem InsertsAt.valid {text : List Char} {offset : Nat} {c : Command} (h : InsertsAt offset c)
    (boundary : Text.isBoundary text offset = true) : c.Valid text := by
  cases h with
  | before inserted => exact .insertBefore boundary inserted
  | after inserted => exact .insertAfter boundary inserted

/-- A stretch between two boundaries is left alone or wrapped at its edges. -/
theorem wrapPlan_edges {source : String} {start stop : Nat} (lower : Text.isBoundary source.toList start = true)
    (upper : Text.isBoundary source.toList stop = true) (order : start ≤ stop) :
    Step.fault ∉ wrapPlan source start stop ∧
      ∀ c ∈ (wrapPlan source start stop).commands, ∃ offset, Edge source.toList start stop offset ∧ InsertsAt offset c := by
  obtain ⟨region, cut⟩ := Text.slice?_of_boundaries lower upper order
  obtain ⟨lead, trail, parts, leading, blank, blank'⟩ := Text.trim_parts region
  have made : wrapPlan source start stop =
      if (Text.trim region).2.isEmpty then []
      else [.edit (.insertBefore (start + (Text.trim region).1) markupOpening),
        .edit (.insertAfter (start + (Text.trim region).1 + width (Text.trim region).2) markupClosing)] := by
    rw [wrapPlan, Nat.max_eq_left order, cut]
  rw [← leading] at made
  generalize (Text.trim region).2 = body at made parts
  obtain ⟨front, back, whole, rfl, rfl⟩ := Text.slice?_eq_some_iff.mp cut
  subst parts
  rw [made]
  split
  · exact ⟨nofun, nofun⟩
  · refine ⟨by simp, fun c member => ?_⟩
    have opening : Edge source.toList (width front) (width front + width (lead ++ (body ++ trail)))
        (width front + width lead) := by
      refine ⟨Text.isBoundary_iff.mpr ⟨front ++ lead, body ++ trail ++ back, ?_, Text.width_append _ _⟩, by omega, ?_, .inl ?_⟩
      · rw [whole]
        simp only [List.append_assoc]
      · rw [Text.width_append]
        omega
      · refine ⟨front, lead, body ++ trail ++ back, ?_, rfl, rfl, blank⟩
        rw [whole]
        simp only [List.append_assoc]
    have closing : Edge source.toList (width front) (width front + width (lead ++ (body ++ trail)))
        (width front + width lead + width body) := by
      refine ⟨Text.isBoundary_iff.mpr ⟨front ++ lead ++ body, trail ++ back, ?_, ?_⟩, by omega, ?_, .inr ?_⟩
      · rw [whole]
        simp only [List.append_assoc]
      · rw [Text.width_append, Text.width_append]
      · rw [Text.width_append, Text.width_append]
        omega
      · refine ⟨front ++ lead ++ body, trail, back, ?_, ?_, ?_, blank'⟩
        · rw [whole]
          simp only [List.append_assoc]
        · rw [Text.width_append, Text.width_append]
        · rw [Text.width_append, Text.width_append]
          omega
    simp only [Plan.commands_edit, Plan.commands_nil, List.mem_cons, List.not_mem_nil, or_false] at member
    rcases member with rfl | rfl
    · exact ⟨_, opening, .before _⟩
    · exact ⟨_, closing, .after _⟩

/-- A stretch of text between neighbouring blocks, or between a block and an end of the text. -/
structure Region (text : List Char) (blocks : List Span) (start stop : Nat) : Prop where
  outside : ∀ block ∈ blocks, block.stop ≤ start ∨ stop ≤ block.start
  first : start = 0 ∨ ∃ block ∈ blocks, block.stop = start
  last : stop = width text ∨ ∃ block ∈ blocks, block.start = stop

structure Bounded (text : List Char) (block : Span) : Prop where
  start : Text.isBoundary text block.start = true
  stop : Text.isBoundary text block.stop = true
  order : block.start < block.stop

/-- A plan that wraps stretches between blocks at their edges. -/
def WrapsRegions (text : List Char) (blocks : List Span) (plan : Plan Empty) : Prop :=
  Step.fault ∉ plan ∧ ∀ c ∈ plan.commands, ∃ start stop offset, Region text blocks start stop ∧
    Edge text start stop offset ∧ InsertsAt offset c

theorem wrapPlan_wraps {source : String} {blocks : List Span} {start stop : Nat}
    (region : Region source.toList blocks start stop) (lower : Text.isBoundary source.toList start = true)
    (upper : Text.isBoundary source.toList stop = true) (order : start ≤ stop) :
    WrapsRegions source.toList blocks (wrapPlan source start stop) := by
  obtain ⟨faultless, edges⟩ := wrapPlan_edges lower upper order
  refine ⟨faultless, fun c member => ?_⟩
  obtain ⟨offset, edge, inserts⟩ := edges c member
  exact ⟨start, stop, offset, region, edge, inserts⟩

theorem WrapsRegions.append {text : List Char} {blocks : List Span} {plan more : Plan Empty}
    (h : WrapsRegions text blocks plan) (k : WrapsRegions text blocks more) : WrapsRegions text blocks (plan ++ more) := by
  refine ⟨fun member => (List.mem_append.mp member).elim h.1 k.1, fun c member => ?_⟩
  rw [Plan.commands_append] at member
  exact (List.mem_append.mp member).elim (h.2 c) (k.2 c)

/-- A boundary between the blocks, with the blocks that are ahead of it in order. All others are behind it. -/
structure Ahead (text : List Char) (blocks ahead : List Span) (start : Nat) : Prop where
  bounded : ∀ block ∈ blocks, Bounded text block
  listed : ∀ block ∈ ahead, block ∈ blocks
  ascending : ahead.Pairwise fun s t => s.stop ≤ t.start
  boundary : Text.isBoundary text start = true
  first : start = 0 ∨ ∃ block ∈ blocks, block.stop = start
  lower : ∀ block ∈ ahead, start ≤ block.start
  behind : ∀ block ∈ blocks, block.stop ≤ start ∨ block ∈ ahead

namespace Ahead

variable {text : List Char} {blocks ahead : List Span} {block : Span} {start : Nat}

theorem all (bounded : ∀ block ∈ blocks, Bounded text block) (ascending : blocks.Pairwise fun s t => s.stop ≤ t.start) :
    Ahead text blocks blocks 0 where
  bounded := bounded
  listed _ member := member
  ascending := ascending
  boundary := Text.isBoundary_iff.mpr ⟨[], _, rfl, rfl⟩
  first := .inl rfl
  lower _ _ := Nat.zero_le _
  behind _ member := .inr member

theorem region (h : Ahead text blocks (block :: ahead) start) : Region text blocks start block.start := by
  have inside := h.listed block List.mem_cons_self
  refine ⟨fun other member => ?_, h.first, .inr ⟨block, inside, rfl⟩⟩
  rcases h.behind other member with before | member
  · exact .inl before
  · rcases List.mem_cons.mp member with rfl | member
    · exact .inr (Nat.le_refl _)
    · have later := (List.pairwise_cons.mp h.ascending).1 other member
      exact .inr (Nat.le_trans (Nat.le_of_lt (h.bounded block inside).order) later)

theorem last (h : Ahead text blocks [] start) : Region text blocks start (width text) :=
  ⟨fun block member => .inl ((h.behind block member).resolve_right nofun), h.first, .inl rfl⟩

theorem next (h : Ahead text blocks (block :: ahead) start) : Ahead text blocks ahead block.stop where
  bounded := h.bounded
  listed other member := h.listed other (List.mem_cons_of_mem block member)
  ascending := (List.pairwise_cons.mp h.ascending).2
  boundary := (h.bounded block (h.listed block List.mem_cons_self)).stop
  first := .inr ⟨block, h.listed block List.mem_cons_self, rfl⟩
  lower := (List.pairwise_cons.mp h.ascending).1
  behind other member := by
    have low := h.lower block List.mem_cons_self
    have filled := (h.bounded block (h.listed block List.mem_cons_self)).order
    rcases h.behind other member with before | member
    · exact .inl (by omega)
    · rcases List.mem_cons.mp member with rfl | member
      · exact .inl (Nat.le_refl _)
      · exact .inr member

end Ahead

/-- The markup is wrapped between the blocks. The induction is on the blocks ahead. -/
theorem markupPlan_wraps {source : String} {blocks ahead : List Span} {start : Nat}
    (h : Ahead source.toList blocks ahead start) : WrapsRegions source.toList blocks (markupPlan source start ahead) := by
  induction ahead generalizing start with
  | nil =>
    exact wrapPlan_wraps h.last h.boundary (Text.isBoundary_iff.mpr ⟨source.toList, [], by simp, rfl⟩)
      (Text.le_width_of_isBoundary h.boundary)
  | cons block ahead ih =>
    have here := h.bounded block (h.listed block List.mem_cons_self)
    exact (wrapPlan_wraps h.region h.boundary here.start (h.lower block List.mem_cons_self)).append (ih h.next)

section Order

theorem order_ne_gt_iff {s t : Span} :
    (s.order t != .gt) = true ↔ s.start < t.start ∨ s.start = t.start ∧ s.stop ≤ t.stop := by
  have starts := Nat.lt_trichotomy s.start t.start
  rcases starts with lt | same | gt
  · simp [Span.order, Nat.compare_eq_lt.mpr lt, lt]
  · simp [Span.order, same, Nat.compare_ne_gt]
  · simp only [Span.order, Nat.compare_eq_gt.mpr gt]
    simp only [Ordering.then, bne_self_eq_false, Bool.false_eq_true, false_iff]
    omega

/-- Spans that share no byte follow each other once they are in order. -/
theorem inOrder_ascending {spans : List Span} (apart : spans.Pairwise Span.Apart) (proper : ∀ s ∈ spans, s.start < s.stop) :
    (inOrder spans).Pairwise fun s t => s.stop ≤ t.start := by
  have same : (inOrder spans).Perm spans := List.mergeSort_perm spans _
  have sorted : (inOrder spans).Pairwise fun s t => (s.order t != .gt) = true :=
    List.pairwise_mergeSort
      (by simp only [order_ne_gt_iff]; omega) (by simp only [Bool.or_eq_true, order_ne_gt_iff]; omega) spans
  have apart' : (inOrder spans).Pairwise Span.Apart := apart.perm same.symm Span.Apart.symm
  refine (sorted.and apart').imp_of_mem fun {s t} first second both => ?_
  have before := order_ne_gt_iff.mp both.1
  have filled := proper t (same.mem_iff.mp second)
  rcases both.2 with le | le
  · exact le
  · omega

end Order

end Projection
end SvelteLens
