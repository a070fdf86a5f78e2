import SvelteLens.Proofs.Markup.Frames
import SvelteLens.Proofs.Markup.Shapes

/-! What it is for a document to be well formed: every span holds what it should, nodes and blocks do not overlap, and
the children of an element lie in its content, which stops where the end tag begins. -/
namespace SvelteLens.Markup

open Text (width)

def Node.span : Node → Span
  | .mk tag _ => tag.span

/-- The start tag of an element. It ends where the content begins, or where the element ends. -/
def Tag.startTag (tag : Tag) : Span := ⟨tag.span.start, tag.content.elim tag.span.stop (·.start)⟩

/-- A void element whose start tag is cut off by the end of the text. It stops one byte behind the text. -/
structure Tag.CutOff (text : List Char) (tag : Tag) : Prop where
  bare : tag.content = none
  isVoid : voidElements.contains tag.name = true
  stop : tag.span.stop = width text + 1

/-- A start tag: an angle bracket, the name, the attributes in order, and another angle bracket. -/
structure Tag.Started (text : List Char) (tag : Tag) : Prop where
  name : Text.slice? text tag.span.start (tag.span.start + 1 + width tag.name.toList) = some ('<' :: tag.name.toList)
  ordered : tag.attributes.Pairwise fun a b => a.span.stop ≤ b.span.start
  inside : ∀ a ∈ tag.attributes, tag.span.start + 1 + width tag.name.toList ≤ a.span.start ∧ a.span.stop < tag.startTag.stop
  formed : ∀ a ∈ tag.attributes, a.WellFormed text
  order : tag.startTag.start < tag.startTag.stop
  ended : Text.slice? text (tag.startTag.stop - 1) tag.startTag.stop = some ['>'] ∨ tag.CutOff text

/-- Content that stops where the end tag of its element begins. -/
structure Tag.Closed (text : List Char) (tag : Tag) (content : Span) : Prop where
  order : content.start ≤ content.stop
  inside : tag.span.covers content = true
  closing : ∃ name, '>' ∉ name ∧
    Text.slice? text content.stop tag.span.stop = some ('<' :: '/' :: (name ++ ['>']))

def Ordered (nodes : List Node) : Prop := nodes.Pairwise fun x y => x.span.stop ≤ y.span.start

inductive Node.WellFormed (text : List Char) : Node → Prop where
  | mk : tag.Started text → (∀ content ∈ tag.content, tag.Closed text content) → Ordered children →
      (∀ child ∈ children, ∃ content ∈ tag.content, content.covers child.span = true) →
      (∀ child ∈ children, Node.WellFormed text child) → WellFormed text (.mk tag children)

/-- A script whose content stops where its end tag first occurs. -/
structure ScriptBlock.WellFormed (text : List Char) (block : ScriptBlock) : Prop where
  opening : ∃ attributes, Text.slice? text block.span.start block.content.start = some ("<script".toList ++ attributes)
  content : ∃ run, Text.slice? text block.content.start block.content.stop = some run ∧ ¬"</script>".toList <:+: run
  closing : Text.slice? text block.content.stop block.span.stop = some "</script>".toList

/-- A span of the text: it starts and stops at boundaries. -/
structure Cut (text : List Char) (span : Span) : Prop where
  start : Text.isBoundary text span.start = true
  stop : Text.isBoundary text span.stop = true
  order : span.start ≤ span.stop

theorem cut_of_slice {text : List Char} {start stop : Nat} {run : List Char} (slice : Text.slice? text start stop = some run) :
    Cut text ⟨start, stop⟩ := by
  obtain ⟨first, last⟩ := Text.boundaries_of_slice? slice
  obtain ⟨_, _, -, -, rfl⟩ := Text.slice?_eq_some_iff.mp slice
  exact ⟨first, last, Nat.le_add_right _ _⟩

def Tag.spans (tag : Tag) : List Span := tag.span :: (tag.content.toList ++ tag.attributes.flatMap Attribute.spans)

def Document.spans (doc : Document) : List Span :=
  (Node.elementsOf doc.nodes).flatMap Tag.spans ++ (doc.scripts.flatMap (fun block => [block.span, block.content]) ++ doc.styles)

def Document.blocks (doc : Document) : List Span := doc.scripts.map (·.span) ++ doc.styles

/-- A document whose spans hold what they should: nodes and blocks do not overlap, and every span is cut out of the text,
but for a void element that the end of the text cuts off. -/
structure Document.WellFormed (text : List Char) (doc : Document) : Prop where
  ordered : Ordered doc.nodes
  nodes : ∀ node ∈ doc.nodes, node.WellFormed text
  scripts : ∀ block ∈ doc.scripts, block.WellFormed text
  blocks : doc.blocks.Pairwise Span.Apart
  apart : ∀ tag ∈ Node.elementsOf doc.nodes, ∀ block ∈ doc.blocks, tag.startTag.Apart block
  spans : ∀ span ∈ doc.spans, Cut text span ∨ ∃ tag ∈ Node.elementsOf doc.nodes, tag.CutOff text ∧ span = tag.span ∧
    Text.isBoundary text span.start = true

section Spans

variable {text : List Char} {tag : Tag} {content : Span} {a : Attribute} {node : Node} {block : ScriptBlock}

theorem DirectiveValue.Within.cuts {value : DirectiveValue} {inside : Span} (h : value.Within text inside) :
    ∀ s ∈ value.spans, Cut text s := by
  cases h with
  | shorthand => nofun
  | text slice => exact fun s member => List.mem_singleton.mp member ▸ cut_of_slice slice
  | expression slice => exact fun s member => List.mem_singleton.mp member ▸ cut_of_slice slice

theorem Attribute.WellFormed.cuts (h : a.WellFormed text) : ∀ s ∈ a.spans, Cut text s := by
  have value := h.value.cuts
  have order := h.order
  intro s member
  cases h.headed with
  | plain slice =>
    rcases List.mem_cons.mp member with rfl | inside
    · exact ⟨(cut_of_slice slice).start, h.stop, Nat.le_trans order.1 order.2⟩
    · exact value s inside
  | directive headed =>
    obtain ⟨word, -, slice⟩ := headed.word
    rcases List.mem_cons.mp member with rfl | inside
    · exact ⟨(cut_of_slice slice).start, h.stop, Nat.le_trans order.1 order.2⟩
    · rcases List.mem_cons.mp inside with rfl | inside
      · exact cut_of_slice headed.name
      · exact value s inside

theorem Node.WellFormed.tags (h : node.WellFormed text) :
    ∀ tag ∈ node.elements, tag.Started text ∧ ∀ content ∈ tag.content, tag.Closed text content := by
  induction h with
  | mk started closed _ _ _ ih =>
    intro tag member
    rw [Node.elements] at member
    rcases List.mem_cons.mp member with rfl | below
    · exact ⟨started, closed⟩
    · obtain ⟨child, listed, inside⟩ := Node.mem_elementsOf.mp below
      exact ih child listed tag inside

theorem Tag.Started.content_cut (started : tag.Started text) (found : content ∈ tag.content)
    (closed : tag.Closed text content) : Cut text content ∧ Cut text tag.span := by
  have starts : tag.startTag = ⟨tag.span.start, content.start⟩ := by
    rw [startTag, show tag.content = some content from found]
    rfl
  have uncut : ¬tag.CutOff text := fun cut => by
    rw [cut.bare] at found
    cases found
  have ended := cut_of_slice (started.ended.resolve_right uncut)
  have order := started.order
  rw [starts] at ended order
  obtain ⟨_, -, slice⟩ := closed.closing
  have closing := cut_of_slice slice
  have inside : tag.span.start < content.start := order
  have between := closed.order
  have after : content.stop ≤ tag.span.stop := closing.order
  exact ⟨⟨ended.stop, closing.start, between⟩, (cut_of_slice started.name).start, closing.stop, by omega⟩

/-- Every span of a tag is cut out of the text, or the end of the text cuts the tag off. -/
theorem Tag.Started.cuts (started : tag.Started text) (closed : ∀ content ∈ tag.content, tag.Closed text content) :
    ∀ s ∈ tag.spans, Cut text s ∨ tag.CutOff text ∧ s = tag.span ∧ Text.isBoundary text s.start = true := by
  intro s member
  rcases List.mem_cons.mp member with rfl | inside
  · have start := (cut_of_slice started.name).start
    cases found : tag.content with
    | none =>
      have starts : tag.startTag = tag.span := by rw [startTag, found]; rfl
      have order := started.order
      rcases started.ended with slice | cut
      · rw [starts] at slice order
        exact .inl ⟨start, (cut_of_slice slice).stop, Nat.le_of_lt order⟩
      · exact .inr ⟨cut, rfl, start⟩
    | some content => exact .inl (started.content_cut found (closed content found)).2
  · rcases List.mem_append.mp inside with own | held
    · have found := Option.mem_toList.mp own
      exact .inl (started.content_cut found (closed s found)).1
    · obtain ⟨a, listed, has⟩ := List.mem_flatMap.mp held
      exact .inl ((started.formed a listed).cuts s has)

theorem ScriptBlock.WellFormed.cuts (h : block.WellFormed text) : Cut text block.span ∧ Cut text block.content := by
  obtain ⟨_, opening⟩ := h.opening
  obtain ⟨_, slice, -⟩ := h.content
  have first := cut_of_slice opening
  have content := cut_of_slice slice
  have last := cut_of_slice h.closing
  exact ⟨⟨first.start, last.stop, Nat.le_trans first.order (Nat.le_trans content.order last.order)⟩, content⟩

/-- Every span of a document is cut out of the text, but for a tag that the end of the text cuts off. -/
theorem Document.cuts {doc : Document} (nodes : ∀ node ∈ doc.nodes, node.WellFormed text)
    (scripts : ∀ block ∈ doc.scripts, block.WellFormed text) (styles : ∀ s ∈ doc.styles, Cut text s) :
    ∀ span ∈ doc.spans, Cut text span ∨ ∃ tag ∈ Node.elementsOf doc.nodes, tag.CutOff text ∧ span = tag.span ∧
      Text.isBoundary text span.start = true := by
  intro span member
  rcases List.mem_append.mp member with ofTag | ofBlock
  · obtain ⟨tag, listed, inside⟩ := List.mem_flatMap.mp ofTag
    obtain ⟨node, top, below⟩ := Node.mem_elementsOf.mp listed
    obtain ⟨started, closed⟩ := (nodes node top).tags tag below
    exact (started.cuts closed span inside).imp_right fun cut => ⟨tag, listed, cut⟩
  · rcases List.mem_append.mp ofBlock with ofScript | ofStyle
    · obtain ⟨block, listed, inside⟩ := List.mem_flatMap.mp ofScript
      obtain ⟨whole, content⟩ := (scripts block listed).cuts
      simp only [List.mem_cons, List.not_mem_nil, or_false] at inside
      rcases inside with rfl | rfl
      · exact .inl whole
      · exact .inl content
    · exact .inl (styles span ofStyle)

end Spans

end SvelteLens.Markup
