import SvelteLens.Proofs.Markup.Contents
import SvelteLens.Proofs.Markup.WellFormed

/-! Scanned documents are well formed. Every item of the text adds a block or a start tag behind all others, or it ends
the innermost open element, whose content then reaches from its start tag up to the end tag. -/
namespace SvelteLens

theorem Text.breakAt?_first {needle cs before after : List Char} (h : breakAt? needle cs = some (before, after))
    (filled : needle ≠ []) : ¬needle <:+: before := by
  induction cs generalizing before with
  | nil =>
    unfold breakAt? at h
    split at h
    · cases h
      simpa using filled
    · cases h
  | cons c cs ih =>
    unfold breakAt? at h
    split at h
    · cases h
      simpa using filled
    · next absent =>
      obtain ⟨⟨front, rest⟩, found, same⟩ := Option.map_eq_some_iff.mp h
      cases same
      rw [List.infix_cons_iff, not_or]
      refine ⟨fun leads => absent (List.isPrefixOf_iff_prefix.mpr ?_), ih found⟩
      rw [append_of_breakAt? found, ← List.cons_append]
      exact leads.trans (List.prefix_append _ _)

namespace Markup

open Text (width)

/-- What one item of the text does. -/
inductive Takes (text : List Char) (p : Progress) (c : Cursor) : Progress → Cursor → Prop where
  | passes : Takes text p c p c'
  | style : Cut text ⟨c.offset, c'.offset⟩ → Takes text p c { p with styles := p.styles ++ [⟨c.offset, c'.offset⟩] } c'
  | moduleScript : block.span = ⟨c.offset, c'.offset⟩ → block.WellFormed text →
      Takes text p c { p with moduleScript := some block } c'
  | instanceScript : block.span = ⟨c.offset, c'.offset⟩ → block.WellFormed text →
      Takes text p c { p with instanceScript := some block } c'
  | leaf {tag : Tag} {c' : Cursor} : tag.span = ⟨c.offset, c'.offset⟩ → tag.content = none → tag.Started text →
      Takes text p c (p.addNode (.mk tag [])) c'
  | opens {tag : Tag} {c' : Cursor} : tag.span = ⟨c.offset, c'.offset⟩ → tag.content = some (Span.empty c'.offset) →
      tag.Started text ∨ c'.rest = [] → Takes text p c { p with opened := ⟨tag, []⟩ :: p.opened } c'
  | closes {tag : Tag} {children : List Node} {rest : List OpenTag} {name : List Char} {c' : Cursor} :
      p.opened = ⟨tag, children⟩ :: rest → '>' ∉ name → c.Reads ('<' :: '/' :: (name ++ ['>'])) c' →
      Takes text p c ({ p with opened := rest }.addNode (.mk { tag with
        content := some ⟨tag.content.elim tag.span.stop (·.start), c.offset⟩
        span := ⟨tag.span.start, c'.offset⟩ } children.reverse)) c'

section Items

variable {text front : List Char} {p p' : Progress} {c c' : Cursor}

theorem scanEndTag_takes (slash : c.startsWith "</" = true) (h : scanEndTag p c = .ok (p', c')) : Takes text p c p' c' := by
  unfold scanEndTag at h
  split at h
  · next found =>
    split at h
    · cases h
    · next opened =>
      cases h
      obtain ⟨⟨before, rest⟩, split, same⟩ := Option.map_eq_some_iff.mp found
      cases same
      obtain ⟨whole, unclosed⟩ := Text.breakAt?_eq_some.mp split
      obtain ⟨behind, marks⟩ := List.isPrefixOf_iff_prefix.mp slash
      -- what stands before the bracket begins with the mark, for there is no bracket in the mark
      obtain ⟨name, rfl⟩ : ∃ name, before = '<' :: '/' :: name := by
        rw [← marks] at whole
        rcases before with _ | ⟨x, _ | ⟨y, name⟩⟩
        · cases whole
        · cases whole
        · cases whole
          exact ⟨_, rfl⟩
      have reads := Cursor.breakAt?_reads found
      refine .closes opened (fun member => unclosed ?_) (by simpa using reads)
      exact List.mem_cons_of_mem _ (List.mem_cons_of_mem _ member)
  · cases h

theorem scanBlock_takes {first : Cursor} {name : String} (here : (Cursor.start text).Reads front first)
    (opening : first.Reads ('<' :: name.toList) c) (named : name = "script" ∨ name = "style")
    (h : scanBlock p first.offset name c = .ok (p', c')) : Takes text p first p' c' := by
  unfold scanBlock at h
  obtain ⟨⟨attributes, last⟩, scanned, h⟩ := chain_ok.mp h
  obtain ⟨inner, byte, h⟩ := chain_ok.mp h
  obtain ⟨run, listed⟩ := (attributes_listed scanned).reads
  obtain ⟨x, _, close⟩ := Cursor.skipByte_reads byte
  have entered := opening.trans (listed.trans close)
  split at h
  · next body after found =>
    obtain ⟨mark, content, closing, offset⟩ := (Cursor.breakAt?_reads found).split
    simp only at h
    split at h
    · cases h
      have whole := (entered.trans content).trans closing
      exact .style ⟨here.boundary, (here.trans whole).boundary, whole.le⟩
    · next other =>
      obtain rfl : name = "script" := named.resolve_right other
      have formed (lang : Option String) : ScriptBlock.WellFormed text
          ⟨⟨first.offset, after.offset⟩, ⟨inner.offset, inner.offset + width body.toList⟩, lang⟩ := by
        rw [← offset]
        refine ⟨⟨run ++ [x], entered.slice here⟩, ⟨body.toList, content.slice (here.trans entered), ?_⟩,
          closing.slice ((here.trans entered).trans content)⟩
        obtain ⟨⟨before, rest⟩, split, same⟩ := Option.map_eq_some_iff.mp found
        cases same
        simpa using Text.breakAt?_first split (by decide)
      split at h
      · cases h
        exact .moduleScript rfl (formed _)
      · cases h
        exact .instanceScript rfl (formed _)
  · cases h

/-- What is read from an angle bracket on over a name and attributes is a start tag. -/
theorem Tag.started_of_reads {named last after : Cursor} {tag : Tag} (here : (Cursor.start text).Reads front c)
    (opening : c.Reads ('<' :: tag.name.toList) named) (scanned : named.attributes = .ok (tag.attributes, last))
    (forward : last.offset < after.offset) (starts : tag.startTag = ⟨c.offset, after.offset⟩)
    (ended : Text.slice? text (after.offset - 1) after.offset = some ['>'] ∨ tag.CutOff text) : tag.Started text := by
  obtain ⟨formed, ordered⟩ := scanAttributes_wellFormed (here.trans opening) scanned
  obtain ⟨run, reads⟩ := (attributes_listed scanned).reads
  have start : tag.span.start = c.offset := congrArg Span.start starts
  have behind : c.offset + 1 + width tag.name.toList = named.offset := by
    rw [opening.2]
    exact Nat.add_assoc ..
  have order : c.offset < after.offset := Nat.lt_of_le_of_lt (opening.trans reads).le forward
  refine ⟨?_, ordered, fun a member => ?_, fun a member => (formed a member).1, ?_, ?_⟩
  · rw [start, behind]
    exact opening.slice here
  · rw [start, behind, starts]
    exact ⟨(formed a member).2.1, Nat.lt_of_le_of_lt (formed a member).2.2 forward⟩
  · rw [starts]
    exact order
  · rw [starts]
    exact ended

theorem scanStartTag_takes (here : (Cursor.start text).Reads front c) (angle : c.startsWith "<" = true)
    (h : scanStartTag p c = .ok (p', c')) : Takes text p c p' c' := by
  unfold scanStartTag at h
  simp only at h
  generalize (fun x => !Text.isBlank x && decide (x ≠ '>') && decide (x ≠ '/')) = ends at h
  have opening : c.Reads ('<' :: ((c.skip 1).takeWhile ends).1.toList) ((c.skip 1).takeWhile ends).2 := by
    rw [Cursor.takeWhile_fst]
    exact (Cursor.skip_mark angle).trans ((c.skip 1).takeWhile_reads ends)
  generalize (c.skip 1).takeWhile ends = found at h opening
  obtain ⟨name, named⟩ := found
  dsimp only at h opening
  split at h
  · next block => exact scanBlock_takes here opening (by simpa using block) h
  · obtain ⟨⟨attributes, last⟩, scanned, h⟩ := chain_ok.mp h
    obtain ⟨run, reads⟩ := (attributes_listed scanned).reads
    have there := here.trans (opening.trans reads)
    have ended := tagEnd_cases (scanAttributes_stops scanned)
    simp only at h
    generalize (if last.startsWith "/>" = true then last.skip 2
      else (⟨last.offset + 1, last.rest.drop 1⟩ : Cursor)) = after at h ended
    rcases ended with ⟨mark, close⟩ | ⟨unclosed, empty, rfl⟩
    · have closed := close.last_byte there rfl
      have forward := close.lt (by simp)
      split at h
      · cases h
        exact .leaf rfl rfl (Tag.started_of_reads here opening scanned forward rfl (.inl closed))
      · cases h
        exact .opens rfl rfl (.inl (Tag.started_of_reads here opening scanned forward rfl (.inl closed)))
    · split at h
      · next bare =>
        cases h
        obtain ⟨whole, offset⟩ := there.cut
        rw [empty, List.append_nil] at whole
        have forward : last.offset < (⟨last.offset + 1, []⟩ : Cursor).offset := Nat.lt_succ_self _
        refine .leaf rfl rfl (Tag.started_of_reads here opening scanned forward rfl (.inr ⟨rfl, ?_, ?_⟩))
        · simpa [unclosed] using bare
        · rw [offset, ← whole]
      · cases h
        exact .opens rfl rfl (.inr rfl)

/-- An item does one of these, whatever the text holds. -/
theorem scanItem_takes (here : (Cursor.start text).Reads front c) (h : scanItem p c = .ok (p', c')) :
    Takes text p c p' c' := by
  unfold scanItem at h
  split at h
  · split at h
    · cases h
      exact .passes
    · cases h
  · split at h
    · next slash => exact scanEndTag_takes slash h
    · split at h
      · next angle => exact scanStartTag_takes here angle h
      · split at h
        · obtain ⟨_, _, h⟩ := chain_ok.mp h
          cases h
          exact .passes
        · cases h
          exact .passes

end Items

/-- Well-formed nodes in order between two offsets. -/
structure Row (text : List Char) (start stop : Nat) (nodes : List Node) : Prop where
  order : start ≤ stop
  ordered : Ordered nodes
  inside : ∀ node ∈ nodes, start ≤ node.span.start ∧ node.span.stop ≤ stop
  formed : ∀ node ∈ nodes, node.WellFormed text

/-- The open elements, innermost first, with the nodes that are complete in each and between them. -/
inductive Piled (text : List Char) : Nat → List OpenTag → List Node → Prop where
  | bottom : Row text 0 limit nodes.reverse → Piled text limit [] nodes
  | level {o : OpenTag} : o.tag.Started text → o.tag.content = some (Span.empty start) →
      Row text start limit o.children.reverse → Piled text o.tag.span.start rest nodes →
      Piled text limit (o :: rest) nodes

section Rows

variable {text : List Char} {start middle stop limit limit' : Nat} {nodes others : List Node} {node : Node}
  {opened : List OpenTag} {p : Progress}

namespace Row

theorem nil (order : start ≤ stop) : Row text start stop [] := ⟨order, .nil, nofun, nofun⟩

theorem single (formed : node.WellFormed text) (order : node.span.start ≤ node.span.stop) :
    Row text node.span.start node.span.stop [node] :=
  ⟨order, List.pairwise_singleton _ node, by simp, by simpa using formed⟩

theorem append (h : Row text start middle nodes) (k : Row text middle stop others) :
    Row text start stop (nodes ++ others) where
  order := Nat.le_trans h.order k.order
  ordered := List.pairwise_append.mpr ⟨h.ordered, k.ordered,
    fun x before y behind => Nat.le_trans (h.inside x before).2 (k.inside y behind).1⟩
  inside x member := by
    rcases List.mem_append.mp member with before | behind
    · exact ⟨(h.inside x before).1, Nat.le_trans (h.inside x before).2 k.order⟩
    · exact ⟨Nat.le_trans h.order (k.inside x behind).1, (k.inside x behind).2⟩
  formed x member := (List.mem_append.mp member).elim (h.formed x) (k.formed x)

theorem later (h : Row text start stop nodes) (le : stop ≤ limit) : Row text start limit nodes := by
  have parts := h.append (.nil le)
  rwa [List.append_nil] at parts

end Row

namespace Piled

theorem later (h : Piled text limit opened nodes) (le : limit ≤ limit') : Piled text limit' opened nodes := by
  cases h with
  | bottom row => exact .bottom (row.later le)
  | level started content row below => exact .level started content (row.later le) below

theorem addNode (h : Piled text limit p.opened p.nodes) (new : Row text limit limit' [node]) :
    Piled text limit' (p.addNode node).opened (p.addNode node).nodes := by
  unfold Progress.addNode
  cases opened : p.opened with
  | nil =>
    rw [opened] at h
    cases h with
    | bottom row => exact .bottom (by simpa using row.append new)
  | cons parent rest =>
    rw [opened] at h
    cases h with
    | level started content row below => exact .level started content (by simpa using row.append new) below

end Piled

/-- An end tag completes the innermost open element. -/
theorem Node.wellFormed_of_closed {tag : Tag} {name : List Char} {children : List Node} (started : tag.Started text)
    (content : tag.content = some (Span.empty start)) (row : Row text start stop children) (plain : '>' ∉ name)
    (closing : Text.slice? text stop limit = some ('<' :: '/' :: (name ++ ['>']))) :
    Node.WellFormed text (.mk { tag with content := some ⟨start, stop⟩, span := ⟨tag.span.start, limit⟩ } children) := by
  have starts : tag.startTag = ⟨tag.span.start, start⟩ := by rw [Tag.startTag, content]; rfl
  have uncut : ¬tag.CutOff text := fun cut => by
    rw [cut.bare] at content
    cases content
  have order := started.order
  rw [starts] at order
  refine .mk ⟨started.name, started.ordered, fun a member => ?_, started.formed, order, .inl ?_⟩ ?_ row.ordered ?_ row.formed
  · have inside := started.inside a member
    rw [starts] at inside
    exact inside
  · have ended := started.ended.resolve_right uncut
    rw [starts] at ended
    exact ended
  · rintro _ ⟨⟩
    have stop := (cut_of_slice closing).order
    exact ⟨row.order, Span.covers_iff.mpr ⟨Nat.le_of_lt order, stop⟩, name, plain, closing⟩
  · exact fun child member => ⟨_, rfl, Span.covers_iff.mpr (row.inside child member)⟩

/-- One item keeps the nodes well formed and in order. An element that the end of the text cuts off stays open. -/
theorem Piled.step {front : List Char} {p' : Progress} {c c' : Cursor} (h : Piled text c.offset p.opened p.nodes)
    (here : (Cursor.start text).Reads front c) (le : c.offset ≤ c'.offset) (takes : Takes text p c p' c') :
    Piled text c'.offset p'.opened p'.nodes ∨ c'.rest = [] ∧ p'.opened ≠ [] := by
  cases takes with
  | passes => exact .inl (h.later le)
  | style => exact .inl (h.later le)
  | moduleScript => exact .inl (h.later le)
  | instanceScript => exact .inl (h.later le)
  | @leaf tag _ span bare started =>
    have formed : Node.WellFormed text (.mk tag []) :=
      .mk started (fun content found => by rw [bare] at found; cases found) .nil nofun nofun
    have row : Row text c.offset c'.offset [.mk tag []] := by
      have single := Row.single formed (by rw [Node.span, span]; exact le)
      rwa [Node.span, span] at single
    exact .inl (h.addNode row)
  | opens span content started =>
    rcases started with started | ended
    · refine .inl (.level started content (.nil (Nat.le_refl _)) ?_)
      rw [span]
      exact h
    · exact .inr ⟨ended, List.cons_ne_nil _ _⟩
  | @closes tag children rest _ _ opened plain reads =>
    rw [opened] at h
    cases h with
    | level started content row below =>
      next start =>
      have content : tag.content = some (Span.empty start) := content
      have closing := reads.slice here
      have formed := Node.wellFormed_of_closed started content row plain closing
      have order : tag.span.start ≤ c'.offset := by
        have inside := started.order
        rw [Tag.startTag, show (OpenTag.mk tag children).tag.content = some (Span.empty start) from content] at inside
        have inside : tag.span.start < start := inside
        have := row.order
        omega
      rw [content]
      exact .inl (Piled.addNode (p := { p with opened := rest }) below (Row.single formed order))

end Rows

section Blocks

variable {text front : List Char} {p p' : Progress} {c c' : Cursor} {s : Span}

/-- All start tags so far, those of open elements included. -/
def Progress.startTags (p : Progress) : List Span := p.elements.map Tag.startTag ++ p.opened.map (·.tag.startTag)

theorem Progress.mem_startTags_addNode {node : Node} (h : s ∈ (p.addNode node).startTags) :
    s ∈ node.elements.map Tag.startTag ∨ s ∈ p.startTags := by
  rcases List.mem_append.mp h with complete | open'
  · obtain ⟨tag, listed, rfl⟩ := List.mem_map.mp complete
    exact (mem_elements_addNode listed).imp List.mem_map_of_mem fun old =>
      List.mem_append_left _ (List.mem_map_of_mem old)
  · obtain ⟨o, listed, rfl⟩ := List.mem_map.mp open'
    obtain ⟨old, listed, same⟩ := opened_addNode listed
    exact .inr (List.mem_append_right _ (List.mem_map.mpr ⟨old, listed, by rw [same]⟩))

theorem Progress.blocks_addNode (p : Progress) (node : Node) : (p.addNode node).blocks = p.blocks := by
  obtain ⟨styles, instanceScript, moduleScript⟩ := p.addNode_blocks node
  rw [blocks, blocks, styles, instanceScript, moduleScript]

theorem Takes.startTags (takes : Takes text p c p' c') (member : s ∈ p'.startTags) :
    s ∈ p.startTags ∨ s = ⟨c.offset, c'.offset⟩ ∧ p'.blocks = p.blocks := by
  cases takes with
  | passes => exact .inl member
  | style => exact .inl member
  | moduleScript => exact .inl member
  | instanceScript => exact .inl member
  | leaf span bare =>
    rcases Progress.mem_startTags_addNode member with new | old
    · obtain ⟨tag, listed, rfl⟩ := List.mem_map.mp new
      obtain rfl : tag = _ := by simpa [Node.elements, Node.elementsOf] using listed
      exact .inr ⟨by rw [Tag.startTag, bare, span]; rfl, p.blocks_addNode _⟩
    · exact .inl old
  | opens span content =>
    rw [Progress.startTags, List.map_cons] at member
    rcases List.mem_append.mp member with complete | open'
    · refine .inl (List.mem_append_left _ ?_)
      simpa [Progress.elements, Node.elementsOf] using complete
    · rcases List.mem_cons.mp open' with rfl | old
      · exact .inr ⟨by rw [Tag.startTag, content, span]; rfl, rfl⟩
      · exact .inl (List.mem_append_right _ old)
  | @closes tag children rest _ _ opened =>
    refine .inl ?_
    rcases Progress.mem_startTags_addNode member with new | old
    · rw [Node.elements, List.map_cons] at new
      rcases List.mem_cons.mp new with rfl | below
      · exact List.mem_append_right _ (List.mem_map.mpr ⟨_, opened ▸ List.mem_cons_self, rfl⟩)
      · obtain ⟨found, listed, rfl⟩ := List.mem_map.mp below
        have inside := Node.elementsOf_subset (List.reverse_subset.mpr (List.Subset.refl children)) listed
        refine List.mem_append_left _ (List.mem_map_of_mem (List.mem_append_right _ ?_))
        exact List.mem_flatMap.mpr ⟨⟨tag, children⟩, opened ▸ List.mem_cons_self, inside⟩
    · simp only [Progress.startTags, Progress.elements, opened, List.mem_append, List.map_append, List.map_cons,
        List.flatMap_cons, List.mem_cons] at old ⊢
      tauto

theorem Takes.blocks (takes : Takes text p c p' c') (member : s ∈ p'.blocks) :
    s ∈ p.blocks ∨ s = ⟨c.offset, c'.offset⟩ ∧ p'.startTags = p.startTags := by
  cases takes with
  | passes => exact .inl member
  | style =>
    simp only [Progress.blocks, List.mem_append, List.mem_singleton] at member ⊢
    rcases member with script | old | new
    · exact .inl (.inl script)
    · exact .inl (.inr old)
    · exact .inr ⟨new, rfl⟩
  | moduleScript span =>
    simp only [Progress.blocks, List.map_append, List.mem_append, Option.toList_some, List.map_cons, List.map_nil,
      List.mem_singleton] at member ⊢
    rcases member with (old | new) | style
    · exact .inl (.inl (.inl old))
    · exact .inr ⟨new.trans span, rfl⟩
    · exact .inl (.inr style)
  | instanceScript span =>
    simp only [Progress.blocks, List.map_append, List.mem_append, Option.toList_some, List.map_cons, List.map_nil,
      List.mem_singleton] at member ⊢
    rcases member with (new | old) | style
    · exact .inr ⟨new.trans span, rfl⟩
    · exact .inl (.inl (.inr old))
    · exact .inl (.inr style)
  | leaf => exact .inl (p.blocks_addNode _ ▸ member)
  | opens => exact .inl member
  | closes =>
    rw [Progress.blocks_addNode] at member
    exact .inl member

/-- The blocks so far: they and the start tags lie behind the cursor and share no byte. -/
structure Kept (text : List Char) (p : Progress) (offset : Nat) : Prop where
  startTags : ∀ s ∈ p.startTags, s.stop ≤ offset
  blocks : ∀ s ∈ p.blocks, s.stop ≤ offset
  apart : ∀ s ∈ p.startTags, ∀ block ∈ p.blocks, s.Apart block
  scripts : ∀ block ∈ p.instanceScript.toList ++ p.moduleScript.toList, block.WellFormed text
  styles : ∀ s ∈ p.styles, Cut text s

theorem Kept.start (text : List Char) : Kept text {} 0 := ⟨nofun, nofun, nofun, nofun, nofun⟩

theorem Kept.step (h : Kept text p c.offset) (le : c.offset ≤ c'.offset) (takes : Takes text p c p' c') :
    Kept text p' c'.offset where
  startTags s member := by
    rcases takes.startTags member with old | ⟨rfl, -⟩
    · exact Nat.le_trans (h.startTags s old) le
    · exact Nat.le_refl _
  blocks s member := by
    rcases takes.blocks member with old | ⟨rfl, -⟩
    · exact Nat.le_trans (h.blocks s old) le
    · exact Nat.le_refl _
  apart s member block listed := by
    rcases takes.startTags member with old | ⟨rfl, same⟩
    · rcases takes.blocks listed with old' | ⟨rfl, -⟩
      · exact h.apart s old block old'
      · exact .inl (h.startTags s old)
    · exact .inr (h.blocks block (same ▸ listed))
  scripts block member := by
    cases takes with
    | passes => exact h.scripts block member
    | style => exact h.scripts block member
    | moduleScript _ formed =>
      rcases List.mem_append.mp member with old | new
      · exact h.scripts block (List.mem_append_left _ old)
      · exact List.mem_singleton.mp new ▸ formed
    | instanceScript _ formed =>
      rcases List.mem_append.mp member with new | old
      · exact List.mem_singleton.mp new ▸ formed
      · exact h.scripts block (List.mem_append_right _ old)
    | leaf =>
      rw [(p.addNode_blocks _).2.1, (p.addNode_blocks _).2.2] at member
      exact h.scripts block member
    | opens => exact h.scripts block member
    | closes =>
      rw [(Progress.addNode_blocks _ _).2.1, (Progress.addNode_blocks _ _).2.2] at member
      exact h.scripts block member
  styles s member := by
    cases takes with
    | style cut => exact (List.mem_append.mp member).elim (h.styles s) fun new => List.mem_singleton.mp new ▸ cut
    | leaf => exact h.styles s ((p.addNode_blocks _).1 ▸ member)
    | closes =>
      rw [(Progress.addNode_blocks _ _).1] at member
      exact h.styles s member
    | passes => exact h.styles s member
    | moduleScript => exact h.styles s member
    | instanceScript => exact h.styles s member
    | opens => exact h.styles s member

end Blocks

theorem Scans.formed {text : List Char} {p : Progress} {c : Cursor} (h : Scans text p c) :
    Kept text p c.offset ∧ (Piled text c.offset p.opened p.nodes ∨ c.rest = [] ∧ p.opened ≠ []) := by
  induction h with
  | start => exact ⟨.start text, .inl (.bottom (.nil (Nat.le_refl _)))⟩
  | item before left item ih =>
    obtain ⟨kept, piled⟩ := ih
    have piled := piled.resolve_right fun ended => left ended.1
    obtain ⟨⟨front, here⟩, zones, adds⟩ := before.adds left item
    have takes := scanItem_takes here item
    exact ⟨kept.step adds.order takes, piled.step here adds.order takes⟩

/-- The blocks of a document share no byte. -/
theorem Zoned.blocks_apart {text : List Char} {doc : Document} {zones : List Zone} (h : Zoned text doc zones) :
    doc.blocks.Pairwise Span.Apart := by
  have zonesApart {y z : Zone} (hy : y ∈ zones) (hz : z ∈ zones) (other : y ≠ z) : y.span.Apart z.span :=
    (h.apart hy hz).resolve_left other
  refine List.pairwise_append.mpr ⟨List.pairwise_map.mpr (List.pairwise_append.mpr ⟨?_, ?_, ?_⟩), ?_, ?_⟩
  · cases doc.instanceScript <;> simp
  · cases doc.moduleScript <;> simp
  · intro own first shared second
    have front := h.instanceScript own (Option.mem_toList.mp first)
    exact zonesApart front (h.moduleScript shared (Option.mem_toList.mp second)) nofun
  · exact h.styles_ascending.imp .inl
  · intro span member style listed
    obtain ⟨block, script, rfl⟩ := List.mem_map.mp member
    obtain ⟨shared, zone⟩ := h.script_mem script
    exact zonesApart zone (h.style_mem listed) nofun

theorem scan_scripts {source : String} {doc : Document} (h : scan source = .ok doc) :
    ∀ block ∈ doc.scripts, block.WellFormed source.toList := by
  obtain ⟨p, c, scans, done⟩ := scan_scans h
  have kept := scans.formed.1
  unfold Progress.finish at done
  split at done
  · cases done
    exact kept.scripts
  · cases done

/-- Scanned documents are well formed. -/
theorem scan_wellFormed {source : String} {doc : Document} (h : scan source = .ok doc) : doc.WellFormed source.toList := by
  obtain ⟨zones, zoned⟩ := scan_zoned h
  obtain ⟨p, c, scans, done⟩ := scan_scans h
  obtain ⟨kept, piled⟩ := scans.formed
  unfold Progress.finish at done
  split at done
  · next closed =>
    cases done
    have none : p.opened = [] := by simpa using closed
    have piled := piled.resolve_right fun ended => ended.2 none
    rw [none] at piled
    cases piled with
    | bottom row =>
      refine ⟨row.ordered, row.formed, kept.scripts, zoned.blocks_apart, ?_, ?_⟩
      · intro tag member block listed
        have complete : tag ∈ p.elements :=
          List.mem_append_left _ (Node.elementsOf_subset (List.reverse_subset.mpr (List.Subset.refl p.nodes)) member)
        exact kept.apart _ (List.mem_append_left _ (List.mem_map_of_mem complete)) block listed
      · exact Document.cuts row.formed kept.scripts kept.styles
  · cases done

/-- A sample with a script, an element and a void element that is cut off. -/
theorem scan_wellFormed_cut_off : ∃ doc,
    scan "<script>a</script><p on:click|once=\"\x7bgo\x7d\">b</p><input a" = .ok doc ∧
      doc.nodes.map Node.span = [⟨18, 47⟩, ⟨47, 56⟩] ∧
      doc.WellFormed "<script>a</script><p on:click|once=\"\x7bgo\x7d\">b</p><input a".toList := by
  have found : (scan "<script>a</script><p on:click|once=\"\x7bgo\x7d\">b</p><input a").toOption.any
      (fun doc => doc.nodes.map Node.span == [⟨18, 47⟩, ⟨47, 56⟩]) = true := by decide +kernel
  obtain ⟨doc, ok, spans⟩ := ok_of_any found
  exact ⟨doc, ok, by simpa using spans, scan_wellFormed ok⟩

end Markup
end SvelteLens
