import SvelteLens.Proofs.Markup.Boundaries

/-! What stands around the zones of a document. The content of a tag starts and stops at seams, which
lie between the zones, and the angle bracket of a tag stands between its directives and any later
block. -/
namespace SvelteLens.Markup

open Text (width)

mutual

/-- The tags of a node and of everything below it, without their surroundings. -/
def Node.elements : Node → List Tag
  | .mk tag children => tag :: Node.elementsOf children

def Node.elementsOf : List Node → List Tag
  | [] => []
  | node :: rest => node.elements ++ Node.elementsOf rest

end

mutual

theorem Node.elements_tags (enclosing : Option Tag) (node : Node) : (node.tags enclosing).map (·.tag) = node.elements := by
  cases node with
  | mk tag children => rw [Node.tags, List.map_cons, Node.elements_tagsOf, Node.elements]

theorem Node.elements_tagsOf (enclosing : Option Tag) (nodes : List Node) :
    (Node.tagsOf enclosing nodes).map (·.tag) = Node.elementsOf nodes := by
  cases nodes with
  | nil => rfl
  | cons node rest =>
    rw [Node.tagsOf, List.map_append, Node.elements_tags, Node.elements_tagsOf, Node.elementsOf]

end

theorem Node.mem_elementsOf {tag : Tag} {nodes : List Node} :
    tag ∈ Node.elementsOf nodes ↔ ∃ node ∈ nodes, tag ∈ node.elements := by
  induction nodes with
  | nil => simp [Node.elementsOf]
  | cons node rest ih => simp [Node.elementsOf, ih]

theorem Node.elementsOf_subset {nodes others : List Node} (h : nodes ⊆ others) :
    Node.elementsOf nodes ⊆ Node.elementsOf others := by
  intro tag member
  obtain ⟨node, listed, below⟩ := Node.mem_elementsOf.mp member
  exact Node.mem_elementsOf.mpr ⟨node, h listed, below⟩

def Progress.elements (p : Progress) : List Tag :=
  Node.elementsOf p.nodes ++ p.opened.flatMap fun o => Node.elementsOf o.children

theorem Progress.mem_elements_addNode {p : Progress} {node : Node} {tag : Tag} (h : tag ∈ (p.addNode node).elements) :
    tag ∈ node.elements ∨ tag ∈ p.elements := by
  unfold Progress.addNode at h
  split at h
  · next parent rest opened =>
    simp only [Progress.elements, List.flatMap_cons, Node.elementsOf, List.mem_append] at h
    simp only [Progress.elements, opened, List.flatMap_cons, List.mem_append]
    rcases h with top | (new | sibling) | outer
    · exact .inr (.inl top)
    · exact .inl new
    · exact .inr (.inr (.inl sibling))
    · exact .inr (.inr (.inr outer))
  · simpa only [Progress.elements, Node.elementsOf, List.mem_append, or_assoc] using h

theorem Progress.opened_addNode {p : Progress} {node : Node} {o : OpenTag} (h : o ∈ (p.addNode node).opened) :
    ∃ old ∈ p.opened, o.tag = old.tag := by
  unfold Progress.addNode at h
  split at h
  · next parent rest opened =>
    rw [opened]
    rcases List.mem_cons.mp h with rfl | member
    · exact ⟨parent, List.mem_cons_self, rfl⟩
    · exact ⟨o, List.mem_cons_of_mem parent member, rfl⟩
  · exact ⟨o, h, rfl⟩

/-- What one item does to the tags. A tag that is completed has no content, or it was open and its content
stops where the item starts. A tag that is opened has nothing in it yet. -/
structure Turns (p : Progress) (c : Cursor) (p' : Progress) (c' : Cursor) : Prop where
  complete : ∀ tag ∈ p'.elements, tag ∈ p.elements ∨ tag.content = none ∨
    ∃ o ∈ p.opened, tag.content = some ⟨o.tag.content.elim o.tag.span.stop (·.start), c.offset⟩
  opened : ∀ o ∈ p'.opened, (∃ old ∈ p.opened, o.tag = old.tag) ∨ o.tag.content = some (Span.empty c'.offset)

theorem Turns.same {p p' : Progress} (nodes : p'.nodes = p.nodes) (opened : p'.opened = p.opened) (c c' : Cursor) :
    Turns p c p' c' where
  complete tag member := .inl (by rwa [Progress.elements, nodes, opened] at member)
  opened o member := .inl ⟨o, opened ▸ member, rfl⟩

theorem scanEndTag_turns {p p' : Progress} {c c' : Cursor} (h : scanEndTag p c = .ok (p', c')) : Turns p c p' c' := by
  unfold scanEndTag at h
  split at h
  · split at h
    · cases h
    · next tag children rest opened =>
      cases h
      have inside : ∀ o ∈ rest, o ∈ p.opened := fun o member => opened ▸ List.mem_cons_of_mem _ member
      refine ⟨fun found member => ?_, fun o member => ?_⟩
      · rcases Progress.mem_elements_addNode member with new | old
        · rcases List.mem_cons.mp new with rfl | child
          · exact .inr (.inr ⟨⟨tag, children⟩, opened ▸ List.mem_cons_self, rfl⟩)
          · refine .inl (List.mem_append_right _ (List.mem_flatMap.mpr ⟨⟨tag, children⟩, opened ▸ List.mem_cons_self, ?_⟩))
            exact Node.elementsOf_subset (List.reverse_subset.mpr (List.Subset.refl _)) child
        · rcases List.mem_append.mp old with top | nested
          · exact .inl (List.mem_append_left _ top)
          · obtain ⟨o, listed, member⟩ := List.mem_flatMap.mp nested
            exact .inl (List.mem_append_right _ (List.mem_flatMap.mpr ⟨o, inside o listed, member⟩))
      · obtain ⟨old, listed, same⟩ := Progress.opened_addNode member
        exact .inl ⟨old, inside old listed, same⟩
  · cases h

theorem scanStartTag_turns {p p' : Progress} {c c' : Cursor} (h : scanStartTag p c = .ok (p', c')) : Turns p c p' c' := by
  unfold scanStartTag at h
  simp only at h
  split at h
  · obtain ⟨nodes, opened⟩ := scanBlock_nodes h
    exact .same nodes opened c c'
  · obtain ⟨⟨attributes, last⟩, _, h⟩ := chain_ok.mp h
    simp only at h
    split at h
    · cases h
      refine ⟨fun found member => ?_, fun o member => .inl (Progress.opened_addNode member)⟩
      rcases Progress.mem_elements_addNode member with new | old
      · obtain rfl : found = _ := by simpa [Node.elements, Node.elementsOf] using new
        exact .inr (.inl rfl)
      · exact .inl old
    · cases h
      refine ⟨fun found member => .inl ?_, fun o member => ?_⟩
      · simpa [Progress.elements, Node.elementsOf] using member
      · rcases List.mem_cons.mp member with rfl | old
        · exact .inr rfl
        · exact .inl ⟨o, old, rfl⟩

theorem scanItem_turns {p p' : Progress} {c c' : Cursor} (h : scanItem p c = .ok (p', c')) : Turns p c p' c' := by
  unfold scanItem at h
  split at h
  · split at h
    · cases h
      exact .same rfl rfl _ _
    · cases h
  · split at h
    · exact scanEndTag_turns h
    · split at h
      · exact scanStartTag_turns h
      · split at h
        · obtain ⟨_, _, h⟩ := chain_ok.mp h
          cases h
          exact .same rfl rfl _ _
        · cases h
          exact .same rfl rfl _ _

/-- An offset between the zones of a text. -/
structure Seam (text : List Char) (zones : List Zone) (offset : Nat) : Prop where
  boundary : Text.isBoundary text offset = true
  clear : ∀ z ∈ zones, z.span.Apart (Span.empty offset)

/-- A seam that the scanner has passed. -/
structure Passed (text : List Char) (zones : List Zone) (c : Cursor) (offset : Nat) : Prop extends
    Seam text zones offset where
  reached : offset ≤ c.offset

section Passed

variable {text front : List Char} {zones more : List Zone} {p p' : Progress} {c c' : Cursor} {offset : Nat}

/-- New zones lie behind the cursor, so they lie behind every seam that was passed. -/
theorem Passed.grow (h : Passed text zones c offset) (adds : Adds text p c p' c' more) :
    Passed text (zones ++ more) c' offset where
  boundary := h.boundary
  clear z member := by
    rcases List.mem_append.mp member with old | new
    · exact h.clear z old
    · exact .inr (Nat.le_trans h.reached (adds.fresh.inside z new).1)
  reached := Nat.le_trans h.reached adds.order

/-- The scanner itself stands at a seam. -/
theorem Scanned.passed (valid : Scanned text p c.offset zones) (here : (Cursor.start text).Reads front c) :
    Passed text zones c c.offset :=
  ⟨⟨here.boundary, fun z member => .inl (valid.behind z member)⟩, Nat.le_refl _⟩

end Passed

/-- What stands around the zones that were scanned so far. -/
structure Laid (text : List Char) (p : Progress) (c : Cursor) (zones : List Zone) : Prop where
  complete : ∀ tag ∈ p.elements, ∀ content ∈ tag.content,
    Passed text zones c content.start ∧ Passed text zones c content.stop
  opened : (∀ o ∈ p.opened, ∃ content ∈ o.tag.content, Passed text zones c content.start) ∨ c.rest = []
  closed : ∀ d, .directive d ∈ zones → Bracket text d.span.stop c.offset ∨ c.rest = []
  separated : zones.Pairwise fun y z => ∀ d, y = .directive d → z.directive? = none →
    Bracket text d.span.stop z.span.start

theorem Bracket.wider {text : List Char} {lower upper upper' : Nat} (h : Bracket text lower upper) (le : upper ≤ upper') :
    Bracket text lower upper' := by
  obtain ⟨before, after, whole, first, last⟩ := h
  exact ⟨before, after, whole, first, Nat.lt_of_lt_of_le last le⟩

namespace Laid

variable {text front : List Char} {p p' : Progress} {c c' : Cursor} {zones more : List Zone}

theorem start (text : List Char) : Laid text {} (Cursor.start text) [] where
  complete := nofun
  opened := .inl nofun
  closed := nofun
  separated := .nil

/-- One item keeps to the seams: it completes a tag at the seam where it starts, and it opens one at the
seam where it ends. -/
theorem grow (h : Laid text p c zones) (valid : Scanned text p c.offset zones) (here : (Cursor.start text).Reads front c)
    (left : c.rest ≠ []) (adds : Adds text p c p' c' more) (turns : Turns p c p' c') : Laid text p' c' (zones ++ more) where
  complete tag member content inside := by
    rcases turns.complete tag member with old | none | ⟨o, open', closes⟩
    · obtain ⟨first, last⟩ := h.complete tag old content inside
      exact ⟨first.grow adds, last.grow adds⟩
    · rw [none] at inside
      cases inside
    · obtain ⟨inner, found, passed⟩ := h.opened.resolve_right left o open'
      rw [closes, show o.tag.content = some inner from found] at inside
      cases inside
      exact ⟨passed.grow adds, (valid.passed here).grow adds⟩
  opened := by
    rcases adds.reached with ⟨front', there⟩ | none
    · refine .inl fun o member => ?_
      rcases turns.opened o member with ⟨old, listed, same⟩ | new
      · obtain ⟨content, found, passed⟩ := h.opened.resolve_right left old listed
        exact ⟨content, same ▸ found, passed.grow adds⟩
      · exact ⟨_, new, (valid.grow adds).passed there⟩
    · exact .inr none
  closed d member := by
    rcases List.mem_append.mp member with old | new
    · exact .inl (((h.closed d old).resolve_right left).wider adds.order)
    · exact adds.closed d new
  separated := by
    have later (d : Directive) (z : Zone) (directive : .directive d ∈ zones) (block : z ∈ more) :
        Bracket text d.span.stop z.span.start :=
      ((h.closed d directive).resolve_right left).wider (adds.fresh.inside z block).1
    refine List.pairwise_append.mpr ⟨h.separated, ?_, fun y old z new d same _ => later d z (same ▸ old) new⟩
    -- inside one item either all zones are directives or there is just one
    refine List.pairwise_iff_forall_sublist.mpr fun {y z} pair d _ block => ?_
    have single := adds.alone z (pair.subset (by simp)) block
    have short := pair.length_le
    rw [single] at short
    exact absurd short (by simp)

end Laid

theorem Scans.laid {text : List Char} {p : Progress} {c : Cursor} (h : Scans text p c) :
    ∃ zones, Scanned text p c.offset zones ∧ Laid text p c zones := by
  induction h with
  | start => exact ⟨[], .start text, .start text⟩
  | item before left item ih =>
    obtain ⟨zones, valid, laid⟩ := ih
    obtain ⟨⟨front, here⟩, new, adds⟩ := before.adds left item
    exact ⟨_, valid.grow adds, laid.grow valid here left adds (scanItem_turns item)⟩

structure Framed (text : List Char) (doc : Document) (zones : List Zone) : Prop where
  contents : ∀ placed ∈ doc.tags, ∀ content ∈ placed.tag.content,
    Seam text zones content.start ∧ Seam text zones content.stop
  separated : zones.Pairwise fun y z => ∀ d, y = .directive d → z.directive? = none →
    Bracket text d.span.stop z.span.start

theorem Laid.finish {text : List Char} {p : Progress} {c : Cursor} {zones : List Zone} {doc : Document}
    (h : Laid text p c zones) (done : p.finish = .ok doc) : Framed text doc zones := by
  unfold Progress.finish at done
  split at done
  · cases done
    refine ⟨fun placed member content inside => ?_, h.separated⟩
    have listed : placed.tag ∈ Node.elementsOf p.nodes.reverse := by
      rw [← Node.elements_tagsOf none]
      exact List.mem_map_of_mem member
    have element := Node.elementsOf_subset (List.reverse_subset.mpr (List.Subset.refl _)) listed
    obtain ⟨first, last⟩ := h.complete placed.tag (List.mem_append_left _ element) content inside
    exact ⟨first.toSeam, last.toSeam⟩
  · cases done

/-- The zones of a scanned document, with what stands around them. -/
theorem scan_framed {text : String} {doc : Document} (h : scan text = .ok doc) :
    ∃ zones, Zoned text.toList doc zones ∧ Framed text.toList doc zones := by
  obtain ⟨p, c, scans, done⟩ := scan_scans h
  obtain ⟨zones, valid, laid⟩ := scans.laid
  exact ⟨zones, valid.finish done, laid.finish done⟩

end SvelteLens.Markup
