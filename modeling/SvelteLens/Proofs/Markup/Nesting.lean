import SvelteLens.Proofs.Markup.Contents

/-! How the tags of a document nest. The scanner keeps the elements that are still open on a stack. What is complete
lies behind the start tag of the innermost of them, and each of them starts behind all that is complete around it. -/
namespace SvelteLens.Markup

open Text (width)

/-- An angle bracket that opens a tag or an end tag. It stands in no zone. -/
structure Angle (text : List Char) (zones : List Zone) (offset : Nat) : Prop where
  bracket : ∃ before after, text = before ++ '<' :: after ∧ width before = offset
  outside : ∀ z ∈ zones, z.span.stop ≤ offset ∨ offset < z.span.start

/-- An offset strictly inside no zone and directly behind no directive. -/
structure Clear (zones : List Zone) (offset : Nat) : Prop where
  apart : ∀ z ∈ zones, z.span.Apart (Span.empty offset)
  ended : ∀ d, .directive d ∈ zones → d.span.stop ≠ offset

/-- Nodes that follow each other between two offsets. A tag starts with an angle bracket, and the content of an
element stops at the one of its end tag. The children of an element lie in its content. -/
inductive Nest (text : List Char) (zones : List Zone) : Nat → Nat → List Node → Prop where
  | nil : start ≤ stop → Nest text zones start stop []
  | bare : tag.content = none → Angle text zones tag.span.start → start ≤ tag.span.start →
      Nest text zones (tag.span.start + 1) stop rest → Nest text zones start stop (.mk tag [] :: rest)
  | filled : tag.content = some content → Angle text zones tag.span.start → Angle text zones content.stop →
      Clear zones content.start → Clear zones content.stop → start ≤ tag.span.start → tag.span.start < content.start →
      content.stop ≤ tag.span.stop → Nest text zones content.start content.stop children →
      Nest text zones (content.stop + 1) stop rest → Nest text zones start stop (.mk tag children :: rest)

/-- The open elements, innermost first, with all that is complete up to an offset. -/
inductive Stacked (text : List Char) (zones : List Zone) : Nat → List OpenTag → List Node → Prop where
  | bottom : Nest text zones 0 limit nodes.reverse → Stacked text zones limit [] nodes
  | level {o : OpenTag} : o.tag.content = some content → Angle text zones o.tag.span.start →
      Clear zones content.start → o.tag.span.start < content.start →
      Nest text zones content.start limit o.children.reverse → Stacked text zones o.tag.span.start rest nodes →
      Stacked text zones limit (o :: rest) nodes

/-- What one item does to the open elements and to the nodes, with the zones that it adds. -/
inductive Does (p : Progress) (c : Cursor) : Progress → Cursor → List Zone → Prop where
  | passes : p'.nodes = p.nodes → p'.opened = p.opened → Does p c p' c' more
  | leaf : c.startsWith "<" = true → c.offset < c'.offset → (∀ z ∈ more, c.offset < z.span.start) →
      tag.content = none → tag.span.start = c.offset → Does p c (p.addNode (.mk tag [])) c' more
  | opens : c.startsWith "<" = true → c.offset < c'.offset → (∀ z ∈ more, c.offset < z.span.start) →
      tag.content = some (Span.empty c'.offset) → tag.span.start = c.offset →
      Does p c { p with opened := ⟨tag, []⟩ :: p.opened } c' more
  | closes : c.startsWith "<" = true → c.offset < c'.offset → p.opened = ⟨tag, children⟩ :: rest →
      Does p c ({ p with opened := rest }.addNode (.mk { tag with
        content := some ⟨tag.content.elim tag.span.stop (·.start), c.offset⟩
        span := ⟨tag.span.start, c'.offset⟩ } children.reverse)) c' []

variable {text front : List Char} {zones more : List Zone} {p p' : Progress} {c c' : Cursor}
  {start start' stop stop' limit limit' offset : Nat} {nodes others : List Node} {content : Span}

section Growth

def Later (limit : Nat) (more : List Zone) : Prop := ∀ z ∈ more, limit ≤ z.span.start ∧ z.span.start < z.span.stop

theorem Adds.later (adds : Adds text p c p' c' more) : Later c.offset more :=
  fun z member => ⟨(adds.fresh.inside z member).1, (adds.fresh.stand z member).proper⟩

theorem Clear.grow (h : Clear zones offset) (later : Later limit more) (le : offset ≤ limit) :
    Clear (zones ++ more) offset where
  apart z member := by
    rcases List.mem_append.mp member with old | new
    · exact h.apart z old
    · exact .inr (Nat.le_trans le (later z new).1)
  ended d member := by
    rcases List.mem_append.mp member with old | new
    · exact h.ended d old
    · have behind : limit ≤ d.span.start ∧ d.span.start < d.span.stop := later _ new
      omega

theorem Angle.lt_width (h : Angle text zones offset) : offset < width text := by
  obtain ⟨before, after, whole, rfl⟩ := h.bracket
  rw [whole, Text.width_append]
  exact Nat.lt_add_of_pos_right (Text.width_pos (List.cons_ne_nil _ _))

theorem Angle.grow (h : Angle text zones offset) (later : Later limit more) (lt : offset < limit) :
    Angle text (zones ++ more) offset where
  bracket := h.bracket
  outside z member := by
    rcases List.mem_append.mp member with old | new
    · exact h.outside z old
    · exact .inr (Nat.lt_of_lt_of_le lt (later z new).1)

end Growth

namespace Nest

theorem le (h : Nest text zones start stop nodes) : start ≤ stop := by
  induction h with
  | nil order => exact order
  | bare => omega
  | filled => omega

theorem angle {node : Node} (h : Nest text zones start stop (node :: nodes)) :
    ∃ offset, Angle text zones offset ∧ start ≤ offset ∧ offset < stop := by
  cases h with
  | bare _ angle behind rest => exact ⟨_, angle, behind, rest.le⟩
  | filled _ angle _ _ _ behind opens _ inner rest =>
    have order := inner.le
    have inside := rest.le
    exact ⟨_, angle, behind, by omega⟩

theorem eq_nil (h : Nest text zones start start nodes) : nodes = [] := by
  cases nodes with
  | nil => rfl
  | cons =>
    obtain ⟨offset, _, lower, upper⟩ := h.angle
    exact absurd upper (Nat.not_lt.mpr lower)

theorem earlier (h : Nest text zones start stop nodes) (lower : start' ≤ start) : Nest text zones start' stop nodes := by
  cases h with
  | nil order => exact .nil (Nat.le_trans lower order)
  | bare none angle behind rest => exact .bare none angle (Nat.le_trans lower behind) rest
  | filled found angle closes clear clear' behind opens ends inner rest =>
    exact .filled found angle closes clear clear' (Nat.le_trans lower behind) opens ends inner rest

/-- Nodes behind nodes. The induction is on the nodes in front. -/
theorem append (h : Nest text zones start start' nodes) (k : Nest text zones start' stop others) :
    Nest text zones start stop (nodes ++ others) := by
  induction h with
  | nil order => exact k.earlier order
  | bare none angle behind _ ih => exact .bare none angle behind (ih k)
  | filled found angle closes clear clear' behind opens ends inner _ _ ih =>
    exact .filled found angle closes clear clear' behind opens ends inner (ih k)

theorem later (h : Nest text zones start stop nodes) (upper : stop ≤ stop') : Nest text zones start stop' nodes := by
  have parts := h.append (.nil upper)
  rwa [List.append_nil] at parts

theorem grow (h : Nest text zones start stop nodes) (later : Later limit more) (le : stop ≤ limit) :
    Nest text (zones ++ more) start stop nodes := by
  induction h with
  | nil order => exact .nil order
  | bare none angle behind rest ih =>
    have bound := rest.le
    exact .bare none (angle.grow later (by omega)) behind (ih le)
  | filled found angle closes clear clear' behind opens ends inner rest ihInner ih =>
    have bound := rest.le
    have order := inner.le
    exact .filled found (angle.grow later (by omega)) (closes.grow later (by omega)) (clear.grow later (by omega))
      (clear'.grow later (by omega)) behind opens ends (ihInner (by omega)) (ih le)

theorem stopping (h : Nest text zones start stop nodes) (le : start ≤ stop')
    (bound : ∀ offset, Angle text zones offset → start ≤ offset → offset < stop → offset < stop') :
    Nest text zones start stop' nodes := by
  induction h with
  | nil => exact .nil le
  | bare none angle behind rest ih =>
    have inside := rest.le
    have upper := bound _ angle behind (by omega)
    exact .bare none angle behind (ih (by omega) fun offset angle lower => bound offset angle (by omega))
  | filled found angle closes clear clear' behind opens ends inner rest _ ih =>
    have order := inner.le
    have inside := rest.le
    have upper := bound _ closes (by omega) (by omega)
    exact .filled found angle closes clear clear' behind opens ends inner
      (ih (by omega) fun offset angle lower => bound offset angle (by omega))

theorem starting (h : Nest text zones start stop nodes) (le : start' ≤ stop)
    (bound : ∀ offset, Angle text zones offset → start ≤ offset → offset < stop → start' ≤ offset) :
    Nest text zones start' stop nodes := by
  cases h with
  | nil => exact .nil le
  | bare none angle behind rest =>
    have inside := rest.le
    exact .bare none angle (bound _ angle behind (by omega)) rest
  | filled found angle closes clear clear' behind opens ends inner rest =>
    have order := inner.le
    have inside := rest.le
    exact .filled found angle closes clear clear' (bound _ angle behind (by omega)) opens ends inner rest

theorem split {z : Zone} (h : Nest text zones start stop nodes) (zone : z ∈ zones)
    (outside : ∀ tag ∈ Node.elementsOf nodes, tag.span.covers z.span = false) (lower : start ≤ z.span.start)
    (upper : z.span.stop ≤ stop) : ∃ before behind, nodes = before ++ behind ∧
      Nest text zones start z.span.start before ∧ Nest text zones z.span.stop stop behind := by
  induction h with
  | nil => exact ⟨[], [], rfl, .nil lower, .nil upper⟩
  | bare none angle first after ih =>
    rcases angle.outside z zone with passed | ahead
    · exact ⟨[], _, rfl, .nil lower, .bare none angle passed after⟩
    · obtain ⟨before, behind, rfl, near, far⟩ :=
        ih (fun tag member => outside tag (List.mem_cons_of_mem _ member)) ahead upper
      exact ⟨_ :: before, behind, rfl, .bare none angle first near, far⟩
  | filled found angle closes clear clear' first opens ends inner after _ ih =>
    rcases angle.outside z zone with passed | ahead
    · exact ⟨[], _, rfl, .nil lower, .filled found angle closes clear clear' passed opens ends inner after⟩
    · rcases closes.outside z zone with covered | behind
      · have uncovered := outside _ (List.mem_append_left _ List.mem_cons_self)
        rw [← Bool.not_eq_true, Span.covers_iff] at uncovered
        exact absurd ⟨Nat.le_of_lt ahead, Nat.le_trans covered ends⟩ uncovered
      · obtain ⟨before, others, rfl, near, far⟩ :=
          ih (fun tag member => outside tag (List.mem_append_right _ member)) behind upper
        exact ⟨_ :: before, others, rfl, .filled found angle closes clear clear' first opens ends inner near, far⟩

end Nest

namespace Stacked

variable {opened : List OpenTag}

theorem later (h : Stacked text zones limit opened nodes) (upper : limit ≤ limit') :
    Stacked text zones limit' opened nodes := by
  cases h with
  | bottom nest => exact .bottom (nest.later upper)
  | level found angle clear opens nest below => exact .level found angle clear opens (nest.later upper) below

theorem grow (h : Stacked text zones limit opened nodes) (later : Later limit' more) (le : limit ≤ limit') :
    Stacked text (zones ++ more) limit opened nodes := by
  induction h with
  | bottom nest => exact .bottom (nest.grow later le)
  | level found angle clear opens nest _ ih =>
    have bound := nest.le
    exact .level found (angle.grow later (by omega)) (clear.grow later (by omega)) opens (nest.grow later le) (ih (by omega))

theorem addNode {node : Node} (h : Stacked text zones limit p.opened p.nodes) (new : Nest text zones limit limit' [node]) :
    Stacked text zones limit' (p.addNode node).opened (p.addNode node).nodes := by
  unfold Progress.addNode
  cases opened : p.opened with
  | nil =>
    rw [opened] at h
    cases h with
    | bottom nest => exact .bottom (by simpa using nest.append new)
  | cons parent rest =>
    rw [opened] at h
    cases h with
    | level found angle clear opens nest below =>
      exact .level found angle clear opens (by simpa using nest.append new) below

end Stacked

section Items

theorem scanEndTag_does (here : (Cursor.start text).Reads front c) (angle : c.startsWith "<" = true)
    (h : scanEndTag p c = .ok (p', c')) : Adds text p c p' c' [] ∧ Does p c p' c' [] := by
  obtain ⟨⟨run, reads⟩, directives, styles, instanceScript, moduleScript⟩ := scanEndTag_keeps h
  refine ⟨.move here reads directives styles instanceScript moduleScript, ?_⟩
  unfold scanEndTag at h
  split at h
  · next found =>
    have forward := (Cursor.breakAt?_reads found).lt (by simp)
    split at h
    · cases h
    · next opened =>
      cases h
      exact .closes angle forward opened
  · cases h

theorem scanStartTag_does (here : (Cursor.start text).Reads front c) (angle : c.startsWith "<" = true)
    (h : scanStartTag p c = .ok (p', c')) : ∃ more, Adds text p c p' c' more ∧ Does p c p' c' more := by
  obtain ⟨more, adds, ⟨nodes, opened⟩ | behind⟩ := scanStartTag_adds here h
  · exact ⟨more, adds, .passes nodes opened⟩
  have step : c.offset < (c.skip 1).offset := (Cursor.skip_mark angle).lt (by decide)
  have behind : ∀ z ∈ more, c.offset < z.span.start := fun z member => Nat.lt_of_lt_of_le step (behind z member)
  refine ⟨more, adds, ?_⟩
  unfold scanStartTag at h
  simp only at h
  generalize (fun x => !Text.isBlank x && decide (x ≠ '>') && decide (x ≠ '/')) = ends at h
  have named := (c.skip 1).takeWhile_reads ends
  split at h
  · obtain ⟨nodes, opened⟩ := scanBlock_nodes h
    exact .passes nodes opened
  · obtain ⟨⟨attributes, last⟩, scanned, h⟩ := chain_ok.mp h
    obtain ⟨run, reads⟩ := (attributes_listed scanned).reads
    have entered := named.trans reads
    obtain ⟨le, _, _⟩ := tagEnd_reached ((here.trans (c.skip_reads 1)).trans entered) (scanAttributes_stops scanned)
    have forward := Nat.lt_of_lt_of_le step (Nat.le_trans entered.le le)
    simp only at h
    split at h
    · cases h
      exact .leaf angle forward behind rfl rfl
    · cases h
      exact .opens angle forward behind rfl rfl

theorem scanItem_does (here : (Cursor.start text).Reads front c) (h : scanItem p c = .ok (p', c')) :
    ∃ more, Adds text p c p' c' more ∧ Does p c p' c' more := by
  obtain ⟨more, adds⟩ := scanItem_adds here h
  unfold scanItem at h
  split at h
  · split at h
    · cases h
      exact ⟨more, adds, .passes rfl rfl⟩
    · cases h
  · split at h
    · next slash =>
      obtain ⟨rest, split⟩ := List.isPrefixOf_iff_prefix.mp slash
      exact ⟨[], scanEndTag_does here (List.isPrefixOf_iff_prefix.mpr ⟨'/' :: rest, split⟩) h⟩
    · split at h
      · next angle => exact scanStartTag_does here angle h
      · split at h
        · obtain ⟨_, _, h⟩ := chain_ok.mp h
          cases h
          exact ⟨more, adds, .passes rfl rfl⟩
        · cases h
          exact ⟨more, adds, .passes rfl rfl⟩

end Items

/-- A tag starts behind the zones so far and in front of those that it adds. -/
theorem Scanned.angle (valid : Scanned text p c.offset zones) (here : (Cursor.start text).Reads front c)
    (starts : c.startsWith "<" = true) (behind : ∀ z ∈ more, c.offset < z.span.start) :
    Angle text (zones ++ more) c.offset where
  bracket := by
    obtain ⟨whole, offset⟩ := here.cut
    obtain ⟨rest, split⟩ := List.isPrefixOf_iff_prefix.mp starts
    exact ⟨front, rest, by rw [whole, ← split]; rfl, offset.symm⟩
  outside z member := by
    rcases List.mem_append.mp member with old | new
    · exact .inl (valid.behind z old)
    · exact .inr (behind z new)

/-- The scanner itself stands behind all zones, and directly behind no directive, for the tag of that has ended. -/
theorem Laid.clear (h : Laid text p c zones) (valid : Scanned text p c.offset zones) (left : c.rest ≠ []) :
    Clear zones c.offset where
  apart z member := .inl (valid.behind z member)
  ended d member := by
    obtain ⟨before, after, _, lower, upper⟩ := (h.closed d member).resolve_right left
    omega

/-- One item keeps the stack in order. An element that the end of the text cuts off stays open. -/
theorem Stacked.step (h : Stacked text zones c.offset p.opened p.nodes) (here : (Cursor.start text).Reads front c)
    (left : c.rest ≠ []) (valid : Scanned text p c.offset zones) (laid : Laid text p c zones)
    (valid' : Scanned text p' c'.offset (zones ++ more)) (laid' : Laid text p' c' (zones ++ more))
    (adds : Adds text p c p' c' more) (does : Does p c p' c' more) :
    Stacked text (zones ++ more) c'.offset p'.opened p'.nodes ∨ c'.rest = [] ∧ p'.opened ≠ [] := by
  have grown := h.grow adds.later (Nat.le_refl _)
  cases does with
  | passes nodes opened =>
    rw [nodes, opened]
    exact .inl (grown.later adds.order)
  | leaf starts forward behind none first =>
    refine .inl (grown.addNode (.bare none ?_ (Nat.le_of_eq first.symm) (.nil ?_)))
    · rw [first]
      exact valid.angle here starts behind
    · rw [first]
      exact forward
  | opens starts forward behind found first =>
    by_cases ended : c'.rest = []
    · exact .inr ⟨ended, List.cons_ne_nil _ _⟩
    · refine .inl (.level found ?_ (laid'.clear valid' ended) ?_ (.nil (Nat.le_refl _)) ?_)
      · rw [first]
        exact valid.angle here starts behind
      · rw [first]
        exact forward
      · rw [first]
        exact grown
  | @closes rest tag _ _ starts forward opened =>
    rw [opened] at grown
    have angle : Angle text (zones ++ []) c.offset := valid.angle here starts nofun
    rw [List.append_nil] at grown angle ⊢
    cases grown with
    | level found first clear opens nest below =>
      refine .inl (Stacked.addNode (p := { p with opened := rest }) below ?_)
      rw [show tag.content = some _ from found]
      exact .filled rfl first angle clear (laid.clear valid left) (Nat.le_refl _) opens (Nat.le_of_lt forward) nest
        (.nil forward)

theorem Scans.stacked (h : Scans text p c) : ∃ zones, Scanned text p c.offset zones ∧ Laid text p c zones ∧
    (Stacked text zones c.offset p.opened p.nodes ∨ c.rest = [] ∧ p.opened ≠ []) := by
  induction h with
  | start => exact ⟨[], .start text, .start text, .inl (.bottom (.nil (Nat.le_refl _)))⟩
  | item before left item ih =>
    obtain ⟨zones, valid, laid, stacked⟩ := ih
    have stacked := stacked.resolve_right fun ended => left ended.1
    obtain ⟨⟨front, here⟩, _⟩ := before.adds left item
    obtain ⟨more, adds, does⟩ := scanItem_does here item
    have valid' := valid.grow adds
    have laid' := laid.grow valid here left adds (scanItem_turns item)
    exact ⟨zones ++ more, valid', laid', stacked.step here left valid laid valid' laid' adds does⟩

/-- The tags of a scanned document nest. -/
theorem scan_nests {source : String} {doc : Document} (h : scan source = .ok doc) :
    ∃ zones limit, Zoned source.toList doc zones ∧ Nest source.toList zones 0 limit doc.nodes := by
  obtain ⟨p, c, scans, done⟩ := scan_scans h
  obtain ⟨zones, valid, laid, stacked⟩ := scans.stacked
  refine ⟨zones, c.offset, valid.finish done, ?_⟩
  unfold Progress.finish at done
  split at done
  · next closed =>
    cases done
    have none : p.opened = [] := by simpa using closed
    have stacked := stacked.resolve_right fun ended => ended.2 none
    rw [none] at stacked
    cases stacked with
    | bottom nest => exact nest
  · cases done

end SvelteLens.Markup
