import SvelteLens.Proofs.Projection.Forests

/-! The scopes of slot props nest like the tree, inside the functions that wrap the markup. -/
namespace SvelteLens.Projection

open Edit Markup
open Text (width bytes)

/-- The parts that a stretch of markup between two blocks becomes: unless it is blank, one function around the forest of
its nodes. -/
inductive Stretch (reader : Script.Reader) (source : String) (doc : Document) (start stop : Nat) :
    List Node → List Part → Prop where
  | blank : Text.BlankBetween source.toList start stop →
      Stretch reader source doc start stop [] [.plain (through (rewritings reader source doc) source start stop)]
  | filled : Text.Trimmed source.toList start stop first last → Forest reader source doc [] first last nodes below →
      Stretch reader source doc start stop nodes [.plain (through (rewritings reader source doc) source start first),
        .pair .markup below, .plain (through (rewritings reader source doc) source last stop)]

/-- The parts that a component becomes from an offset on: stretches of markup and blocks in turn. -/
inductive Arranged (reader : Script.Reader) (source : String) (doc : Document) :
    (start : Nat) → (ahead : List Span) → List Node → List Part → Prop where
  | last : Stretch reader source doc start (width source.toList) nodes parts →
      Arranged reader source doc start [] nodes parts
  | block {block : Span} {ahead : List Span} {nodes others : List Node} {parts more : List Part} :
      Stretch reader source doc start block.start nodes parts →
      Shown (rewritings reader source doc) source doc block shown →
      Arranged reader source doc block.stop ahead others more →
      Arranged reader source doc start (block :: ahead) (nodes ++ others) (parts ++ .plain shown :: more)

variable {reader : Script.Reader} {source : String} {doc : Document} {zones : List Zone} {start stop limit : Nat}
  {nodes : List Node} {ahead wrapped : List Span} {out : List UInt8} {parts : List Part}

section Marks

theorem scopesIn_append (xs ys : List Node) :
    scopesIn source none (xs ++ ys) = scopesIn source none xs ++ scopesIn source none ys := by
  rw [scopesIn, Node.tagsOf_append, List.flatMap_append, scopesIn, scopesIn]

theorem Stretch.scopes (h : Stretch reader source doc start stop nodes parts) :
    (Part.marksOf parts).filterMap Mark.scope? = scopesIn source none nodes := by
  cases h with
  | blank => rfl
  | filled _ forest =>
    rw [Part.marksOf_plain, Part.marksOf_pair, forest.marks, List.filterMap_cons_none rfl, Part.marksOf_plain,
      Part.marksOf_nil, List.append_nil, List.filterMap_map]
    exact List.filterMap_some

theorem Arranged.scopes (h : Arranged reader source doc start ahead nodes parts) :
    (Part.marksOf parts).filterMap Mark.scope? = scopesIn source none nodes := by
  induction h with
  | last stretch => exact stretch.scopes
  | block stretch _ _ ih =>
    rw [Part.marksOf_append, Part.marksOf_plain, List.filterMap_append, stretch.scopes, ih, scopesIn_append]

end Marks

section Layouts

variable (confined : Confined reader source doc) (zoned : Zoned source.toList doc zones)

/-- An angle bracket that does not stand in front of blanks stands behind them. -/
theorem angle_behind_blank {first last offset : Nat} (blank : Text.BlankBetween source.toList first last)
    (angle : Angle source.toList zones offset) (lower : first ≤ offset) : last ≤ offset := by
  obtain ⟨before, after, whole, rfl⟩ := angle.bracket
  refine Nat.le_of_not_lt fun upper => ?_
  exact absurd (blank.blank_of_mem whole lower upper) (by decide)

theorem through_rewritten (order : start ≤ stop) (texts : ∀ i, start ≤ i → i ≤ stop →
    insertedAt (contentCommands reader source doc) i = insertedAt (rewritings reader source doc) i) :
    through (contentCommands reader source doc) source start stop =
      through (rewritings reader source doc) source start stop := by
  rw [through, through, editAt?_rewritings]
  exact closed_congr order texts fun _ _ _ => rfl

include confined zoned in
/-- A gap becomes a stretch of parts. No tag starts and no content stops among blanks. -/
theorem Gap.stretch (gap : Gap (contentCommands reader source doc) source start stop wrapped out)
    (nest : Nest source.toList zones start limit nodes)
    (ends : ∀ offset, Angle source.toList zones offset → start ≤ offset → offset < limit → offset < stop)
    (texts : ∀ i, start ≤ i → i ≤ stop → insertedAt (contentCommands reader source doc) i =
      insertedAt (rewritings reader source doc) i ++ insertedAt (scopeCommands (scopesIn source none nodes)) i) :
    ∃ parts, Stretch reader source doc start stop nodes parts ∧ Part.shownOf parts = out := by
  cases gap with
  | blank blank =>
    obtain rfl : nodes = [] := by
      cases nodes with
      | nil => rfl
      | cons =>
        obtain ⟨offset, angle, lower, upper⟩ := nest.angle
        exact absurd (ends offset angle lower upper) (Nat.not_lt.mpr (angle_behind_blank blank angle lower))
    refine ⟨_, .blank blank, ?_⟩
    rw [Part.shownOf_plain, Part.shownOf_nil, List.append_nil]
    exact (through_rewritten blank.order fun i low high => (texts i low high).trans (List.append_nil _)).symm
  | @filled first last trimmed =>
    have lead := trimmed.lead.order
    have trail := trimmed.trail.order
    have inner := trimmed.order
    have nest : Nest source.toList zones first last nodes := by
      refine (nest.stopping (by omega) fun offset angle low high => ?_).starting (Nat.le_of_lt inner)
        fun offset angle low _ => angle_behind_blank trimmed.lead angle low
      refine Nat.lt_of_not_le fun late => ?_
      have := angle_behind_blank trimmed.trail angle late
      have := ends offset angle low high
      omega
    have quiet (i : Nat) (out : i ≤ first ∨ last ≤ i) (low : start ≤ i) (high : i ≤ stop) :
        insertedAt (contentCommands reader source doc) i = insertedAt (rewritings reader source doc) i := by
      rw [texts i low high, insertedAt_nil (scopesIn_quiet nest out), List.append_nil]
    obtain ⟨parts, forest, shown⟩ := forest [] confined zoned nest (Nat.le_refl _) inner
      fun i low high => texts i (by omega) (by omega)
    refine ⟨_, .filled trimmed forest, ?_⟩
    rw [Part.shownOf_plain, Part.shownOf_pair, Part.shownOf_plain, Part.shownOf_nil, List.append_nil, shown,
      through_rewritten lead fun i low high => quiet i (.inl high) low (by omega),
      through_rewritten trail fun i low high => quiet i (.inr low) (by omega) high]
    rfl

include zoned in
theorem Shown.rewritten {block : Span} (shown : Shown (contentCommands reader source doc) source doc block out)
    (texts : ∀ i, block.start ≤ i → i ≤ block.stop →
      insertedAt (contentCommands reader source doc) i = insertedAt (rewritings reader source doc) i) :
    Shown (rewritings reader source doc) source doc block out := by
  cases shown with
  | style listed => exact .style listed
  | script listed =>
    have ordered := (zoned.script_holds listed).toOrdered
    have opens := ordered.opening
    have closes := ordered.closing
    rw [through_rewritten ordered.content fun i low high => texts i (by omega) (by omega)]
    exact .script listed

include confined zoned in
/-- What a projection consists of, arranged by the tree. The induction is on the layout. -/
theorem Layout.arranged (layout : Layout (contentCommands reader source doc) source doc start ahead wrapped out)
    (ordered : Ahead source.toList (blocks doc) ahead start) (nest : Nest source.toList zones start limit nodes)
    (long : width source.toList ≤ limit)
    (outside : ∀ tag ∈ Node.elementsOf nodes, ∀ block ∈ blocks doc, tag.span.covers block = false)
    (texts : ∀ i, start ≤ i → insertedAt (contentCommands reader source doc) i =
      insertedAt (rewritings reader source doc) i ++ insertedAt (scopeCommands (scopesIn source none nodes)) i) :
    ∃ parts, Arranged reader source doc start ahead nodes parts ∧ Part.shownOf parts = out := by
  induction layout generalizing nodes with
  | last gap =>
    obtain ⟨parts, stretch, shown⟩ := gap.stretch confined zoned nest (fun _ angle _ _ => angle.lt_width) fun i low _ =>
      texts i low
    exact ⟨parts, .last stretch, shown⟩
  | @block start block rest wrapped more gap shown out first content _ ih =>
    have listed := ordered.listed block List.mem_cons_self
    have low := ordered.lower block List.mem_cons_self
    have filled := (ordered.bounded block listed).order
    have inside := Text.le_width_of_isBoundary (ordered.bounded block listed).stop
    obtain ⟨z, zone, _, _, rfl⟩ := (mem_blocks zoned).mp listed
    obtain ⟨before, behind, rfl, near, far⟩ := nest.split zone (fun tag member => outside tag member _ listed) low (by omega)
    have ahead (i : Nat) (upper : i ≤ z.span.stop) :
        insertedAt (scopeCommands (scopesIn source none (before ++ behind))) i =
          insertedAt (scopeCommands (scopesIn source none before)) i := by
      rw [scopesIn_append, scopeCommands, List.flatMap_append]
      exact insertedAt_append_left (scopesIn_quiet far (.inl upper))
    have passed (i : Nat) (lower : z.span.start ≤ i) :
        insertedAt (scopeCommands (scopesIn source none (before ++ behind))) i =
          insertedAt (scopeCommands (scopesIn source none behind)) i := by
      rw [scopesIn_append, scopeCommands, List.flatMap_append]
      exact insertedAt_append_right (scopesIn_quiet near (.inr lower))
    obtain ⟨parts, stretch, shown'⟩ := first.stretch confined zoned near (fun _ _ _ high => high) fun i low high => by
      rw [texts i low, ahead i (by omega)]
    have content := content.rewritten zoned fun i low high => by
      rw [texts i (by omega), ahead i high, insertedAt_nil (scopesIn_quiet near (.inr low)), List.append_nil]
    obtain ⟨others, arranged, shown''⟩ := ih ordered.next far
      (fun tag member => outside tag (Node.elementsOf_subset (List.subset_append_right _ _) member)) fun i low => by
        rw [texts i (by omega), passed i (by omega)]
    refine ⟨_, .block stretch content arranged, ?_⟩
    rw [Part.shownOf_append, Part.shownOf_plain, shown', shown'']

end Layouts

/-- A slot prop of a projected component has a scope unless a note says that it is degraded. -/
theorem scope?_none_iff {path : Option Path} {p : Projection} (scanned : scan source = .ok doc)
    (projected : ofComponent reader source doc path = .ok p) {site : Directive.Site} (listed : site ∈ sites source doc)
    (slot : site.directive.kind = .slotProp) :
    site.scope? = none ↔ ∃ note ∈ p.degraded, note.span = site.directive.span := by
  obtain ⟨zones, zoned⟩ := scan_zoned scanned
  obtain ⟨b, made⟩ := ofComponent_ok projected
  have ordered {site : Directive.Site} (listed : site ∈ sites source doc) := zoned.directive_ordered (site_directive listed)
  rw [Directive.Site.scope?_none_iff slot, made.degraded]
  constructor
  · intro noted
    obtain ⟨note, member⟩ := List.exists_mem_of_ne_nil _ noted
    exact ⟨note, List.mem_flatMap.mpr ⟨site, listed, member⟩, Directive.Site.note_span (ordered listed) member⟩
  · rintro ⟨note, member, same⟩
    obtain ⟨other, listed', member⟩ := List.mem_flatMap.mp member
    have span := (Directive.Site.note_span (ordered listed') member).symm.trans same
    have ascending := zoned.directives_ascending
    rw [← sites_directives source doc, List.pairwise_map] at ascending
    have proper : site.directive.span.start < site.directive.span.stop :=
      (zoned.stand _ (zoned.directive_mem (site_directive listed))).proper
    rcases related_of_pairwise ascending listed listed' with rfl | before | behind
    · exact List.ne_nil_of_mem member
    · rw [span] at before
      omega
    · rw [span] at behind
      omega

/-- Slot scopes nest like the tree when no block lies inside an element. A projection consists of parts that are
arranged as the component is: one function around each stretch of markup, in it the forest of the nodes, and in the
forest the scopes of slot props around all that becomes of the content of their tags. Read from left to right the marks
are nested, and each that opens closes once. The scopes are those of the slot props that are not degraded, and a scope
names the component itself or else the closest component around the element. -/
theorem scopes_nest {path : Option Path} {p : Projection} (within : Reads reader source doc Script.Outline.Within)
    (scanned : scan source = .ok doc)
    (projected : ofComponent reader source doc path = .ok p)
    (outside : ∀ placed ∈ doc.tags, ∀ block ∈ blocks doc, placed.tag.span.covers block = false) :
    ∃ parts, Arranged reader source doc 0 (blocks doc) doc.nodes parts ∧
      (source ≠ "" → bytes p.text.toList = bytes header.toList ++ (Part.shownOf parts ++ bytes (closing path p).toList)) ∧
      (source = "" → doc.nodes = [] ∧ bytes p.text.toList = bytes (closing path p).toList ++ bytes header.toList) ∧
      Nested [] (Part.piecesOf parts) ∧
      ((Part.piecesOf parts).filterMap Piece.closed?).Perm (Part.marksOf parts) ∧
      (Part.marksOf parts).filterMap Mark.scope? = (sites source doc).filterMap Directive.Site.scope? ∧
      (∀ site : Directive.Site, ∀ scope ∈ site.scope?, scope.Names site) ∧
      ∀ site ∈ sites source doc, site.directive.kind = .slotProp →
        (site.scope? = none ↔ ∃ note ∈ p.degraded, note.span = site.directive.span) := by
  obtain ⟨zones, limit, zoned, nest⟩ := scan_nests scanned
  obtain ⟨b, original, valid, records, _⟩ := ofComponent_core projected
  have confined := within.confined scanned
  have core : Core reader source doc zones b := ⟨scanned, zoned, confined, original, valid, records⟩
  obtain ⟨wrapped, made, layout⟩ := core.layout_all
  have nest := nest.later (Nat.le_max_left limit (width source.toList))
  obtain ⟨parts, arranged, shown⟩ := layout.arranged confined zoned (blocks_ahead zoned) nest (Nat.le_max_right _ _)
    (fun tag member => by
      rw [← Node.elements_tagsOf none] at member
      obtain ⟨placed, listed, rfl⟩ := List.mem_map.mp member
      exact outside placed listed)
    fun _ _ => insertedAt_nested confined zoned nest
  have nested := Part.nested parts
  refine ⟨parts, arranged, fun filled => ?_, ?_, nested, nested.perm, arranged.scopes.trans documentScopes_sites,
    fun site scope found => Directive.Site.scope?_names found, fun site listed => scope?_none_iff scanned projected listed⟩
  · rw [shown]
    exact ofComponent_bytes scanned projected filled
  · rintro rfl
    have empty : scan "" = .ok ⟨none, none, [], []⟩ := rfl
    obtain rfl := Except.ok.inj (empty.symm.trans scanned)
    exact ⟨rfl, ofComponent_bytes_empty scanned projected⟩

/-- A component with a prop, two slot props on one component, and one around nothing in a slot of its own. -/
def slottedSample : String := "<script>export let a</script><A let:b let:c><p slot=\"s\" let:d></p></A>"

theorem scopes_nest_sample : ∃ doc, scan slottedSample = .ok doc ∧
    Reads Script.readOutline slottedSample doc Script.Outline.Within ∧ ∃ p,
      ofComponent Script.readOutline slottedSample doc none = .ok p ∧
        (∀ placed ∈ doc.tags, ∀ block ∈ blocks doc, placed.tag.span.covers block = false) ∧
        ∃ parts, Arranged Script.readOutline slottedSample doc 0 (blocks doc) doc.nodes parts ∧
          Nested [] (Part.piecesOf parts) ∧
          ((Part.marksOf parts).filterMap Mark.scope?).map (fun scope => (scope.directive.name, scope.component, scope.slot)) =
            [("b", "A", "default"), ("c", "A", "default"), ("d", "A", "s")] := by
  have runs : ((scan slottedSample).toOption.filter fun doc => Reads Script.readOutline slottedSample doc Script.Outline.Within ∧
      (ofComponent Script.readOutline slottedSample doc none).toOption.isSome ∧
        (∀ placed ∈ doc.tags, ∀ block ∈ blocks doc, placed.tag.span.covers block = false) ∧
        ((sites slottedSample doc).filterMap Directive.Site.scope?).map
            (fun scope => (scope.directive.name, scope.component, scope.slot)) =
          [("b", "A", "default"), ("c", "A", "default"), ("d", "A", "s")]).isSome = true := by
    decide +kernel
  obtain ⟨doc, found⟩ := Option.isSome_iff_exists.mp runs
  obtain ⟨scanned, holds⟩ := Option.filter_eq_some_iff.mp found
  obtain ⟨within, succeeds, outside, scopes⟩ := of_decide_eq_true holds
  obtain ⟨p, projected⟩ := Option.isSome_iff_exists.mp succeeds
  have scanned := ok_of_toOption scanned
  have projected := ok_of_toOption projected
  obtain ⟨parts, arranged, _, _, nested, _, listed, _⟩ := scopes_nest within scanned projected outside
  exact ⟨doc, scanned, within, p, projected, outside, parts, arranged, nested, by rw [listed, scopes]⟩

end SvelteLens.Projection
