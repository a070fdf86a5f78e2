import SvelteLens.Proofs.Directive.Outputs
import SvelteLens.Proofs.Directive.Scopes
import SvelteLens.Proofs.Edit.Bounds
import SvelteLens.Proofs.Edit.Provenance
import SvelteLens.Proofs.Projection.Margins

/-! What degradation leaves in a projection. A degraded directive is removed as a whole and nothing is made for it; any
other directive is handled by its rule alone. -/
namespace SvelteLens.Projection

open Edit Markup
open Edit.Buffer (Accepts Originates framed)
open Text (width)

variable {reader : Script.Reader} {source : String} {doc : Document} {path : Option Path} {p : Projection}
  {s : Directive.Site} {b : Buffer}

/-- The commands of a projection that are not for a directive. -/
def layoutCommands (reader : Script.Reader) (source : String) (doc : Document) : List Command :=
  scriptCommands reader source .shared [] doc.moduleScript ++
    (scriptCommands reader source .perInstance (moduleNames reader source doc) doc.instanceScript ++
      ((stylePlan doc.styles).commands ++ (markupPlan source 0 (blocks doc)).commands))

/-- A projection shows no byte of a range, neither as it is nor as part of a rewritten range. -/
def Lacks (p : Projection) (range : Span) : Prop :=
  ∀ segment ∈ p.map.segments.toList, ∀ shown, segment.origin = .source shown →
    ∀ o, range.contains o = true → shown.contains o = false

/-- A directive that its rule transforms: there is no note about it, and all that the rule edits is in the projection. -/
structure Transforms (p : Projection) (s : Directive.Site) : Prop where
  silent : s.plan.notes = []
  edited : ∀ r ∈ s.plan.edits, if r.text = "" then p.Lacks r.span else p.map.Puts p.text r.span r.text
  written : ∀ w front back, s.Words w front back → w.kind ≠ .slotProp →
    Plan.Writes (width front) s.plan w.text (w.output s.tag).toList
  scopes : s.directive.kind = .slotProp → ∃ scope : Directive.Scope, scope.Names s ∧
    s.plan = .edit (.remove s.directive.span) :: scope.commands.map .edit

/-- The directives that are degraded, and what is left of them. -/
structure Degradation (reader : Script.Reader) (source : String) (doc : Document) (path : Option Path)
    (p : Projection) : Prop where
  listed : p.degraded.map (fun note => (note.span, note.kind)) =
    ((sites source doc).filter (·.degrades)).map fun s => (s.directive.span, s.directive.kind)
  ascending : scan source = .ok doc → p.degraded.Pairwise fun first second => first.span.stop ≤ second.span.start
  /-- One removal is made for each degraded directive, and no text comes from it. -/
  made : ∃ b, Accepts (Buffer.ofSource source)
      (framed header (layoutCommands reader source doc ++ (sites source doc).flatMap (·.requests)) (width source.toList)
        (closing path p)) b ∧
    p.text = b.render.text ∧ p.map = b.render.map ∧
    ∀ segment ∈ p.map.segments.toList, ∃ text, segment.generated.slice? p.text = some text ∧
      Originates b (framed header (layoutCommands reader source doc ++
        ((sites source doc).filter (!·.degrades)).flatMap (·.plan.commands)) (width source.toList) (closing path p))
        segment.origin text
  removed : ∀ s ∈ sites source doc, s.degrades = true → p.Lacks s.directive.span
  dropped : ∀ s ∈ sites source doc, s.isPlainStyle = true → s.plan = [.edit (.remove s.directive.span)]
  transformed : ∀ s ∈ sites source doc, s.degrades = false → s.isPlainStyle = false → Transforms p s

section Sites

theorem coreCommands_eq (reader : Script.Reader) (source : String) (doc : Document) : coreCommands reader source doc =
    layoutCommands reader source doc ++ (sites source doc).flatMap (·.requests) := by
  simp only [coreCommands, layoutCommands, List.append_assoc, Directive.Site.plan_requests]

theorem site_edits (listed : s ∈ sites source doc) : ∀ r ∈ s.plan.edits, r ∈ edits (coreCommands reader source doc) := by
  intro r member
  obtain ⟨c, made, edit⟩ := List.mem_filterMap.mp member
  rw [coreCommands_eq]
  refine List.mem_filterMap.mpr ⟨c, List.mem_append_right _ (List.mem_flatMap.mpr ⟨s, listed, ?_⟩), edit⟩
  rwa [← Directive.Site.plan_requests]

theorem removal_edit (given : s.degrades = true) {o : Nat}
    (inside : s.directive.span.start ≤ o ∧ o < s.directive.span.stop) : ⟨s.directive.span, ""⟩ ∈ s.plan.edits := by
  have filled : s.directive.span.isEmpty = false := beq_eq_false_iff_ne.mpr (by omega)
  rw [Plan.edits, Directive.Site.plan_requests, Directive.Site.requests, if_pos given]
  simp [edits, Command.edit?, filled]

/-- The notes of all sites name the degraded ones, one note for each. -/
theorem notes_degraded (list : List Directive.Site) :
    (list.flatMap (·.plan.notes)).map (fun note => (note.span, note.kind)) =
      (list.filter (·.degrades)).map fun s => (s.directive.span, s.directive.kind) := by
  induction list with
  | nil => rfl
  | cons s rest ih =>
    rw [List.flatMap_cons, List.map_append, ih]
    cases given : s.degrades with
    | true =>
      obtain ⟨reason, same⟩ := Directive.Site.plan_degraded given
      rw [same, List.filter_cons_of_pos given]
      rfl
    | false => rw [Directive.Site.plan_silent given, List.filter_cons_of_neg (by simp [given]), List.map_nil, List.nil_append]

/-- The directives of a scanned document stand in source order, so the degraded ones do. -/
theorem degraded_ascending (scanned : scan source = .ok doc)
    (listed : p.degraded.map (fun note => (note.span, note.kind)) =
      ((sites source doc).filter (·.degrades)).map fun s => (s.directive.span, s.directive.kind)) :
    p.degraded.Pairwise fun first second => first.span.stop ≤ second.span.start := by
  obtain ⟨zones, zoned⟩ := scan_zoned scanned
  have spans : p.degraded.map (·.span) = ((sites source doc).filter (·.degrades)).map (·.directive.span) := by
    simpa [Function.comp_def] using congrArg (List.map Prod.fst) listed
  have directives := zoned.directives_ascending
  rw [← sites_directives, List.pairwise_map] at directives
  have ascending : (p.degraded.map (·.span)).Pairwise fun first second => first.stop ≤ second.start := by
    rw [spans, List.pairwise_map]
    exact directives.filter _
  exact List.pairwise_map.mp ascending

theorem originates_typed {list : List Directive.Site} {calls : List Command} {length : Nat} {front back text : String}
    {origin : Origin} (h : Originates b (framed front (calls ++ list.flatMap (·.requests)) length back) origin text)
    (filled : text ≠ "") : Originates b (framed front (calls ++
      (list.filter (!·.degrades)).flatMap (·.plan.commands)) length back) origin text := by
  refine h.fewer filled fun c member => ?_
  simp only [framed, List.mem_cons, List.mem_append, List.mem_flatMap] at member ⊢
  rcases member with first | (layout | ⟨s, listed, made⟩) | last
  · exact .inl (.inl first)
  · exact .inl (.inr (.inl (.inl layout)))
  · cases given : s.degrades with
    | true =>
      rw [Directive.Site.requests, if_pos given] at made
      exact .inr ⟨_, List.mem_singleton.mp made⟩
    | false =>
      rw [← Directive.Site.plan_requests] at made
      exact .inl (.inr (.inl (.inr ⟨s, List.mem_filter.mpr ⟨listed, by rw [given]; rfl⟩, made⟩)))
  · exact .inl (.inr (.inr last))

end Sites

theorem lacks_of_removed (valid : b.Consistent) (map : p.map = b.render.map) {r : Replacement}
    (member : r ∈ b.replacements) (empty : r.text = "") : p.Lacks r.span := by
  intro segment listed shown origin o inside
  rw [map] at listed
  have source : shown ∈ b.render.map.sources := PositionMap.mem_sources listed origin
  have bounds := valid.sources_bounds source
  rw [← Bool.not_eq_true]
  intro here
  have short := (Span.contains_iff.mp here).2
  exact (valid.has_source_iff (by omega)).mp ⟨shown, source, here⟩ ⟨r, member, empty, inside⟩

theorem transforms_typed (valid : b.Consistent) (text : p.text = b.render.text) (map : p.map = b.render.map)
    (recorded : ∀ r ∈ s.plan.edits, r ∈ b.replacements) (typed : s.degrades = false) : Transforms p s where
  silent := Directive.Site.plan_silent typed
  edited r edit := by
    split
    · next empty => exact lacks_of_removed valid map (recorded r edit) empty
    · next filled =>
      rw [map, text]
      exact valid.puts (recorded r edit) filled
  written w front back words slotless := words.plan_writes slotless typed
  scopes slot := by
    rcases Directive.slotProp_scope slot with ⟨-, reason, degraded⟩ | ⟨scope, found, made⟩
    · have silent := Directive.Site.plan_silent typed
      rw [degraded] at silent
      cases silent
    · exact ⟨scope, Directive.Site.scope?_names found, made⟩

/-- Degradation is exact and clean. The directives that have no typed projection are listed, each of them goes as a
whole, and every other one is projected by its rule. -/
theorem degradation_exact (projected : ofComponent reader source doc path = .ok p) :
    Degradation reader source doc path p := by
  obtain ⟨b, accepts, notes, text, map⟩ := ofComponent_accepts projected
  obtain ⟨valid, records, original⟩ := accepts.keeps (Buffer.Consistent.ofSource _) (Buffer.Records.ofSource _)
  rw [List.nil_append] at records
  have recorded : ∀ s ∈ sites source doc, ∀ r ∈ s.plan.edits, r ∈ b.replacements := by
    intro s listed r member
    refine records.edits.mem_iff.mpr ?_
    rw [Buffer.edits_framed]
    exact site_edits listed r member
  have listed : p.degraded.map (fun note => (note.span, note.kind)) =
      ((sites source doc).filter (·.degrades)).map fun s => (s.directive.span, s.directive.kind) := by
    rw [notes, notes_degraded]
  constructor
  case listed => exact listed
  case ascending => exact fun scanned => degraded_ascending scanned listed
  case made =>
    rw [coreCommands_eq] at accepts records
    refine ⟨b, accepts, text, map, fun segment member => ?_⟩
    rw [map] at member
    obtain ⟨shown, slice, origin⟩ := valid.segment_originates records member
    rw [text]
    exact ⟨shown, slice, originates_typed origin (valid.segment_filled member slice)⟩
  case removed =>
    intro s member given segment here shown origin o inside
    have edit := removal_edit given (Span.contains_iff.mp inside)
    exact lacks_of_removed valid map (recorded s member _ edit) rfl segment here shown origin o inside
  case dropped => exact fun s _ plain => Directive.Site.plan_dropped plain
  case transformed => exact fun s member typed _ => transforms_typed valid text map (recorded s member) typed

/-- An action with a text value, a handler, and a literal style. -/
def degradedSample : String := "<p use:a=\"b\" on:c=\x7bd\x7d style:e=\"f\"/>"

theorem degradation_exact_sample : ∃ doc, scan degradedSample = .ok doc ∧ ∃ p,
    ofComponent (fun _ _ => none) degradedSample doc none = .ok p ∧
      p.degraded = [⟨⟨3, 12⟩, .action, "expected an expression, found a text value"⟩] ∧
      (sites degradedSample doc).map (fun s => (s.degrades, s.isPlainStyle)) = [(true, false), (false, false), (false, true)] ∧
      Degradation (fun _ _ => none) degradedSample doc none p := by
  have runs : ((scan degradedSample).toOption.bind fun doc =>
      ((ofComponent (fun _ _ => none) degradedSample doc none).toOption.filter fun p =>
        p.degraded = [⟨⟨3, 12⟩, .action, "expected an expression, found a text value"⟩] ∧
        (sites degradedSample doc).map (fun s => (s.degrades, s.isPlainStyle)) =
          [(true, false), (false, false), (false, true)])).isSome = true := by decide +kernel
  obtain ⟨p, found⟩ := Option.isSome_iff_exists.mp runs
  obtain ⟨doc, scanned, found⟩ := Option.bind_eq_some_iff.mp found
  obtain ⟨projected, facts⟩ := Option.filter_eq_some_iff.mp found
  obtain ⟨listed, kinds⟩ := of_decide_eq_true facts
  have projected := ok_of_toOption projected
  exact ⟨doc, ok_of_toOption scanned, p, projected, listed, kinds, degradation_exact projected⟩

end SvelteLens.Projection
