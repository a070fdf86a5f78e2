import SvelteLens.Proofs.Edit.RoundTrip
import SvelteLens.Proofs.Projection.Causes
import SvelteLens.Script.Parser.Module

/-! No misattribution: projected text that is not a copy of its source range belongs to one directive
or to one reactive statement, and all text without a source range is synthetic. -/
namespace SvelteLens.Projection

open Edit Markup

variable {reader : Script.Reader} {source : String} {doc : Document}

def statementSpan (block : ScriptBlock) (statement : Script.Reactive) : Span :=
  ⟨block.content.start + statement.start, block.content.start + statement.body.stop⟩

/-- What a segment of the projected text may stand for. -/
inductive Attributed (reader : Script.Reader) (source : String) (doc : Document) (text : String) (generated : Span) :
    Span → Prop where
  | copied : generated.slice? text = some run → span.slice? source = some run →
      Attributed reader source doc text generated span
  | directive : d ∈ doc.directives → d.span.covers span = true → Attributed reader source doc text generated span
  | statement : block ∈ doc.scripts → outline? reader source block = some outline →
      .reactive statement ∈ outline → block.content.covers span = true →
      (statementSpan block statement).covers span = true → Attributed reader source doc text generated span

/-- Where text was put in place of other text, the range is part of a directive or of a reactive
statement. -/
theorem Cause.attributed {zones : List Zone} {r : Replacement} {text : String} {generated : Span}
    (h : Cause reader source doc r) (placed : Reads reader source doc Script.Outline.Placed)
    (zoned : Zoned source.toList doc zones)
    (order : r.span.start < r.span.stop) (full : r.text ≠ "") :
    Attributed reader source doc text generated r.span := by
  cases h with
  | opening => exact absurd rfl full
  | closing => exact absurd rfl full
  | style => exact absurd rfl full
  | script rewritten read listed edit =>
    have member : _ ∈ doc.scripts := List.mem_append_left _ (Option.mem_toList.mpr rewritten.1)
    obtain ⟨length, stop, inside⟩ := items_placed placed member (zoned.script_holds member) read listed
    obtain ⟨lower, _, empty | ⟨statement, rfl, first, last, bound⟩⟩ := edit.reach inside order
    · exact absurd empty full
    · exact .statement member read listed (Span.covers_iff.mpr ⟨lower, by omega⟩) (Span.covers_iff.mpr ⟨first, last⟩)
  | directive listed edit =>
    have member := site_directive listed
    obtain ⟨lower, upper⟩ := Directive.Site.plan_inside (zoned.directive_ordered member) edit
    exact .directive member (Span.covers_iff.mpr ⟨lower, upper⟩)

/-- No misattribution. A source segment of a projection is a copy of its range, unless the range lies
in a directive or in a reactive statement. All other text is synthetic. -/
theorem segments_attributed {path : Option Path} {p : Projection} (placed : Reads reader source doc Script.Outline.Placed)
    (scanned : scan source = .ok doc) (projected : ofComponent reader source doc path = .ok p) :
    (∀ s ∈ p.map.segments, ∀ span, s.origin = .source span →
      Attributed reader source doc p.text s.generated span) ∧
    ∀ g < p.text.utf8ByteSize, p.map.isSynthetic g = false ↔
      ∃ s ∈ p.map.segments, s.generated.contains g = true ∧ ∃ span, s.origin = .source span := by
  obtain ⟨zones, zoned⟩ := scan_zoned scanned
  obtain ⟨b, made⟩ := ofComponent_ok projected
  rw [made.map, made.text]
  constructor
  · intro s member span origin
    rcases made.valid.segment_cases (Array.mem_toList_iff.mpr member) origin with
      ⟨run, shown, same⟩ | ⟨r, edit, rfl, full⟩
    · rw [made.original] at same
      exact .copied shown same
    · exact (made.causes r edit).attributed placed zoned (made.valid.proper r edit).1 full
  · intro g inside
    rw [← Text.width_toList, ← Buffer.render_length] at inside
    obtain ⟨s, member, contains, found⟩ := made.valid.tiled.exists_segment inside
    rw [PositionMap.isSynthetic, found, Option.any_some]
    constructor
    · intro real
      refine ⟨s, Array.mem_toList_iff.mp member, contains, ?_⟩
      cases origin : s.origin with
      | source span => exact ⟨span, rfl⟩
      | synthetic =>
        rw [origin] at real
        cases real
    · rintro ⟨t, other, hit, span, origin⟩
      obtain rfl := made.valid.tiled.unique (Array.mem_toList_iff.mpr other) member hit contains
      rw [origin]
      rfl

/-- A component with a prop, a reactive statement and a directive. -/
def sample : String := "<script>export let a;$:a()</script><p on:a={a}/>"

theorem sample_projects : ∃ doc, scan sample = .ok doc ∧ Reads Script.readOutline sample doc Script.Outline.Placed ∧
    ∃ p, ofComponent Script.readOutline sample doc none = .ok p := by
  have runs : ((scan sample).toOption.any fun doc => Reads Script.readOutline sample doc Script.Outline.Placed ∧
      (ofComponent Script.readOutline sample doc none).toOption.isSome) = true := by decide +kernel
  obtain ⟨doc, scanned, found⟩ := ok_of_any runs
  obtain ⟨placed, succeeds⟩ := of_decide_eq_true found
  obtain ⟨p, projected⟩ := Option.isSome_iff_exists.mp succeeds
  exact ⟨doc, scanned, placed, p, ok_of_toOption projected⟩

theorem segments_attributed_sample : ∃ doc, scan sample = .ok doc ∧
    Reads Script.readOutline sample doc Script.Outline.Placed ∧ ∃ p, ofComponent Script.readOutline sample doc none = .ok p ∧
      (∀ s ∈ p.map.segments, ∀ span, s.origin = .source span →
        Attributed Script.readOutline sample doc p.text s.generated span) ∧
      ∀ g < p.text.utf8ByteSize, p.map.isSynthetic g = false ↔
        ∃ s ∈ p.map.segments, s.generated.contains g = true ∧ ∃ span, s.origin = .source span := by
  obtain ⟨doc, scanned, placed, p, projected⟩ := sample_projects
  exact ⟨doc, scanned, placed, p, projected, segments_attributed placed scanned projected⟩

end SvelteLens.Projection
