import SvelteLens.Proofs.Directive.Insertions
import SvelteLens.Proofs.Markup.Contents
import SvelteLens.Proofs.Projection.Success
import SvelteLens.Proofs.Projection.Wrappers

/-! The margins of a projection. Everything that is projected from a component stands between the header and
the footer, for all other text belongs to a byte of the component. An empty component has no byte, and there
the footer comes first. -/
namespace SvelteLens

open Text (width)

namespace Projection

open Edit Markup
open Edit.Buffer (Accepts Records framed)

variable {reader : Script.Reader} {source : String} {doc : Document} {path : Option Path} {p : Projection}

/-- The commands of a projection between those for the header and the footer. -/
def coreCommands (reader : Script.Reader) (source : String) (doc : Document) : List Command :=
  scriptCommands reader source .shared [] doc.moduleScript ++
    (scriptCommands reader source .perInstance (moduleNames reader source doc) doc.instanceScript ++
      ((stylePlan doc.styles).commands ++ ((markupPlan source 0 (blocks doc)).commands ++
        (sites source doc).flatMap (·.plan.commands))))

/-- The declarations of a projection, without where they ended up. -/
def collected (p : Projection) : List Script.Declaration := p.declarations.map fun d => ⟨d.name, d.kind, d.source⟩

/-- The footer of a projection: its props, and the class that it exports by default. -/
def closing (path : Option Path) (p : Projection) : String :=
  footer (path.elim "Component" Path.componentName) (collected p)

theorem bodyCommands_eq (length : Nat) (footer : String) :
    bodyCommands reader source doc ++ [.insertAfter length footer] =
      framed header (coreCommands reader source doc) length footer := by
  simp only [bodyCommands, knownAfter_shared, coreCommands, framed, List.append_assoc, List.cons_append,
    List.nil_append]

theorem ofComponent_accepts (projected : ofComponent reader source doc path = .ok p) : ∃ b : Buffer,
    Accepts (Buffer.ofSource source)
      (framed header (coreCommands reader source doc) (width source.toList) (closing path p)) b ∧
      p.degraded = (sites source doc).flatMap (·.plan.notes) ∧ p.text = b.render.text ∧ p.map = b.render.map := by
  obtain ⟨⟨b, declarations, degraded⟩, made, h⟩ := chain_ok.mp projected
  cases h
  obtain ⟨accepts, notes⟩ := edited_ok made
  refine ⟨b, ?_, notes, rfl, rfl⟩
  have same : (declarations.map fun d => (⟨d.name, d.kind, d.span, generatedSpan? b.render.map d.span⟩ : Declaration)).map
      (fun d => (⟨d.name, d.kind, d.source⟩ : Script.Declaration)) = declarations := by
    rw [List.map_map]
    exact List.map_id _
  rw [closing, collected, same, ← bodyCommands_eq]
  exact accepts

/-- A projection renders its core between its header and its footer. -/
theorem ofComponent_framed (projected : ofComponent reader source doc path = .ok p) : ∃ b : Buffer,
    b.source = source ∧ b.Consistent ∧
      Records b (framed header (coreCommands reader source doc) (width source.toList) (closing path p)) ∧
      p.text = b.render.text ∧ p.map = b.render.map := by
  obtain ⟨b, accepts, -, text, map⟩ := ofComponent_accepts projected
  obtain ⟨valid, records, original⟩ := accepts.keeps (Buffer.Consistent.ofSource _) (Buffer.Records.ofSource _)
  exact ⟨b, original, valid, records, text, map⟩

theorem ofComponent_core (projected : ofComponent reader source doc path = .ok p) : ∃ b : Buffer,
    b.source = source ∧ b.Consistent ∧ Records b (coreCommands reader source doc) ∧
      Text.bytes p.text.toList =
        reference source (framed header (coreCommands reader source doc) (width source.toList) (closing path p)) := by
  obtain ⟨b, original, valid, records, text, -⟩ := ofComponent_framed projected
  have core : ∀ i ∈ insertions (coreCommands reader source doc),
      i ∈ insertions (framed header (coreCommands reader source doc) (width source.toList) (closing path p)) := by
    intro i member
    refine List.mem_cons_of_mem _ ?_
    rw [List.filterMap_append]
    exact List.mem_append_left _ member
  obtain ⟨b', same, valid', records'⟩ := valid.fewer records (by rw [Buffer.edits_framed]) core
  refine ⟨b', same.trans original, valid', records', ?_⟩
  rw [text, valid.written records, original]

section Attached

variable {zones : List Zone}

theorem scriptCommands_attached (zoned : Zoned source.toList doc zones) {block : Option ScriptBlock}
    (listed : ∀ b ∈ block, b ∈ doc.scripts) {role : Script.Role} {known : List String} {i : Insertion}
    (member : i ∈ insertions (scriptCommands reader source role known block)) : i.Attached (width source.toList) := by
  cases block with
  | none => cases member
  | some block =>
    have opens := (zoned.script_holds (listed block rfl)).opening
    have appends : Script.Appends block.content.start (scriptPlan reader source role known block).1 := by
      unfold scriptPlan
      split
      · exact Script.itemsPlan_appends _ _ _ _
      · exact nofun
    obtain ⟨side, behind⟩ := appends i member
    exact .inr ⟨side, by omega⟩

theorem site_attached (scanned : scan source = .ok doc) {site : Directive.Site} (listed : site ∈ sites source doc)
    {i : Insertion} (member : i ∈ insertions site.plan.commands) : i.Attached (width source.toList) := by
  obtain ⟨zones, zoned⟩ := scan_zoned scanned
  have inserts := Directive.Site.plan_inserts (zoned.directive_ordered (site_directive listed)) member
  obtain ⟨placed, tag, made⟩ := List.mem_flatMap.mp listed
  obtain ⟨d, _, rfl⟩ := List.mem_map.mp made
  cases inserts with
  | trailing behind => exact .inr ⟨rfl, Nat.zero_lt_of_lt behind⟩
  | opening inside =>
    have encloses := scan_contents scanned tag inside
    exact .inl ⟨rfl, Nat.lt_of_le_of_lt encloses.order encloses.stop⟩
  | closing inside =>
    have encloses := scan_contents scanned tag inside
    obtain ⟨before, after, _, starts⟩ := encloses.bracket
    have order := encloses.order
    exact .inr ⟨rfl, by simp only; omega⟩

/-- All text in the core of a projection belongs to a byte of the component. -/
theorem core_attached (scanned : scan source = .ok doc) :
    ∀ i ∈ insertions (coreCommands reader source doc), i.Attached (width source.toList) := by
  obtain ⟨zones, zoned⟩ := scan_zoned scanned
  intro i member
  simp only [coreCommands, insertions, List.filterMap_append, List.mem_append] at member
  rcases member with shared | own | styles | markup | directives
  · exact scriptCommands_attached zoned (fun b found => List.mem_append_right _ (Option.mem_toList.mpr found)) shared
  · exact scriptCommands_attached zoned (fun b found => List.mem_append_left _ (Option.mem_toList.mpr found)) own
  · rw [stylePlan_commands, List.filterMap_map] at styles
    obtain ⟨_, _, impossible⟩ := List.mem_filterMap.mp styles
    cases impossible
  · exact markupPlan_attached markup
  · obtain ⟨command, made, insertion⟩ := List.mem_filterMap.mp directives
    obtain ⟨site, listed, made⟩ := List.mem_flatMap.mp made
    exact site_attached scanned listed (List.mem_filterMap.mpr ⟨command, made, insertion⟩)

end Attached

/-- The text of a projection, byte by byte: the core between the header and the footer. -/
theorem ofComponent_bytes (scanned : scan source = .ok doc) (projected : ofComponent reader source doc path = .ok p)
    (filled : source ≠ "") : Text.bytes p.text.toList = Text.bytes header.toList ++
      (reference source (coreCommands reader source doc) ++ Text.bytes (closing path p).toList) := by
  obtain ⟨b, rfl, valid, records, text⟩ := ofComponent_core projected
  rw [text, valid.reference_framed records (core_attached scanned) filled]

/-- The projection of an empty component has its margins the other way round. -/
theorem ofComponent_bytes_empty (scanned : scan "" = .ok doc) (projected : ofComponent reader "" doc path = .ok p) :
    Text.bytes p.text.toList = Text.bytes (closing path p).toList ++ Text.bytes header.toList := by
  obtain ⟨b, original, valid, records, text⟩ := ofComponent_core projected
  rw [text]
  exact valid.reference_framed_empty records (core_attached scanned) original

/-- A projection is known from the bytes of its core. -/
theorem ofComponent_text (scanned : scan source = .ok doc) (projected : ofComponent reader source doc path = .ok p)
    (filled : source ≠ "") {middle : String}
    (core : reference source (coreCommands reader source doc) = Text.bytes middle.toList) :
    p.text = header ++ (middle ++ closing path p) := by
  refine Text.eq_of_bytes ?_
  rw [ofComponent_bytes scanned projected filled, core]
  simp only [String.toList_append, Text.bytes_append]

/-- The header comes first and the footer last, with all that is projected from the component between them.
Only in the projection of an empty component the header stands behind the footer. -/
theorem header_first_footer_last (scanned : scan source = .ok doc)
    (projected : ofComponent reader source doc path = .ok p) :
    (source ≠ "" → ∃ middle : String, p.text = header ++ (middle ++ closing path p) ∧
      Text.bytes middle.toList = reference source (coreCommands reader source doc)) ∧
    (source = "" → p.text = closing path p ++ header) := by
  constructor
  · intro filled
    obtain ⟨b, original, valid, records, _⟩ := ofComponent_core projected
    have core := valid.written records
    rw [original] at core
    refine ⟨b.render.text, Text.eq_of_bytes ?_, core⟩
    rw [ofComponent_bytes scanned projected filled, String.toList_append, String.toList_append, Text.bytes_append,
      Text.bytes_append, core]
  · rintro rfl
    refine Text.eq_of_bytes ?_
    rw [ofComponent_bytes_empty scanned projected, String.toList_append, Text.bytes_append]

theorem header_first_footer_last_sample : ∃ doc, scan sample = .ok doc ∧ ∃ p,
    ofComponent Script.readOutline sample doc none = .ok p ∧ sample ≠ "" ∧ ∃ middle : String,
      p.text = header ++ (middle ++ closing none p) ∧
        Text.bytes middle.toList = reference sample (coreCommands Script.readOutline sample doc) := by
  obtain ⟨doc, scanned, -, p, projected⟩ := sample_projects
  have filled : sample ≠ "" := by decide
  exact ⟨doc, scanned, p, projected, filled, (header_first_footer_last scanned projected).1 filled⟩

/-- An empty component is projected, and the reference to the declarations is not first. -/
theorem empty_component_footer_first (reader : Script.Reader) (path : Option Path) : ∃ doc, scan "" = .ok doc ∧
    ∃ p, ofComponent reader "" doc path = .ok p ∧ p.text = closing path p ++ header ∧ closing path p ≠ "" := by
  have scanned : scan "" = .ok ⟨none, none, [], []⟩ := rfl
  have unblocked : blocks ⟨none, none, [], []⟩ = [] := List.mergeSort_nil
  have unwrapped : markupPlan "" 0 (blocks ⟨none, none, [], []⟩) = [] := by
    rw [unblocked]
    rfl
  have faultless : Faultless reader "" ⟨none, none, [], []⟩ :=
    ⟨fun _ none => (List.not_mem_nil none).elim, by rw [unwrapped]; exact List.not_mem_nil,
      fun _ none => (List.not_mem_nil none).elim⟩
  have body : bodyCommands reader "" ⟨none, none, [], []⟩ = [.insertBefore 0 header] := by
    rw [bodyCommands, unwrapped]
    rfl
  obtain ⟨b, accepts⟩ : ∃ b, Buffer.Accepts (Buffer.ofSource "") (bodyCommands reader "" ⟨none, none, [], []⟩ ++
      [.insertAfter (width "".toList) (footer (path.elim "Component" Path.componentName)
        (declared reader "" ⟨none, none, [], []⟩))]) b := ⟨_, by rw [body]; exact .cons rfl (.cons rfl .nil)⟩
  have made := edited_of_accepts faultless accepts
  obtain ⟨p, projected⟩ : ∃ p, ofComponent reader "" ⟨none, none, [], []⟩ path = .ok p := ⟨_, chain_ok.mpr ⟨_, made, rfl⟩⟩
  refine ⟨_, scanned, p, projected, Text.eq_of_bytes ?_, ?_⟩
  · rw [ofComponent_bytes_empty scanned projected, String.toList_append, Text.bytes_append]
  · unfold closing footer
    exact fun empty => absurd (String.append_eq_empty_iff.mp empty).2 (by decide)

end Projection
end SvelteLens
