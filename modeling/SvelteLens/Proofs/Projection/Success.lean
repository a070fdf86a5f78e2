import SvelteLens.Proofs.Projection.Attribution
import SvelteLens.Proofs.Projection.Compatibility

/-! Projections succeed. The commands of a scanned component fit together, so the buffer accepts them phase
by phase. The one exception is a directive that takes up the blanks at the end of the text. -/
namespace SvelteLens.Projection

open Edit Markup
open Edit.Buffer (Accepts)
open Text (width)

variable {ν : Type} {reader : Script.Reader} {source : String} {doc : Document} {zones : List Zone} {path : Option Path}
  {b after : Buffer}

theorem runPlan_of_accepts {plan : Plan ν} (faultless : Step.fault ∉ plan) (accepts : Accepts b plan.commands after)
    (error : Refusal → ProjectionError) : runPlan b plan error = .ok (after, plan.notes) := by
  rw [runPlan, Plan.run_of_accepts faultless accepts]

def scriptNotes (reader : Script.Reader) (source : String) (role : Script.Role) (known : List String)
    (block : Option ScriptBlock) : List Script.Declaration :=
  block.elim [] fun block => (scriptPlan reader source role known block).1.notes

theorem addScript_of_accepts {s : Scripts} {role : Script.Role} {block : Option ScriptBlock}
    (faultless : ∀ b ∈ block, Step.fault ∉ (scriptPlan reader source role s.known b).1)
    (accepts : Accepts s.buffer (scriptCommands reader source role s.known block) after) :
    addScript reader source s role block = .ok ⟨after, knownAfter reader source role s.known block,
      s.declarations ++ scriptNotes reader source role s.known block⟩ := by
  cases block with
  | none =>
    cases accepts
    simp [addScript, knownAfter, scriptNotes]
  | some block =>
    obtain ⟨bare, tags, adapted⟩ := accepts.split
    have first := runPlan_of_accepts (by simp [tagPlan]) tags (.layout .scriptTags)
    have second := runPlan_of_accepts (faultless block rfl) adapted (.layout .script)
    exact chain_ok.mpr ⟨_, first, chain_ok.mpr ⟨_, second, rfl⟩⟩

theorem addSites_of_accepts {sites : List Directive.Site} (faultless : ∀ site ∈ sites, Step.fault ∉ site.plan)
    (accepts : Accepts b (sites.flatMap (·.plan.commands)) after) :
    addSites b sites = .ok (after, sites.flatMap (·.plan.notes)) := by
  induction sites generalizing b with
  | nil =>
    cases accepts
    rfl
  | cons site sites ih =>
    rw [List.flatMap_cons] at accepts
    obtain ⟨next, first, rest⟩ := accepts.split
    have made := runPlan_of_accepts (faultless site List.mem_cons_self) first
      (.directive site.directive.kind site.directive.span)
    have later := ih (fun other member => faultless other (List.mem_cons_of_mem site member)) rest
    exact chain_ok.mpr ⟨_, made, chain_ok.mpr ⟨_, later, rfl⟩⟩

/-- No plan of a projection has a fault. -/
structure Faultless (reader : Script.Reader) (source : String) (doc : Document) : Prop where
  scripts : ∀ block ∈ doc.scripts, ∀ role known, Step.fault ∉ (scriptPlan reader source role known block).1
  markup : Step.fault ∉ markupPlan source 0 (blocks doc)
  sites : ∀ site ∈ sites source doc, Step.fault ∉ site.plan

def declared (reader : Script.Reader) (source : String) (doc : Document) : List Script.Declaration :=
  (scriptNotes reader source .shared [] doc.moduleScript ++ scriptNotes reader source .perInstance
    (knownAfter reader source .shared [] doc.moduleScript) doc.instanceScript).mergeSort fun a b =>
      a.span.start ≤ b.span.start

/-- When the buffer accepts all the commands in a row, every phase goes through. -/
theorem edited_of_accepts (faultless : Faultless reader source doc)
    (accepts : Accepts (Buffer.ofSource source) (bodyCommands reader source doc ++
      [.insertAfter (width source.toList) (footer (path.elim "Component" Path.componentName) (declared reader source doc))])
      after) :
    edited reader source doc path =
      .ok (after, declared reader source doc, (sites source doc).flatMap (·.plan.notes)) := by
  obtain ⟨b₆, body, last⟩ := accepts.split
  obtain ⟨b₅, body, directives⟩ := body.split
  obtain ⟨b₄, body, markup⟩ := body.split
  obtain ⟨b₃, body, styles⟩ := body.split
  obtain ⟨b₂, body, own⟩ := body.split
  obtain ⟨b₁, first, shared⟩ := body.split
  have layout {b after : Buffer} {plan : Plan Empty} (faultless : Step.fault ∉ plan)
      (accepts : Accepts b plan.commands after) (phase : Phase) :
      (runPlan b plan (.layout phase)).map (·.1) = .ok after := by
    rw [runPlan_of_accepts faultless accepts]
    rfl
  have moduleScript := addScript_of_accepts (s := ⟨b₁, [], []⟩)
    (fun block found => faultless.scripts block (List.mem_append_right _ (Option.mem_toList.mpr found)) _ _) shared
  have instanceScript := addScript_of_accepts (s := ⟨b₂, knownAfter reader source .shared [] doc.moduleScript,
      [] ++ scriptNotes reader source .shared [] doc.moduleScript⟩)
    (fun block found => faultless.scripts block (List.mem_append_left _ (Option.mem_toList.mpr found)) _ _) own
  unfold edited
  simp only
  exact chain_ok.mpr ⟨b₁, layout (by simp) first _, chain_ok.mpr ⟨_, moduleScript, chain_ok.mpr ⟨_, instanceScript,
    chain_ok.mpr ⟨b₄, layout (by simp [stylePlan]) styles _, chain_ok.mpr ⟨b₅, layout faultless.markup markup _,
      chain_ok.mpr ⟨_, addSites_of_accepts faultless.sites directives,
        chain_ok.mpr ⟨after, layout (by simp) last _, rfl⟩⟩⟩⟩⟩⟩⟩

theorem faultless_of_scan (reported : Reads reader source doc Script.Outline.Reported)
    (small : source.utf8ByteSize < offsetBound)
    (zoned : Zoned source.toList doc zones) (framed : Framed source.toList doc zones)
    (ends : ∀ d ∈ doc.directives, d.span.stop ≤ Text.contentEnd source.toList) : Faultless reader source doc where
  scripts _ member role known := (scriptPlan_advances reported member (zoned.script_holds member) role known).faultless
  markup := (markupPlan_fits zoned framed ends 0).1
  sites _ member := (site_sound zoned framed small member).1.faultless

/-- Every component that the scanner takes is projected, unless a directive reaches into the blanks at the
end of the text. Offsets have 32 bits, so no longer text is a component. -/
theorem ofComponent_succeeds (reported : Reads reader source doc Script.Outline.Reported)
    (small : source.utf8ByteSize < offsetBound)
    (scanned : scan source = .ok doc) (ends : ∀ d ∈ doc.directives, d.span.stop ≤ Text.contentEnd source.toList)
    (path : Option Path) : ∃ p, ofComponent reader source doc path = .ok p := by
  obtain ⟨zones, zoned, framed⟩ := scan_framed scanned
  have fits := commands_fit reported small zoned framed ends
    (footer (path.elim "Component" Path.componentName) (declared reader source doc))
  obtain ⟨final, accepts⟩ := Buffer.accepts_of_apart (b := Buffer.ofSource source) fits.valid
    (fun c _ => Buffer.ofSource_leaves source c.reach) fits.apart
  have made := edited_of_accepts (faultless_of_scan reported small zoned framed ends) accepts
  exact ⟨_, chain_ok.mpr ⟨_, made, rfl⟩⟩

def sampleOutline : Script.Outline :=
  [.exported 0 (.variableList .mutable false [.name ⟨"a", 11⟩]), .reactive ⟨13, ⟨15, 18⟩, none⟩]

theorem sampleOutline_reported : Script.Outline.Reported "export let a;$:a()".toList sampleOutline := by
  refine ⟨[⟨0, 13⟩, ⟨13, 18⟩], by decide, .cons ?_ (.cons ?_ .nil)⟩
  · exact ⟨[], [' '], 'l', "et a;$:a()".toList, by decide, rfl, by decide, by decide, by decide⟩
  · exact ⟨by decide, by decide, by decide, by decide, by decide, by decide, by decide, nofun⟩

theorem ofComponent_succeeds_sample : ∃ doc, scan sample = .ok doc ∧
    Reads Script.readOutline sample doc Script.Outline.Reported ∧ sample.utf8ByteSize < offsetBound ∧
      (∀ d ∈ doc.directives, d.span.stop ≤ Text.contentEnd sample.toList) ∧
      ∃ p, ofComponent Script.readOutline sample doc none = .ok p := by
  have runs : ((scan sample).toOption.any fun doc => doc.scripts = [⟨⟨0, 35⟩, ⟨8, 26⟩, none⟩] ∧
      doc.directives.all fun d => d.span.stop ≤ Text.contentEnd sample.toList) = true := by decide +kernel
  obtain ⟨doc, scanned, found⟩ := ok_of_any runs
  obtain ⟨scripts, inside⟩ := of_decide_eq_true found
  have slice : (⟨8, 26⟩ : Span).slice? sample = some "export let a;$:a()" := by decide +kernel
  have read : outline? Script.readOutline sample ⟨⟨0, 35⟩, ⟨8, 26⟩, none⟩ = some sampleOutline := by decide +kernel
  have reported : Reads Script.readOutline sample doc Script.Outline.Reported := by
    intro block listed outline found
    rw [scripts] at listed
    obtain rfl := List.mem_singleton.mp listed
    cases read.symm.trans found
    rw [slice]
    exact sampleOutline_reported
  have ends : ∀ d ∈ doc.directives, d.span.stop ≤ Text.contentEnd sample.toList := by simpa using inside
  have small : sample.utf8ByteSize < offsetBound := by decide
  exact ⟨doc, scanned, reported, small, ends, ofComponent_succeeds reported small scanned ends none⟩

/-- A component whose text ends inside a start tag, behind an equals sign and a blank. -/
def cutSample : String := "<input on:click= "

/-- The directive takes up the blank at the end of the text, while the markup is wrapped before it. Removing
the directive is then refused. -/
theorem cut_directive_refused : ∃ doc, scan cutSample = .ok doc ∧ doc.scripts = [] ∧
    ofComponent Script.readOutline cutSample doc none =
      .error (.directive .eventHandler ⟨7, 17⟩ (.insideEdit 16 ⟨7, 17⟩)) := by
  have runs : ((scan cutSample).toOption.any fun doc => doc.scripts = [] ∧
      ofComponent Script.readOutline cutSample doc none =
        .error (.directive .eventHandler ⟨7, 17⟩ (.insideEdit 16 ⟨7, 17⟩))) = true := by decide +kernel
  obtain ⟨doc, scanned, found⟩ := ok_of_any runs
  exact ⟨doc, scanned, of_decide_eq_true found⟩

end SvelteLens.Projection
