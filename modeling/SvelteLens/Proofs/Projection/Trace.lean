import SvelteLens.Projection
import SvelteLens.Proofs.Directive.Reach
import SvelteLens.Proofs.Script.Rewriting

/-! The calls of a projection. A projection that succeeds has made all the commands of all its
plans, one plan after the other, on one buffer. -/
namespace SvelteLens.Projection

open Edit Markup
open Edit.Buffer (Accepts)

variable {ν : Type} {reader : Script.Reader} {source : String} {doc : Document} {path : Option Path}

theorem runPlan_ok {b after : Buffer} {plan : Plan ν} {error : Refusal → ProjectionError} {notes : List ν}
    (h : runPlan b plan error = .ok (after, notes)) : Accepts b plan.commands after ∧ notes = plan.notes := by
  unfold runPlan at h
  split at h
  · rename_i through
    cases h
    exact Plan.run_through through
  · cases h
  · cases h

theorem layout_ok {b after : Buffer} {plan : Plan ν} {error : Refusal → ProjectionError}
    (h : (runPlan b plan error).map (·.1) = .ok after) : Accepts b plan.commands after := by
  cases made : runPlan b plan error with
  | error e =>
    rw [made] at h
    cases h
  | ok found =>
    rw [made] at h
    cases h
    exact (runPlan_ok made).1

/-- What a script block contributes: its tags go and its content is adapted. -/
def blockCommands (reader : Script.Reader) (source : String) (role : Script.Role) (known : List String)
    (block : ScriptBlock) : List Command :=
  (tagPlan block).commands ++ (scriptPlan reader source role known block).1.commands

def scriptCommands (reader : Script.Reader) (source : String) (role : Script.Role) (known : List String)
    (block : Option ScriptBlock) : List Command :=
  block.elim [] (blockCommands reader source role known)

def knownAfter (reader : Script.Reader) (source : String) (role : Script.Role) (known : List String)
    (block : Option ScriptBlock) : List String :=
  block.elim known fun block => (scriptPlan reader source role known block).2

theorem addScript_ok {s after : Scripts} {role : Script.Role} {block : Option ScriptBlock}
    (h : addScript reader source s role block = .ok after) :
    Accepts s.buffer (scriptCommands reader source role s.known block) after.buffer ∧
      after.known = knownAfter reader source role s.known block := by
  cases block with
  | none =>
    cases h
    exact ⟨.nil, rfl⟩
  | some block =>
    obtain ⟨⟨bare, _⟩, tags, h⟩ := chain_ok.mp h
    obtain ⟨⟨final, declarations⟩, adapted, h⟩ := chain_ok.mp h
    cases h
    exact ⟨(runPlan_ok tags).1.append (runPlan_ok adapted).1, rfl⟩

theorem addSites_ok {b after : Buffer} {sites : List Directive.Site} {degraded : List Directive.Degraded}
    (h : addSites b sites = .ok (after, degraded)) :
    Accepts b (sites.flatMap (·.plan.commands)) after ∧ degraded = sites.flatMap (·.plan.notes) := by
  induction sites generalizing b degraded with
  | nil =>
    cases h
    exact ⟨.nil, rfl⟩
  | cons site sites ih =>
    obtain ⟨⟨next, notes⟩, plan, h⟩ := chain_ok.mp h
    obtain ⟨⟨final, more⟩, rest, h⟩ := chain_ok.mp h
    cases h
    obtain ⟨first, same⟩ := runPlan_ok plan
    obtain ⟨second, same'⟩ := ih rest
    rw [List.flatMap_cons, List.flatMap_cons, same, same']
    exact ⟨first.append second, rfl⟩

/-- The commands of a projection before its footer, in the order in which they are made. -/
def bodyCommands (reader : Script.Reader) (source : String) (doc : Document) : List Command :=
  [.insertBefore 0 header] ++
    scriptCommands reader source .shared [] doc.moduleScript ++
    scriptCommands reader source .perInstance (knownAfter reader source .shared [] doc.moduleScript) doc.instanceScript ++
    (stylePlan doc.styles).commands ++
    (markupPlan source 0 (blocks doc)).commands ++
    (sites source doc).flatMap (·.plan.commands)

theorem edited_ok {b : Buffer} {declarations : List Script.Declaration} {degraded : List Directive.Degraded}
    (h : edited reader source doc path = .ok (b, declarations, degraded)) :
    Accepts (Buffer.ofSource source) (bodyCommands reader source doc ++
      [.insertAfter (Text.width source.toList) (footer (path.elim "Component" Path.componentName) declarations)]) b ∧
      degraded = (sites source doc).flatMap (·.plan.notes) := by
  unfold edited at h
  simp only at h
  obtain ⟨b₁, header, h⟩ := chain_ok.mp h
  obtain ⟨shared, moduleScript, h⟩ := chain_ok.mp h
  obtain ⟨own, instanceScript, h⟩ := chain_ok.mp h
  obtain ⟨b₂, styles, h⟩ := chain_ok.mp h
  obtain ⟨b₃, markup, h⟩ := chain_ok.mp h
  obtain ⟨⟨b₄, notes⟩, directives, h⟩ := chain_ok.mp h
  obtain ⟨b₅, footer, h⟩ := chain_ok.mp h
  cases h
  obtain ⟨first, known⟩ := addScript_ok moduleScript
  obtain ⟨second, _⟩ := addScript_ok instanceScript
  obtain ⟨sites, same⟩ := addSites_ok directives
  rw [known] at second
  have body := (((((layout_ok header).append first).append second).append (layout_ok styles)).append
    (layout_ok markup)).append sites
  exact ⟨body.append (layout_ok footer), same⟩

end SvelteLens.Projection
