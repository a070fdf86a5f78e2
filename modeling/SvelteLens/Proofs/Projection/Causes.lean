import SvelteLens.Proofs.Edit.Ledger
import SvelteLens.Proofs.Projection.Trace

/-! Why the projection edits a range: the tags of a script block, a rewritten part of the instance
script, a style block, or a directive. Headers, wrappers and footers only insert. -/
namespace SvelteLens.Projection

open Edit Markup

variable {reader : Script.Reader} {source : String} {doc : Document}

/-- What is read of the scripts of a component has a property together with the content that it is read of. -/
def Reads (reader : Script.Reader) (source : String) (doc : Document)
    (holds : List Char → Script.Outline → Prop) : Prop :=
  ∀ block ∈ doc.scripts, ∀ outline ∈ outline? reader source block, holds ((block.content.slice? source).getD "").toList outline

instance {holds : List Char → Script.Outline → Prop} [∀ content outline, Decidable (holds content outline)] :
    Decidable (Reads reader source doc holds) :=
  inferInstanceAs (Decidable (∀ block ∈ doc.scripts, ∀ outline ∈ outline? reader source block, _))

/-- The names bound at the top level of the module script, when it can be read. -/
def moduleNames (reader : Script.Reader) (source : String) (doc : Document) : List String :=
  (doc.moduleScript.bind (outline? reader source)).elim [] (Script.topNames [])

/-- The ranges of a script block that are rewritten. The module script stays as it is. -/
def RewrittenIn (reader : Script.Reader) (source : String) (doc : Document) (block : ScriptBlock) (span : Span) : Prop :=
  doc.instanceScript = some block ∧ ∃ outline, outline? reader source block = some outline ∧
    Script.Rewritten source block.content.start (Script.topNames (moduleNames reader source doc) outline) outline span

inductive Cause (reader : Script.Reader) (source : String) (doc : Document) : Replacement → Prop where
  | opening : block ∈ doc.scripts → Cause reader source doc ⟨⟨block.span.start, block.content.start⟩, ""⟩
  | closing : block ∈ doc.scripts → Cause reader source doc ⟨⟨block.content.stop, block.span.stop⟩, ""⟩
  | script : RewrittenIn reader source doc block edit.span → outline? reader source block = some outline →
      item ∈ outline → Script.ItemEdit source block.content.start names item edit → Cause reader source doc edit
  | style : span ∈ doc.styles → Cause reader source doc ⟨span, ""⟩
  | directive : site ∈ sites source doc → edit ∈ site.plan.edits → Cause reader source doc edit

theorem shared_known {base : Nat} {known : List String} {outline : Script.Outline} :
    (Script.itemsPlan .shared source base known outline).2 = known := by
  induction outline generalizing known with
  | nil => rfl
  | cons item outline ih =>
    have same : (Script.itemPlan .shared source base known item).2 = known := by
      cases item <;> simp [Script.itemPlan]
    simp only [Script.itemsPlan]
    rw [ih, same]

theorem knownAfter_shared : knownAfter reader source .shared [] doc.moduleScript = moduleNames reader source doc := by
  unfold knownAfter moduleNames
  cases doc.moduleScript with
  | none => rfl
  | some block =>
    simp only [Option.elim, Option.bind_some, scriptPlan]
    cases outline? reader source block with
    | none => rfl
    | some outline => exact shared_known

theorem tagPlan_edits {block : ScriptBlock} (member : block ∈ doc.scripts) {r : Replacement}
    (h : r ∈ (tagPlan block).edits) : Cause reader source doc r := by
  simp only [tagPlan, Plan.edits_edit, Command.edit?, Plan.edits_nil, List.append_nil] at h
  rcases List.mem_append.mp h with first | second
  · split at first
    · simp at first
    · obtain rfl : r = _ := by simpa using first
      exact .opening member
  · split at second
    · simp at second
    · obtain rfl : r = _ := by simpa using second
      exact .closing member

theorem scriptPlan_edits {role : Script.Role} {known : List String} {block : ScriptBlock} {r : Replacement}
    (h : r ∈ (scriptPlan reader source role known block).1.edits) : role = .perInstance ∧
      ∃ outline, outline? reader source block = some outline ∧
        Script.Rewritten source block.content.start (Script.topNames known outline) outline r.span ∧
        ∃ item ∈ outline, ∃ names, Script.ItemEdit source block.content.start names item r := by
  unfold scriptPlan at h
  split at h
  · rename_i outline found
    obtain ⟨own, rewritten, edit⟩ := Script.adaptationPlan_edits h
    exact ⟨own, outline, found, rewritten, edit⟩
  · simp at h

theorem moduleCommands_edits {r : Replacement}
    (h : r ∈ edits (scriptCommands reader source .shared [] doc.moduleScript)) : Cause reader source doc r := by
  unfold scriptCommands at h
  cases found : doc.moduleScript with
  | none =>
    rw [found] at h
    simp [edits] at h
  | some block =>
    have member : block ∈ doc.scripts := List.mem_append_right _ (by simp [found])
    simp only [found, Option.elim, blockCommands, edits, List.filterMap_append] at h
    rcases List.mem_append.mp h with tags | adapted
    · exact tagPlan_edits member tags
    · obtain ⟨impossible, _⟩ := scriptPlan_edits adapted
      cases impossible

theorem instanceCommands_edits {r : Replacement}
    (h : r ∈ edits (scriptCommands reader source .perInstance (moduleNames reader source doc) doc.instanceScript)) :
    Cause reader source doc r := by
  unfold scriptCommands at h
  cases found : doc.instanceScript with
  | none =>
    rw [found] at h
    simp [edits] at h
  | some block =>
    have member : block ∈ doc.scripts := List.mem_append_left _ (by simp [found])
    simp only [found, Option.elim, blockCommands, edits, List.filterMap_append] at h
    rcases List.mem_append.mp h with tags | adapted
    · exact tagPlan_edits member tags
    · obtain ⟨_, outline, read, rewritten, item, listed, names, edit⟩ := scriptPlan_edits adapted
      exact .script ⟨found, outline, read, rewritten⟩ read listed edit

theorem stylePlan_edits {r : Replacement} (h : r ∈ (stylePlan doc.styles).edits) : Cause reader source doc r := by
  have all : ∀ styles : List Span, r ∈ (stylePlan styles).edits → ∃ span ∈ styles, r = ⟨span, ""⟩ := by
    intro styles h
    induction styles with
    | nil => simp [stylePlan] at h
    | cons span styles ih =>
      simp only [stylePlan, List.map_cons, Plan.edits_edit, Command.edit?] at h
      rcases List.mem_append.mp h with first | later
      · split at first
        · simp at first
        · exact ⟨span, by simp, by simpa using first⟩
      · obtain ⟨other, member, same⟩ := ih later
        exact ⟨other, List.mem_cons_of_mem span member, same⟩
  obtain ⟨span, member, rfl⟩ := all doc.styles h
  exact .style member

theorem wrapPlan_edits (source : String) (start stop : Nat) : (wrapPlan source start stop).edits = [] := by
  unfold wrapPlan
  split
  · rfl
  · split
    · split <;> rfl

theorem markupPlan_edits (source : String) (start : Nat) (blocks : List Span) :
    (markupPlan source start blocks).edits = [] := by
  induction blocks generalizing start with
  | nil => exact wrapPlan_edits source start _
  | cons block blocks ih => rw [markupPlan, Plan.edits_append, wrapPlan_edits, ih, List.append_nil]

/-- Every edit of a projection has a cause. -/
theorem cause_of_mem {footer : String} {r : Replacement}
    (h : r ∈ edits (bodyCommands reader source doc ++ [.insertAfter (Text.width source.toList) footer])) :
    Cause reader source doc r := by
  simp only [bodyCommands, edits, List.filterMap_append, List.mem_append] at h
  rcases h with (((((header | shared) | own) | styles) | markup) | directives) | footer
  · simp [Command.edit?] at header
  · exact moduleCommands_edits shared
  · rw [knownAfter_shared] at own
    exact instanceCommands_edits own
  · exact stylePlan_edits styles
  · have none : r ∈ (markupPlan source 0 (blocks doc)).edits := markup
    simp [markupPlan_edits] at none
  · obtain ⟨command, made, edit⟩ := List.mem_filterMap.mp directives
    obtain ⟨site, member, made⟩ := List.mem_flatMap.mp made
    exact .directive member (List.mem_filterMap.mpr ⟨command, made, edit⟩)
  · simp [Command.edit?] at footer

theorem items_placed {block : ScriptBlock} {outline : Script.Outline} {item : Script.Item}
    (placed : Reads reader source doc Script.Outline.Placed) (listed : block ∈ doc.scripts) (holds : block.Holds source)
    (read : outline? reader source block = some outline) (member : item ∈ outline) :
    ∃ length, block.content.stop = block.content.start + length ∧ item.Placed length := by
  obtain ⟨content, slice, stop⟩ := holds.slice
  have inside := placed block listed outline read
  rw [slice] at inside
  exact ⟨_, stop, inside item member⟩

theorem closing_mem {block : ScriptBlock} (member : block ∈ doc.scripts) (holds : block.Ordered)
    (more : List Command) :
    ⟨⟨block.content.stop, block.span.stop⟩, ""⟩ ∈ edits (bodyCommands reader source doc ++ more) := by
  have tag : (⟨⟨block.content.stop, block.span.stop⟩, ""⟩ : Replacement) ∈ (tagPlan block).edits := by
    have closes := Nat.ne_of_lt holds.closing
    simp [tagPlan, Command.edit?, Span.isEmpty, closes]
  have made (role : Script.Role) (known : List String) :
      ⟨⟨block.content.stop, block.span.stop⟩, ""⟩ ∈ edits (scriptCommands reader source role known (some block)) := by
    simp only [scriptCommands, Option.elim, blockCommands, edits, List.filterMap_append]
    exact List.mem_append_left _ tag
  simp only [bodyCommands, edits, List.filterMap_append, List.mem_append]
  rcases List.mem_append.mp member with own | shared
  · rw [Option.mem_toList.mp own]
    exact .inl (.inl (.inl (.inl (.inr (made _ _)))))
  · rw [Option.mem_toList.mp shared]
    exact .inl (.inl (.inl (.inl (.inl (.inr (made _ _))))))

structure RenderedFrom (reader : Script.Reader) (source : String) (doc : Document) (p : Projection) (b : Buffer) :
    Prop where
  text : p.text = b.render.text
  map : p.map = b.render.map
  degraded : p.degraded = (sites source doc).flatMap (·.plan.notes)
  original : b.source = source
  valid : b.Consistent
  causes : ∀ r ∈ b.replacements, Cause reader source doc r
  closings : ∀ block ∈ doc.scripts, block.Ordered → ⟨⟨block.content.stop, block.span.stop⟩, ""⟩ ∈ b.replacements

theorem ofComponent_ok {path : Option Path} {p : Projection} (h : ofComponent reader source doc path = .ok p) :
    ∃ b, RenderedFrom reader source doc p b := by
  obtain ⟨⟨b, declarations, degraded⟩, made, h⟩ := chain_ok.mp h
  cases h
  obtain ⟨accepts, same⟩ := edited_ok made
  obtain ⟨valid, records, original⟩ := accepts.keeps (Buffer.Consistent.ofSource _) (Buffer.Records.ofSource _)
  exact ⟨b, rfl, rfl, same, original, valid, fun r member => cause_of_mem (records.edits.mem_iff.mp member),
    fun block member holds => records.edits.mem_iff.mpr (closing_mem member holds _)⟩

theorem site_directive {site : Directive.Site} (h : site ∈ sites source doc) :
    site.directive ∈ doc.directives := by
  obtain ⟨placed, member, h⟩ := List.mem_flatMap.mp h
  obtain ⟨d, listed, rfl⟩ := List.mem_map.mp h
  exact List.mem_flatMap.mpr ⟨placed, member, listed⟩

end SvelteLens.Projection
