import SvelteLens.Proofs.Directive.Reach
import SvelteLens.Proofs.Edit.Acceptance

/-! Which offsets the rules of directives compute. They take the offsets of the directive as they are, and
compute three: the end of the head and the positions of the two quotes. Only the first can pass the bound of
offsets, and only the quote at the end can come before the text. -/
namespace SvelteLens

open Edit

namespace Edit

variable {ν : Type} {given cause : Prop} {noted : ν → Prop} {plan more : Plan ν}

/-- In given circumstances an edit has offsets that fit and a note is as wanted. A fault has its cause. -/
def Step.Guarded (given cause : Prop) (noted : ν → Prop) : Step ν → Prop
  | .edit command => given → command.reach.Fits
  | .note value => given → noted value
  | .fault => cause

def Plan.Guarded (given cause : Prop) (noted : ν → Prop) (plan : Plan ν) : Prop :=
  ∀ step ∈ plan, step.Guarded given cause noted

namespace Plan

@[simp] theorem guarded_nil : Guarded given cause noted ([] : Plan ν) := nofun

@[simp] theorem guarded_edit {command : Command} :
    Guarded given cause noted (.edit command :: plan) ↔ (given → command.reach.Fits) ∧ Guarded given cause noted plan :=
  List.forall_mem_cons

@[simp] theorem guarded_note {value : ν} :
    Guarded given cause noted (.note value :: plan) ↔ (given → noted value) ∧ Guarded given cause noted plan :=
  List.forall_mem_cons

@[simp] theorem guarded_fault : Guarded given cause noted (.fault :: plan) ↔ cause ∧ Guarded given cause noted plan :=
  List.forall_mem_cons

@[simp] theorem guarded_append :
    Guarded given cause noted (plan ++ more) ↔ Guarded given cause noted plan ∧ Guarded given cause noted more :=
  List.forall_mem_append

theorem Guarded.each (guarded : plan.Guarded given cause noted) (holds : given) : plan.Each fun c => c.reach.Fits := by
  intro c member
  obtain ⟨step, listed, made⟩ := List.mem_filterMap.mp member
  cases step with
  | edit command =>
    cases made
    exact guarded _ listed holds
  | note => cases made
  | fault => cases made

theorem Guarded.notes (guarded : plan.Guarded given cause noted) (holds : given) : ∀ value ∈ plan.notes, noted value := by
  intro value member
  obtain ⟨step, listed, made⟩ := List.mem_filterMap.mp member
  cases step with
  | edit => cases made
  | note =>
    cases made
    exact guarded _ listed holds
  | fault => cases made

end Plan
end Edit

namespace Directive

open Markup

/-- The positions of a directive and of the content around which it opens a scope are offsets. -/
structure Site.Fits (s : Site) : Prop where
  span : s.directive.span.Fits
  name : s.directive.nameSpan.Fits
  value : ∀ v ∈ s.directive.expression?, v.span.Fits
  content : ∀ c ∈ s.tag.content, c.Fits

/-- The end of the head is no offset, or a quote at the end would stand before the text. -/
def Overruns (d : Markup.Directive) : Prop :=
  offsetBound ≤ d.headEnd ∨ d.span.stop = 0 ∧ ∃ v ∈ d.expression?, v.quote.isSome

section Rules

variable {s : Site} {start stop : Nat}

def Site.Guarded (s : Site) (plan : Plan Degraded) : Prop :=
  plan.Guarded s.Fits (Overruns s.directive) fun note => note.span.Fits

theorem overwrite_guarded (fits : s.Fits → start < offsetBound ∧ stop < offsetBound) (text : String) :
    s.Guarded (overwrite start stop text) :=
  Plan.guarded_edit.mpr ⟨fun given => ⟨(fits given).1, (fits given).2⟩, Plan.guarded_nil⟩

theorem remove_guarded (fits : s.Fits → start < offsetBound ∧ stop < offsetBound) : s.Guarded (remove start stop) :=
  Plan.guarded_edit.mpr ⟨fun given => ⟨(fits given).1, (fits given).2⟩, Plan.guarded_nil⟩

theorem insertBefore_guarded (fits : s.Fits → start < offsetBound) (text : String) :
    s.Guarded (insertBefore start text) :=
  Plan.guarded_edit.mpr ⟨fun given => .empty (fits given), Plan.guarded_nil⟩

theorem insertAfter_guarded (fits : s.Fits → start < offsetBound) (text : String) :
    s.Guarded (insertAfter start text) :=
  Plan.guarded_edit.mpr ⟨fun given => .empty (fits given), Plan.guarded_nil⟩

theorem append_guarded {first second : Plan Degraded} (guarded : s.Guarded first) (guarded' : s.Guarded second) :
    s.Guarded (first ++ second) := Plan.guarded_append.mpr ⟨guarded, guarded'⟩

theorem degrade_guarded (s : Site) (reason : String) : s.Guarded (s.degrade reason) :=
  append_guarded (remove_guarded fun fits => ⟨fits.span.start, fits.span.stop⟩)
    (Plan.guarded_note.mpr ⟨fun fits => fits.span, Plan.guarded_nil⟩)

theorem withHeadEnd_guarded {plan : Nat → Plan Degraded}
    (guarded : s.directive.headEnd < offsetBound → s.Guarded (plan s.directive.headEnd)) :
    s.Guarded (s.withHeadEnd plan) := by
  unfold Site.withHeadEnd
  split
  · next below => exact guarded below
  · next above => simpa [Site.Guarded] using .inl (Nat.le_of_not_lt above)

theorem removeModifiers_guarded (s : Site) : s.Guarded s.removeModifiers :=
  withHeadEnd_guarded fun below => remove_guarded fun fits => ⟨fits.name.stop, below⟩

theorem stripClosingQuote_guarded {v : ExpressionValue} (member : v ∈ s.directive.expression?) :
    s.Guarded (s.stripClosingQuote v) := by
  unfold Site.stripClosingQuote
  split
  · exact Plan.guarded_nil
  · next quoted none => simpa [Site.Guarded] using .inr ⟨none, v, member, by rw [quoted]; rfl⟩
  · next last _ found => exact remove_guarded fun fits => by have := fits.span.stop; omega

theorem stripOpeningQuote_guarded {v : ExpressionValue} (member : v ∈ s.directive.expression?) :
    s.Guarded (s.stripOpeningQuote v) := by
  unfold Site.stripOpeningQuote
  split
  · exact Plan.guarded_nil
  · refine withHeadEnd_guarded fun below => ?_
    split
    · next found =>
      have between := lastQuote?_between found
      exact remove_guarded fun fits => by have := (fits.value v member).start; omega
    · exact Plan.guarded_nil

theorem stripQuotes_guarded {v : ExpressionValue} (member : v ∈ s.directive.expression?) :
    s.Guarded (s.stripOpeningQuote v ++ s.stripClosingQuote v) :=
  append_guarded (stripOpeningQuote_guarded member) (stripClosingQuote_guarded member)

theorem overwriteHead_guarded (s : Site) (text : String) :
    s.Guarded (overwrite s.directive.span.start s.directive.nameSpan.start text) :=
  overwrite_guarded (fun fits => ⟨fits.span.start, fits.name.start⟩) text

theorem overwriteToValue_guarded {v : ExpressionValue} (member : v ∈ s.directive.expression?) (text : String) :
    s.Guarded (overwrite s.directive.span.start v.span.start text) :=
  overwrite_guarded (fun fits => ⟨fits.span.start, (fits.value v member).start⟩) text

theorem overwriteFromValue_guarded {v : ExpressionValue} (member : v ∈ s.directive.expression?) (text : String) :
    s.Guarded (overwrite v.span.stop s.directive.span.stop text) :=
  overwrite_guarded (fun fits => ⟨(fits.value v member).stop, fits.span.stop⟩) text

theorem insertBehindValue_guarded {v : ExpressionValue} (member : v ∈ s.directive.expression?) (text : String) :
    s.Guarded (insertAfter v.span.stop text) := insertAfter_guarded (fun fits => (fits.value v member).stop) text

theorem insertBehind_guarded (s : Site) (text : String) : s.Guarded (insertAfter s.directive.span.stop text) :=
  insertAfter_guarded (fun fits => fits.span.stop) text

theorem invoke_guarded (wrapper extra : String) (s : Site) : s.Guarded (invoke wrapper extra s) := by
  simp only [invoke]
  split
  · exact degrade_guarded s _
  · next v found =>
    have member := mem_expression?.mpr found
    refine append_guarded (append_guarded (append_guarded (overwriteHead_guarded s _) ?_)
      (insertBehindValue_guarded member _)) (stripClosingQuote_guarded member)
    exact overwrite_guarded (fun fits => ⟨fits.name.stop, (fits.value v member).start⟩) _
  · exact append_guarded (append_guarded (overwriteHead_guarded s _) (removeModifiers_guarded s)) (insertBehind_guarded s _)

theorem onElements_guarded {plan : Plan Degraded} (guarded : s.Guarded plan) (reason : String) :
    s.Guarded (if s.tag.isComponent then s.degrade reason else plan) := by
  split
  · exact degrade_guarded s reason
  · exact guarded

theorem bindReadOnly_guarded (s : Site) : s.Guarded (bindReadOnly s) := by
  simp only [bindReadOnly]
  split
  · next v member => exact append_guarded (overwriteToValue_guarded member _) (overwriteFromValue_guarded member _)
  · exact append_guarded (overwriteHead_guarded s _) (insertBehind_guarded s _)

theorem bindProperty_guarded (s : Site) : s.Guarded (bindProperty s) := by
  simp only [bindProperty]
  refine append_guarded (remove_guarded fun fits => ⟨fits.span.start, fits.name.start⟩) ?_
  split
  · next v member => exact stripQuotes_guarded member
  · exact insertBehind_guarded s _

theorem binding_guarded (s : Site) : s.Guarded (binding s) := by
  have plain : s.Guarded (if !s.tag.isComponent && readOnlyProperties.contains s.directive.name then
      bindReadOnly s else bindProperty s) := by
    split
    · exact bindReadOnly_guarded s
    · exact bindProperty_guarded s
  simp only [binding]
  split
  · exact degrade_guarded s _
  · split
    · exact degrade_guarded s _
    · exact plain
  · next v found =>
    have member := mem_expression?.mpr found
    split
    · exact append_guarded (overwriteToValue_guarded member _) (overwriteFromValue_guarded member _)
    · exact plain

theorem elementEvent_guarded (s : Site) : s.Guarded (elementEvent s) := by
  simp only [elementEvent]
  refine append_guarded (append_guarded (overwriteHead_guarded s _) (removeModifiers_guarded s)) ?_
  split
  · next v member => exact stripQuotes_guarded member
  · exact insertBehind_guarded s _

theorem componentEvent_guarded (s : Site) : s.Guarded (componentEvent s) := by
  simp only [componentEvent]
  split
  · next v member =>
    exact append_guarded (append_guarded (overwriteToValue_guarded member _) (insertBehindValue_guarded member _))
      (stripClosingQuote_guarded member)
  · exact overwrite_guarded (fun fits => ⟨fits.span.start, fits.span.stop⟩) _

theorem event_guarded (s : Site) : s.Guarded (event s) := by
  unfold event
  split
  · exact degrade_guarded s _
  · split
    · exact componentEvent_guarded s
    · exact elementEvent_guarded s

theorem ensureValue_guarded (opening closing : String) (s : Site) : s.Guarded (ensureValue opening closing s) := by
  simp only [ensureValue]
  split
  · next v member =>
    exact append_guarded (append_guarded (overwriteToValue_guarded member _) (insertBehindValue_guarded member _))
      (stripClosingQuote_guarded member)
  · split
    · exact degrade_guarded s _
    · exact append_guarded (append_guarded (overwriteHead_guarded s _) (removeModifiers_guarded s)) (insertBehind_guarded s _)

theorem slotProp_guarded (s : Site) : s.Guarded (slotProp s) := by
  simp only [slotProp]
  split
  · exact degrade_guarded s _
  · exact degrade_guarded s _
  · exact degrade_guarded s _
  · next content component slot pattern found _ _ =>
    have opens (text : String) : s.Guarded (insertBefore content.start text) :=
      insertBefore_guarded (fun fits => (fits.content content found).start) text
    refine append_guarded (append_guarded (remove_guarded fun fits => ⟨fits.span.start, fits.span.stop⟩) (opens _)) ?_
    split
    · exact opens _
    · exact insertAfter_guarded (fun fits => (fits.content content found).stop) _

theorem Site.plan_guarded (s : Site) : s.Guarded s.plan := by
  unfold Site.plan
  cases s.directive.kind with
  | action => exact onElements_guarded (invoke_guarded _ _ s) _
  | binding => exact binding_guarded s
  | eventHandler => exact event_guarded s
  | transition => exact onElements_guarded (invoke_guarded _ _ s) _
  | animation => exact onElements_guarded (invoke_guarded _ _ s) _
  | classToggle =>
    refine onElements_guarded ?_ _
    split
    · exact degrade_guarded s _
    · exact ensureValue_guarded _ _ s
  | style =>
    refine onElements_guarded ?_ _
    split
    · exact remove_guarded fun fits => ⟨fits.span.start, fits.span.stop⟩
    · exact ensureValue_guarded _ _ s
  | slotProp => exact slotProp_guarded s

end Rules

end Directive
end SvelteLens
