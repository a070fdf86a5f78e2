import SvelteLens.Directive.Rules
import SvelteLens.Proofs.Edit.Plans
import SvelteLens.Proofs.Markup.Offsets

/-! Which directives are degraded. Each rule decides before its first edit: a degraded directive is removed as a whole
with one note, and any other directive gets no note at all. -/
namespace SvelteLens.Directive

open Edit Markup

namespace Site

def hasText (s : Site) : Bool :=
  match s.directive.value with
  | .text _ => true
  | _ => false

/-- A shorthand stands for an expression only when its name is an identifier. -/
def isUnnamed (s : Site) : Bool := s.directive.value = .shorthand && !isPlainIdentifier s.directive.name

/-- A shorthand binding needs a variable of that name. -/
def isUnbound (s : Site) : Bool :=
  s.directive.value = .shorthand && (!isPlainIdentifier s.directive.name || s.directive.name = "this")

/-- The sites whose directive has no typed projection. -/
def degrades (s : Site) : Bool :=
  match s.directive.kind with
  | .action | .transition | .animation => s.tag.isComponent || s.hasText
  | .binding => s.hasText || s.isUnbound
  | .eventHandler => s.hasText
  | .classToggle => s.tag.isComponent || (s.hasText || s.isUnnamed)
  | .style => s.tag.isComponent || s.isUnnamed
  | .slotProp => s.tag.content.isNone || (!s.tag.isComponent && s.enclosing.isNone) || s.hasText

/-- A literal style on an element: there is nothing to check, and nothing to report. -/
def isPlainStyle (s : Site) : Bool := s.directive.kind = .style && !s.tag.isComponent && s.hasText

end Site

/-- A plan that degrades its directive when it should, and leaves no note otherwise. -/
inductive Settled (s : Site) : (degrades : Bool) → Plan Degraded → Prop where
  | degraded (reason : String) : Settled s true (s.degrade reason)
  | projected {plan : Plan Degraded} : plan.notes = [] → Settled s false plan

section Parts

variable {s : Site} {plan : Plan Degraded} {v : ExpressionValue}

@[simp] theorem notes_overwrite (start stop : Nat) (text : String) : (overwrite start stop text).notes = [] := rfl
@[simp] theorem notes_remove (start stop : Nat) : (remove start stop).notes = [] := rfl
@[simp] theorem notes_insertBefore (offset : Nat) (text : String) : (insertBefore offset text).notes = [] := rfl
@[simp] theorem notes_insertAfter (offset : Nat) (text : String) : (insertAfter offset text).notes = [] := rfl

theorem notes_withHeadEnd {next : Nat → Plan Degraded} (h : ∀ n, (next n).notes = []) :
    (s.withHeadEnd next).notes = [] := by
  unfold Site.withHeadEnd
  split
  · exact h _
  · rfl

@[simp] theorem notes_removeModifiers (s : Site) : s.removeModifiers.notes = [] := notes_withHeadEnd fun _ => rfl

@[simp] theorem notes_stripClosingQuote (s : Site) (v : ExpressionValue) : (s.stripClosingQuote v).notes = [] := by
  unfold Site.stripClosingQuote
  split <;> rfl

@[simp] theorem notes_stripOpeningQuote (s : Site) (v : ExpressionValue) : (s.stripOpeningQuote v).notes = [] := by
  unfold Site.stripOpeningQuote
  split
  · rfl
  · refine notes_withHeadEnd fun n => ?_
    split <;> rfl

/-- A condition that is checked before all others. -/
theorem Settled.first {condition later : Bool} (h : Settled s later plan) (reason : String) :
    Settled s (condition || later) (if condition then s.degrade reason else plan) := by
  cases condition with
  | true => exact .degraded reason
  | false => exact h

theorem Settled.only {condition : Bool} (silent : plan.notes = []) (reason : String) :
    Settled s condition (if condition then s.degrade reason else plan) := by
  have settled : Settled s (condition || false) (if condition then s.degrade reason else plan) :=
    .first (.projected silent) reason
  rwa [Bool.or_false] at settled

theorem shorthand_of_not_expression (valueless : s.directive.expression? = none) (typed : s.hasText = false) :
    s.directive.value = .shorthand := by
  unfold Markup.Directive.expression? at valueless
  unfold Site.hasText at typed
  cases found : s.directive.value with
  | shorthand => rfl
  | text => simp [found] at typed
  | expression => simp [found] at valueless

theorem hasText_of_not_text (other : ∀ text, s.directive.value = .text text → False) : s.hasText = false := by
  unfold Site.hasText
  split
  · next text found => exact (other text found).elim
  · rfl

end Parts

section Rules

variable (s : Site)

theorem invoke_settled (wrapper extra : String) : Settled s s.hasText (invoke wrapper extra s) := by
  simp only [invoke]
  split
  · next found =>
    rw [Site.hasText, found]
    exact .degraded _
  · next found =>
    rw [Site.hasText, found]
    exact .projected (by simp)
  · next found =>
    rw [Site.hasText, found]
    exact .projected (by simp)

theorem bindThis_notes (v : ExpressionValue) : (bindThis s v).notes = [] := rfl

theorem bindReadOnly_notes : (bindReadOnly s).notes = [] := by
  simp only [bindReadOnly]
  split <;> rfl

theorem bindProperty_notes : (bindProperty s).notes = [] := by
  simp only [bindProperty]
  split <;> simp

theorem binding_settled : Settled s (s.hasText || s.isUnbound) (binding s) := by
  have plain : (if !s.tag.isComponent && readOnlyProperties.contains s.directive.name then bindReadOnly s
      else bindProperty s).notes = [] := by
    split
    · exact bindReadOnly_notes s
    · exact bindProperty_notes s
  simp only [binding]
  split
  · next found =>
    rw [Site.hasText, found]
    exact .degraded _
  · next found =>
    have shape : (s.hasText || s.isUnbound) = (!isPlainIdentifier s.directive.name || s.directive.name = "this") := by
      simp [Site.hasText, Site.isUnbound, found]
    rw [shape]
    exact .only plain _
  · next v found =>
    have shape : (s.hasText || s.isUnbound) = false := by simp [Site.hasText, Site.isUnbound, found]
    rw [shape]
    refine .projected ?_
    split
    · exact bindThis_notes s v
    · exact plain

theorem elementEvent_notes : (elementEvent s).notes = [] := by
  simp only [elementEvent]
  split <;> simp

theorem componentEvent_notes : (componentEvent s).notes = [] := by
  simp only [componentEvent]
  split <;> simp

theorem event_settled : Settled s s.hasText (event s) := by
  unfold event
  split
  · next found =>
    rw [Site.hasText, found]
    exact .degraded _
  · next other =>
    rw [hasText_of_not_text other]
    refine .projected ?_
    split
    · exact componentEvent_notes s
    · exact elementEvent_notes s

/-- Only a shorthand can be degraded here: a literal value is not for this rule. -/
theorem ensureValue_settled (opening closing : String) (typed : s.hasText = false) :
    Settled s s.isUnnamed (ensureValue opening closing s) := by
  simp only [ensureValue]
  split
  · next v found =>
    have shape : s.isUnnamed = false := by simp [Site.isUnnamed, mem_expression?.mp found]
    rw [shape]
    exact .projected (by simp)
  · next valueless =>
    have shape : s.isUnnamed = !isPlainIdentifier s.directive.name := by
      simp [Site.isUnnamed, shorthand_of_not_expression valueless typed]
    rw [shape]
    exact .only (by simp) _

theorem classToggle_settled : Settled s (s.tag.isComponent || (s.hasText || s.isUnnamed)) (classToggle s) := by
  refine Settled.first ?_ _
  split
  · next found =>
    rw [Site.hasText, found]
    exact .degraded _
  · next other =>
    have typed := hasText_of_not_text other
    rw [typed]
    exact ensureValue_settled s _ _ typed

theorem style_settled : Settled s (s.tag.isComponent || s.isUnnamed) (style s) := by
  refine Settled.first ?_ _
  split
  · next found =>
    rw [Site.isUnnamed, found]
    exact .projected rfl
  · next other => exact ensureValue_settled s _ _ (hasText_of_not_text other)

theorem slotProp_settled : Settled s
    (s.tag.content.isNone || (!s.tag.isComponent && s.enclosing.isNone) || s.hasText) (slotProp s) := by
  have slotless : (s.slot?).isNone = (!s.tag.isComponent && s.enclosing.isNone) := by
    unfold Site.slot?
    split <;> simp_all
  have patternless : (s.pattern?).isNone = s.hasText := by
    unfold Site.pattern? Site.hasText
    split <;> simp_all
  rw [← slotless, ← patternless]
  simp only [slotProp]
  split
  · next found =>
    rw [found]
    exact .degraded _
  · next found missing =>
    rw [found, missing]
    exact .degraded _
  · next found given missing =>
    rw [found, given, missing]
    exact .degraded _
  · next found given named =>
    rw [found, given, named]
    refine .projected ?_
    split <;> rfl

/-- Every directive is settled by its rule. -/
theorem Site.plan_settled : Settled s s.degrades s.plan := by
  unfold Site.degrades Site.plan
  cases s.directive.kind with
  | action => exact (invoke_settled s _ _).first _
  | binding => exact binding_settled s
  | eventHandler => exact event_settled s
  | transition => exact (invoke_settled s _ _).first _
  | animation => exact (invoke_settled s _ _).first _
  | classToggle => exact classToggle_settled s
  | style => exact style_settled s
  | slotProp => exact slotProp_settled s

variable {s}

theorem Site.plan_degraded (given : s.degrades = true) : ∃ reason, s.plan = s.degrade reason := by
  have settled := s.plan_settled
  rw [given] at settled
  generalize s.plan = plan at settled
  cases settled with
  | degraded reason => exact ⟨reason, rfl⟩

/-- The commands for a directive: the rule makes them all, or the directive is removed. -/
def Site.requests (s : Site) : List Command :=
  if s.degrades then [.remove s.directive.span] else (ruleOf s.directive.kind s).commands

theorem Site.plan_requests (s : Site) : s.plan.commands = s.requests := by
  unfold Site.requests
  split
  · next given =>
    obtain ⟨reason, same⟩ := Site.plan_degraded given
    rw [same]
    rfl
  · rfl

theorem Site.plan_silent (typed : s.degrades = false) : s.plan.notes = [] := by
  have settled := s.plan_settled
  rw [typed] at settled
  generalize s.plan = plan at settled
  cases settled with
  | projected silent => exact silent

theorem Site.plan_dropped (plain : s.isPlainStyle = true) : s.plan = [.edit (.remove s.directive.span)] := by
  simp only [Site.isPlainStyle, Bool.and_eq_true, decide_eq_true_eq, Bool.not_eq_true'] at plain
  obtain ⟨⟨kind, element⟩, literal⟩ := plain
  unfold Site.hasText at literal
  split at literal
  · next found => simp [Site.plan, kind, ruleOf, style, element, found, remove]
  · cases literal

end Rules

end SvelteLens.Directive
