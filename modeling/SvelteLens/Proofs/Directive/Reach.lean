import SvelteLens.Directive.Rules
import SvelteLens.Proofs.Edit.Plans
import SvelteLens.Proofs.Markup.Offsets

/-! How far the rules reach. Every edit of a rule lies inside its directive. A directive that is
neither degraded nor a slot prop keeps the expression of its value untouched. -/
namespace SvelteLens.Directive

open Edit Markup
open Text (width)

/-- A range inside a directive that shares no byte with its expression. -/
structure Spares (d : Markup.Directive) (span : Span) : Prop where
  lower : d.span.start ≤ span.start
  upper : span.stop ≤ d.span.stop
  value : ∀ v ∈ d.expression?, span.Apart v.span

/-- A plan that spares the expression and does not degrade the directive. -/
structure Careful (d : Markup.Directive) (plan : Plan Degraded) : Prop where
  edits : ∀ r ∈ plan.edits, Spares d r.span
  notes : plan.notes = []

section Ranges

variable {d : Markup.Directive} {start stop : Nat}

theorem nameStart_le_headEnd (ordered : d.Ordered) : d.nameSpan.start ≤ d.headEnd :=
  Nat.le_trans ordered.head ordered.modifiers

theorem start_le_nameStop (ordered : d.Ordered) : d.span.start ≤ d.nameSpan.stop :=
  Nat.le_trans (Nat.le_of_lt ordered.name) ordered.head

theorem start_le_headEnd (ordered : d.Ordered) : d.span.start ≤ d.headEnd :=
  Nat.le_trans (start_le_nameStop ordered) ordered.modifiers

theorem Spares.head (ordered : d.Ordered) (lower : d.span.start ≤ start) (upper : stop ≤ d.headEnd) :
    Spares d ⟨start, stop⟩ := by
  have := ordered.stop
  refine ⟨lower, Nat.le_trans upper this, fun v member => .inl ?_⟩
  have := ordered.value v member
  simp only
  omega

theorem Spares.before (ordered : d.Ordered) {v : ExpressionValue} (member : v ∈ d.expression?)
    (lower : d.span.start ≤ start) (upper : stop ≤ v.span.start) : Spares d ⟨start, stop⟩ := by
  have value := ordered.value v member
  refine ⟨lower, by simp only; omega, fun w other => .inl ?_⟩
  cases Option.mem_unique member other
  exact upper

theorem Spares.behind (ordered : d.Ordered) {v : ExpressionValue} (member : v ∈ d.expression?)
    (lower : v.span.stop ≤ start) (upper : stop ≤ d.span.stop) : Spares d ⟨start, stop⟩ := by
  have value := ordered.value v member
  have := start_le_headEnd ordered
  refine ⟨by simp only; omega, upper, fun w other => .inr ?_⟩
  cases Option.mem_unique member other
  exact lower

theorem Spares.valueless (none : d.expression? = none) (lower : d.span.start ≤ start) (upper : stop ≤ d.span.stop) :
    Spares d ⟨start, stop⟩ :=
  ⟨lower, upper, fun v member => by rw [none] at member; cases member⟩

end Ranges

namespace Careful

variable {d : Markup.Directive} {plan more : Plan Degraded} {start stop : Nat}

theorem nil (d : Markup.Directive) : Careful d [] := ⟨by simp, rfl⟩

theorem fault (d : Markup.Directive) : Careful d [.fault] := ⟨by simp, rfl⟩

theorem append (h : Careful d plan) (k : Careful d more) : Careful d (plan ++ more) := by
  refine ⟨fun r member => ?_, by rw [Plan.notes_append, h.notes, k.notes, List.append_nil]⟩
  rw [Plan.edits_append] at member
  rcases List.mem_append.mp member with first | second
  · exact h.edits r first
  · exact k.edits r second

theorem overwrite (h : Spares d ⟨start, stop⟩) (text : String) : Careful d (overwrite start stop text) := by
  refine ⟨fun r member => ?_, rfl⟩
  simp only [Directive.overwrite, Plan.edits_edit, Command.edit?, Plan.edits_nil, List.append_nil,
    Option.toList_some, List.mem_singleton] at member
  rw [member]
  exact h

theorem remove (h : Spares d ⟨start, stop⟩) : Careful d (remove start stop) := by
  refine ⟨fun r member => ?_, rfl⟩
  simp only [Directive.remove, Plan.edits_edit, Command.edit?, Plan.edits_nil, List.append_nil] at member
  split at member
  · simp at member
  · simp only [Option.toList_some, List.mem_singleton] at member
    rw [member]
    exact h

theorem insertBefore (d : Markup.Directive) (offset : Nat) (text : String) : Careful d (insertBefore offset text) :=
  ⟨by simp [Directive.insertBefore, Command.edit?], rfl⟩

theorem insertAfter (d : Markup.Directive) (offset : Nat) (text : String) : Careful d (insertAfter offset text) :=
  ⟨by simp [Directive.insertAfter, Command.edit?], rfl⟩

end Careful

theorem lastQuote?_between {source : String} {quote : Char} {start stop position : Nat}
    (h : Site.lastQuote? source quote start stop = some position) : start ≤ position ∧ position + 1 ≤ stop := by
  obtain ⟨between, cut, h⟩ := Option.bind_eq_some_iff.mp h
  obtain ⟨before, after, text, wide, ends⟩ := Text.slice?_eq_some_iff.mp cut
  simp only at h
  split at h
  · cases h
  · rename_i differs
    cases h
    -- At least the quote itself stands behind the characters in front of it.
    have trailing : (between.reverse.takeWhile (· ≠ quote)).length ≤ between.length := by
      have := (List.takeWhile_sublist (· ≠ quote) (l := between.reverse)).length_le
      rwa [List.length_reverse] at this
    have shorter : between.length - (between.reverse.takeWhile (· ≠ quote)).length - 1 < between.length := by omega
    have parts := List.take_append_drop
      (between.length - (between.reverse.takeWhile (· ≠ quote)).length - 1) between
    have rest : between.drop (between.length - (between.reverse.takeWhile (· ≠ quote)).length - 1) ≠ [] := by
      simpa using shorter
    have wider := congrArg width parts
    rw [Text.width_append] at wider
    have := Text.width_pos rest
    omega

section Rules

variable {s : Site}

theorem removeModifiers_careful (ordered : s.directive.Ordered) : Careful s.directive s.removeModifiers := by
  unfold Site.removeModifiers Site.withHeadEnd
  split
  · exact .remove (.head ordered (start_le_nameStop ordered) (Nat.le_refl _))
  · exact .fault _

theorem stripClosingQuote_careful (ordered : s.directive.Ordered) {v : ExpressionValue}
    (member : v ∈ s.directive.expression?) : Careful s.directive (s.stripClosingQuote v) := by
  have value := ordered.value v member
  unfold Site.stripClosingQuote
  split
  · exact .nil _
  · exact .fault _
  · rename_i quote last quoted ends
    rw [quoted] at value
    simp only [Option.toList_some, List.length_singleton] at value
    exact .remove (.behind ordered member (by omega) (by omega))

theorem stripOpeningQuote_careful (ordered : s.directive.Ordered) {v : ExpressionValue}
    (member : v ∈ s.directive.expression?) : Careful s.directive (s.stripOpeningQuote v) := by
  have start := start_le_headEnd ordered
  unfold Site.stripOpeningQuote
  split
  · exact .nil _
  · unfold Site.withHeadEnd
    split
    · simp only
      split
      · rename_i position found
        have between := lastQuote?_between found
        exact .remove (.before ordered member (by omega) between.2)
      · exact .nil _
    · exact .fault _

theorem overwriteHead_careful (ordered : s.directive.Ordered) (text : String) :
    Careful s.directive (overwrite s.directive.span.start s.directive.nameSpan.start text) :=
  .overwrite (.head ordered (Nat.le_refl _) (nameStart_le_headEnd ordered)) text

theorem overwriteToValue_careful (ordered : s.directive.Ordered) {v : ExpressionValue}
    (member : v ∈ s.directive.expression?) (text : String) :
    Careful s.directive (overwrite s.directive.span.start v.span.start text) :=
  .overwrite (.before ordered member (Nat.le_refl _) (Nat.le_refl _)) text

theorem overwriteFromValue_careful (ordered : s.directive.Ordered) {v : ExpressionValue}
    (member : v ∈ s.directive.expression?) (text : String) :
    Careful s.directive (overwrite v.span.stop s.directive.span.stop text) :=
  .overwrite (.behind ordered member (Nat.le_refl _) (Nat.le_refl _)) text

/-- A rule either degrades the directive or is careful. -/
def Handles (rule : Rule) : Prop :=
  ∀ s : Site, s.directive.Ordered → (∃ reason, rule s = s.degrade reason) ∨ Careful s.directive (rule s)

theorem invoke_handles (wrapper extra : String) : Handles (invoke wrapper extra) := by
  intro s ordered
  simp only [invoke]
  split
  · exact .inl ⟨_, rfl⟩
  · rename_i v found
    have member := mem_expression?.mpr found
    have between : Spares s.directive ⟨s.directive.nameSpan.stop, v.span.start⟩ :=
      .before ordered member (start_le_nameStop ordered) (Nat.le_refl _)
    exact .inr ((((overwriteHead_careful ordered _).append (.overwrite between _)).append (.insertAfter _ _ _)).append
      (stripClosingQuote_careful ordered member))
  · exact .inr (((overwriteHead_careful ordered _).append (removeModifiers_careful ordered)).append
      (.insertAfter _ _ _))

theorem Handles.onElements {rule : Rule} (h : Handles rule) (reason : String) :
    Handles fun s => if s.tag.isComponent then s.degrade reason else rule s := by
  intro s ordered
  simp only
  split
  · exact .inl ⟨reason, rfl⟩
  · exact h s ordered

theorem action_handles : Handles action := (invoke_handles _ _).onElements _

theorem transition_handles : Handles transition := (invoke_handles _ _).onElements _

theorem animation_handles : Handles animation := (invoke_handles _ _).onElements _

theorem bindReadOnly_careful (ordered : s.directive.Ordered) : Careful s.directive (bindReadOnly s) := by
  simp only [bindReadOnly]
  split
  · rename_i v found
    exact (overwriteToValue_careful ordered found _).append (overwriteFromValue_careful ordered found _)
  · exact (overwriteHead_careful ordered _).append (.insertAfter _ _ _)

theorem bindProperty_careful (ordered : s.directive.Ordered) : Careful s.directive (bindProperty s) := by
  have head : Careful s.directive (remove s.directive.span.start s.directive.nameSpan.start) :=
    .remove (.head ordered (Nat.le_refl _) (nameStart_le_headEnd ordered))
  simp only [bindProperty]
  refine head.append ?_
  split
  · rename_i v found
    exact (stripOpeningQuote_careful ordered found).append (stripClosingQuote_careful ordered found)
  · exact .insertAfter _ _ _

theorem binding_handles : Handles binding := by
  intro s ordered
  have plain : Careful s.directive (if !s.tag.isComponent && readOnlyProperties.contains s.directive.name then
      bindReadOnly s else bindProperty s) := by
    split
    · exact bindReadOnly_careful ordered
    · exact bindProperty_careful ordered
  simp only [binding]
  split
  · exact .inl ⟨_, rfl⟩
  · split
    · exact .inl ⟨_, rfl⟩
    · exact .inr plain
  · rename_i v found
    have member := mem_expression?.mpr found
    split
    · exact .inr ((overwriteToValue_careful ordered member _).append (overwriteFromValue_careful ordered member _))
    · exact .inr plain

theorem elementEvent_careful (ordered : s.directive.Ordered) : Careful s.directive (elementEvent s) := by
  simp only [elementEvent]
  refine ((overwriteHead_careful ordered _).append (removeModifiers_careful ordered)).append ?_
  split
  · rename_i v found
    exact (stripOpeningQuote_careful ordered found).append (stripClosingQuote_careful ordered found)
  · exact .insertAfter _ _ _

theorem componentEvent_careful (ordered : s.directive.Ordered) : Careful s.directive (componentEvent s) := by
  simp only [componentEvent]
  split
  · rename_i v found
    exact ((overwriteToValue_careful ordered found _).append (.insertAfter _ _ _)).append
      (stripClosingQuote_careful ordered found)
  · rename_i none
    exact .overwrite (.valueless none (Nat.le_refl _) (Nat.le_refl _)) _

theorem event_handles : Handles event := by
  intro s ordered
  unfold event
  split
  · exact .inl ⟨_, rfl⟩
  · split
    · exact .inr (componentEvent_careful ordered)
    · exact .inr (elementEvent_careful ordered)

theorem ensureValue_handles (opening closing : String) : Handles (ensureValue opening closing) := by
  intro s ordered
  simp only [ensureValue]
  split
  · rename_i v found
    exact .inr (((overwriteToValue_careful ordered found _).append (.insertAfter _ _ _)).append
      (stripClosingQuote_careful ordered found))
  · split
    · exact .inl ⟨_, rfl⟩
    · exact .inr (((overwriteHead_careful ordered _).append (removeModifiers_careful ordered)).append
        (.insertAfter _ _ _))

theorem classToggle_handles : Handles classToggle := by
  refine Handles.onElements (fun s ordered => ?_) _
  split
  · exact .inl ⟨_, rfl⟩
  · exact ensureValue_handles _ _ s ordered

/-- A literal style is dropped without a note, but then there is no expression. -/
theorem style_handles : Handles style := by
  refine Handles.onElements (fun s ordered => ?_) _
  split
  · rename_i found
    have none : s.directive.expression? = none := by simp [Markup.Directive.expression?, found]
    exact .inr (.remove (.valueless none (Nat.le_refl _) (Nat.le_refl _)))
  · exact ensureValue_handles _ _ s ordered

theorem ruleOf_handles {kind : DirectiveKind} (other : kind ≠ .slotProp) : Handles (ruleOf kind) := by
  cases kind with
  | action => exact action_handles
  | binding => exact binding_handles
  | eventHandler => exact event_handles
  | transition => exact transition_handles
  | animation => exact animation_handles
  | classToggle => exact classToggle_handles
  | style => exact style_handles
  | slotProp => exact absurd rfl other

theorem slotProp_edits (s : Site) : (slotProp s).edits = (remove s.directive.span.start s.directive.span.stop).edits := by
  simp only [slotProp]
  split
  · simp [Site.degrade]
  · simp [Site.degrade]
  · simp [Site.degrade]
  · split <;> simp [insertBefore, insertAfter, Command.edit?]

theorem degrade_edits (s : Site) (reason : String) :
    (s.degrade reason).edits = (remove s.directive.span.start s.directive.span.stop).edits := by
  simp [Site.degrade]

theorem edit_remove {start stop : Nat} {r : Replacement} (h : r ∈ (remove start stop).edits) :
    r = ⟨⟨start, stop⟩, ""⟩ := by
  simp only [remove, Plan.edits_edit, Command.edit?, Plan.edits_nil, List.append_nil] at h
  split at h
  · simp at h
  · simpa using h

/-- Every edit of a directive's plan lies inside the directive. -/
theorem Site.plan_inside (ordered : s.directive.Ordered) {r : Replacement} (member : r ∈ s.plan.edits) :
    s.directive.span.start ≤ r.span.start ∧ r.span.stop ≤ s.directive.span.stop := by
  have whole : r ∈ (remove s.directive.span.start s.directive.span.stop).edits →
      s.directive.span.start ≤ r.span.start ∧ r.span.stop ≤ s.directive.span.stop := by
    intro removed
    rw [edit_remove removed]
    exact ⟨Nat.le_refl _, Nat.le_refl _⟩
  by_cases slot : s.directive.kind = .slotProp
  · rw [Site.plan, slot, ruleOf, slotProp_edits] at member
    exact whole member
  · rcases ruleOf_handles slot s ordered with ⟨reason, degraded⟩ | careful
    · rw [Site.plan, degraded, degrade_edits] at member
      exact whole member
    · have spares := careful.edits r member
      exact ⟨spares.lower, spares.upper⟩

/-- A directive that is not degraded keeps its expression, slot props apart. -/
theorem Site.plan_spares (ordered : s.directive.Ordered) (other : s.directive.kind ≠ .slotProp)
    (typed : ∀ n ∈ s.plan.notes, n.span ≠ s.directive.span) {r : Replacement} (member : r ∈ s.plan.edits)
    {v : ExpressionValue} (value : v ∈ s.directive.expression?) : r.span.Apart v.span := by
  rcases ruleOf_handles other s ordered with ⟨reason, degraded⟩ | careful
  · refine absurd rfl (typed ⟨s.directive.span, s.directive.kind, reason⟩ ?_)
    rw [Site.plan, degraded]
    simp [Site.degrade]
  · exact (careful.edits r member).value v value

end Rules

end SvelteLens.Directive
