import SvelteLens.Proofs.Directive.Course

/-! Where the rules insert text. A rule appends text inside its directive or directly behind it, and only the rule for
slot props puts text at the ends of the content of the tag. -/
namespace SvelteLens.Directive

open Edit Markup

/-- A plan that only appends text, and only inside a directive or directly behind it. -/
def Trails (d : Markup.Directive) (plan : Plan Degraded) : Prop :=
  ∀ i ∈ insertions plan.commands, i.side = .after ∧ d.span.start < i.offset ∧ i.offset ≤ d.span.stop

namespace Trails

variable {d : Markup.Directive} {plan more : Plan Degraded} {offset : Nat}

theorem nil (d : Markup.Directive) : Trails d [] := nofun

theorem fault (d : Markup.Directive) : Trails d [.fault] := nofun

theorem append (h : Trails d plan) (k : Trails d more) : Trails d (plan ++ more) := by
  intro i member
  rw [Plan.commands_append, insertions, List.filterMap_append] at member
  exact (List.mem_append.mp member).elim (h i) (k i)

theorem overwrite (d : Markup.Directive) (start stop : Nat) (text : String) : Trails d (overwrite start stop text) := nofun

theorem remove (d : Markup.Directive) (start stop : Nat) : Trails d (remove start stop) := nofun

theorem insertAfter (lower : d.span.start < offset) (upper : offset ≤ d.span.stop) (text : String) :
    Trails d (insertAfter offset text) := by
  intro i member
  obtain rfl := List.mem_singleton.mp member
  exact ⟨rfl, lower, upper⟩

end Trails

section Parts

variable {s : Site}

theorem degrade_trails (reason : String) : Trails s.directive (s.degrade reason) := nofun

theorem withHeadEnd_trails {plan : Nat → Plan Degraded} (h : ∀ n, Trails s.directive (plan n)) :
    Trails s.directive (s.withHeadEnd plan) := by
  unfold Site.withHeadEnd
  split
  · exact h _
  · exact .fault _

theorem removeModifiers_trails : Trails s.directive s.removeModifiers := withHeadEnd_trails fun _ => .remove _ _ _

theorem stripClosingQuote_trails (v : ExpressionValue) : Trails s.directive (s.stripClosingQuote v) := by
  unfold Site.stripClosingQuote
  split
  · exact .nil _
  · exact .fault _
  · exact .remove _ _ _

theorem stripOpeningQuote_trails (v : ExpressionValue) : Trails s.directive (s.stripOpeningQuote v) := by
  unfold Site.stripOpeningQuote
  split
  · exact .nil _
  · refine withHeadEnd_trails fun n => ?_
    split
    · exact .remove _ _ _
    · exact .nil _

theorem stripQuotes_trails (v : ExpressionValue) : Trails s.directive (s.stripOpeningQuote v ++ s.stripClosingQuote v) :=
  (stripOpeningQuote_trails v).append (stripClosingQuote_trails v)

theorem insertBehind_trails (ordered : s.directive.Ordered) (text : String) :
    Trails s.directive (insertAfter s.directive.span.stop text) := by
  have inside := Nat.le_trans (nameStart_le_headEnd ordered) ordered.stop
  exact .insertAfter (Nat.lt_of_lt_of_le ordered.name inside) (Nat.le_refl _) text

theorem insertBehindValue_trails (ordered : s.directive.Ordered) {v : ExpressionValue}
    (member : v ∈ s.directive.expression?) (text : String) : Trails s.directive (insertAfter v.span.stop text) := by
  obtain ⟨before, order, ends⟩ := ordered.value v member
  have head := start_le_headEnd ordered
  exact .insertAfter (by omega) (by omega) text

end Parts

/-- A rule that only appends text inside its directive or directly behind it. -/
def Trailing (rule : Rule) : Prop := ∀ s : Site, s.directive.Ordered → Trails s.directive (rule s)

section Rules

theorem invoke_trailing (wrapper extra : String) : Trailing (invoke wrapper extra) := by
  intro s ordered
  simp only [invoke]
  split
  · exact degrade_trails _
  · next v found =>
    have member := mem_expression?.mpr found
    exact (((Trails.overwrite _ _ _ _).append (.overwrite _ _ _ _)).append
      (insertBehindValue_trails ordered member _)).append (stripClosingQuote_trails v)
  · exact ((Trails.overwrite _ _ _ _).append removeModifiers_trails).append (insertBehind_trails ordered _)

theorem Trailing.onElements {rule : Rule} (h : Trailing rule) (reason : String) :
    Trailing fun s => if s.tag.isComponent then s.degrade reason else rule s := by
  intro s ordered
  simp only
  split
  · exact degrade_trails reason
  · exact h s ordered

theorem bindReadOnly_trailing : Trailing bindReadOnly := by
  intro s ordered
  simp only [bindReadOnly]
  split
  · exact (Trails.overwrite _ _ _ _).append (.overwrite _ _ _ _)
  · exact (Trails.overwrite _ _ _ _).append (insertBehind_trails ordered _)

theorem bindProperty_trailing : Trailing bindProperty := by
  intro s ordered
  simp only [bindProperty]
  split
  · next v found => exact (Trails.remove _ _ _).append (stripQuotes_trails v)
  · exact (Trails.remove _ _ _).append (insertBehind_trails ordered _)

theorem binding_trailing : Trailing binding := by
  intro s ordered
  have plain : Trails s.directive
      (if !s.tag.isComponent && readOnlyProperties.contains s.directive.name then bindReadOnly s else bindProperty s) := by
    split
    · exact bindReadOnly_trailing s ordered
    · exact bindProperty_trailing s ordered
  simp only [binding]
  split
  · exact degrade_trails _
  · split
    · exact degrade_trails _
    · exact plain
  · split
    · exact (Trails.overwrite _ _ _ _).append (.overwrite _ _ _ _)
    · exact plain

theorem elementEvent_trailing : Trailing elementEvent := by
  intro s ordered
  have head : Trails s.directive (overwrite s.directive.span.start s.directive.nameSpan.start "on" ++ s.removeModifiers) :=
    (Trails.overwrite _ _ _ _).append removeModifiers_trails
  simp only [elementEvent]
  split
  · next v found => exact head.append (stripQuotes_trails v)
  · exact head.append (insertBehind_trails ordered _)

theorem componentEvent_trailing : Trailing componentEvent := by
  intro s ordered
  simp only [componentEvent]
  split
  · next v found =>
    exact ((Trails.overwrite _ _ _ _).append (insertBehindValue_trails ordered found _)).append (stripClosingQuote_trails v)
  · exact .overwrite _ _ _ _

theorem event_trailing : Trailing event := by
  intro s ordered
  unfold event
  split
  · exact degrade_trails _
  · split
    · exact componentEvent_trailing s ordered
    · exact elementEvent_trailing s ordered

theorem ensureValue_trailing (opening closing : String) : Trailing (ensureValue opening closing) := by
  intro s ordered
  simp only [ensureValue]
  split
  · next v found =>
    exact ((Trails.overwrite _ _ _ _).append (insertBehindValue_trails ordered found _)).append (stripClosingQuote_trails v)
  · split
    · exact degrade_trails _
    · exact ((Trails.overwrite _ _ _ _).append removeModifiers_trails).append (insertBehind_trails ordered _)

theorem classToggle_trailing : Trailing classToggle := by
  refine Trailing.onElements (fun s ordered => ?_) _
  split
  · exact degrade_trails _
  · exact ensureValue_trailing _ _ s ordered

theorem style_trailing : Trailing style := by
  refine Trailing.onElements (fun s ordered => ?_) _
  split
  · exact .remove _ _ _
  · exact ensureValue_trailing _ _ s ordered

theorem ruleOf_trailing {kind : DirectiveKind} (other : kind ≠ .slotProp) : Trailing (ruleOf kind) := by
  cases kind with
  | action => exact (invoke_trailing _ _).onElements _
  | binding => exact binding_trailing
  | eventHandler => exact event_trailing
  | transition => exact (invoke_trailing _ _).onElements _
  | animation => exact (invoke_trailing _ _).onElements _
  | classToggle => exact classToggle_trailing
  | style => exact style_trailing
  | slotProp => exact absurd rfl other

end Rules

inductive Site.Inserts (s : Site) : Insertion → Prop where
  | trailing : s.directive.span.start < offset → offset ≤ s.directive.span.stop → Inserts s ⟨offset, .after, text⟩
  | opening : content ∈ s.tag.content → Inserts s ⟨content.start, .before, text⟩
  | closing : content ∈ s.tag.content → Inserts s ⟨content.stop, .after, text⟩

theorem slotProp_inserts {s : Site} {i : Insertion} (member : i ∈ insertions (slotProp s).commands) : s.Inserts i := by
  rcases slotProp_cases s with ⟨reason, degraded⟩ | ⟨content, opening, closing, found, ends, made⟩
  · rw [degraded] at member
    exact absurd member nofun
  · rw [made] at member
    rcases ends with rfl | rfl
    · rcases List.mem_pair.mp member with rfl | rfl
      · exact .opening found
      · exact .opening found
    · rcases List.mem_pair.mp member with rfl | rfl
      · exact .opening found
      · exact .closing found

theorem Site.plan_inserts {s : Site} (ordered : s.directive.Ordered) {i : Insertion}
    (member : i ∈ insertions s.plan.commands) : s.Inserts i := by
  by_cases slot : s.directive.kind = .slotProp
  · rw [Site.plan, slot] at member
    exact slotProp_inserts member
  · obtain ⟨side, behind, inside⟩ := ruleOf_trailing slot s ordered i member
    cases i with
    | mk offset place text =>
      cases side
      exact .trailing behind inside

end SvelteLens.Directive
