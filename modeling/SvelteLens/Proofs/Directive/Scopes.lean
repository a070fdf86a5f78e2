import SvelteLens.Proofs.Directive.Insertions

/-! The scopes that slot props open. A slot prop that is not degraded opens one scope around the content of its tag
and closes it; all else that the rules do stays inside the directive. -/
namespace SvelteLens.Directive

open Edit Markup

/-- The scope of a slot prop: the content that it encloses, the pattern that is bound there, and the component and
the slot that the value comes from. -/
structure Scope where
  directive : Markup.Directive
  content : Span
  pattern : String
  component : String
  slot : String
  deriving DecidableEq, Repr

namespace Scope

def opening (scope : Scope) : String :=
  scopeOpening scope.directive.name scope.pattern scope.component scope.slot

/-- Around empty content both ends go in front of the next byte, one after the other. -/
def commands (scope : Scope) : List Command :=
  [.insertBefore scope.content.start scope.opening,
    if scope.content.isEmpty then .insertBefore scope.content.start scopeClosing
    else .insertAfter scope.content.stop scopeClosing]

end Scope

def Site.scope? (s : Site) : Option Scope :=
  if s.directive.kind = .slotProp then
    s.tag.content.bind fun content => s.slot?.bind fun filled => s.pattern?.map fun pattern =>
      ⟨s.directive, content, pattern, filled.1, filled.2⟩
  else none

/-- The commands of a site apart from those for its scope. -/
def Site.rewriting (s : Site) : List Command :=
  if s.directive.kind = .slotProp then [.remove s.directive.span] else s.plan.commands

variable {s : Site} {scope : Scope} {i : Insertion}

/-- A slot prop is degraded, or it is removed and its scope is put around the content. -/
theorem slotProp_scope (slot : s.directive.kind = .slotProp) :
    s.scope? = none ∧ (∃ reason, s.plan = s.degrade reason) ∨
      ∃ scope, s.scope? = some scope ∧ s.plan = .edit (.remove s.directive.span) :: scope.commands.map .edit := by
  rw [Site.plan, slot, Site.scope?, if_pos slot]
  simp only [ruleOf, slotProp]
  split
  · next none => exact .inl ⟨by rw [none]; rfl, _, rfl⟩
  · next found none => exact .inl ⟨by rw [found, none]; rfl, _, rfl⟩
  · next found filled none => exact .inl ⟨by rw [found, filled, none]; rfl, _, rfl⟩
  · next content component slot pattern found filled bound =>
    refine .inr ⟨⟨s.directive, content, pattern, component, slot⟩, by rw [found, filled, bound]; rfl, ?_⟩
    simp only [Scope.commands]
    split <;> rfl

theorem Site.plan_commands (s : Site) : s.plan.commands = s.rewriting ++ s.scope?.toList.flatMap Scope.commands := by
  by_cases slot : s.directive.kind = .slotProp
  · rw [Site.rewriting, if_pos slot]
    rcases slotProp_scope slot with ⟨none, reason, degraded⟩ | ⟨scope, found, made⟩
    · rw [degraded, none]
      rfl
    · rw [made, found]
      simp [Plan.commands, List.filterMap_map]
  · rw [Site.rewriting, Site.scope?, if_neg slot, if_neg slot]
    exact (List.append_nil _).symm

theorem Site.rewriting_inserts (ordered : s.directive.Ordered) (member : i ∈ insertions s.rewriting) :
    s.directive.span.start < i.offset ∧ i.offset ≤ s.directive.span.stop := by
  unfold Site.rewriting at member
  split at member
  · cases member
  · next slot => exact (ruleOf_trailing slot s ordered i member).2

theorem Site.note_span (ordered : s.directive.Ordered) {note : Degraded} (member : note ∈ s.plan.notes) :
    note.span = s.directive.span := by
  have degraded {reason : String} (member : note ∈ (s.degrade reason).notes) : note.span = s.directive.span := by
    obtain rfl := List.mem_singleton.mp member
    rfl
  by_cases slot : s.directive.kind = .slotProp
  · rcases slotProp_scope slot with ⟨_, reason, same⟩ | ⟨scope, _, made⟩
    · rw [same] at member
      exact degraded member
    · rw [made] at member
      simp [Plan.notes, List.filterMap_map] at member
  · rcases ruleOf_handles slot s ordered with ⟨reason, same⟩ | careful
    · rw [Site.plan, same] at member
      exact degraded member
    · rw [Site.plan, careful.notes] at member
      cases member

theorem Site.scope?_none_iff (slot : s.directive.kind = .slotProp) : s.scope? = none ↔ s.plan.notes ≠ [] := by
  rcases slotProp_scope slot with ⟨none, reason, degraded⟩ | ⟨scope, found, made⟩
  · rw [none, degraded]
    simp [Site.degrade]
  · rw [found, made]
    simp [Plan.notes, List.filterMap_map]

/-- What a scope is about. The value comes from the component itself, or from the one around an element. -/
structure Scope.Names (s : Site) (scope : Scope) : Prop where
  directive : scope.directive = s.directive
  content : s.tag.content = some scope.content
  pattern : s.pattern? = some scope.pattern
  component : s.tag.isComponent = true → scope.component = s.tag.name ∧ scope.slot = "default"
  element : s.tag.isComponent = false → ∃ parent ∈ s.enclosing, scope.component = parent.name ∧
    scope.slot = (s.tag.textAttribute? "slot").getD "default"

theorem Site.scope?_names (found : s.scope? = some scope) : scope.Names s := by
  unfold Site.scope? at found
  split at found
  · obtain ⟨content, inside, found⟩ := Option.bind_eq_some_iff.mp found
    obtain ⟨filled, slot, found⟩ := Option.bind_eq_some_iff.mp found
    obtain ⟨pattern, bound, rfl⟩ := Option.map_eq_some_iff.mp found
    unfold Site.slot? at slot
    refine ⟨rfl, inside, bound, fun component => ?_, fun element => ?_⟩
    · rw [if_pos component] at slot
      cases slot
      exact ⟨rfl, rfl⟩
    · rw [if_neg (Bool.eq_false_iff.mp element)] at slot
      obtain ⟨parent, around, rfl⟩ := Option.map_eq_some_iff.mp slot
      exact ⟨parent, around, rfl, rfl⟩
  · cases found

end SvelteLens.Directive
