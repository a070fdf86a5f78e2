import SvelteLens.Proofs.Directive.Reach
import SvelteLens.Proofs.Edit.Advancing
import SvelteLens.Proofs.Markup.Boundaries

/-! The course of the rules. On a directive as the scanner returns it, every rule goes through the
directive from left to right and keeps to boundaries. The rule for slot props goes on to the content
of the tag. -/
namespace SvelteLens.Directive

open Edit Markup
open Text (width)

/-- A site whose directive is spelled out in the text, in a text whose offsets are all in range. -/
structure Site.Spelled (s : Site) : Prop where
  ordered : s.directive.Ordered
  sharp : s.directive.Sharp s.source.toList
  small : s.source.utf8ByteSize < offsetBound

/-- The last quote in a stretch of text, with what stands before and behind it. -/
theorem Site.lastQuote?_cut {source : String} {quote : Char} {start stop position : Nat}
    (h : Site.lastQuote? source quote start stop = some position) :
    ∃ before after, source.toList = before ++ quote :: after ∧ width before = position := by
  obtain ⟨between, cut, h⟩ := Option.bind_eq_some_iff.mp h
  obtain ⟨front, rest, whole, offset, _⟩ := Text.slice?_eq_some_iff.mp cut
  simp only at h
  split at h
  · cases h
  · next differs =>
    cases h
    -- backwards, the quote is the first character that is not skipped
    have parts := List.takeWhile_append_dropWhile (p := (· ≠ quote)) (l := between.reverse)
    have lengths := congrArg List.length parts
    rw [List.length_append, List.length_reverse] at lengths
    cases found : between.reverse.dropWhile (· ≠ quote) with
    | nil =>
      rw [found, List.length_nil, Nat.add_zero] at lengths
      exact absurd lengths differs
    | cons q earlier =>
      have same : q = quote := by
        have stops := List.head?_dropWhile_not (· ≠ quote) between.reverse
        rw [found] at stops
        simpa using stops
      subst same
      rw [found] at parts lengths
      rw [List.length_cons] at lengths
      have between' : between = earlier.reverse ++ q :: (between.reverse.takeWhile (· ≠ q)).reverse := by
        have turned := congrArg List.reverse parts
        rw [List.reverse_append, List.reverse_cons, List.reverse_reverse, List.append_assoc, List.singleton_append] at turned
        exact turned.symm
      have count : between.length - (between.reverse.takeWhile (· ≠ q)).length - 1 = earlier.reverse.length := by
        rw [List.length_reverse]
        omega
      have taken : between.take (between.length - (between.reverse.takeWhile (· ≠ q)).length - 1) = earlier.reverse := by
        rw [count]
        conv => lhs; rw [between']
        exact List.take_left
      refine ⟨front ++ earlier.reverse, (between.reverse.takeWhile (· ≠ q)).reverse ++ rest, ?_, ?_⟩
      · rw [whole]
        conv => lhs; rw [between']
        simp
      · rw [taken, Text.width_append, offset]

variable {s : Site} {v : ExpressionValue} {text : String} {reason : String}

theorem overwrite_advances {source : List Char} {start stop : Nat} (lower : Text.isBoundary source start = true)
    (upper : Text.isBoundary source stop = true) (order : start < stop) (text : String) :
    Plan.Advances source start (overwrite start stop text) stop :=
  .command (c := .overwrite ⟨start, stop⟩ text) (.overwrite lower upper order text)

theorem remove_advances {source : List Char} {start stop : Nat} (lower : Text.isBoundary source start = true)
    (upper : Text.isBoundary source stop = true) (order : start ≤ stop) :
    Plan.Advances source start (remove start stop) stop :=
  .command (c := .remove ⟨start, stop⟩) (.remove lower upper order)

theorem insertAfter_advances {source : List Char} {offset : Nat} (boundary : Text.isBoundary source offset = true)
    (text : String) : Plan.Advances source offset (insertAfter offset text) offset :=
  .command (.insertAfter boundary text)

namespace Site.Spelled

variable (h : s.Spelled)
include h

theorem filled : s.directive.span.start < s.directive.span.stop :=
  Nat.lt_of_lt_of_le h.ordered.name (Nat.le_trans (nameStart_le_headEnd h.ordered) h.ordered.stop)

theorem degrade_advances (reason : String) :
    Plan.Advances s.source.toList s.directive.span.start (s.degrade reason) s.directive.span.stop :=
  (remove_advances h.sharp.start h.sharp.stop (Nat.le_of_lt h.filled)).append (Nat.le_refl _)
    ((Plan.Advances.nil (Nat.le_refl _)).note _)

/-- The head of a directive ends within the text, so its end is an offset. -/
theorem headEnd_lt : s.directive.headEnd < offsetBound := by
  have inside := Text.le_width_of_isBoundary h.sharp.headEnd
  rw [Text.width_toList] at inside
  exact Nat.lt_of_le_of_lt inside h.small

theorem withHeadEnd_eq (plan : Nat → Plan Degraded) : s.withHeadEnd plan = plan s.directive.headEnd :=
  if_pos h.headEnd_lt

theorem removeModifiers_advances :
    Plan.Advances s.source.toList s.directive.nameSpan.stop s.removeModifiers s.directive.headEnd := by
  rw [Site.removeModifiers, h.withHeadEnd_eq]
  exact remove_advances h.sharp.nameStop h.sharp.headEnd h.ordered.modifiers

theorem stripClosingQuote_advances (member : v ∈ s.directive.expression?) :
    Plan.Advances s.source.toList v.span.stop (s.stripClosingQuote v) s.directive.span.stop := by
  obtain ⟨_, _, ends⟩ := h.ordered.value v member
  have brace := h.sharp.brace v member
  have stop := h.sharp.stop
  unfold Site.stripClosingQuote
  split
  · exact .nil (by omega)
  · next none => omega
  · next quote last quoted same =>
    rw [quoted, Option.toList_some, List.length_singleton, same] at ends
    obtain rfl : last = v.span.stop + 1 := by omega
    rw [same] at stop ⊢
    exact (remove_advances brace stop (Nat.le_succ _)).wider (Nat.le_succ _) (Nat.le_refl _)

theorem stripOpeningQuote_advances (member : v ∈ s.directive.expression?) :
    Plan.Advances s.source.toList s.directive.headEnd (s.stripOpeningQuote v) v.span.start := by
  have before := Nat.le_of_lt (h.ordered.value v member).1
  unfold Site.stripOpeningQuote
  split
  · exact .nil before
  · next quote quoted =>
    rw [h.withHeadEnd_eq]
    split
    · next position found =>
      obtain ⟨front, rest, whole, offset⟩ := Site.lastQuote?_cut found
      obtain ⟨lower, upper⟩ := lastQuote?_between found
      have single : quote.utf8Size = 1 := by
        rcases h.sharp.quote v member quote quoted with rfl | rfl <;> decide
      have start : Text.isBoundary s.source.toList position = true :=
        Text.isBoundary_iff.mpr ⟨front, quote :: rest, whole, offset⟩
      have stop : Text.isBoundary s.source.toList (position + 1) = true :=
        Text.isBoundary_iff.mpr ⟨front ++ [quote], rest, by rw [whole, List.append_assoc]; rfl, by
          rw [Text.width_append, offset, Text.width_cons, single]; rfl⟩
      exact (remove_advances start stop (Nat.le_succ _)).wider lower upper
    · exact .nil before

theorem stripQuotes_advances (member : v ∈ s.directive.expression?) :
    Plan.Advances s.source.toList s.directive.headEnd (s.stripOpeningQuote v ++ s.stripClosingQuote v)
      s.directive.span.stop :=
  (h.stripOpeningQuote_advances member).append (h.ordered.value v member).2.1 (h.stripClosingQuote_advances member)

theorem overwriteHead_advances (text : String) :
    Plan.Advances s.source.toList s.directive.span.start
      (overwrite s.directive.span.start s.directive.nameSpan.start text) s.directive.nameSpan.start :=
  overwrite_advances h.sharp.start h.sharp.nameStart h.ordered.name text

theorem start_lt_value (member : v ∈ s.directive.expression?) : s.directive.span.start < v.span.start :=
  Nat.lt_of_le_of_lt (start_le_headEnd h.ordered) (h.ordered.value v member).1

theorem overwriteToValue_advances (member : v ∈ s.directive.expression?) (text : String) :
    Plan.Advances s.source.toList s.directive.span.start (overwrite s.directive.span.start v.span.start text)
      v.span.start :=
  overwrite_advances h.sharp.start (h.sharp.valueStart v member) (h.start_lt_value member) text

theorem insertBehindValue_advances (member : v ∈ s.directive.expression?) (text : String) :
    Plan.Advances s.source.toList v.span.stop (insertAfter v.span.stop text) v.span.stop :=
  insertAfter_advances (h.sharp.valueStop v member) text

theorem overwriteFromValue_advances (member : v ∈ s.directive.expression?) (text : String) :
    Plan.Advances s.source.toList v.span.stop (overwrite v.span.stop s.directive.span.stop text) s.directive.span.stop := by
  obtain ⟨_, _, ends⟩ := h.ordered.value v member
  exact overwrite_advances (h.sharp.valueStop v member) h.sharp.stop (by omega) text

theorem insertBehind_advances (text : String) :
    Plan.Advances s.source.toList s.directive.span.stop (insertAfter s.directive.span.stop text) s.directive.span.stop :=
  insertAfter_advances h.sharp.stop text

end Site.Spelled

/-- A rule that goes through its directive from left to right. -/
def Courses (rule : Rule) : Prop :=
  ∀ s : Site, s.Spelled → Plan.Advances s.source.toList s.directive.span.start (rule s) s.directive.span.stop

theorem invoke_courses (wrapper extra : String) : Courses (invoke wrapper extra) := by
  intro s h
  simp only [invoke]
  split
  · exact h.degrade_advances _
  · next v found =>
    have member := mem_expression?.mpr found
    have value := h.ordered.value v member
    have modifiers := h.ordered.modifiers
    have between := overwrite_advances h.sharp.nameStop (h.sharp.valueStart v member)
      (Nat.lt_of_le_of_lt modifiers value.1) ("(" ++ elementToken s.tag.name ++ "," ++
        (if extra.isEmpty then "" else extra ++ ",") ++ "(")
    exact (((h.overwriteHead_advances _).append h.ordered.head between).append value.2.1
      (h.insertBehindValue_advances member _)).append (Nat.le_refl _) (h.stripClosingQuote_advances member)
  · exact ((h.overwriteHead_advances _).append h.ordered.head h.removeModifiers_advances).append h.ordered.stop
      (h.insertBehind_advances _)

theorem Courses.onElements {rule : Rule} (h : Courses rule) (reason : String) :
    Courses fun s => if s.tag.isComponent then s.degrade reason else rule s := by
  intro s spelled
  simp only
  split
  · exact spelled.degrade_advances reason
  · exact h s spelled

theorem action_courses : Courses action := (invoke_courses _ _).onElements _

theorem transition_courses : Courses transition := (invoke_courses _ _).onElements _

theorem animation_courses : Courses animation := (invoke_courses _ _).onElements _

theorem bindThis_advances (h : s.Spelled) (member : v ∈ s.directive.expression?) :
    Plan.Advances s.source.toList s.directive.span.start (bindThis s v) s.directive.span.stop :=
  (h.overwriteToValue_advances member _).append (h.ordered.value v member).2.1 (h.overwriteFromValue_advances member _)

theorem bindReadOnly_courses : Courses bindReadOnly := by
  intro s h
  simp only [bindReadOnly]
  split
  · next v found =>
    exact (h.overwriteToValue_advances found _).append (h.ordered.value v found).2.1
      (h.overwriteFromValue_advances found _)
  · exact (h.overwriteHead_advances _).append (Nat.le_trans (nameStart_le_headEnd h.ordered) h.ordered.stop)
      (h.insertBehind_advances _)

theorem bindProperty_courses : Courses bindProperty := by
  intro s h
  have head := remove_advances h.sharp.start h.sharp.nameStart (Nat.le_of_lt h.ordered.name)
  simp only [bindProperty]
  split
  · next v found => exact head.append (nameStart_le_headEnd h.ordered) (h.stripQuotes_advances found)
  · exact head.append (Nat.le_trans (nameStart_le_headEnd h.ordered) h.ordered.stop) (h.insertBehind_advances _)

theorem binding_courses : Courses binding := by
  intro s h
  have plain : Plan.Advances s.source.toList s.directive.span.start
      (if !s.tag.isComponent && readOnlyProperties.contains s.directive.name then bindReadOnly s else bindProperty s)
      s.directive.span.stop := by
    split
    · exact bindReadOnly_courses s h
    · exact bindProperty_courses s h
  simp only [binding]
  split
  · exact h.degrade_advances _
  · split
    · exact h.degrade_advances _
    · exact plain
  · next v found =>
    split
    · exact bindThis_advances h (mem_expression?.mpr found)
    · exact plain

theorem elementEvent_courses : Courses elementEvent := by
  intro s h
  have head := (h.overwriteHead_advances "on").append h.ordered.head h.removeModifiers_advances
  simp only [elementEvent]
  split
  · next v found => exact head.append (Nat.le_refl _) (h.stripQuotes_advances found)
  · exact head.append h.ordered.stop (h.insertBehind_advances _)

theorem componentEvent_courses : Courses componentEvent := by
  intro s h
  simp only [componentEvent]
  split
  · next v found =>
    exact ((h.overwriteToValue_advances found _).append (h.ordered.value v found).2.1
      (h.insertBehindValue_advances found _)).append (Nat.le_refl _) (h.stripClosingQuote_advances found)
  · exact overwrite_advances h.sharp.start h.sharp.stop h.filled _

theorem event_courses : Courses event := by
  intro s h
  unfold event
  split
  · exact h.degrade_advances _
  · split
    · exact componentEvent_courses s h
    · exact elementEvent_courses s h

theorem ensureValue_courses (opening closing : String) : Courses (ensureValue opening closing) := by
  intro s h
  simp only [ensureValue]
  split
  · next v found =>
    exact ((h.overwriteToValue_advances found _).append (h.ordered.value v found).2.1
      (h.insertBehindValue_advances found _)).append (Nat.le_refl _) (h.stripClosingQuote_advances found)
  · split
    · exact h.degrade_advances _
    · exact ((h.overwriteHead_advances _).append h.ordered.head h.removeModifiers_advances).append h.ordered.stop
        (h.insertBehind_advances _)

theorem classToggle_courses : Courses classToggle := by
  refine Courses.onElements (fun s h => ?_) _
  split
  · exact h.degrade_advances _
  · exact ensureValue_courses _ _ s h

theorem style_courses : Courses style := by
  refine Courses.onElements (fun s h => ?_) _
  split
  · exact remove_advances h.sharp.start h.sharp.stop (Nat.le_of_lt h.filled)
  · exact ensureValue_courses _ _ s h

theorem ruleOf_courses {kind : DirectiveKind} (other : kind ≠ .slotProp) : Courses (ruleOf kind) := by
  cases kind with
  | action => exact action_courses
  | binding => exact binding_courses
  | eventHandler => exact event_courses
  | transition => exact transition_courses
  | animation => exact animation_courses
  | classToggle => exact classToggle_courses
  | style => exact style_courses
  | slotProp => exact absurd rfl other

/-- A slot prop is degraded, or it is removed and a scope is opened and closed at the ends of the
content of its tag. -/
theorem slotProp_cases (s : Site) : (∃ reason, slotProp s = s.degrade reason) ∨
    ∃ content opening closing, s.tag.content = some content ∧
      (closing = .insertBefore content.start scopeClosing ∨ closing = .insertAfter content.stop scopeClosing) ∧
      slotProp s = [.edit (.remove s.directive.span), .edit (.insertBefore content.start opening), .edit closing] := by
  simp only [slotProp]
  split
  · exact .inl ⟨_, rfl⟩
  · exact .inl ⟨_, rfl⟩
  · exact .inl ⟨_, rfl⟩
  · next content component slot pattern found _ _ =>
    refine .inr ⟨content, scopeOpening s.directive.name pattern component slot, ?_⟩
    split
    · exact ⟨_, found, .inl rfl, rfl⟩
    · exact ⟨_, found, .inr rfl, rfl⟩

/-- The ends of the content of a tag are boundaries outside a directive. -/
structure Seams (text : List Char) (d : Markup.Directive) (content : Span) : Prop where
  start : Text.isBoundary text content.start = true
  stop : Text.isBoundary text content.stop = true
  before : d.span.Apart (Span.empty content.start)
  behind : d.span.Apart (Span.empty content.stop)

/-- What a site's plan is about: ranges of its directive and the ends of the content of its tag. -/
def Site.Touches (s : Site) (span : Span) : Prop :=
  s.directive.span.covers span = true ∨
    ∃ content ∈ s.tag.content, span = Span.empty content.start ∨ span = Span.empty content.stop

theorem slotProp_sound {s : Site} (h : s.Spelled)
    (seams : ∀ content ∈ s.tag.content, Seams s.source.toList s.directive content) :
    Plan.Sound s.source.toList (slotProp s) ∧ ∀ c ∈ (slotProp s).commands, s.Touches c.reach := by
  rcases slotProp_cases s with ⟨reason, degraded⟩ | ⟨content, opening, closing, found, ends, made⟩
  · rw [degraded]
    have course := h.degrade_advances reason
    exact ⟨course.sound, fun c member => .inl (course.covered (Nat.le_refl _) (Nat.le_refl _) member)⟩
  · have seam := seams content found
    have reach : closing.reach = Span.empty content.start ∨ closing.reach = Span.empty content.stop := by
      rcases ends with rfl | rfl
      · exact .inl rfl
      · exact .inr rfl
    have valid : closing.Valid s.source.toList := by
      rcases ends with rfl | rfl
      · exact .insertBefore seam.start _
      · exact .insertAfter seam.stop _
    have apart : s.directive.span.Apart closing.reach := by
      rcases reach with same | same <;> rw [same]
      · exact seam.before
      · exact seam.behind
    have last : (Span.empty content.start).Apart closing.reach := by
      rcases reach with same | same <;> rw [same] <;> exact Span.apart_empty _ _
    rw [made]
    refine ⟨⟨by simp, ?_, ?_⟩, ?_⟩
    · simp only [Plan.commands_edit, Plan.commands_nil, List.mem_cons, List.not_mem_nil, or_false]
      rintro c (rfl | rfl | rfl)
      · exact .remove h.sharp.start h.sharp.stop (Nat.le_of_lt h.filled)
      · exact .insertBefore seam.start _
      · exact valid
    · simp only [Plan.commands_edit, Plan.commands_nil, List.pairwise_cons, List.mem_cons, List.not_mem_nil, or_false]
      refine ⟨?_, ?_, nofun, .nil⟩
      · rintro d (rfl | rfl)
        · exact seam.before
        · exact apart
      · rintro d rfl
        exact last
    · simp only [Plan.commands_edit, Plan.commands_nil, List.mem_cons, List.not_mem_nil, or_false]
      rintro c (rfl | rfl | rfl)
      · exact .inl (Span.covers_iff.mpr ⟨Nat.le_refl _, Nat.le_refl _⟩)
      · exact .inr ⟨content, found, .inl rfl⟩
      · exact .inr ⟨content, found, reach⟩

/-- Every plan of a scanned directive can be made as a whole. -/
theorem Site.Spelled.plan_sound {s : Site} (h : s.Spelled)
    (seams : ∀ content ∈ s.tag.content, Seams s.source.toList s.directive content) :
    Plan.Sound s.source.toList s.plan ∧ ∀ c ∈ s.plan.commands, s.Touches c.reach := by
  by_cases slot : s.directive.kind = .slotProp
  · rw [Site.plan, slot]
    exact slotProp_sound h seams
  · have course := ruleOf_courses slot s h
    exact ⟨course.sound, fun c member => .inl (course.covered (Nat.le_refl _) (Nat.le_refl _) member)⟩

end SvelteLens.Directive
