import SvelteLens.Directive.Rules
import SvelteLens.Proofs.Edit.Plans
import SvelteLens.Proofs.Text.Words

/-! The helpers that directives name. The text that is put in comes from fixed texts and from names of the
component. The fixed texts name known helpers, and a name of the component stands between characters that no
helper's name has, so it cannot become part of one. -/
namespace SvelteLens.Directive

open Edit Markup

/-- What the names of all helpers begin with: `__sveltets_1_`. -/
def helperMark : List Char := ['_', '_', 's', 'v', 'e', 'l', 't', 'e', 't', 's', '_', '1', '_']

def helperNames (text : String) : List (List Char) := Text.markedWords helperMark text.toList

def Mentions (text : String) : Prop := helperMark <:+: text.toList

/-- The constant of the footer, and the helpers that are declared outside. -/
def usedHelpers : List String :=
  ["__sveltets_1_render", "__sveltets_1_createSvelte2TsxComponent", "__sveltets_1_ensureAction",
    "__sveltets_1_ensureTransition", "__sveltets_1_ensureAnimation", "__sveltets_1_AnimationMove",
    "__sveltets_1_ensureType", "__sveltets_1_empty", "__sveltets_1_instanceOf", "__sveltets_1_onComponentEvent",
    "__sveltets_1_bubbleComponentEvent", "__sveltets_1_slotProps", "__sveltets_1_mapElementTag",
    "__sveltets_1_mapWindowTag", "__sveltets_1_mapDocumentTag", "__sveltets_1_invalidate"]

/-- Texts with their characters. Evaluation is quick on characters and slow on texts. -/
inductive Spelled : List String → List (List Char) → Prop where
  | nil : Spelled [] []
  | cons {chars : List Char} : Spelled texts all → Spelled (String.ofList chars :: texts) (chars :: all)

def usedNames : { names : List (List Char) // Spelled usedHelpers names } := by
  apply Subtype.mk
  repeat (first | exact .nil | apply Spelled.cons)

/-- A text that names no other helpers. -/
def Sound (text : String) : Prop := ∀ name ∈ helperNames text, name ∈ usedNames.val

structure Fenced (text : String) : Prop where
  sound : Sound text
  starts : Text.startsApart text.toList = true
  ends : Text.endsApart text.toList = true

theorem helperMark_filled : helperMark ≠ [] := nofun

theorem helperMark_whole : ∀ c ∈ helperMark, Text.isWordPart c = true := List.all_eq_true.mp rfl

variable {a b u : String} {chars : List Char}

theorem Sound.fixed (spelled : u = String.ofList chars)
    (check : (Text.markedWords helperMark chars).all (usedNames.val.contains ·) = true) : Sound u := by
  rw [Sound, helperNames, spelled, String.toList_ofList]
  simpa using check

theorem Fenced.fixed (spelled : u = String.ofList chars)
    (check : (Text.markedWords helperMark chars).all (usedNames.val.contains ·) &&
      Text.startsApart chars && Text.endsApart chars) : Fenced u := by
  obtain ⟨⟨sound, starts⟩, ends⟩ : (_ ∧ _) ∧ _ := by simpa only [Bool.and_eq_true] using check
  refine ⟨.fixed spelled sound, ?_, ?_⟩
  · rwa [spelled, String.toList_ofList]
  · rwa [spelled, String.toList_ofList]

theorem helperNames_plain : helperNames u = [] ↔ ¬Mentions u := Text.markedWords_eq_nil helperMark_filled

theorem endsApart_fixed (spelled : u = String.ofList chars) (check : Text.endsApart chars = true) :
    Text.endsApart u.toList = true := by
  rwa [spelled, String.toList_ofList]

theorem not_mentions_fixed (spelled : u = String.ofList chars) (check : Text.markedWords helperMark chars = []) :
    ¬Mentions u := by
  rw [← helperNames_plain, helperNames, spelled, String.toList_ofList]
  exact check

theorem helperNames_append (edge : Text.endsApart a.toList = true ∨ Text.startsApart b.toList = true) :
    helperNames (a ++ b) = helperNames a ++ helperNames b := by
  rw [helperNames, String.toList_append, Text.markedWords_append helperMark_filled helperMark_whole edge]
  rfl

theorem Sound.append (first : Sound a) (second : Sound b)
    (edge : Text.endsApart a.toList = true ∨ Text.startsApart b.toList = true) : Sound (a ++ b) := by
  rw [Sound, helperNames_append edge]
  exact List.forall_mem_append.mpr ⟨first, second⟩

theorem Sound.of_plain (plain : ¬Mentions u) : Sound u := by
  rw [Sound, helperNames_plain.mpr plain]
  nofun

theorem Fenced.append (first : Fenced a) (second : Fenced b) : Fenced (a ++ b) where
  sound := first.sound.append second.sound (.inl first.ends)
  starts := by
    rw [String.toList_append]
    exact Text.startsApart_append first.starts _
  ends := by
    rw [String.toList_append]
    exact Text.endsApart_append _ second.ends

theorem Fenced.around (before : Fenced a) (inner : Sound u) (behind : Fenced b) : Fenced (a ++ (u ++ b)) where
  sound := before.sound.append (inner.append behind.sound (.inr behind.starts)) (.inl before.ends)
  starts := by
    rw [String.toList_append]
    exact Text.startsApart_append before.starts _
  ends := by
    rw [String.toList_append, String.toList_append]
    exact Text.endsApart_append _ (Text.endsApart_append _ behind.ends)

/-- What commands may put in. Inserted texts are joined to others, so they are fenced. -/
def Tame : Command → Prop
  | .overwrite _ text => Sound text
  | .remove _ => True
  | .insertBefore _ text | .insertAfter _ text => Fenced text

section Plans

variable {s : Site} {plan : Plan Degraded} {text : String}

theorem overwrite_tame (start stop : Nat) (sound : Sound text) : (overwrite start stop text).Each Tame := by
  simpa [overwrite, Tame] using sound

theorem remove_tame (start stop : Nat) : (remove start stop).Each Tame := by simp [remove, Tame]

theorem insertBefore_tame (offset : Nat) (fenced : Fenced text) : (insertBefore offset text).Each Tame := by
  simpa [insertBefore, Tame] using fenced

theorem insertAfter_tame (offset : Nat) (fenced : Fenced text) : (insertAfter offset text).Each Tame := by
  simpa [insertAfter, Tame] using fenced

theorem degrade_tame (reason : String) : (s.degrade reason).Each Tame := by
  rw [Site.degrade, Plan.each_append]
  exact ⟨remove_tame _ _, by simp⟩

theorem withHeadEnd_tame {plan : Nat → Plan Degraded} (tame : ∀ n, (plan n).Each Tame) :
    (s.withHeadEnd plan).Each Tame := by
  unfold Site.withHeadEnd
  split
  · exact tame _
  · simp

theorem removeModifiers_tame : s.removeModifiers.Each Tame := withHeadEnd_tame fun _ => remove_tame _ _

theorem stripClosingQuote_tame (v : ExpressionValue) : (s.stripClosingQuote v).Each Tame := by
  unfold Site.stripClosingQuote
  split
  · simp
  · simp
  · exact remove_tame _ _

theorem stripOpeningQuote_tame (v : ExpressionValue) : (s.stripOpeningQuote v).Each Tame := by
  unfold Site.stripOpeningQuote
  split
  · simp
  · refine withHeadEnd_tame fun _ => ?_
    split
    · exact remove_tame _ _
    · simp

theorem stripQuotes_tame (v : ExpressionValue) : (s.stripOpeningQuote v ++ s.stripClosingQuote v).Each Tame :=
  Plan.each_append.mpr ⟨stripOpeningQuote_tame v, stripClosingQuote_tame v⟩

end Plans

section Texts

variable {tag name : String}

theorem elementToken_sound (plain : ¬Mentions tag) : Sound (elementToken tag) := by
  unfold elementToken
  split
  · exact .fixed rfl rfl
  · exact .fixed rfl rfl
  · exact .fixed rfl rfl
  · have closing : Fenced "')" := .fixed rfl rfl
    have opening : Sound "__sveltets_1_mapElementTag('" := .fixed rfl rfl
    rw [String.append_assoc]
    refine opening.append ((Sound.of_plain plain).append closing.sound (.inr closing.starts)) (.inl ?_)
    exact endsApart_fixed rfl rfl

theorem elementClass_plain (tag : String) : ¬Mentions (elementClass tag) := by
  unfold elementClass
  split <;> exact not_mentions_fixed rfl rfl

theorem readOnlyProperties_plain (member : name ∈ readOnlyProperties) : ¬Mentions name := by
  simp only [readOnlyProperties, List.mem_cons, List.not_mem_nil, or_false] at member
  rcases member with rfl | rfl | rfl | rfl | rfl | rfl | rfl | rfl | rfl | rfl | rfl | rfl | rfl <;>
    exact not_mentions_fixed rfl rfl

end Texts

/-- The strings of the component that a directive puts in. -/
def Site.interpolated (s : Site) : List String :=
  let d := s.directive
  match d.value, d.kind with
  | .text _, _ | _, .classToggle | _, .style => []
  | _, .action | _, .transition | _, .animation => if s.tag.isComponent then [] else [s.tag.name]
  | .shorthand, .binding => if isPlainIdentifier d.name then [d.name] else []
  | .expression _, .binding => if d.name = "this" ∧ s.tag.isComponent then [s.tag.name] else []
  | _, .eventHandler => if s.tag.isComponent then [s.tag.name, d.name] else []
  | _, .slotProp =>
    match s.tag.content, s.slot?, s.pattern? with
    | some _, some (component, slot), some pattern => [d.name, pattern, component, slot]
    | _, _, _ => []

section Rules

variable {s : Site}

theorem extra_fenced {extra : String} (sound : Sound extra) :
    Fenced ("," ++ ((if extra.isEmpty then "" else extra ++ ",") ++ "(")) ∧
      Fenced ((if extra.isEmpty then "" else "," ++ extra) ++ "))\x7d") := by
  have comma : Fenced "," := .fixed rfl rfl
  have opening : Fenced "(" := .fixed rfl rfl
  have closing : Fenced "))\x7d" := .fixed rfl rfl
  split
  · rw [String.empty_append, String.empty_append]
    exact ⟨comma.append opening, closing⟩
  · rw [String.append_assoc, String.append_assoc]
    exact ⟨comma.around sound (comma.append opening), comma.around sound closing⟩

theorem invoke_tame {wrapper extra : String} (named : Sound wrapper) (passed : Sound extra)
    (plain : (∀ t, s.directive.value ≠ .text t) → ¬Mentions s.tag.name) : (invoke wrapper extra s).Each Tame := by
  have spread : Fenced "\x7b..." := .fixed rfl rfl
  have opening : Fenced "(" := .fixed rfl rfl
  obtain ⟨more, last⟩ := extra_fenced passed
  have head : (overwrite s.directive.span.start s.directive.nameSpan.start ("\x7b..." ++ wrapper ++ "(")).Each Tame := by
    rw [String.append_assoc]
    exact overwrite_tame _ _ (spread.around named opening).sound
  simp only [invoke]
  split
  · exact degrade_tame _
  · next value found =>
    have token := elementToken_sound (plain fun t text => by rw [found] at text; cases text)
    simp only [String.append_assoc]
    refine Plan.each_append.mpr ⟨Plan.each_append.mpr ⟨Plan.each_append.mpr ⟨?_, ?_⟩, ?_⟩, stripClosingQuote_tame value⟩
    · exact String.append_assoc .. ▸ head
    · exact overwrite_tame _ _ (opening.around token more).sound
    · exact insertAfter_tame _ (.fixed rfl rfl)
  · next found =>
    have token := elementToken_sound (plain fun t text => by rw [found] at text; cases text)
    refine Plan.each_append.mpr ⟨Plan.each_append.mpr ⟨head, removeModifiers_tame⟩, ?_⟩
    rw [String.append_assoc, String.append_assoc]
    exact insertAfter_tame _ (opening.around token last)

theorem onElements_tame {plan : Plan Degraded} {reason : String} (tame : s.tag.isComponent = false → plan.Each Tame) :
    (if s.tag.isComponent then s.degrade reason else plan).Each Tame := by
  split
  · exact degrade_tame reason
  · next element => exact tame (by simpa using element)

theorem className_plain (plain : s.tag.isComponent = true → ¬Mentions s.tag.name) : ¬Mentions s.className := by
  unfold Site.className
  split
  · next component => exact plain component
  · exact elementClass_plain _

theorem bindThis_tame (value : ExpressionValue) (plain : s.tag.isComponent = true → ¬Mentions s.tag.name) :
    (bindThis s value).Each Tame := by
  have opening : Fenced "\x7b...__sveltets_1_ensureType(" := .fixed rfl rfl
  have comma : Fenced ", " := .fixed rfl rfl
  rw [bindThis, String.append_assoc]
  exact Plan.each_append.mpr
    ⟨overwrite_tame _ _ (opening.around (.of_plain (className_plain plain)) comma).sound,
      overwrite_tame _ _ (.fixed rfl rfl)⟩

theorem bindReadOnly_tame (listed : s.directive.name ∈ readOnlyProperties) : (bindReadOnly s).Each Tame := by
  have head : Fenced "\x7b...__sveltets_1_empty(" := .fixed rfl rfl
  have opening : Fenced "=__sveltets_1_instanceOf(" := .fixed rfl rfl
  have dot : Fenced ")." := .fixed rfl rfl
  have closing : Fenced ")\x7d" := .fixed rfl rfl
  have read : Fenced ("=__sveltets_1_instanceOf(" ++ elementClass s.tag.name ++ ")." ++ s.directive.name ++ ")\x7d") := by
    simp only [String.append_assoc]
    have property := dot.around (.of_plain (readOnlyProperties_plain listed)) closing
    exact opening.around (.of_plain (elementClass_plain _)) property
  simp only [bindReadOnly]
  split
  · exact Plan.each_append.mpr ⟨overwrite_tame _ _ head.sound, overwrite_tame _ _ read.sound⟩
  · exact Plan.each_append.mpr ⟨overwrite_tame _ _ head.sound, insertAfter_tame _ read⟩

theorem bindProperty_tame (plain : s.directive.expression? = none → ¬Mentions s.directive.name) :
    (bindProperty s).Each Tame := by
  simp only [bindProperty]
  refine Plan.each_append.mpr ⟨remove_tame _ _, ?_⟩
  split
  · exact stripQuotes_tame _
  · next none =>
    have opening : Fenced "=\x7b" := .fixed rfl rfl
    have closing : Fenced "\x7d" := .fixed rfl rfl
    rw [String.append_assoc]
    exact insertAfter_tame _ (opening.around (.of_plain (plain none)) closing)

theorem elementEvent_tame : (elementEvent s).Each Tame := by
  simp only [elementEvent]
  refine Plan.each_append.mpr ⟨Plan.each_append.mpr ⟨overwrite_tame _ _ (.fixed rfl rfl),
    removeModifiers_tame⟩, ?_⟩
  split
  · exact stripQuotes_tame _
  · exact insertAfter_tame _ (.fixed rfl rfl)

theorem componentEvent_tame (tag : ¬Mentions s.tag.name) (name : ¬Mentions s.directive.name) :
    (componentEvent s).Each Tame := by
  have target : Sound ("__sveltets_1_instanceOf(" ++ s.tag.name ++ "), '" ++ s.directive.name ++ "'") := by
    have opening : Sound "__sveltets_1_instanceOf(" := .fixed rfl rfl
    have comma : Fenced "), '" := .fixed rfl rfl
    have quote : Fenced "'" := .fixed rfl rfl
    have rest := comma.around (.of_plain name) quote
    simp only [String.append_assoc]
    exact opening.append ((Sound.of_plain tag).append rest.sound (.inr rest.starts)) (.inl (endsApart_fixed rfl rfl))
  simp only [componentEvent]
  split
  · have call : Fenced "\x7b...__sveltets_1_onComponentEvent(" := .fixed rfl rfl
    have last : Fenced ", (" := .fixed rfl rfl
    rw [String.append_assoc]
    exact Plan.each_append.mpr ⟨Plan.each_append.mpr ⟨overwrite_tame _ _ (call.around target last).sound,
      insertAfter_tame _ (.fixed rfl rfl)⟩, stripClosingQuote_tame _⟩
  · have call : Fenced "\x7b...__sveltets_1_bubbleComponentEvent(" := .fixed rfl rfl
    have last : Fenced ")\x7d" := .fixed rfl rfl
    rw [String.append_assoc]
    exact overwrite_tame _ _ (call.around target last).sound

theorem ensureValue_tame {opening closing : String} (opens : Fenced opening) (closes : Fenced closing) :
    (ensureValue opening closing s).Each Tame := by
  have brace : Fenced "\x7d" := .fixed rfl rfl
  simp only [ensureValue]
  split
  · exact Plan.each_append.mpr ⟨Plan.each_append.mpr ⟨overwrite_tame _ _ opens.sound, insertAfter_tame _ closes⟩,
      stripClosingQuote_tame _⟩
  · split
    · exact degrade_tame _
    · exact Plan.each_append.mpr ⟨Plan.each_append.mpr ⟨overwrite_tame _ _ opens.sound, removeModifiers_tame⟩,
        insertAfter_tame _ (closes.append brace)⟩

theorem scopeOpening_fenced {name pattern component slot : String}
    (plain : ∀ text ∈ [name, pattern, component, slot], ¬Mentions text) :
    Fenced (scopeOpening name pattern component slot) := by
  simp only [List.forall_mem_cons] at plain
  obtain ⟨name, pattern, component, slot, -⟩ := plain
  have first : Fenced "\x7b() => \x7b let \x7b" := .fixed rfl rfl
  have colon : Fenced ": " := .fixed rfl rfl
  have call : Fenced "\x7d = __sveltets_1_slotProps(__sveltets_1_instanceOf(" := .fixed rfl rfl
  have comma : Fenced "), '" := .fixed rfl rfl
  have last : Fenced "'); return <>" := .fixed rfl rfl
  unfold scopeOpening
  repeat rw [String.append_assoc]
  exact first.around (.of_plain name) (colon.around (.of_plain pattern)
    (call.around (.of_plain component) (comma.around (.of_plain slot) last)))

theorem scopeClosing_fenced : Fenced scopeClosing := .fixed rfl rfl

end Rules

variable {s : Site}

theorem slotProp_tame (kind : s.directive.kind = .slotProp) (plain : ∀ text ∈ s.interpolated, ¬Mentions text) :
    (slotProp s).Each Tame := by
  simp only [slotProp]
  split
  · exact degrade_tame _
  · exact degrade_tame _
  · exact degrade_tame _
  · next content component slot pattern inside filled bound =>
    have listed : s.interpolated = [s.directive.name, pattern, component, slot] := by
      cases value : s.directive.value with
      | text => simp [Site.pattern?, value] at bound
      | shorthand => simp only [Site.interpolated, value, kind, inside, filled, bound]
      | expression => simp only [Site.interpolated, value, kind, inside, filled, bound]
    have opens := scopeOpening_fenced (listed ▸ plain)
    refine Plan.each_append.mpr ⟨Plan.each_append.mpr ⟨remove_tame _ _, insertBefore_tame _ opens⟩, ?_⟩
    split
    · exact insertBefore_tame _ scopeClosing_fenced
    · exact insertAfter_tame _ scopeClosing_fenced

theorem binding_tame (kind : s.directive.kind = .binding) (plain : ∀ text ∈ s.interpolated, ¬Mentions text) :
    (binding s).Each Tame := by
  have other (named : s.directive.expression? = none → ¬Mentions s.directive.name) :
      (if !s.tag.isComponent && readOnlyProperties.contains s.directive.name then bindReadOnly s
        else bindProperty s).Each Tame := by
    split
    · next readOnly => exact bindReadOnly_tame (by simpa using (Bool.and_eq_true_iff.mp readOnly).2)
    · exact bindProperty_tame named
  simp only [binding]
  split
  · exact degrade_tame _
  · next value =>
    split
    · exact degrade_tame _
    · next sound =>
      refine other fun _ => plain _ ?_
      simp only [Bool.or_eq_true, not_or, Bool.not_eq_true', Bool.not_eq_false] at sound
      simp [Site.interpolated, value, kind, sound.1]
  · next value found =>
    split
    · next this =>
      refine bindThis_tame value fun component => plain _ ?_
      simp [Site.interpolated, found, kind, this, component]
    · exact other fun none => by simp [Directive.expression?, found] at none

/-- What a directive puts in names known helpers only, unless a name of the component contains the mark. -/
theorem Site.plan_tame (plain : ∀ text ∈ s.interpolated, ¬Mentions text) : s.plan.Each Tame := by
  have called (calls : s.directive.kind = .action ∨ s.directive.kind = .transition ∨ s.directive.kind = .animation)
      (element : s.tag.isComponent = false) (valued : ∀ t, s.directive.value ≠ .text t) : ¬Mentions s.tag.name := by
    refine plain _ ?_
    cases value : s.directive.value with
    | text t => exact absurd value (valued t)
    | shorthand => rcases calls with kind | kind | kind <;> simp [Site.interpolated, value, kind, element]
    | expression => rcases calls with kind | kind | kind <;> simp [Site.interpolated, value, kind, element]
  rw [Site.plan]
  cases kind : s.directive.kind with
  | action =>
    exact onElements_tame fun element =>
      invoke_tame (.fixed rfl rfl) (.fixed rfl rfl) (called (.inl kind) element)
  | transition =>
    exact onElements_tame fun element => invoke_tame (.fixed rfl rfl) (.fixed rfl rfl)
      (called (.inr (.inl kind)) element)
  | animation =>
    exact onElements_tame fun element => invoke_tame (.fixed rfl rfl) (.fixed rfl rfl)
      (called (.inr (.inr kind)) element)
  | binding => exact binding_tame kind plain
  | eventHandler =>
    have names (component : s.tag.isComponent = true) (valued : ∀ t, s.directive.value ≠ .text t) :
        ¬Mentions s.tag.name ∧ ¬Mentions s.directive.name := by
      cases value : s.directive.value with
      | text t => exact absurd value (valued t)
      | shorthand => constructor <;> exact plain _ (by simp [Site.interpolated, value, kind, component])
      | expression => constructor <;> exact plain _ (by simp [Site.interpolated, value, kind, component])
    simp only [ruleOf, event]
    split
    · exact degrade_tame _
    · next valued =>
      split
      · next component =>
        obtain ⟨tag, name⟩ := names component valued
        exact componentEvent_tame tag name
      · exact elementEvent_tame
  | classToggle =>
    refine onElements_tame fun _ => ?_
    split
    · exact degrade_tame _
    · exact ensureValue_tame (.fixed rfl rfl) (.fixed rfl rfl)
  | style =>
    refine onElements_tame fun _ => ?_
    split
    · exact remove_tame _ _
    · exact ensureValue_tame (.fixed rfl rfl) (.fixed rfl rfl)
  | slotProp => exact slotProp_tame kind plain

end SvelteLens.Directive
