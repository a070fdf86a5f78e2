import SvelteLens.Proofs.Directive.Naming
import SvelteLens.Proofs.Edit.Provenance
import SvelteLens.Proofs.Projection.Margins
import SvelteLens.Service.Ambient

/-! The helpers that a projection names are declared. Wherever text was put into a component, each name in it that
begins like a helper's is the name of a declared helper or of the constant in the footer. -/
namespace SvelteLens.Projection

open Directive Edit Markup

theorem helperNames_join {lines : List String} {all : List (List Char)} (spelled : Spelled lines all)
    (ends : all.all Text.endsApart = true) :
    helperNames (String.join lines) = all.flatMap (Text.markedWords helperMark) := by
  rw [helperNames, String.toList_join]
  induction spelled with
  | nil => rfl
  | cons _ ih =>
    obtain ⟨here, rest⟩ := Bool.and_eq_true_iff.mp (List.all_cons ▸ ends)
    rw [List.flatMap_cons, List.flatMap_cons, String.toList_ofList,
      Text.markedWords_append helperMark_filled helperMark_whole (.inl here), ih rest]

def declaredNames : { names : List (List Char) // helperNames Service.Ambient.helpers = names } := by
  apply Subtype.mk
  apply helperNames_join
  case spelled =>
    dsimp only
    repeat (first | exact .nil | apply Spelled.cons)
  case ends => decide +kernel

/-- All helpers that projections name are declared, apart from the constant of the footer. -/
theorem usedNames_declared : ∀ name ∈ usedNames.val,
    name = "__sveltets_1_render".toList ∨ name ∈ helperNames Service.Ambient.helpers := by
  have declared : ∀ name ∈ usedNames.val.tail, name ∈ declaredNames.val := by decide +kernel
  intro name used
  rw [declaredNames.property]
  rcases List.mem_cons.mp used with rfl | used
  · exact .inl String.toList_ofList.symm
  · exact .inr (declared name used)

section Script

variable {base : Nat} {known : List String}

theorem notes_tame (ds : List Script.Declaration) : (Script.notes ds).Each Tame := by
  induction ds with
  | nil => simp [Script.notes]
  | cons d ds ih => exact Plan.each_note d |>.mpr ih

theorem dropExport_tame (source : String) (start : Nat) : (Script.dropExport source start).Each Tame := by
  unfold Script.dropExport
  split <;> simp [Tame]

theorem reactivePlan_tame (r : Script.Reactive) : (Script.reactivePlan base known r).1.Each Tame := by
  have wrapped (start : Nat) : (Script.wrapStatement base start r.body).Each Tame := by
    have opening : Sound ";() => \x7b" := .fixed rfl rfl
    have closing : Fenced "\x7d" := .fixed rfl rfl
    simp [Script.wrapStatement, Tame, opening, closing]
  have declared (start : Nat) (a : Script.Assignment) : (Script.declareTarget base start a).Each Tame := by
    have opening : Sound "let " := .fixed rfl rfl
    have call : Sound " = __sveltets_1_invalidate(() => (" := .fixed rfl rfl
    have closing : Fenced "))" := .fixed rfl rfl
    simp [Script.declareTarget, Tame, opening, call, closing]
  unfold Script.reactivePlan
  split
  · split
    · exact wrapped _
    · exact declared _ _
  · exact wrapped _

theorem itemPlan_tame (role : Script.Role) (source : String) (item : Script.Item) :
    (Script.itemPlan role source base known item).1.Each Tame := by
  cases item with
  | exported start declared =>
    refine Plan.each_append.mpr ⟨notes_tame _, ?_⟩
    split
    · exact dropExport_tame _ _
    · simp
  | declared declared => exact notes_tame _
  | reactive r =>
    simp only [Script.itemPlan]
    split
    · exact reactivePlan_tame r
    · simp
  | imports => simp [Script.itemPlan]
  | other => simp [Script.itemPlan]

theorem itemsPlan_tame (role : Script.Role) (source : String) (outline : Script.Outline) :
    (Script.itemsPlan role source base known outline).1.Each Tame := by
  induction outline generalizing known with
  | nil => simp [Script.itemsPlan]
  | cons item rest ih => exact Plan.each_append.mpr ⟨itemPlan_tame role source item, ih⟩

end Script

variable {reader : Script.Reader} {source : String} {doc : Document} {path : Option Path} {p : Projection}

theorem scriptCommands_tame (role : Script.Role) (known : List String) (block : Option ScriptBlock) :
    ∀ c ∈ scriptCommands reader source role known block, Tame c := by
  cases block with
  | none => nofun
  | some block =>
    have tags : (tagPlan block).Each Tame := by simp [tagPlan, Tame]
    have content : (scriptPlan reader source role known block).1.Each Tame := by
      unfold scriptPlan
      split
      · exact itemsPlan_tame _ _ _
      · simp
    exact List.forall_mem_append.mpr ⟨tags, content⟩

theorem stylePlan_tame (styles : List Span) : (stylePlan styles).Each Tame := by
  induction styles with
  | nil => simp [stylePlan]
  | cons span rest ih => exact Plan.each_edit.mpr ⟨trivial, ih⟩

theorem wrapPlan_tame (source : String) (start stop : Nat) : (wrapPlan source start stop).Each Tame := by
  have opening : Fenced markupOpening := .fixed rfl rfl
  have closing : Fenced markupClosing := .fixed rfl rfl
  unfold wrapPlan
  split
  · simp
  · dsimp only
    split
    · simp
    · simp [Tame, opening, closing]

theorem markupPlan_tame (source : String) (start : Nat) (blocks : List Span) :
    (markupPlan source start blocks).Each Tame := by
  induction blocks generalizing start with
  | nil => exact wrapPlan_tame source start _
  | cons block rest ih => exact Plan.each_append.mpr ⟨wrapPlan_tame source start _, ih _⟩

def className (path : Option Path) : String := path.elim "Component" Path.componentName ++ "__SvelteComponent_"

theorem props_sound {declarations : List Script.Declaration} (plain : ∀ d ∈ declarations, ¬Mentions d.name) :
    Sound (", ".intercalate (declarations.map fun d => d.name ++ ": " ++ d.name)) := by
  have colon : Fenced ": " := .fixed rfl rfl
  have comma : Fenced ", " := .fixed rfl rfl
  have prop {name : String} (plain : ¬Mentions name) : Sound (name ++ ": " ++ name) := by
    rw [String.append_assoc]
    exact (Sound.of_plain plain).append (colon.sound.append (.of_plain plain) (.inl colon.ends))
      (.inr (by rw [String.toList_append]; exact Text.startsApart_append colon.starts _))
  induction declarations with
  | nil => exact .fixed rfl rfl
  | cons first rest ih =>
    obtain ⟨here, later⟩ := List.forall_mem_cons.mp plain
    cases rest with
    | nil => simpa using prop here
    | cons second more =>
      rw [List.map_cons, List.map_cons, String.intercalate_cons_cons, String.append_assoc]
      exact (prop here).append (comma.sound.append (ih later) (.inl comma.ends))
        (.inr (by rw [String.toList_append]; exact Text.startsApart_append comma.starts _))

theorem append_fixed {whole a b : String} {first second : List Char} (front : a = String.ofList first)
    (back : b = String.ofList second) (both : whole = String.ofList (first ++ second)) : whole = a ++ b := by
  rw [front, back, both, String.ofList_append]

theorem footer_suffix :
    "__SvelteComponent_ extends __sveltets_1_createSvelte2TsxComponent(__sveltets_1_render) \x7b\n\x7d\n" =
      "__SvelteComponent_" ++ " extends __sveltets_1_createSvelte2TsxComponent(__sveltets_1_render) \x7b\n\x7d\n" :=
  append_fixed rfl rfl rfl

theorem footer_fenced {declarations : List Script.Declaration}
    (props : ∀ d ∈ declarations, d.kind = .prop → ¬Mentions d.name) (named : ¬Mentions (className path)) :
    Fenced (footer (path.elim "Component" Path.componentName) declarations) := by
  have listed : Sound (", ".intercalate ((declarations.filter (·.kind = .prop)).map fun d => d.name ++ ": " ++ d.name)) :=
    props_sound fun d member => props d (List.mem_of_mem_filter member) (by simpa using List.of_mem_filter member)
  have first : Fenced "\n;const __sveltets_1_render = \x7b props: \x7b" := .fixed rfl rfl
  have middle : Fenced "\x7d, slots: \x7b\x7d, events: \x7b\x7d \x7d;\nexport default class " :=
    .fixed rfl rfl
  have last : Fenced " extends __sveltets_1_createSvelte2TsxComponent(__sveltets_1_render) \x7b\n\x7d\n" :=
    .fixed rfl rfl
  have whole := first.around listed (middle.around (.of_plain named) last)
  unfold footer
  rw [footer_suffix]
  unfold className at whole
  repeat rw [String.append_assoc] at whole
  repeat rw [String.append_assoc]
  exact whole

theorem coreCommands_tame (plain : ∀ site ∈ sites source doc, ∀ text ∈ site.interpolated, ¬Mentions text) :
    ∀ c ∈ coreCommands reader source doc, Tame c := by
  simp only [coreCommands, List.forall_mem_append]
  refine ⟨scriptCommands_tame _ _ _, scriptCommands_tame _ _ _, stylePlan_tame _, markupPlan_tame _ _ _, ?_⟩
  intro c member
  obtain ⟨site, listed, member⟩ := List.mem_flatMap.mp member
  exact Site.plan_tame (plain site listed) c member

theorem Tame.replaced {calls : List Command} (tame : ∀ c ∈ calls, Tame c) {r : Replacement} (asked : r ∈ edits calls) :
    Sound r.text := by
  obtain ⟨c, member, asked⟩ := List.mem_filterMap.mp asked
  cases c with
  | overwrite span text =>
    cases asked
    exact tame _ member
  | remove span =>
    simp only [Command.edit?] at asked
    split at asked
    · cases asked
    · cases asked
      exact .fixed rfl rfl
  | insertBefore => cases asked
  | insertAfter => cases asked

theorem Tame.inserted {calls : List Command} (tame : ∀ c ∈ calls, Tame c) {i : Insertion}
    (asked : i ∈ insertions calls) : Fenced i.text := by
  obtain ⟨c, member, asked⟩ := List.mem_filterMap.mp asked
  cases c with
  | overwrite => cases asked
  | remove => cases asked
  | insertBefore offset text =>
    cases asked
    exact tame _ member
  | insertAfter offset text =>
    cases asked
    exact tame _ member

theorem fenced_joined {texts : List String} (filled : texts ≠ []) (fenced : ∀ text ∈ texts, Fenced text) :
    Fenced (String.ofList (texts.flatMap String.toList)) := by
  induction texts with
  | nil => exact absurd rfl filled
  | cons first rest ih =>
    obtain ⟨here, later⟩ := List.forall_mem_cons.mp fenced
    rw [List.flatMap_cons, String.ofList_append, String.ofList_toList]
    cases rest with
    | nil => simpa using here
    | cons => exact here.append (ih nofun later)

/-- What is made up, or stands in place of another text. -/
def PutIn (source text : String) : Origin → Prop
  | .synthetic => True
  | .source span => span.slice? source ≠ some text

/-- Every helper that a projection names is declared: when no string of the component that is put into text has
the mark of the helpers in it, each name in made-up or rewritten text that begins with the mark is the name of a
declared helper, or of the constant in the footer. The class has the name of the component with a suffix. -/
theorem helpers_declared (plain : ∀ site ∈ sites source doc, ∀ text ∈ site.interpolated, ¬Mentions text)
    (named : ¬Mentions (className path)) (projected : ofComponent reader source doc path = .ok p)
    (props : ∀ d ∈ p.declarations, d.kind = .prop → ¬Mentions d.name) :
    ∀ s ∈ p.map.segments, ∃ text, s.generated.slice? p.text = some text ∧
      (PutIn source text s.origin → ∀ name ∈ helperNames text,
        name = "__sveltets_1_render".toList ∨ name ∈ helperNames Service.Ambient.helpers) := by
  obtain ⟨b, rfl, valid, records, text, map⟩ := ofComponent_framed projected
  have header : Fenced header := .fixed rfl rfl
  have footer : Fenced (closing path p) := footer_fenced (fun d member prop => by
    obtain ⟨declared, listed, rfl⟩ := List.mem_map.mp member
    exact props declared listed prop) named
  have tame : ∀ c ∈ Buffer.framed Projection.header (coreCommands reader b.source doc) (Text.width b.source.toList)
      (closing path p), Tame c := by
    refine List.forall_mem_cons.mpr ⟨header, List.forall_mem_append.mpr ⟨coreCommands_tame plain, ?_⟩⟩
    exact List.forall_mem_singleton.mpr footer
  intro s member
  rw [map] at member
  obtain ⟨shown, slice, originates⟩ := valid.segment_originates records (Array.mem_toList_iff.mpr member)
  rw [text]
  refine ⟨shown, slice, fun putIn name listed => usedNames_declared name ?_⟩
  generalize s.origin = origin at originates putIn
  cases originates with
  | copied same => exact absurd same putIn
  | replaced asked => exact Tame.replaced tame asked name listed
  | joined filled inserted =>
    refine (fenced_joined filled fun text here => ?_).sound name listed
    obtain ⟨i, asked, rfl⟩ := inserted text here
    exact Tame.inserted tame asked

def actionSample : String := "<p use:a/>"

theorem helpers_declared_action : ∃ doc, scan actionSample = .ok doc ∧ ∃ p : Projection,
    ofComponent (fun _ _ => none) actionSample doc none = .ok p ∧
      (sites actionSample doc).flatMap (·.interpolated) = ["p"] ∧ ¬Mentions "p" ∧ ¬Mentions (className none) ∧
      p.declarations = [] ∧
      ∀ s ∈ p.map.segments, ∃ text, s.generated.slice? p.text = some text ∧
        (PutIn actionSample text s.origin → ∀ name ∈ helperNames text,
          name = "__sveltets_1_render".toList ∨ name ∈ helperNames Service.Ambient.helpers) := by
  have runs : ((scan actionSample).toOption.bind fun doc =>
      ((ofComponent (fun _ _ => none) actionSample doc none).toOption.filter fun p => p.declarations = [] ∧
        (sites actionSample doc).flatMap (·.interpolated) = ["p"])).isSome = true := by decide +kernel
  obtain ⟨p, found⟩ := Option.isSome_iff_exists.mp runs
  obtain ⟨doc, scanned, found⟩ := Option.bind_eq_some_iff.mp found
  obtain ⟨projected, facts⟩ := Option.filter_eq_some_iff.mp found
  obtain ⟨undeclared, interpolated⟩ := of_decide_eq_true facts
  have plain : ¬Mentions "p" := not_mentions_fixed rfl rfl
  have named : ¬Mentions (className none) := not_mentions_fixed (append_fixed rfl rfl rfl).symm rfl
  refine ⟨doc, ok_of_toOption scanned, p, ok_of_toOption projected, interpolated, plain, named, undeclared, ?_⟩
  refine helpers_declared (fun site listed text here => ?_) named (ok_of_toOption projected) (undeclared ▸ nofun)
  have member : text ∈ (sites actionSample doc).flatMap (·.interpolated) := List.mem_flatMap.mpr ⟨site, listed, here⟩
  rw [interpolated] at member
  exact List.mem_singleton.mp member ▸ plain

theorem className_in_footer (declarations : List Script.Declaration) {name : List Char}
    (here : name ∈ helperNames (className path)) :
    name ∈ helperNames (footer (path.elim "Component" Path.componentName) declarations) := by
  have before : Text.endsApart "\x7d, slots: \x7b\x7d, events: \x7b\x7d \x7d;\nexport default class ".toList = true :=
    endsApart_fixed rfl rfl
  have last : Fenced " extends __sveltets_1_createSvelte2TsxComponent(__sveltets_1_render) \x7b\n\x7d\n" :=
    .fixed rfl rfl
  unfold className at here
  unfold footer
  rw [footer_suffix, ← String.append_assoc, helperNames_append (.inr last.starts), String.append_assoc,
    helperNames_append (.inl ?_)]
  · exact List.mem_append_left _ (List.mem_append_right _ here)
  · rw [String.toList_append]
    exact Text.endsApart_append _ before

/-- The text of a projected empty component is one piece of made-up text. -/
theorem empty_component_segment (scanned : scan "" = .ok doc) (projected : ofComponent reader "" doc path = .ok p) :
    ∃ s ∈ p.map.segments, s.origin = .synthetic ∧ s.generated.slice? p.text = some (closing path p ++ header) := by
  obtain ⟨b, original, valid, records, text, map⟩ := ofComponent_framed projected
  have whole : p.text = closing path p ++ header := Text.eq_of_bytes <| by
    rw [ofComponent_bytes_empty scanned projected, String.toList_append, Text.bytes_append]
  have empty : b.length = 0 := by rw [Buffer.length, original]; rfl
  have synthetic : ∀ s ∈ b.render.map.segments.toList, s.origin = .synthetic := by
    intro s member
    cases origin : s.origin with
    | synthetic => rfl
    | source span =>
      have listed : span ∈ b.render.map.sources :=
        List.mem_filterMap.mpr ⟨s, member, Segment.source?_eq_some.mpr origin⟩
      have := valid.sources_bounds listed
      omega
  have tiles := valid.tiled
  unfold PositionMap.Tiled at tiles
  rw [Buffer.render_length, ← text] at tiles
  cases found : b.render.map.segments.toList with
  | nil =>
    rw [found] at tiles
    have none : p.text.toList = [] := Text.width_eq_zero tiles.symm
    rw [whole, String.toList_append] at none
    cases (List.append_eq_nil_iff.mp none).2
  | cons s rest =>
    have member : s ∈ b.render.map.segments := Array.mem_toList_iff.mp (found ▸ List.mem_cons_self)
    rw [found] at tiles synthetic
    have alone : rest = [] := by
      cases rest with
      | nil => rfl
      | cons t rest =>
        have placed : place 0 b.blocks = [] ++ s :: t :: rest := valid.segments.symm.trans found
        have second := synthetic t (List.mem_cons_of_mem s List.mem_cons_self)
        exact absurd ⟨synthetic s List.mem_cons_self, second⟩ (place_joined (blocks_joined _) 0 placed)
    subst alone
    obtain ⟨start, -, stop⟩ := tiles
    have stop : s.generated.stop = Text.width p.text.toList := stop
    refine ⟨s, map ▸ member, synthetic s List.mem_cons_self, ?_⟩
    rw [← whole]
    refine Option.map_eq_some_iff.mpr ⟨p.text.toList, Text.slice?_eq_some_iff.mpr ⟨[], [], by simp, start.symm, ?_⟩,
      String.ofList_toList⟩
    rw [start, stop, Nat.zero_add]

/-- A component whose file name becomes a marked name with the suffix of the class. The component's name does not
have the mark in it, and nothing else of the component is put into text, but the class's name is not declared. -/
theorem marked_class_undeclared :
    let path : Path := ⟨"A__sveltets_1.svelte"⟩
    let name := "__sveltets_1__SvelteComponent_".toList
    ∃ doc, scan "" = .ok doc ∧ ∃ p : Projection, ofComponent (fun _ _ => none) "" doc (some path) = .ok p ∧
      (sites "" doc).flatMap (·.interpolated) = [] ∧ p.declarations = [] ∧ ¬Mentions path.componentName ∧
      ∃ s ∈ p.map.segments, s.origin = .synthetic ∧ ∃ text, s.generated.slice? p.text = some text ∧
        name ∈ helperNames text ∧ name ≠ "__sveltets_1_render".toList ∧
          name ∉ helperNames Service.Ambient.helpers := by
  intro path name
  have scanned : scan "" = .ok ⟨none, none, [], []⟩ := rfl
  have runs : ((ofComponent (fun _ _ => none) "" ⟨none, none, [], []⟩ (some path)).toOption.filter fun p =>
      p.declarations = []).isSome = true := by decide +kernel
  obtain ⟨p, found⟩ := Option.isSome_iff_exists.mp runs
  obtain ⟨projected, undeclared⟩ := Option.filter_eq_some_iff.mp found
  have component : path.componentName = "A__sveltets_1" := by decide +kernel
  refine ⟨_, scanned, p, ok_of_toOption projected, rfl, of_decide_eq_true undeclared, ?_, ?_⟩
  · rw [component]
    exact not_mentions_fixed rfl rfl
  obtain ⟨s, member, synthetic, slice⟩ := empty_component_segment scanned (ok_of_toOption projected)
  refine ⟨s, member, synthetic, _, slice, ?_, by decide +kernel, ?_⟩
  · have marked : name ∈ helperNames (className (some path)) := by
      rw [className, Option.elim_some, component]
      decide +kernel
    have joint : Text.startsApart header.toList = true := by decide +kernel
    rw [helperNames_append (.inr joint)]
    exact List.mem_append_left _ (className_in_footer _ marked)
  · rw [declaredNames.property]
    decide +kernel

end SvelteLens.Projection
