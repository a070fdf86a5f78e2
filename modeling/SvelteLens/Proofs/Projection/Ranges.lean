import SvelteLens.Proofs.Directive.Guards
import SvelteLens.Proofs.Edit.Reordering
import SvelteLens.Proofs.Projection.Marks
import SvelteLens.Proofs.Projection.Success

/-! A projection of any document, also of one that does not go with the text, computes offsets that fit and cuts
text only where it can be cut. A stretch of markup is cut out when the tags and styles at its ends are removed
already, which the buffer refuses at positions where there is no cut. Directives that overrun are the exception. -/
namespace SvelteLens

open Edit
open Text (width)

namespace Script

section Plans

variable {given : Prop} {source : String} {base : Nat} {content : List Char}

/-- A plan without faults, whose edits and declarations have offsets that fit. -/
def Guarded (given : Prop) (plan : Plan Declaration) : Prop := plan.Guarded given False fun d => d.span.Fits

theorem declarations_guarded {d : Declared} (limit : given → base + width content < offsetBound)
    (within : ∀ b ∈ d.bindings, b.Within (width content)) (role : Role) :
    Guarded given (notes (declarations role base d)) := by
  intro step member
  obtain ⟨declaration, listed, rfl⟩ := List.mem_map.mp member
  unfold declarations at listed
  split at listed
  · obtain ⟨b, bound, rfl⟩ := List.mem_map.mp listed
    intro holds
    have inside : b.start + width b.name.toList ≤ width content := within b bound
    have below := limit holds
    constructor <;> simp only [nameSpan] <;> omega
  · cases listed

theorem dropExport_guarded {start : Nat} (small : given → width source.toList < offsetBound)
    (cut : Text.isBoundary source.toList (start + 6) = true) : Guarded given (dropExport source start) := by
  obtain ⟨front, rest, whole, wide⟩ := Text.isBoundary_iff.mp cut
  have cut : Text.split? (start + 6) source.toList = some (front, rest) := by
    rw [whole, ← wide, Text.split?_width]
  rw [dropExport, cut]
  refine Plan.guarded_edit.mpr ⟨fun holds => ?_, Plan.guarded_nil⟩
  have below := small holds
  have blanks : width (rest.takeWhile Text.isBlank) ≤ width rest := by
    have parts := congrArg width (List.takeWhile_append_dropWhile (p := Text.isBlank) (l := rest))
    rw [Text.width_append] at parts
    omega
  rw [whole, Text.width_append, wide] at below
  constructor <;> simp only [Command.reach] <;> omega

theorem wrapStatement_guarded {r : Reactive} (limit : given → base + width content < offsetBound)
    (within : r.Within (width content)) : Guarded given (wrapStatement base (base + r.start) r.body) := by
  have label := within.label
  have first := within.bodyStart
  have last := within.bodyStop
  refine Plan.guarded_edit.mpr ⟨fun holds => ?_, Plan.guarded_edit.mpr ⟨fun holds => .empty ?_, Plan.guarded_nil⟩⟩
  · have below := limit holds
    constructor <;> simp only [Command.reach] <;> omega
  · have below := limit holds
    omega

theorem declareTarget_guarded {r : Reactive} {a : Assignment} (limit : given → base + width content < offsetBound)
    (within : r.Within (width content)) (assigned : a ∈ r.assignment) :
    Guarded given (declareTarget base (base + r.start) a) := by
  have label := within.label
  have target : a.target.start + width a.target.name.toList ≤ width content := within.target a assigned
  have first := within.rightStart a assigned
  have last := within.rightStop a assigned
  refine Plan.guarded_edit.mpr ⟨fun holds => ?_, Plan.guarded_edit.mpr ⟨fun holds => ?_,
    Plan.guarded_edit.mpr ⟨fun holds => .empty ?_, Plan.guarded_note.mpr ⟨fun holds => ?_, Plan.guarded_nil⟩⟩⟩⟩
  all_goals have below := limit holds
  · constructor <;> simp only [Command.reach, nameSpan] <;> omega
  · constructor <;> simp only [Command.reach, nameSpan] <;> omega
  · omega
  · constructor <;> simp only [nameSpan] <;> omega

variable (limit : given → base + width content < offsetBound) (small : given → width source.toList < offsetBound)
  (cuts : ∀ n, Text.isBoundary content (n + 1) = true → Text.isBoundary source.toList (base + (n + 1)) = true)

include limit small cuts

theorem itemPlan_guarded {item : Item} (within : item.Within content) (role : Role) (known : List String) :
    Guarded given (itemPlan role source base known item).1 := by
  cases item with
  | exported start d =>
    obtain ⟨room, named⟩ := within
    have removal : Guarded given
        (if role = .perInstance ∧ (kindOf? role d).isSome then dropExport source (base + start) else []) := by
      split
      · exact dropExport_guarded small (by rw [Nat.add_assoc]; exact cuts (start + 5) room)
      · exact Plan.guarded_nil
    exact Plan.guarded_append.mpr ⟨declarations_guarded limit named role, removal⟩
  | declared d => exact declarations_guarded limit within .shared
  | reactive r =>
    simp only [itemPlan]
    split
    · unfold reactivePlan
      split
      · next a assigned =>
        split
        · exact wrapStatement_guarded limit within
        · exact declareTarget_guarded limit within assigned
      · exact wrapStatement_guarded limit within
    · exact Plan.guarded_nil
  | imports => exact Plan.guarded_nil
  | other => exact Plan.guarded_nil

theorem itemsPlan_guarded {outline : Outline} (within : outline.Within content) (role : Role)
    (known : List String) : Guarded given (itemsPlan role source base known outline).1 := by
  induction outline generalizing known with
  | nil => exact Plan.guarded_nil
  | cons item outline ih =>
    obtain ⟨here, later⟩ := List.forall_mem_cons.mp within
    exact Plan.guarded_append.mpr ⟨itemPlan_guarded limit small cuts here role known, ih later _⟩

end Plans

end Script

namespace Markup

structure Document.Fits (doc : Document) : Prop where
  scripts : ∀ block ∈ doc.scripts, block.span.Fits ∧ block.content.Fits
  styles : ∀ style ∈ doc.styles, style.Fits
  contents : ∀ placed ∈ doc.tags, ∀ content ∈ placed.tag.content, content.Fits
  directives : ∀ d ∈ doc.directives, d.span.Fits ∧ d.nameSpan.Fits ∧ ∀ v ∈ d.expression?, v.span.Fits

end Markup

namespace Projection

open Markup
open Edit.Buffer (Accepts)

variable {ν : Type} {reader : Script.Reader} {source : String} {doc : Document} {path : Option Path} {b : Buffer}

section Plans

def Given (source : String) (doc : Document) : Prop := source.utf8ByteSize < offsetBound ∧ doc.Fits

theorem Given.small (given : Given source doc) : width source.toList < offsetBound :=
  Text.width_toList source ▸ given.1

theorem tagPlan_guarded {block : ScriptBlock} (member : block ∈ doc.scripts) :
    (tagPlan block).Guarded (Given source doc) False fun _ => True := by
  refine Plan.guarded_edit.mpr ⟨fun given => ?_, Plan.guarded_edit.mpr ⟨fun given => ?_, Plan.guarded_nil⟩⟩
  · obtain ⟨span, content⟩ := given.2.scripts block member
    exact ⟨span.start, content.start⟩
  · obtain ⟨span, content⟩ := given.2.scripts block member
    exact ⟨content.stop, span.stop⟩

/-- What is read of a block whose content cannot be cut out is read of an empty text. -/
theorem scriptPlan_guarded (within : Reads reader source doc Script.Outline.Within) {block : ScriptBlock}
    (member : block ∈ doc.scripts) (role : Script.Role) (known : List String) :
    Script.Guarded (Given source doc) (scriptPlan reader source role known block).1 := by
  unfold scriptPlan
  split
  · next outline read =>
    have inside := within block member outline read
    cases slice : block.content.slice? source with
    | none =>
      rw [slice] at inside
      refine Script.itemsPlan_guarded (fun given => ?_) Given.small (fun n cut => ?_) inside role _
      · exact (given.2.scripts block member).2.start
      · cases cut
    | some run =>
      rw [slice] at inside
      obtain ⟨chars, cut, rfl⟩ := Option.map_eq_some_iff.mp slice
      rw [Option.getD_some, String.toList_ofList] at inside
      obtain ⟨front, back, whole, start, stop⟩ := Text.slice?_eq_some_iff.mp cut
      refine Script.itemsPlan_guarded (fun given => ?_) Given.small (fun n cut => ?_) inside role _
      · have below := (given.2.scripts block member).2.stop
        omega
      · rw [← start]
        exact Script.isBoundary_inside whole cut
  · exact Plan.guarded_nil

theorem stylePlan_guarded : (stylePlan doc.styles).Guarded (Given source doc) False fun _ => True := by
  intro step member
  obtain ⟨style, listed, rfl⟩ := List.mem_map.mp member
  exact fun given => given.2.styles style listed

/-- A stretch can be cut out when it starts at a boundary, and ends at one, or is reversed. -/
theorem wrapPlan_guarded {start stop : Nat} {given cause : Prop} (small : given → width source.toList < offsetBound)
    (cut : ¬cause → Text.isBoundary source.toList start = true ∧ Text.isBoundary source.toList stop = true) :
    (wrapPlan source start stop).Guarded given cause fun _ => True := by
  unfold wrapPlan
  split
  · next uncut =>
    refine Plan.guarded_fault.mpr ⟨Classical.byContradiction fun sound => ?_, Plan.guarded_nil⟩
    obtain ⟨lower, upper⟩ := cut sound
    have last : Text.isBoundary source.toList (max stop start) = true := by
      rcases Nat.le_total stop start with reversed | ordered
      · rwa [Nat.max_eq_right reversed]
      · rwa [Nat.max_eq_left ordered]
    obtain ⟨run, found⟩ := Text.slice?_of_boundaries lower last (Nat.le_max_right ..)
    rw [found] at uncut
    cases uncut
  · next region found =>
    simp only
    rcases Text.trim_cases found with ⟨empty, -⟩ | ⟨filled, trimmed⟩
    · rw [if_pos (by rw [empty]; rfl)]
      exact Plan.guarded_nil
    · rw [if_neg (by simpa using filled)]
      have upper := trimmed.upper
      have order := trimmed.order
      refine Plan.guarded_edit.mpr ⟨fun holds => .empty ?_, Plan.guarded_edit.mpr ⟨fun holds => .empty ?_, Plan.guarded_nil⟩⟩
      · have below := small holds
        omega
      · have below := small holds
        omega

theorem markupPlan_guarded {given cause : Prop} (small : given → width source.toList < offsetBound) {ahead : List Span}
    {start : Nat} (first : ¬cause → Text.isBoundary source.toList start = true)
    (cut : ¬cause → ∀ block ∈ ahead, Text.isBoundary source.toList block.start = true ∧
      Text.isBoundary source.toList block.stop = true) :
    (markupPlan source start ahead).Guarded given cause fun _ => True := by
  induction ahead generalizing start with
  | nil =>
    have last : Text.isBoundary source.toList (width source.toList) = true :=
      Text.isBoundary_iff.mpr ⟨source.toList, [], (List.append_nil _).symm, rfl⟩
    exact wrapPlan_guarded small fun sound => ⟨first sound, last⟩
  | cons block ahead ih =>
    have here (sound : ¬cause) := cut sound block List.mem_cons_self
    refine Plan.guarded_append.mpr ⟨wrapPlan_guarded small fun sound => ⟨first sound, (here sound).1⟩, ?_⟩
    exact ih (fun sound => (here sound).2) fun sound other listed => cut sound other (List.mem_cons_of_mem block listed)

theorem site_guarded {site : Directive.Site} (listed : site ∈ sites source doc) :
    site.plan.Guarded (Given source doc) (Directive.Overruns site.directive) fun note => note.span.Fits := by
  have fits (given : Given source doc) : site.Fits := by
    obtain ⟨span, name, value⟩ := given.2.directives site.directive (site_directive listed)
    obtain ⟨placed, member, made⟩ := List.mem_flatMap.mp listed
    obtain ⟨d, carried, rfl⟩ := List.mem_map.mp made
    exact ⟨span, name, value, given.2.contents placed member⟩
  intro step member
  have guarded := site.plan_guarded step member
  cases step with
  | edit command => exact fun given => guarded (fits given)
  | note value => exact fun given => guarded (fits given)
  | fault => exact guarded

end Plans

/-- A plan without faults may be refused, but has no fault. -/
theorem runPlan_refused {plan : Plan ν} (faultless : Step.fault ∉ plan) (error : Refusal → ProjectionError)
    (refuses : ∀ refusal, error refusal ≠ .fault) : runPlan b plan error ≠ .error .fault := by
  have sound : (plan.run b).failure ≠ some .fault := by
    induction plan generalizing b with
    | nil => nofun
    | cons step plan ih =>
      cases step with
      | edit command =>
        unfold Plan.run
        split
        · exact ih fun member => faultless (List.mem_cons_of_mem _ member)
        · nofun
      | note value => exact ih fun member => faultless (List.mem_cons_of_mem _ member)
      | fault => exact absurd List.mem_cons_self faultless
  unfold runPlan
  split
  · nofun
  · simpa using refuses _
  · next found => exact absurd (by rw [found]) sound

theorem layout_unfaulted (phase : Phase) (refusal : Refusal) : ProjectionError.layout phase refusal ≠ .fault := by simp

theorem layout_refused {plan : Plan Empty} (faultless : Step.fault ∉ plan) (phase : Phase) :
    (runPlan b plan (.layout phase)).map (·.1) ≠ .error .fault :=
  fun fault => runPlan_refused faultless (.layout phase) (layout_unfaulted phase) (map_eq_error.mp fault)

theorem addScript_refused {s : Scripts} {role : Script.Role} {block : Option ScriptBlock}
    (faultless : ∀ b ∈ block, Step.fault ∉ (scriptPlan reader source role s.known b).1) :
    addScript reader source s role block ≠ .error .fault := by
  intro fault
  cases block with
  | none => cases fault
  | some block =>
    rcases chain_error.mp fault with tags | ⟨⟨bare, _⟩, -, fault⟩
    · exact runPlan_refused (by simp [tagPlan]) (.layout .scriptTags) (layout_unfaulted _) tags
    · rcases chain_error.mp fault with adapted | ⟨_, -, done⟩
      · exact runPlan_refused (faultless block rfl) (.layout .script) (layout_unfaulted _) adapted
      · cases done

theorem addSites_fault {sites : List Directive.Site} (fault : addSites b sites = .error .fault) :
    ∃ site ∈ sites, Step.fault ∈ site.plan := by
  induction sites generalizing b with
  | nil => cases fault
  | cons site sites ih =>
    rcases chain_error.mp fault with here | ⟨⟨next, notes⟩, -, fault⟩
    · refine ⟨site, List.mem_cons_self, Classical.byContradiction fun faultless => ?_⟩
      exact runPlan_refused faultless (.directive _ _) (by simp) here
    · rcases chain_error.mp fault with later | ⟨_, -, done⟩
      · obtain ⟨other, listed, found⟩ := ih later
        exact ⟨other, List.mem_cons_of_mem site listed, found⟩
      · cases done

/-- When the tags of scripts and the styles could be removed, text can be cut at the ends of all blocks. -/
theorem blocks_cut {known known' : List String} (valid : ∀ c ∈ scriptCommands reader source .shared known doc.moduleScript ++
      scriptCommands reader source .perInstance known' doc.instanceScript ++ (stylePlan doc.styles).commands,
      c.Valid source.toList) {span : Span} (listed : span ∈ blocks doc) :
    Text.isBoundary source.toList span.start = true ∧ Text.isBoundary source.toList span.stop = true := by
  have tags {role : Script.Role} {known : List String} {script : Option ScriptBlock} {block : ScriptBlock}
      (found : script = some block) (valid : ∀ c ∈ scriptCommands reader source role known script, c.Valid source.toList) :
      Text.isBoundary source.toList block.span.start = true ∧ Text.isBoundary source.toList block.span.stop = true := by
    subst found
    exact ⟨(valid (.remove ⟨block.span.start, block.content.start⟩) List.mem_cons_self).start,
      (valid (.remove ⟨block.content.stop, block.span.stop⟩) (List.mem_cons_of_mem _ List.mem_cons_self)).stop⟩
  obtain ⟨scripts, styles⟩ := List.forall_mem_append.mp valid
  obtain ⟨shared, own⟩ := List.forall_mem_append.mp scripts
  rcases List.mem_append.mp (mem_blocks_iff.mp listed) with script | style
  · obtain ⟨block, member, rfl⟩ := List.mem_map.mp script
    rcases List.mem_append.mp member with found | found
    · exact tags (Option.mem_toList.mp found) own
    · exact tags (Option.mem_toList.mp found) shared
  · have removal : Command.remove span ∈ (stylePlan doc.styles).commands := by
      simpa [Plan.commands, stylePlan] using style
    have valid := styles _ removal
    exact ⟨valid.start, valid.stop⟩

/-- Only directives have faults: what comes before them goes through or is refused. -/
theorem edited_fault (within : Reads reader source doc Script.Outline.Within)
    (fault : edited reader source doc path = .error .fault) :
    ∃ site ∈ sites source doc, Step.fault ∈ site.plan := by
  have scripts (block : ScriptBlock) (member : block ∈ doc.scripts) (role : Script.Role) (known : List String) :
      Step.fault ∉ (scriptPlan reader source role known block).1 :=
    fun found => scriptPlan_guarded within member role known _ found
  unfold edited at fault
  simp only at fault
  rcases chain_error.mp fault with header | ⟨b₁, header, fault⟩
  · exact absurd header (layout_refused (by simp) _)
  rcases chain_error.mp fault with shared | ⟨s₁, shared, fault⟩
  · exact absurd shared (addScript_refused fun block found =>
      scripts block (List.mem_append_right _ (Option.mem_toList.mpr found)) _ _)
  rcases chain_error.mp fault with own | ⟨s₂, own, fault⟩
  · exact absurd own (addScript_refused fun block found =>
      scripts block (List.mem_append_left _ (Option.mem_toList.mpr found)) _ _)
  rcases chain_error.mp fault with styles | ⟨b₂, styles, fault⟩
  · exact absurd styles (layout_refused (by simp [stylePlan]) _)
  rcases chain_error.mp fault with markup | ⟨b₃, markup, fault⟩
  · have removals := ((addScript_ok shared).1.append (addScript_ok own).1).append (layout_ok styles)
    obtain ⟨valid, -⟩ := (Buffer.accepts_iff source _).mp ⟨_, (layout_ok header).append removals⟩
    have cut (span : Span) (listed : span ∈ blocks doc) := blocks_cut (List.forall_mem_append.mp valid).2 listed
    have first : Text.isBoundary source.toList 0 = true := Text.isBoundary_iff.mpr ⟨[], _, rfl, rfl⟩
    have guarded : (markupPlan source 0 (blocks doc)).Guarded (Given source doc) False fun _ => True :=
      markupPlan_guarded Given.small (fun _ => first) fun _ => cut
    exact absurd markup (layout_refused (fun found => guarded _ found) _)
  rcases chain_error.mp fault with directives | ⟨⟨b₄, notes⟩, directives, fault⟩
  · exact addSites_fault directives
  rcases chain_error.mp fault with footer | ⟨b₅, footer, fault⟩
  · exact absurd footer (layout_refused (by simp) _)
  · cases fault

/-- All commands of a projection have offsets that fit. -/
theorem commands_in_range (within : Reads reader source doc Script.Outline.Within) (given : Given source doc) :
    ∀ c ∈ bodyCommands reader source doc, c.reach.Fits := by
  have block {role : Script.Role} {known : List String} {script : Option ScriptBlock}
      (listed : ∀ b ∈ script, b ∈ doc.scripts) : ∀ c ∈ scriptCommands reader source role known script, c.reach.Fits := by
    cases script with
    | none => nofun
    | some block =>
      have member := listed block rfl
      exact List.forall_mem_append.mpr
        ⟨(tagPlan_guarded member).each given, (scriptPlan_guarded within member role known).each given⟩
  have markup : (markupPlan source 0 (blocks doc)).Guarded (Given source doc) True fun _ => True :=
    markupPlan_guarded Given.small (fun sound => absurd trivial sound) fun sound => absurd trivial sound
  have positive : (0 : Nat) < offsetBound := by decide
  simp only [bodyCommands, List.forall_mem_append, List.forall_mem_singleton]
  refine ⟨⟨⟨⟨⟨.empty positive, ?_⟩, ?_⟩, stylePlan_guarded.each given⟩, markup.each given⟩, ?_⟩
  · exact block fun b found => List.mem_append_right _ (Option.mem_toList.mpr found)
  · exact block fun b found => List.mem_append_left _ (Option.mem_toList.mpr found)
  · intro c member
    obtain ⟨site, listed, made⟩ := List.mem_flatMap.mp member
    exact (site_guarded listed).each given c made

theorem declared_in_range (within : Reads reader source doc Script.Outline.Within) (given : Given source doc) :
    ∀ d ∈ declared reader source doc, d.span.Fits := by
  have block {role : Script.Role} {known : List String} {script : Option ScriptBlock}
      (listed : ∀ b ∈ script, b ∈ doc.scripts) : ∀ d ∈ scriptNotes reader source role known script, d.span.Fits := by
    cases script with
    | none => nofun
    | some block => exact (scriptPlan_guarded within (listed block rfl) role known).notes given
  intro d member
  rcases List.mem_append.mp (List.mem_mergeSort.mp member) with shared | own
  · exact block (fun b found => List.mem_append_right _ (Option.mem_toList.mpr found)) d shared
  · exact block (fun b found => List.mem_append_left _ (Option.mem_toList.mpr found)) d own

/-- A projection comes to a result or to an error, whatever the document says, unless a directive overruns: the
end of its head is no offset, or a quote would stand before the text. All else that a projection computes from
offsets are offsets again, and text is cut nowhere else than between characters. -/
theorem ofComponent_in_range (source : String) (doc : Document) (within : Reads reader source doc Script.Outline.Within)
    (path : Option Path) :
    (ofComponent reader source doc path = .error .fault → ∃ d ∈ doc.directives, Directive.Overruns d) ∧
    (source.utf8ByteSize < offsetBound → doc.Fits →
      (∀ c ∈ bodyCommands reader source doc ++ [.insertAfter (width source.toList) (footer
        (path.elim "Component" Path.componentName) (declared reader source doc))], c.reach.Fits) ∧
      ∀ d ∈ declared reader source doc, d.span.Fits) := by
  constructor
  · intro fault
    rcases chain_error.mp fault with edits | ⟨_, -, done⟩
    · obtain ⟨site, listed, found⟩ := edited_fault within edits
      exact ⟨site.directive, site_directive listed, site_guarded listed _ found⟩
    · cases done
  · intro small fits
    have given : Given source doc := ⟨small, fits⟩
    refine ⟨List.forall_mem_append.mpr ⟨commands_in_range within given, ?_⟩, declared_in_range within given⟩
    exact List.forall_mem_singleton.mpr (.empty given.small)

/-- A component with one directive, as a parser may describe it. -/
def described (d : Directive) : Document where
  instanceScript := some ⟨⟨0, 35⟩, ⟨8, 26⟩, none⟩
  moduleScript := none
  styles := []
  nodes := [.mk ⟨false, "p", ⟨35, 48⟩, none, [.directive d]⟩ []]

/-- A handler whose name ends at the last offset, with a modifier behind it. -/
def overlongHead : Directive := ⟨⟨38, 46⟩, .eventHandler, "a", ⟨41, 4294967295⟩, ["x"], .shorthand⟩

/-- A handler with a quoted value that ends before the text. -/
def misplacedQuote : Directive := ⟨⟨38, 0⟩, .eventHandler, "a", ⟨41, 42⟩, [], .expression ⟨⟨44, 45⟩, "a", some '"'⟩⟩

theorem overruns_fault : ∀ d ∈ [overlongHead, misplacedQuote],
    ofComponent Script.readOutline sample (described d) none = .error .fault := by decide +kernel

theorem described_fits {d : Directive} (span : d.span.Fits) (name : d.nameSpan.Fits)
    (value : ∀ v ∈ d.expression?, v.span.Fits) : (described d).Fits where
  scripts := List.forall_mem_singleton.mpr ⟨⟨by decide, by decide⟩, by decide, by decide⟩
  styles := nofun
  contents := List.forall_mem_singleton.mpr nofun
  directives := List.forall_mem_singleton.mpr ⟨span, name, value⟩

theorem ofComponent_in_range_overlong :
    Reads Script.readOutline sample (described overlongHead) Script.Outline.Within ∧ sample.utf8ByteSize < offsetBound ∧
    (described overlongHead).Fits ∧ ofComponent Script.readOutline sample (described overlongHead) none = .error .fault ∧
    (∃ d ∈ (described overlongHead).directives, Directive.Overruns d) ∧
    (∀ c ∈ bodyCommands Script.readOutline sample (described overlongHead) ++ [.insertAfter (width sample.toList) (footer
      "Component" (declared Script.readOutline sample (described overlongHead)))], c.reach.Fits) ∧
    ∀ d ∈ declared Script.readOutline sample (described overlongHead), d.span.Fits := by
  have small : sample.utf8ByteSize < offsetBound := by decide
  have fits : (described overlongHead).Fits :=
    described_fits ⟨by decide, by decide⟩ ⟨by decide, by decide⟩ nofun
  have fault : ofComponent Script.readOutline sample (described overlongHead) none = .error .fault :=
    overruns_fault _ List.mem_cons_self
  have within : Reads Script.readOutline sample (described overlongHead) Script.Outline.Within := by decide +kernel
  obtain ⟨overruns, ranges⟩ := ofComponent_in_range sample (described overlongHead) within none
  exact ⟨within, small, fits, fault, overruns fault, ranges small fits⟩

end Projection
end SvelteLens
