import SvelteLens.Proofs.Markup.Formation
import SvelteLens.Proofs.Projection.Margins
import SvelteLens.Proofs.Script.Within

/-! What the commands of a projection do at a boundary of the component. Scripts are adapted in their contents,
directives are rewritten in their tags, the tags of scripts and the styles are removed, and wrappers are put
around the markup. -/
namespace SvelteLens.Projection

open Edit Markup
open Text (width bytes)

section Commands

variable {reader : Script.Reader} {source : String} {doc : Document} {zones : List Zone} {i : Nat}

def tagCommands (block : Option ScriptBlock) : List Command := block.elim [] fun block => (tagPlan block).commands

def adaptation (reader : Script.Reader) (source : String) (role : Script.Role) (known : List String)
    (block : Option ScriptBlock) : List Command :=
  block.elim [] fun block => (scriptPlan reader source role known block).1.commands

def adaptations (reader : Script.Reader) (source : String) (doc : Document) : List Command :=
  adaptation reader source .shared [] doc.moduleScript ++
    adaptation reader source .perInstance (moduleNames reader source doc) doc.instanceScript

def siteCommands (source : String) (doc : Document) : List Command := (sites source doc).flatMap (·.plan.commands)

/-- The commands inside scripts and for directives. All others of the core remove tags and styles or wrap markup. -/
def contentCommands (reader : Script.Reader) (source : String) (doc : Document) : List Command :=
  adaptations reader source doc ++ siteCommands source doc

theorem scriptCommands_eq (role : Script.Role) (known : List String) (block : Option ScriptBlock) :
    scriptCommands reader source role known block = tagCommands block ++ adaptation reader source role known block := by
  cases block <;> rfl

theorem mem_tagCommands {block : Option ScriptBlock} {c : Command} (member : c ∈ tagCommands block) :
    ∃ b ∈ block, c = .remove ⟨b.span.start, b.content.start⟩ ∨ c = .remove ⟨b.content.stop, b.span.stop⟩ := by
  cases block with
  | none => cases member
  | some block => exact ⟨block, rfl, List.mem_pair.mp member⟩

theorem inserted_removals {calls : List Command} (removals : ∀ c ∈ calls, ∃ span, c = .remove span) (side : Side) :
    inserted side i calls = [] := by
  refine inserted_nil fun j member _ => ?_
  obtain ⟨c, made, insertion⟩ := List.mem_filterMap.mp member
  obtain ⟨span, rfl⟩ := removals c made
  cases insertion

/-- Only the content commands and the wrappers insert. -/
theorem inserted_core (side : Side) (i : Nat) : inserted side i (coreCommands reader source doc) =
    inserted side i (adaptations reader source doc) ++
      (inserted side i (markupPlan source 0 (blocks doc)).commands ++ inserted side i (siteCommands source doc)) := by
  have tags (block : Option ScriptBlock) : inserted side i (tagCommands block) = [] := by
    refine inserted_removals (fun c member => ?_) side
    obtain ⟨b, _, same⟩ := mem_tagCommands member
    exact same.elim (fun same => ⟨_, same⟩) fun same => ⟨_, same⟩
  have styles : inserted side i (stylePlan doc.styles).commands = [] := by
    refine inserted_removals (fun c member => ?_) side
    rw [stylePlan_commands] at member
    obtain ⟨span, _, rfl⟩ := List.mem_map.mp member
    exact ⟨span, rfl⟩
  simp only [coreCommands, scriptCommands_eq, adaptations, inserted_append, tags, styles, List.nil_append, List.append_assoc]
  rfl

/-- An offset at which neither a tag of a script nor a style starts. -/
structure Bare (doc : Document) (i : Nat) : Prop where
  opening : ∀ block ∈ doc.scripts, block.span.start ≠ i
  closing : ∀ block ∈ doc.scripts, block.content.stop ≠ i
  style : ∀ style ∈ doc.styles, style.start ≠ i

/-- Nothing is removed as a tag or a style outside the blocks and in the content of a script. -/
theorem Bare.of_held (zoned : Zoned source.toList doc zones)
    (scripts : ∀ block ∈ doc.scripts, block.span.contains i = true → block.content.start ≤ i ∧ i < block.content.stop)
    (styles : ∀ style ∈ doc.styles, style.contains i = false) : Bare doc i where
  opening block listed here := by
    have ordered := (zoned.script_holds listed).toOrdered
    have opens := ordered.opening
    have content := ordered.content
    have closes := ordered.closing
    have := scripts block listed (Span.contains_iff.mpr ⟨Nat.le_of_eq here, by omega⟩)
    omega
  closing block listed here := by
    have ordered := (zoned.script_holds listed).toOrdered
    have opens := ordered.opening
    have content := ordered.content
    have closes := ordered.closing
    have := scripts block listed (Span.contains_iff.mpr ⟨by omega, by omega⟩)
    omega
  style style listed here := by
    have filled : style.start < style.stop := (zoned.stand _ (zoned.style_mem listed)).proper
    have holds : style.contains i = true := Span.contains_iff.mpr ⟨Nat.le_of_eq here, by omega⟩
    rw [styles style listed] at holds
    cases holds

theorem editAt?_removals {calls : List Command} (removals : ∀ c ∈ calls, ∃ span : Span, c = .remove span ∧ span.start ≠ i) :
    editAt? calls i = none := by
  refine editAt?_none fun r member => ?_
  obtain ⟨c, made, edit⟩ := List.mem_filterMap.mp member
  obtain ⟨span, rfl, elsewhere⟩ := removals c made
  rw [Buffer.edit?_reach edit]
  exact elsewhere

/-- Where no tag and no style is removed, only the content commands edit. -/
theorem Bare.editAt? (bare : Bare doc i) :
    editAt? (coreCommands reader source doc) i = editAt? (contentCommands reader source doc) i := by
  have tags (block : Option ScriptBlock) (listed : ∀ b ∈ block, b ∈ doc.scripts) :
      Edit.editAt? (tagCommands block) i = none := by
    refine editAt?_removals fun c member => ?_
    obtain ⟨b, found, rfl | rfl⟩ := mem_tagCommands member
    · exact ⟨_, rfl, bare.opening b (listed b found)⟩
    · exact ⟨_, rfl, bare.closing b (listed b found)⟩
  have styles : Edit.editAt? (stylePlan doc.styles).commands i = none := by
    refine editAt?_removals fun c member => ?_
    rw [stylePlan_commands] at member
    obtain ⟨span, listed, rfl⟩ := List.mem_map.mp member
    exact ⟨span, rfl, bare.style span listed⟩
  have markup : Edit.editAt? (markupPlan source 0 (blocks doc)).commands i = none := by
    have none : edits (markupPlan source 0 (blocks doc)).commands = [] := markupPlan_edits source 0 (blocks doc)
    rw [Edit.editAt?, none]
    rfl
  have shared := tags doc.moduleScript fun b found => List.mem_append_right _ (Option.mem_toList.mpr found)
  have own := tags doc.instanceScript fun b found => List.mem_append_left _ (Option.mem_toList.mpr found)
  simp only [coreCommands, scriptCommands_eq, contentCommands, adaptations, siteCommands, editAt?_append, shared, own, styles,
    markup, Option.none_or, Option.or_assoc]

theorem removal_mem {span : Span} (filled : span.start < span.stop)
    (listed : span ∈ doc.styles ∨ ∃ block ∈ doc.scripts,
      span = ⟨block.span.start, block.content.start⟩ ∨ span = ⟨block.content.stop, block.span.stop⟩) :
    ⟨span, ""⟩ ∈ edits (coreCommands reader source doc) := by
  have edit : (Command.remove span).edit? = some ⟨span, ""⟩ := if_neg (by simpa [Span.isEmpty] using Nat.ne_of_lt filled)
  refine List.mem_filterMap.mpr ⟨.remove span, ?_, edit⟩
  simp only [coreCommands, scriptCommands_eq, List.mem_append]
  rcases listed with style | ⟨block, listed, tag⟩
  · refine .inr (.inr (.inl ?_))
    rw [stylePlan_commands]
    exact List.mem_map_of_mem style
  · have made : .remove span ∈ (tagPlan block).commands := by
      refine List.mem_pair.mpr ?_
      rcases tag with rfl | rfl
      · exact .inl rfl
      · exact .inr rfl
    rcases List.mem_append.mp listed with own | shared
    · rw [Option.mem_toList.mp own]
      exact .inr (.inl (.inl made))
    · rw [Option.mem_toList.mp shared]
      exact .inl (.inl made)

/-- The adaptations of the scripts of a component stay inside their contents. -/
def Confined (reader : Script.Reader) (source : String) (doc : Document) : Prop :=
  ∀ block ∈ doc.scripts, ∀ role known,
    (scriptPlan reader source role known block).1.Each fun c => block.content.covers c.reach = true

/-- Positions inside the contents are enough for that: the end tag of a script begins with an angle bracket, so no blanks
lead out of its content. -/
theorem Reads.confined (within : Reads reader source doc Script.Outline.Within) (scanned : scan source = .ok doc) :
    Confined reader source doc := by
  obtain ⟨zones, zoned⟩ := scan_zoned scanned
  intro block listed role known
  obtain ⟨front, content, back, whole, placed, slice⟩ := (zoned.script_holds listed).cut
  obtain ⟨front', back', whole', starts, -⟩ := Text.slice?_eq_some_iff.mp (scan_scripts scanned block listed).closing
  have cut := Text.split?_width (front ++ content) back
  have cut' := Text.split?_width front' ("</script>".toList ++ back')
  rw [List.append_assoc, ← whole, Text.width_append] at cut
  rw [← whole', starts, placed] at cut'
  obtain rfl : back = "</script>".toList ++ back' := congrArg Prod.snd (Option.some.inj (cut.symm.trans cut'))
  unfold scriptPlan
  split
  · next outline read =>
    have inside := within block listed outline read
    rw [slice, Option.getD_some, String.toList_ofList] at inside
    intro c made
    rw [placed] at made ⊢
    exact Span.covers_iff.mpr (Script.itemsPlan_inside whole rfl inside role _ c made)
  · exact Plan.each_nil

theorem adaptations_inside (confined : Confined reader source doc) {j : Insertion}
    (member : j ∈ insertions (adaptations reader source doc)) :
    ∃ block ∈ doc.scripts, block.content.start ≤ j.offset ∧ j.offset ≤ block.content.stop := by
  have once {role : Script.Role} {known : List String} {block : Option ScriptBlock} (listed : ∀ b ∈ block, b ∈ doc.scripts)
      (member : j ∈ insertions (adaptation reader source role known block)) :
      ∃ block ∈ doc.scripts, block.content.start ≤ j.offset ∧ j.offset ≤ block.content.stop := by
    cases block with
    | none => cases member
    | some block =>
      obtain ⟨c, made, insertion⟩ := List.mem_filterMap.mp member
      obtain ⟨lower, upper⟩ := Span.covers_iff.mp (confined block (listed block rfl) role known c made)
      rw [← Buffer.insertion?_reach insertion] at lower upper
      exact ⟨block, listed block rfl, lower, upper⟩
  rw [adaptations, insertions, List.filterMap_append] at member
  rcases List.mem_append.mp member with shared | own
  · exact once (fun b found => List.mem_append_right _ (Option.mem_toList.mpr found)) shared
  · exact once (fun b found => List.mem_append_left _ (Option.mem_toList.mpr found)) own

theorem siteCommands_before (zoned : Zoned source.toList doc zones) {j : Insertion}
    (member : j ∈ insertions (siteCommands source doc)) (side : j.side = .before) :
    ∃ placed ∈ doc.tags, ∃ content ∈ placed.tag.content, j.offset = content.start := by
  obtain ⟨c, made, insertion⟩ := List.mem_filterMap.mp member
  obtain ⟨site, listed, made⟩ := List.mem_flatMap.mp made
  have inserts := Directive.Site.plan_inserts (zoned.directive_ordered (site_directive listed))
    (List.mem_filterMap.mpr ⟨c, made, insertion⟩)
  obtain ⟨placed, tag, inTag⟩ := List.mem_flatMap.mp listed
  obtain ⟨d, _, rfl⟩ := List.mem_map.mp inTag
  cases inserts with
  | trailing => cases side
  | opening inside => exact ⟨placed, tag, _, inside, rfl⟩
  | closing => cases side

end Commands

section Marks

variable {reader : Script.Reader} {source : String} {doc : Document} {i start stop : Nat} {marks more : List Command}

/-- What the content commands insert at a boundary together with some wrappers. -/
def marked (reader : Script.Reader) (source : String) (doc : Document) (marks : List Command) (i : Nat) : List UInt8 :=
  insertedAt (adaptations reader source doc ++ (marks ++ siteCommands source doc)) i

theorem insertedAt_core (i : Nat) : insertedAt (coreCommands reader source doc) i =
    marked reader source doc (markupPlan source 0 (blocks doc)).commands i := by
  simp only [marked, insertedAt, inserted_core, inserted_append]

theorem marked_append_left (quiet : ∀ j ∈ insertions more, j.offset ≠ i) :
    marked reader source doc (marks ++ more) i = marked reader source doc marks i := by
  have none (side : Side) : inserted side i more = [] := inserted_nil fun j member _ => quiet j member
  simp only [marked, insertedAt, inserted_append, none, List.append_nil]

theorem marked_append_right (quiet : ∀ j ∈ insertions marks, j.offset ≠ i) :
    marked reader source doc (marks ++ more) i = marked reader source doc more i := by
  have none (side : Side) : inserted side i marks = [] := inserted_nil fun j member _ => quiet j member
  simp only [marked, insertedAt, inserted_append, none, List.nil_append]

theorem marked_quiet (quiet : ∀ j ∈ insertions marks, j.offset ≠ i) :
    marked reader source doc marks i = insertedAt (contentCommands reader source doc) i := by
  have none (side : Side) : inserted side i marks = [] := inserted_nil fun j member _ => quiet j member
  simp only [marked, contentCommands, insertedAt, inserted_append, none, List.nil_append]

def wrappers (wrapped : List Span) : List Command := wrapped.flatMap fun w => wrapper w.start w.stop

theorem wrapper_offset {first last : Nat} {j : Insertion} (member : j ∈ insertions (wrapper first last)) :
    j.offset = first ∨ j.offset = last := by
  rcases List.mem_pair.mp member with rfl | rfl
  · exact .inl rfl
  · exact .inr rfl

/-- A wrapper opens behind all that is appended there, when nothing is put in front of its first byte. -/
theorem marked_opening {first last : Nat} (order : first < last)
    (adapted : ∀ j ∈ insertions (adaptations reader source doc), j.offset ≠ first)
    (unopened : ∀ j ∈ insertions (siteCommands source doc), j.side = .before → j.offset ≠ first) :
    marked reader source doc (wrapper first last) first =
      insertedAt (contentCommands reader source doc) first ++ bytes markupOpening.toList := by
  have noScript (side : Side) : inserted side first (adaptations reader source doc) = [] :=
    inserted_nil fun j member _ => adapted j member
  have noSite : inserted .before first (siteCommands source doc) = [] := inserted_nil unopened
  have opens : inserted .before first (wrapper first last) = [markupOpening] := by
    simp [wrapper, inserted, insertions, Command.insertion?]
  have later : inserted .after first (wrapper first last) = [] := by
    simp [wrapper, inserted, insertions, Command.insertion?, Nat.ne_of_gt order]
  simp [marked, contentCommands, insertedAt, inserted_append, noScript, noSite, opens, later]

theorem marked_closing {first last : Nat} (order : first < last)
    (adapted : ∀ j ∈ insertions (adaptations reader source doc), j.offset ≠ last) :
    marked reader source doc (wrapper first last) last =
      bytes markupClosing.toList ++ insertedAt (contentCommands reader source doc) last := by
  have noScript (side : Side) : inserted side last (adaptations reader source doc) = [] :=
    inserted_nil fun j member _ => adapted j member
  have closes : inserted .after last (wrapper first last) = [markupClosing] := by
    simp [wrapper, inserted, insertions, Command.insertion?]
  have earlier : inserted .before last (wrapper first last) = [] := by
    simp [wrapper, inserted, insertions, Command.insertion?, Nat.ne_of_lt order]
  simp [marked, contentCommands, insertedAt, inserted_append, noScript, closes, earlier]

theorem wrapPlan_between {j : Insertion} (order : start ≤ stop)
    (member : j ∈ insertions (wrapPlan source start stop).commands) : start ≤ j.offset ∧ j.offset ≤ stop := by
  rcases wrapPlan_cases source start stop with ⟨none, _⟩ | ⟨first, last, trimmed, made⟩
  · rw [none] at member
    cases member
  · rw [made] at member
    rw [Nat.max_eq_left order] at trimmed
    have lead := trimmed.lead.order
    have trail := trimmed.trail.order
    have inner := trimmed.order
    rcases wrapper_offset member with same | same
    · omega
    · omega

theorem markupPlan_behind {blocks ahead : List Span} (h : Ahead source.toList blocks ahead start) {j : Insertion}
    (member : j ∈ insertions (markupPlan source start ahead).commands) : start ≤ j.offset := by
  induction ahead generalizing start with
  | nil => exact (wrapPlan_between (Text.le_width_of_isBoundary h.boundary) member).1
  | cons block ahead ih =>
    have low := h.lower block List.mem_cons_self
    rw [markupPlan, Plan.commands_append, insertions, List.filterMap_append] at member
    rcases List.mem_append.mp member with first | rest
    · exact (wrapPlan_between low first).1
    · have filled := (h.bounded block (h.listed block List.mem_cons_self)).order
      have behind := ih h.next rest
      omega

section Ahead

variable {block : Span} {ahead : List Span} (h : Ahead source.toList (blocks doc) (block :: ahead) start)
include h

/-- Up to the next block only the wrapper in front of it counts. -/
theorem Ahead.marked_before (upper : i ≤ block.start) :
    marked reader source doc (markupPlan source start (block :: ahead)).commands i =
      marked reader source doc (wrapPlan source start block.start).commands i := by
  rw [markupPlan, Plan.commands_append]
  refine marked_append_left fun j member => ?_
  have order := (h.bounded block (h.listed block List.mem_cons_self)).order
  have behind := markupPlan_behind h.next member
  omega

/-- From the next block on, only the wrappers behind it count. -/
theorem Ahead.marked_next (lower : block.stop ≤ i) :
    marked reader source doc (markupPlan source start (block :: ahead)).commands i =
      marked reader source doc (markupPlan source block.stop ahead).commands i := by
  rw [markupPlan, Plan.commands_append]
  refine marked_append_right fun j member => ?_
  have order := (h.bounded block (h.listed block List.mem_cons_self)).order
  have before := (wrapPlan_between (h.lower block List.mem_cons_self) member).2
  omega

end Ahead

theorem markup_mem_core {c : Command} (member : c ∈ (markupPlan source 0 (blocks doc)).commands) :
    c ∈ coreCommands reader source doc := by
  simp only [coreCommands, List.mem_append]
  exact .inr (.inr (.inr (.inl member)))

end Marks

theorem mem_blocks_iff {doc : Document} {span : Span} :
    span ∈ blocks doc ↔ span ∈ doc.scripts.map (·.span) ++ doc.styles := List.mem_mergeSort

theorem script_mem_blocks {doc : Document} {block : ScriptBlock} (listed : block ∈ doc.scripts) : block.span ∈ blocks doc :=
  mem_blocks_iff.mpr (List.mem_append_left _ (List.mem_map_of_mem listed))

theorem style_mem_blocks {doc : Document} {style : Span} (listed : style ∈ doc.styles) : style ∈ blocks doc :=
  mem_blocks_iff.mpr (List.mem_append_right _ listed)

end SvelteLens.Projection
