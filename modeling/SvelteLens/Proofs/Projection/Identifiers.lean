import SvelteLens.Proofs.Edit.Runs
import SvelteLens.Proofs.Projection.Declarations
import SvelteLens.Proofs.Projection.Marks
import SvelteLens.Proofs.Script.Names

/-! The identifiers of declarations. A declaration is found in the projected text, and its range starts at the
identifier. It is the range of the identifier when that is written without escapes, in a script that does not begin with
a byte-order mark. -/
namespace SvelteLens

open Text (width byteAt?)

theorem Span.covers_trans {s t u : Span} (h : s.covers t = true) (k : t.covers u = true) : s.covers u = true := by
  rw [Span.covers_iff] at h k ⊢
  omega

namespace Edit.Buffer

variable {b : Buffer} {span : Span}

/-- A range that is left alone is found in the edited text in one piece, byte for byte. -/
theorem Leaves.shown (leaves : b.Leaves span) (valid : b.Consistent) (filled : span.start < span.stop)
    (inside : span.stop ≤ b.length) :
    ∃ g, Projection.generatedSpan? b.render.map span = some ⟨g, g + (span.stop - span.start)⟩ ∧
      ∀ n < span.stop - span.start, byteAt? b.render.text (g + n) = byteAt? b.source (span.start + n) := by
  obtain ⟨before, start, run, after, keeps, reaches⟩ := leaves.run valid filled inside
  have lower := keeps.lower
  have forward := keeps.forward valid (Nat.lt_of_lt_of_le filled inside)
  have found := valid.tiled.segmentAt? (keeps.member valid) keeps.generated_contains
  have exact : (segmentOf before start run).isExact = true := by simp [segmentOf, Segment.isExact, Span.length?]
  refine ⟨width (before.flatMap Block.chars) + (span.start - start), ?_, fun n less => ?_⟩
  · simp only [Projection.generatedSpan?, forward, found, bind, Option.bind_some, exact, Bool.true_and]
    rw [if_pos]
    rw [Span.covers_iff]
    simp only [segmentOf]
    omega
  · have here : Keeps b (span.start + n) before start run after := ⟨keeps.blocks, by omega, by omega⟩
    rw [← here.byte valid]
    congr 1
    omega

end Edit.Buffer

namespace Projection

open Edit Markup
open Edit.Buffer (framed)

variable {reader : Script.Reader} {source : String} {doc : Document} {zones : List Zone} {path : Option Path}
  {p : Projection} {block : ScriptBlock} {range : Span}

section Sparing

variable {shared : Bool}

theorem apart_of_zones (zoned : Zoned source.toList doc zones) (member : .script shared block ∈ zones)
    (inside : block.span.covers range = true) {z : Zone} (other : z ∈ zones) (differ : z ≠ .script shared block) {u : Span}
    (covers : z.span.covers u = true) : u.Apart range :=
  apart_of_covers ((zoned.apart other member).resolve_left differ) covers inside

theorem tagCommands_spare (zoned : Zoned source.toList doc zones) (member : .script shared block ∈ zones)
    (inside : block.content.covers range = true) {other : Option ScriptBlock} {turned : Bool}
    (listed : ∀ b ∈ other, .script turned b ∈ zones) : Spares (tagCommands other) range := by
  have ordered := (zoned.stand _ member).holds.toOrdered
  have whole : block.span.covers range = true := Span.covers_trans ordered.covers_content inside
  refine .of_reach fun c made => ?_
  obtain ⟨b, found, tag⟩ := mem_tagCommands made
  have zone := listed b found
  have placed := (zoned.stand _ zone).holds.toOrdered
  have opens := placed.opening
  have content := placed.content
  have closes := placed.closing
  by_cases same : Zone.script turned b = .script shared block
  · cases same
    rw [Span.covers_iff] at inside
    rcases tag with rfl | rfl
    · exact .inl inside.1
    · exact .inr inside.2
  · refine apart_of_zones zoned member whole zone same (Span.covers_iff.mpr ?_)
    have span : (Zone.script turned b).span = b.span := rfl
    rw [span]
    rcases tag with rfl | rfl
    · exact ⟨Nat.le_refl _, Nat.le_trans content (Nat.le_of_lt closes)⟩
    · exact ⟨Nat.le_trans (Nat.le_of_lt opens) content, Nat.le_refl _⟩

theorem stylePlan_spares (zoned : Zoned source.toList doc zones) (member : .script shared block ∈ zones)
    (inside : block.span.covers range = true) : Spares (stylePlan doc.styles).commands range := by
  refine .of_reach fun c made => ?_
  rw [stylePlan_commands] at made
  obtain ⟨s, listed, rfl⟩ := List.mem_map.mp made
  exact apart_of_zones zoned member inside (zoned.style_mem listed) nofun (Span.covers_iff.mpr ⟨Nat.le_refl _, Nat.le_refl _⟩)

theorem markupPlan_spares (zoned : Zoned source.toList doc zones) (listed : block ∈ doc.scripts)
    (inside : block.span.covers range = true) : Spares (markupPlan source 0 (blocks doc)).commands range := by
  refine .of_reach fun c made => ?_
  obtain ⟨start, stop, offset, region, edge, inserts⟩ := (markupPlan_wraps (blocks_ahead zoned)).2 c made
  have lower := edge.lower
  have upper := edge.upper
  rw [inserts.reach]
  rw [Span.covers_iff] at inside
  rcases region.outside block.span (script_mem_blocks listed) with before | behind
  · exact .inr (Nat.le_trans inside.2 (Nat.le_trans before lower))
  · exact .inl (Nat.le_trans upper (Nat.le_trans behind inside.1))

theorem siteCommands_spare (zoned : Zoned source.toList doc zones) (framed : Framed source.toList doc zones)
    (member : .script shared block ∈ zones) (inside : block.span.covers range = true) :
    Spares (siteCommands source doc) range := by
  have elsewhere {site : Directive.Site} (listed : site ∈ sites source doc) {u : Span}
      (covers : site.directive.span.covers u = true) : u.Apart range :=
    apart_of_zones zoned member inside (zoned.directive_mem (site_directive listed)) nofun covers
  refine ⟨fun r asked => ?_, fun i asked => ?_⟩
  · obtain ⟨c, made, edit⟩ := List.mem_filterMap.mp asked
    obtain ⟨site, listed, made⟩ := List.mem_flatMap.mp made
    have within := Directive.Site.plan_inside (zoned.directive_ordered (site_directive listed))
      (List.mem_filterMap.mpr ⟨c, made, edit⟩)
    exact elsewhere listed (Span.covers_iff.mpr within)
  · obtain ⟨c, made, insertion⟩ := List.mem_filterMap.mp asked
    obtain ⟨site, listed, made⟩ := List.mem_flatMap.mp made
    have inserts := Directive.Site.plan_inserts (zoned.directive_ordered (site_directive listed))
      (List.mem_filterMap.mpr ⟨c, made, insertion⟩)
    obtain ⟨placed, tag, inTag⟩ := List.mem_flatMap.mp listed
    obtain ⟨d, _, rfl⟩ := List.mem_map.mp inTag
    have clear {offset : Nat} (seam : Seam source.toList zones offset) : (Span.empty offset).Apart range := by
      have whole : (Span.empty offset).covers (Span.empty offset) = true := Span.covers_iff.mpr ⟨Nat.le_refl _, Nat.le_refl _⟩
      exact apart_of_covers (seam.clear _ member).symm whole inside
    cases inserts with
    | trailing behind upto => exact elsewhere listed (Span.covers_iff.mpr ⟨Nat.le_of_lt behind, upto⟩)
    | opening content => exact clear (framed.contents placed tag _ content).1
    | closing content => exact clear (framed.contents placed tag _ content).2

/-- Only the adaptation of the scripts can touch their contents. -/
theorem coreCommands_spare (zoned : Zoned source.toList doc zones) (framed : Framed source.toList doc zones)
    (member : .script shared block ∈ zones) (listed : block ∈ doc.scripts) (inside : block.content.covers range = true)
    (adapted : Spares (adaptation reader source .shared [] doc.moduleScript) range)
    (adapted' : Spares (adaptation reader source .perInstance (moduleNames reader source doc) doc.instanceScript) range) :
    Spares (coreCommands reader source doc) range := by
  have whole : block.span.covers range = true := Span.covers_trans (zoned.stand _ member).holds.covers_content inside
  rw [coreCommands, scriptCommands_eq, scriptCommands_eq]
  exact ((tagCommands_spare zoned member inside zoned.moduleScript).append adapted).append
    (((tagCommands_spare zoned member inside zoned.instanceScript).append adapted').append
      ((stylePlan_spares zoned member whole).append ((markupPlan_spares zoned listed whole).append
        (siteCommands_spare zoned framed member whole))))

end Sparing

/-- The names that are read from the scripts stand in their contents. A byte-order mark is not part of a script, so
positions count from behind it. -/
def NamesStand (reader : Script.Reader) (source : String) (doc : Document) : Prop :=
  ∀ block ∈ doc.scripts, ∀ content, block.content.slice? source = some content →
    ∀ outline, outline? reader source block = some outline →
      ∃ spans, outline.Stands (Script.unmarked content.toList) spans

/-- No script begins with a byte-order mark. -/
def Unmarked (source : String) (doc : Document) : Prop :=
  ∀ block ∈ doc.scripts, ∀ content, block.content.slice? source = some content →
    Script.unmarked content.toList = content.toList

section Adapting

variable {role : Script.Role} {known : List String}

/-- The edits of an unmarked script lie in its content, and leave the names alone that it declares. -/
theorem scriptPlan_stands (stand : NamesStand reader source doc) (plain : Unmarked source doc) (listed : block ∈ doc.scripts)
    (holds : block.Holds source) :
    (∀ c ∈ (scriptPlan reader source role known block).1.commands, block.content.covers c.reach = true) ∧
    ∀ d ∈ Projection.listed reader source role known block, block.content.covers d.span = true ∧ d.span.start < d.span.stop ∧
      ∀ c ∈ (scriptPlan reader source role known block).1.commands, c.reach.Apart d.span := by
  obtain ⟨front, content, back, whole, placed, slice⟩ := holds.cut
  have unmarked := plain block listed _ slice
  have stand := stand block listed _ slice
  rw [unmarked, String.toList_ofList] at stand
  unfold Projection.listed scriptPlan
  cases read : outline? reader source block with
  | none => exact ⟨nofun, nofun⟩
  | some outline =>
    obtain ⟨spans, ordered, inside, items⟩ := stand outline read
    have start : role = .perInstance → Script.KnownAt (Script.topNames known outline) [] (Script.topNames known outline) :=
      fun _ => .start _
    have covered {u s : Span} (member : s ∈ spans) (within : Script.Surrounds (width front) s u) :
        block.content.covers u = true := by
      have bound := inside s member
      rw [placed, Span.covers_iff]
      simp only [Script.Surrounds] at within ⊢
      omega
    simp only [placed, Option.elim_some, Script.adaptationPlan]
    refine ⟨fun c made => ?_, fun d found => ?_⟩
    · obtain ⟨s, member, within⟩ := Script.itemsPlan_reach whole items made
      exact placed ▸ covered member within
    · obtain ⟨e, entry, rfl⟩ := List.mem_map.mp found
      obtain ⟨s, member, stands⟩ := Script.entries_stand items entry
      exact ⟨placed ▸ covered member (stands.within _), stands.filled _,
        fun c made => Script.itemsPlan_apart whole items ordered start entry made⟩

/-- The adaptation of either script leaves the names alone that one of them declares. -/
theorem adaptation_spares (zoned : Zoned source.toList doc zones) (stand : NamesStand reader source doc)
    (plain : Unmarked source doc) {shared turned : Bool} (zone : .script shared block ∈ zones) (listed : block ∈ doc.scripts)
    {role' : Script.Role} {known' : List String} {d : Script.Declaration}
    (found : d ∈ Projection.listed reader source role known block) {other : Option ScriptBlock}
    (zones' : ∀ b ∈ other, .script turned b ∈ zones ∧ b ∈ doc.scripts)
    (same : ∀ b ∈ other, Zone.script turned b = .script shared block → role' = role ∧ known' = known) :
    Spares (adaptation reader source role' known' other) d.span := by
  have holds := (zoned.stand _ zone).holds
  cases other with
  | none => exact ⟨nofun, nofun⟩
  | some b =>
    obtain ⟨zone', listed'⟩ := zones' b rfl
    refine .of_reach fun c made => ?_
    have made : c ∈ (scriptPlan reader source role' known' b).1.commands := made
    by_cases here : Zone.script turned b = .script shared block
    · obtain ⟨rfl, rfl⟩ := same b rfl here
      cases here
      exact ((scriptPlan_stands stand plain listed holds).2 d found).2.2 c made
    · have holds' := (zoned.stand _ zone').holds
      have inner := (scriptPlan_stands stand plain listed' holds').1 c made
      have own := ((scriptPlan_stands stand plain listed holds).2 d found).1
      exact apart_of_zones zoned zone (Span.covers_trans holds.covers_content own) zone' here
        (Span.covers_trans holds'.covers_content inner)

end Adapting

/-- A declaration as it is written in the content of a script: the characters of its identifier, from a position that
counts from behind a byte-order mark. -/
structure Declaration.WrittenIn (source : String) (block : ScriptBlock) (content : String) (start : Nat) (word : List Char)
    (escaped : Bool) (d : Declaration) : Prop where
  slice : block.content.slice? source = some content
  written : Script.WordAt (Script.unmarked content.toList) start word d.name escaped
  range : d.source = Script.nameSpan block.content.start ⟨d.name, start⟩

def wordSpan (block : ScriptBlock) (content : String) (start : Nat) (word : List Char) : Span :=
  let offset := block.content.start + (width content.toList - width (Script.unmarked content.toList)) + start
  ⟨offset, offset + width word⟩

theorem unmarked_cases (content : List Char) :
    Script.unmarked content = content ∨ content = '\uFEFF' :: Script.unmarked content := by
  unfold Script.unmarked
  split
  · exact .inr rfl
  · exact .inl rfl

theorem unmarked_iff {content : List Char} :
    Script.unmarked content = content ↔ width content = width (Script.unmarked content) := by
  constructor
  · intro same
    rw [same]
  · intro same
    refine (unmarked_cases content).resolve_right fun marked => ?_
    have longer := congrArg width marked
    have mark := ('\uFEFF').utf8Size_pos
    rw [Text.width_cons] at longer
    omega

namespace Declaration.WrittenIn

variable {content : String} {start : Nat} {word : List Char} {escaped : Bool} {d : Declaration}

theorem wordSpan_slice (h : d.WrittenIn source block content start word escaped) (holds : block.Holds source) :
    (wordSpan block content start word).slice? source = some (String.ofList word) := by
  obtain ⟨front, run, back, whole, placed, slice⟩ := holds.cut
  rw [h.slice, Option.some.injEq] at slice
  subst slice
  obtain ⟨first, behind, parts, same, -⟩ := h.written.read
  rw [String.toList_ofList] at parts
  obtain ⟨mark, marked⟩ : ∃ mark, run = mark ++ Script.unmarked run := by
    rcases unmarked_cases run with plain | marked
    · exact ⟨[], plain.symm⟩
    · exact ⟨['\uFEFF'], marked⟩
  have long := congrArg width marked
  rw [Text.width_append] at long
  refine Option.map_eq_some_iff.mpr
    ⟨word, Text.slice?_eq_some_iff.mpr ⟨front ++ mark ++ first, behind ++ back, ?_, ?_, rfl⟩, rfl⟩
  · rw [whole]
    conv => lhs; rw [marked, parts]
    simp
  · simp only [wordSpan, placed, Text.width_append, String.toList_ofList]
    omega

/-- The range of a declaration is that of its identifier exactly when nothing of it is escaped and no byte-order mark
was passed over. -/
theorem source_iff (h : d.WrittenIn source block content start word escaped) :
    d.source = wordSpan block content start word ↔ escaped = false ∧ Script.unmarked content.toList = content.toList := by
  rw [h.range, ← h.written.width_eq_iff, unmarked_iff]
  have shorter : width (Script.unmarked content.toList) ≤ width content.toList := by
    rcases unmarked_cases content.toList with plain | marked
    · rw [plain]
    · have longer := congrArg width marked
      rw [Text.width_cons] at longer
      omega
  simp only [Script.nameSpan, wordSpan, Span.mk.injEq]
  omega

end Declaration.WrittenIn

/-- What a script declares is written in its content. -/
theorem listed_written (stand : NamesStand reader source doc) (member : block ∈ doc.scripts) (holds : block.Holds source)
    {role : Script.Role} {known : List String} {d : Declaration}
    (found : ⟨d.name, d.kind, d.source⟩ ∈ listed reader source role known block) :
    ∃ content start word escaped, d.WrittenIn source block content start word escaped := by
  obtain ⟨content, slice, -⟩ := holds.slice
  unfold listed at found
  cases read : outline? reader source block with
  | none =>
    rw [read] at found
    cases found
  | some outline =>
    obtain ⟨spans, stands⟩ := stand block member content slice outline read
    rw [read] at found
    obtain ⟨e, entry, same⟩ := List.mem_map.mp found
    obtain ⟨s, -, -, word, escaped, written, -⟩ := Script.entries_stand stands.items entry
    simp only [Script.Entry.declaration, Script.Declaration.mk.injEq] at same
    obtain ⟨name, -, source⟩ := same
    exact ⟨content, e.binding.start, word, escaped, slice, name ▸ written, by rw [← source, ← name]⟩

theorem generated_eq (projected : ofComponent reader source doc path = .ok p) {d : Declaration}
    (member : d ∈ p.declarations) : d.generated = generatedSpan? p.map d.source := by
  obtain ⟨⟨b, declarations, degraded⟩, made, h⟩ := chain_ok.mp projected
  cases h
  obtain ⟨e, -, rfl⟩ := List.mem_map.mp member
  rfl

/-- Without byte-order marks no edit touches a name that a script declares. -/
theorem core_spares_listed (zoned : Zoned source.toList doc zones) (framed : Framed source.toList doc zones)
    (stand : NamesStand reader source doc) (plain : Unmarked source doc) {shared : Bool} {role : Script.Role}
    {known : List String} (zone : .script shared block ∈ zones) (listed : block ∈ doc.scripts) {d : Script.Declaration}
    (among : d ∈ Projection.listed reader source role known block)
    (first : ∀ b ∈ doc.moduleScript, Zone.script true b = .script shared block → .shared = role ∧ [] = known)
    (second : ∀ b ∈ doc.instanceScript, Zone.script false b = .script shared block →
      .perInstance = role ∧ moduleNames reader source doc = known) :
    Spares (coreCommands reader source doc) d.span ∧ d.span.start < d.span.stop ∧ d.span.stop ≤ width source.toList := by
  have holds := (zoned.stand _ zone).holds
  have bound := Text.le_width_of_isBoundary (zoned.stand _ zone).boundaries.2
  obtain ⟨inside, filled, -⟩ := (scriptPlan_stands stand plain listed holds).2 _ among
  have whole := Span.covers_iff.mp (Span.covers_trans holds.covers_content inside)
  refine ⟨coreCommands_spare zoned framed zone listed inside ?_ ?_, filled, Nat.le_trans whole.2 bound⟩
  · exact adaptation_spares zoned stand plain zone listed among (fun b found =>
      ⟨zoned.moduleScript b found, List.mem_append_right _ (Option.mem_toList.mpr found)⟩) first
  · exact adaptation_spares zoned stand plain zone listed among (fun b found =>
      ⟨zoned.instanceScript b found, List.mem_append_left _ (Option.mem_toList.mpr found)⟩) second

/-- Without byte-order marks no edit touches the name of a declaration. -/
theorem core_spares_name (scanned : scan source = .ok doc) (stand : NamesStand reader source doc)
    (plain : Unmarked source doc) (projected : ofComponent reader source doc path = .ok p) {d : Declaration}
    (member : d ∈ p.declarations) : Spares (coreCommands reader source doc) d.source ∧
      d.source.start < d.source.stop ∧ d.source.stop ≤ width source.toList := by
  obtain ⟨zones, zoned, framed⟩ := scan_framed scanned
  rcases (mem_collected projected).mp (List.mem_map_of_mem member) with ⟨block, found, among⟩ | ⟨block, found, among⟩
  · have listed : block ∈ doc.scripts := List.mem_append_right _ (Option.mem_toList.mpr found)
    exact core_spares_listed zoned framed stand plain (zoned.moduleScript block found) listed among
      (fun _ _ _ => ⟨rfl, rfl⟩) nofun
  · have listed : block ∈ doc.scripts := List.mem_append_left _ (Option.mem_toList.mpr found)
    exact core_spares_listed zoned framed stand plain (zoned.instanceScript block found) listed among nofun
      fun _ _ _ => ⟨rfl, rfl⟩

/-- Every declaration starts at its identifier, behind a byte-order mark that the script may begin with, and has the
range of its identifier exactly when the identifier is written without escapes and the script without a mark. Where no
script begins with a mark, the range is found in the projected text, byte for byte. -/
theorem declarations_at_names (scanned : scan source = .ok doc) (stand : NamesStand reader source doc)
    (projected : ofComponent reader source doc path = .ok p) {d : Declaration} (member : d ∈ p.declarations) :
    (∃ block ∈ doc.scripts, ∃ content start word escaped, d.WrittenIn source block content start word escaped ∧
      (wordSpan block content start word).slice? source = some (String.ofList word) ∧
      (d.source = wordSpan block content start word ↔
        escaped = false ∧ Script.unmarked content.toList = content.toList)) ∧
    (Unmarked source doc → ∃ g, d.generated = some ⟨g, g + (d.source.stop - d.source.start)⟩ ∧
      ∀ n < d.source.stop - d.source.start, byteAt? p.text (g + n) = byteAt? source (d.source.start + n)) := by
  obtain ⟨zones, zoned⟩ := scan_zoned scanned
  refine ⟨?_, fun plain => ?_⟩
  · have written {block : ScriptBlock} {role : Script.Role} {known : List String} (listed : block ∈ doc.scripts)
        (among : ⟨d.name, d.kind, d.source⟩ ∈ Projection.listed reader source role known block) :
        ∃ block ∈ doc.scripts, ∃ content start word escaped, d.WrittenIn source block content start word escaped ∧
          (wordSpan block content start word).slice? source = some (String.ofList word) ∧
          (d.source = wordSpan block content start word ↔
            escaped = false ∧ Script.unmarked content.toList = content.toList) := by
      have holds := zoned.script_holds listed
      obtain ⟨content, start, word, escaped, written⟩ := listed_written stand listed holds among
      exact ⟨block, listed, content, start, word, escaped, written, written.wordSpan_slice holds, written.source_iff⟩
    rcases (mem_collected projected).mp (List.mem_map_of_mem member) with ⟨block, found, among⟩ | ⟨block, found, among⟩
    · exact written (List.mem_append_right _ (Option.mem_toList.mpr found)) among
    · exact written (List.mem_append_left _ (Option.mem_toList.mpr found)) among
  · obtain ⟨spares, filled, bound⟩ := core_spares_name scanned stand plain projected member
    obtain ⟨b, accepts, -, text, map⟩ := ofComponent_accepts projected
    obtain ⟨valid, -, original⟩ := accepts.keeps (Buffer.Consistent.ofSource _) (Buffer.Records.ofSource _)
    have framed : Spares (framed header (coreCommands reader source doc) (width source.toList) (closing path p)) d.source := by
      have first : Spares [.insertBefore 0 header] d.source := .of_reach fun c made => by
        obtain rfl := List.mem_singleton.mp made
        exact .inl (Nat.zero_le _)
      have last : Spares [.insertAfter (width source.toList) (closing path p)] d.source := .of_reach fun c made => by
        obtain rfl := List.mem_singleton.mp made
        exact .inr bound
      exact first.append (spares.append last)
    have leaves := accepts.leaves (Buffer.ofSource_leaves source d.source) framed
    have original : b.source = source := original
    obtain ⟨g, found, bytes⟩ := leaves.shown valid filled (by rw [Buffer.length, original]; exact bound)
    rw [original] at bytes
    exact ⟨g, by rw [generated_eq projected member, map, found], by rwa [text]⟩

def nameSample : String := "<script>export let x;</script>"

def nameOutline : Script.Outline := [.exported 0 (.variableList .mutable false [.name ⟨"x", 11⟩])]

theorem nameOutline_stands : Script.Outline.Stands "export let x;".toList [⟨0, 13⟩] nameOutline := by
  refine ⟨by decide, by decide, .cons ⟨[], [' '], 'l', "et x;".toList, rfl, rfl, by decide, by decide, by decide, ?_⟩ .nil⟩
  intro b member
  obtain rfl := List.mem_singleton.mp member
  exact ⟨by decide, ['x'], false, ⟨"export let ".toList, [';'], rfl, rfl, by decide⟩, by decide⟩

theorem declarations_at_names_sample : ∃ doc, scan nameSample = .ok doc ∧
    NamesStand Script.readOutline nameSample doc ∧ Unmarked nameSample doc ∧ ∃ p,
      ofComponent Script.readOutline nameSample doc none = .ok p ∧ ∃ d ∈ p.declarations, d.source = ⟨19, 20⟩ ∧
        (∃ block ∈ doc.scripts, ∃ content start word escaped, d.WrittenIn nameSample block content start word escaped ∧
          (wordSpan block content start word).slice? nameSample = some (String.ofList word)) ∧
        ∃ g, d.generated = some ⟨g, g + 1⟩ ∧ ∀ n < 1, byteAt? p.text (g + n) = byteAt? nameSample (19 + n) := by
  have runs : RunsAlone nameSample ⟨⟨0, 30⟩, ⟨8, 21⟩, none⟩ = true := by decide +kernel
  obtain ⟨doc, scanned, own, alone, p, projected⟩ := RunsAlone.only runs
  have slice : (⟨8, 21⟩ : Span).slice? nameSample = some "export let x;" := by decide +kernel
  have read : outline? Script.readOutline nameSample ⟨⟨0, 30⟩, ⟨8, 21⟩, none⟩ = some nameOutline := by decide +kernel
  have only : ∀ block ∈ doc.scripts, block = ⟨⟨0, 30⟩, ⟨8, 21⟩, none⟩ := by
    rw [Document.scripts, own, alone]
    intro block member
    simpa using member
  have stand : NamesStand Script.readOutline nameSample doc := by
    intro block listed content slice' outline read'
    obtain rfl := only block listed
    cases slice.symm.trans slice'
    cases read.symm.trans read'
    exact ⟨_, nameOutline_stands⟩
  have plain : Unmarked nameSample doc := by
    intro block listed content slice'
    obtain rfl := only block listed
    cases slice.symm.trans slice'
    rfl
  have prop : (⟨"x", .prop, ⟨19, 20⟩⟩ : Script.Declaration) ∈ collected p ∧ Script.DeclarationKind.prop = .prop :=
    (prop_mem_collected projected).mpr ⟨_, _, 0, _, ⟨"x", 11⟩, own, read, List.mem_cons_self, List.mem_cons_self, rfl⟩
  obtain ⟨d, member, same⟩ := List.mem_map.mp prop.1
  have source : d.source = ⟨19, 20⟩ := congrArg Script.Declaration.span same
  obtain ⟨⟨block, listed, content, start, word, escaped, written, here, -⟩, shown⟩ :=
    declarations_at_names scanned stand projected member
  have shown := shown plain
  rw [source] at shown
  exact ⟨doc, scanned, stand, plain, p, projected, d, member, source,
    ⟨block, listed, content, start, word, escaped, written, here⟩, shown⟩

def escapedSample : String := "<script>let \\u0061b = 1;</script>"

/-- The range of the declaration ends in the middle of the identifier. -/
theorem escaped_name_cut : ∃ doc, scan escapedSample = .ok doc ∧ ∃ p,
    ofComponent Script.readOutline escapedSample doc none = .ok p ∧
      p.declarations = [⟨"ab", .variable, ⟨12, 14⟩, some ⟨36, 38⟩⟩] ∧
      (⟨12, 19⟩ : Span).slice? escapedSample = some "\\u0061b" ∧ (⟨12, 14⟩ : Span).slice? escapedSample = some "\\u" := by
  have runs : ((scan escapedSample).toOption.any fun doc =>
      (ofComponent Script.readOutline escapedSample doc none).toOption.any fun p =>
        p.declarations = [⟨"ab", .variable, ⟨12, 14⟩, some ⟨36, 38⟩⟩]) = true := by decide +kernel
  obtain ⟨doc, scanned, found⟩ := ok_of_any runs
  obtain ⟨p, projected, same⟩ := ok_of_any found
  exact ⟨doc, scanned, p, projected, of_decide_eq_true same, by decide +kernel, by decide +kernel⟩

def markedSample : String := "<script>\uFEFFlet a = 1;</script>"

/-- The range of the declaration is three bytes early, inside the keyword. -/
theorem marked_name_early : ∃ doc, scan markedSample = .ok doc ∧ ∃ p,
    ofComponent Script.readOutline markedSample doc none = .ok p ∧
      p.declarations = [⟨"a", .variable, ⟨12, 13⟩, some ⟨36, 37⟩⟩] ∧
      (⟨15, 16⟩ : Span).slice? markedSample = some "a" ∧ (⟨12, 13⟩ : Span).slice? markedSample = some "e" := by
  have runs : ((scan markedSample).toOption.any fun doc =>
      (ofComponent Script.readOutline markedSample doc none).toOption.any fun p =>
        p.declarations = [⟨"a", .variable, ⟨12, 13⟩, some ⟨36, 37⟩⟩]) = true := by decide +kernel
  obtain ⟨doc, scanned, found⟩ := ok_of_any runs
  obtain ⟨p, projected, same⟩ := ok_of_any found
  exact ⟨doc, scanned, p, projected, of_decide_eq_true same, by decide +kernel, by decide +kernel⟩

end Projection
end SvelteLens
