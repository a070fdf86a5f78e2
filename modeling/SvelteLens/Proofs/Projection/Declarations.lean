import SvelteLens.Proofs.Edit.Bounds
import SvelteLens.Proofs.Projection.Scripts
import SvelteLens.Proofs.Script.Entries

/-! The declarations of a component: what its two scripts declare, in the order of the source. The module script
comes first in the projection, wherever it stands in the file, and the props are what the footer lists. -/
namespace SvelteLens.Projection

open Edit Markup
open Edit.Buffer (framed)
open Text (width)

variable {reader : Script.Reader} {source : String} {doc : Document} {path : Option Path} {p : Projection}
  {block : ScriptBlock} {outline : Script.Outline}

/-- What a script block declares. A block that cannot be read declares nothing. -/
def listed (reader : Script.Reader) (source : String) (role : Script.Role) (known : List String) (block : ScriptBlock) :
    List Script.Declaration :=
  (outline? reader source block).elim [] fun outline =>
    (Script.entries role (Script.topNames known outline) [] outline).map (Script.Entry.declaration block.content.start)

def moduleListed (reader : Script.Reader) (source : String) (doc : Document) : List Script.Declaration :=
  doc.moduleScript.elim [] (listed reader source .shared [])

def ownListed (reader : Script.Reader) (source : String) (doc : Document) : List Script.Declaration :=
  doc.instanceScript.elim [] (listed reader source .perInstance (moduleNames reader source doc))

theorem scriptNotes_eq {role : Script.Role} {known : List String} {block : Option ScriptBlock} :
    scriptNotes reader source role known block = block.elim [] (listed reader source role known) := by
  cases block with
  | none => rfl
  | some block =>
    simp only [scriptNotes, Option.elim_some, listed, scriptPlan]
    cases outline? reader source block with
    | none => rfl
    | some outline =>
      exact Script.itemsPlan_notes (fun _ => .start (Script.topNames known outline)) source block.content.start outline

theorem declared_eq : declared reader source doc =
    (moduleListed reader source doc ++ ownListed reader source doc).mergeSort fun d e => d.span.start ≤ e.span.start := by
  rw [declared, scriptNotes_eq, scriptNotes_eq, knownAfter_shared]
  rfl

theorem addScript_declarations {s after : Scripts} {role : Script.Role} {block : Option ScriptBlock}
    (h : addScript reader source s role block = .ok after) :
    after.declarations = s.declarations ++ scriptNotes reader source role s.known block := by
  cases block with
  | none =>
    cases h
    exact (List.append_nil _).symm
  | some block =>
    obtain ⟨⟨bare, _⟩, _, h⟩ := chain_ok.mp h
    obtain ⟨⟨final, declarations⟩, adapted, h⟩ := chain_ok.mp h
    cases h
    exact congrArg (s.declarations ++ ·) (runPlan_ok adapted).2

theorem edited_declarations {b : Buffer} {declarations : List Script.Declaration}
    {degraded : List Directive.Degraded} (h : edited reader source doc path = .ok (b, declarations, degraded)) :
    declarations = declared reader source doc := by
  unfold edited at h
  simp only at h
  obtain ⟨b₁, _, h⟩ := chain_ok.mp h
  obtain ⟨shared, moduleScript, h⟩ := chain_ok.mp h
  obtain ⟨own, instanceScript, h⟩ := chain_ok.mp h
  obtain ⟨b₂, _, h⟩ := chain_ok.mp h
  obtain ⟨b₃, _, h⟩ := chain_ok.mp h
  obtain ⟨⟨b₄, notes⟩, _, h⟩ := chain_ok.mp h
  obtain ⟨b₅, _, h⟩ := chain_ok.mp h
  cases h
  rw [addScript_declarations instanceScript, addScript_declarations moduleScript, (addScript_ok moduleScript).2]
  rfl

/-- A projection has the declarations of both scripts in source order. -/
theorem collected_eq (projected : ofComponent reader source doc path = .ok p) :
    collected p = declared reader source doc := by
  obtain ⟨⟨b, declarations, degraded⟩, made, h⟩ := chain_ok.mp projected
  cases h
  rw [← edited_declarations made, collected, List.map_map]
  exact List.map_id _

theorem collected_perm (projected : ofComponent reader source doc path = .ok p) :
    (collected p).Perm (moduleListed reader source doc ++ ownListed reader source doc) := by
  rw [collected_eq projected, declared_eq]
  exact List.mergeSort_perm _ _

theorem collected_ordered (projected : ofComponent reader source doc path = .ok p) :
    p.declarations.Pairwise fun d e => d.source.start ≤ e.source.start := by
  have sorted : (collected p).Pairwise fun d e => decide (d.span.start ≤ e.span.start) = true := by
    rw [collected_eq projected, declared_eq]
    refine List.pairwise_mergeSort (fun d e f le le' => ?_) (fun d e => ?_) _
    · simp only [decide_eq_true_eq] at le le' ⊢
      exact Nat.le_trans le le'
    · simpa using Nat.le_total d.span.start e.span.start
  rw [collected, List.pairwise_map] at sorted
  exact sorted.imp of_decide_eq_true

theorem mem_listed {role : Script.Role} {known : List String} {d : Script.Declaration} :
    d ∈ listed reader source role known block ↔ ∃ outline, outline? reader source block = some outline ∧
      ∃ before item rest, outline = before ++ item :: rest ∧
        ∃ e ∈ item.entries role (Script.topNames known outline) before, e.declaration block.content.start = d := by
  unfold listed
  cases outline? reader source block with
  | none => simp
  | some outline =>
    simp only [Option.elim_some, List.mem_map, Script.mem_entries, List.nil_append, Option.some.injEq, exists_eq_left']
    constructor
    · rintro ⟨e, ⟨before, item, rest, split, found⟩, same⟩
      exact ⟨before, item, rest, split, e, found, same⟩
    · rintro ⟨before, item, rest, split, e, found, same⟩
      exact ⟨e, ⟨before, item, rest, split, found⟩, same⟩

/-- A variable of the instance script that can be set from outside. -/
def ExportedVariable (reader : Script.Reader) (source : String) (doc : Document) (d : Script.Declaration) : Prop :=
  ∃ block outline start targets b, doc.instanceScript = some block ∧ outline? reader source block = some outline ∧
    .exported start (.variableList .mutable false targets) ∈ outline ∧ .name b ∈ targets ∧
      d = ⟨b.name, .prop, Script.nameSpan block.content.start b⟩

theorem prop_mem_listed {role : Script.Role} {known : List String} {d : Script.Declaration} (kind : d.kind = .prop) :
    d ∈ listed reader source role known block ↔ role = .perInstance ∧
      ∃ outline start targets b, outline? reader source block = some outline ∧
        .exported start (.variableList .mutable false targets) ∈ outline ∧ .name b ∈ targets ∧
          d = ⟨b.name, .prop, Script.nameSpan block.content.start b⟩ := by
  rw [mem_listed]
  constructor
  · rintro ⟨outline, read, before, item, rest, rfl, ⟨b, k⟩, found, rfl⟩
    obtain rfl : k = .prop := kind
    obtain ⟨own, start, targets, rfl, member⟩ := Script.Item.prop_mem_entries.mp found
    exact ⟨own, _, start, targets, b, read, List.mem_append_right _ List.mem_cons_self, member, rfl⟩
  · rintro ⟨own, outline, start, targets, b, read, exported, member, rfl⟩
    obtain ⟨before, rest, split⟩ := List.append_of_mem exported
    exact ⟨outline, read, before, _, rest, split, _,
      Script.Item.prop_mem_entries.mpr ⟨own, start, targets, rfl, member⟩, rfl⟩

/-- What is declared by a projection is declared by one of the two scripts. -/
theorem mem_collected (projected : ofComponent reader source doc path = .ok p) {d : Script.Declaration} :
    d ∈ collected p ↔
      (∃ block, doc.moduleScript = some block ∧ d ∈ listed reader source .shared [] block) ∨
        ∃ block, doc.instanceScript = some block ∧
          d ∈ listed reader source .perInstance (moduleNames reader source doc) block := by
  rw [(collected_perm projected).mem_iff, List.mem_append, moduleListed, ownListed]
  cases doc.moduleScript <;> cases doc.instanceScript <;> simp

/-- The props are the variables that the instance script exports. -/
theorem prop_mem_collected (projected : ofComponent reader source doc path = .ok p) {d : Script.Declaration} :
    d ∈ collected p ∧ d.kind = .prop ↔ ExportedVariable reader source doc d := by
  rw [mem_collected projected]
  constructor
  · rintro ⟨⟨block, found, among⟩ | ⟨block, found, among⟩, kind⟩
    · cases ((prop_mem_listed kind).mp among).1
    · obtain ⟨-, outline, start, bindings, b, read, exported, member, same⟩ := (prop_mem_listed kind).mp among
      exact ⟨block, outline, start, bindings, b, found, read, exported, member, same⟩
  · rintro ⟨block, outline, start, bindings, b, found, read, exported, member, rfl⟩
    refine ⟨.inr ⟨block, found, (prop_mem_listed rfl).mpr ?_⟩, rfl⟩
    exact ⟨rfl, outline, start, bindings, b, read, exported, member, rfl⟩

/-- A reactive assignment that declares its target is one that is projected to a declaration. -/
theorem declares_iff_projected (projected : ofComponent reader source doc path = .ok p)
    (own : doc.instanceScript = some block) (read : outline? reader source block = some outline)
    {before after : Script.Outline} {r : Script.Reactive} (split : outline = before ++ .reactive r :: after)
    {a : Script.Assignment} (assigned : r.assignment = some a) :
    Script.Declares (Script.topNames (moduleNames reader source doc) outline) before a ↔
      DeclaresTarget p block.content.start r a := by
  obtain ⟨declares, wraps⟩ := reactive_projected projected own read split assigned
  refine ⟨declares, fun target => Decidable.by_contra fun bound => ?_⟩
  obtain ⟨b, -, valid, -, -, map⟩ := ofComponent_framed projected
  obtain ⟨s, member, origin, -⟩ := target.label
  rw [map] at member
  have proper := (valid.sources_bounds (PositionMap.mem_sources member origin)).1
  exact (wraps bound).undeclared _ (Span.contains_iff.mpr ⟨Nat.le_refl _, proper⟩) target.label

/-- The start of the footer, with the object that the component is typed by. -/
def propsText (p : Projection) : String :=
  "\n;const __sveltets_1_render = \x7b props: \x7b" ++
    ", ".intercalate ((p.declarations.filter (·.kind = .prop)).map fun d => d.name ++ ": " ++ d.name) ++
    "\x7d, slots: \x7b\x7d, events: \x7b\x7d \x7d;\nexport default class "

theorem closing_props (path : Option Path) (p : Projection) : ∃ back, closing path p = propsText p ++ back := by
  have props : ((collected p).filter (·.kind = .prop)).map (fun d => d.name ++ ": " ++ d.name) =
      (p.declarations.filter (·.kind = .prop)).map fun d => d.name ++ ": " ++ d.name := by
    rw [collected, List.filter_map, List.map_map]
    rfl
  unfold closing footer propsText
  rw [props]
  exact ⟨_, String.append_assoc⟩

/-- The declarations of a projection are the plain names that the two scripts declare, each once and by its form, in
the order of the source; the props among them are the variables that the instance script exports, a reactive
declaration is one for each statement that became a `let`, and the footer lists the props in order. -/
theorem declarations_by_form (projected : ofComponent reader source doc path = .ok p) :
    (collected p).Perm (moduleListed reader source doc ++ ownListed reader source doc) ∧
    (p.declarations.Pairwise fun d e => d.source.start ≤ e.source.start) ∧
    (∀ d, d ∈ collected p ∧ d.kind = .prop ↔ ExportedVariable reader source doc d) ∧
    (∀ block outline, doc.instanceScript = some block → outline? reader source block = some outline →
      ∀ before r after a, outline = before ++ .reactive r :: after → r.assignment = some a →
        (Script.Declares (Script.topNames (moduleNames reader source doc) outline) before a ↔
          DeclaresTarget p block.content.start r a)) ∧
    ∃ front back, p.text = front ++ (propsText p ++ back) := by
  refine ⟨collected_perm projected, collected_ordered projected, fun d => prop_mem_collected projected, ?_, ?_⟩
  · intro block outline own read before r after a split assigned
    exact declares_iff_projected projected own read split assigned
  · obtain ⟨b, -, valid, records, text, -⟩ := ofComponent_framed projected
    have last : ⟨width source.toList, .after, closing path p⟩ ∈
        insertions (framed header (coreCommands reader source doc) (width source.toList) (closing path p)) := by
      refine List.mem_cons_of_mem _ ?_
      rw [List.filterMap_append]
      exact List.mem_append_right _ List.mem_cons_self
    obtain ⟨front, back, shown⟩ := valid.shows_inserted records last
    obtain ⟨rest, props⟩ := closing_props path p
    exact ⟨front, rest ++ back, by rw [text, shown]; simp only [props, String.append_assoc]⟩

def listingSample : String := "<script>export let a;$:b=a;function f()\x7b\x7d</script>"

theorem declarations_by_form_sample : ∃ doc, scan listingSample = .ok doc ∧ ∃ p,
    ofComponent Script.readOutline listingSample doc none = .ok p ∧
      (collected p).Perm [⟨"a", .prop, ⟨19, 20⟩⟩, ⟨"b", .reactive, ⟨23, 24⟩⟩, ⟨"f", .function, ⟨36, 37⟩⟩] ∧
      (p.declarations.Pairwise fun d e => d.source.start ≤ e.source.start) ∧
      (∃ d ∈ collected p, d.kind = .prop ∧ ExportedVariable Script.readOutline listingSample doc d) ∧
      ∃ front back, p.text = front ++ (propsText p ++ back) := by
  have runs : RunsAlone listingSample ⟨⟨0, 50⟩, ⟨8, 41⟩, none⟩ = true := by decide +kernel
  obtain ⟨doc, scanned, own, alone, p, projected⟩ := RunsAlone.only runs
  obtain ⟨perm, ordered, props, -, footer⟩ := declarations_by_form projected
  have names : moduleNames Script.readOutline listingSample doc = [] := by
    rw [moduleNames, alone]
    rfl
  have shown : listed Script.readOutline listingSample .perInstance [] ⟨⟨0, 50⟩, ⟨8, 41⟩, none⟩ =
      [⟨"a", .prop, ⟨19, 20⟩⟩, ⟨"b", .reactive, ⟨23, 24⟩⟩, ⟨"f", .function, ⟨36, 37⟩⟩] := by decide +kernel
  rw [moduleListed, ownListed, names, alone, own, Option.elim_none, Option.elim_some, List.nil_append, shown] at perm
  have first : (⟨"a", .prop, ⟨19, 20⟩⟩ : Script.Declaration) ∈ collected p := perm.mem_iff.mpr (by simp)
  exact ⟨doc, scanned, p, projected, perm, ordered,
    ⟨_, first, rfl, (props _).mp ⟨first, rfl⟩⟩, footer⟩

def defaultSample : String := "<script context=\"module\">export default function f() \x7b\x7d</script>"

/-- The script can be read and declares a function at its top level, which is not listed. -/
theorem default_export_unlisted : ∃ doc, scan defaultSample = .ok doc ∧ ∃ block, doc.moduleScript = some block ∧
    block.content.slice? defaultSample = some "export default function f() \x7b\x7d" ∧
    outline? Script.readOutline defaultSample block = some [.other] ∧
    ∃ p, ofComponent Script.readOutline defaultSample doc none = .ok p ∧ p.declarations = [] := by
  have runs : ((scan defaultSample).toOption.any fun doc =>
      decide (doc.moduleScript = some ⟨⟨0, 64⟩, ⟨25, 55⟩, none⟩) &&
        (ofComponent Script.readOutline defaultSample doc none).toOption.any fun p =>
          decide (p.declarations = [])) = true := by decide +kernel
  obtain ⟨doc, scanned, found⟩ := ok_of_any runs
  obtain ⟨shared, found⟩ := Bool.and_eq_true_iff.mp found
  obtain ⟨p, projected, unlisted⟩ := ok_of_any found
  exact ⟨doc, scanned, _, of_decide_eq_true shared, by decide +kernel, by decide +kernel, p, projected,
    of_decide_eq_true unlisted⟩

end SvelteLens.Projection
