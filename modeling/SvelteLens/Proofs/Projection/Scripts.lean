import SvelteLens.Proofs.Edit.Provenance
import SvelteLens.Proofs.Projection.Margins
import SvelteLens.Proofs.Script.Adapted
import SvelteLens.Script.Parser.Module

/-! The instance script of a component. Its content is adapted item by item, and a reactive assignment declares its
target only when neither script binds the name and no reactive statement before it assigns it. -/
namespace SvelteLens.Projection

open Edit Markup
open Text (width)

variable {reader : Script.Reader} {source : String} {doc : Document} {path : Option Path} {p : Projection}
  {block : ScriptBlock} {outline : Script.Outline}

/-- The adaptation of an instance script goes through, and only the content changes, as its items say. -/
theorem instance_script_adapted {front content back : List Char} (whole : source.toList = front ++ (content ++ back))
    (inside : block.content = ⟨width front, width front + width content⟩)
    (read : outline? reader source block = some outline) (reported : outline.Reported content) (known : List String) :
    ∃ b out, (scriptPlan reader source .perInstance known block).1.run (Buffer.ofSource source) =
        ⟨b, (scriptPlan reader source .perInstance known block).1.notes, none⟩ ∧
      b.render.text = String.ofList (front ++ (out ++ back)) ∧
      Script.Adapts (Script.topNames known outline) [] 0 outline content out ∧
      ∀ other, Script.Adapts (Script.topNames known outline) [] 0 outline content other → other = out := by
  have plan : (scriptPlan reader source .perInstance known block).1 =
      (Script.adaptationPlan .perInstance source (width front) known outline).1 := by
    rw [scriptPlan, read, inside]
  have writes {out : List Char} (adapts : Script.Adapts (Script.topNames known outline) [] 0 outline content out) :
      Plan.Writes (width front) (Script.adaptationPlan .perInstance source (width front) known outline).1 content out :=
    adapts.writes whole rfl (.start _)
  obtain ⟨spans, ordered, items⟩ := reported
  obtain ⟨out, adapts⟩ := Script.Adapts.exist items ordered (Script.topNames known outline) [] (List.nil_append _).symm
    fun s _ => Nat.zero_le _
  obtain ⟨b, run, text⟩ := (writes adapts).run_through whole
  rw [plan]
  refine ⟨b, out, run, text, adapts, fun other adapts' => ?_⟩
  -- both results are what the one run renders
  obtain ⟨b', run', text'⟩ := (writes adapts').run_through whole
  rw [run] at run'
  cases run'
  rw [text, String.ofList_inj] at text'
  exact (List.append_cancel_right (List.append_cancel_left text')).symm

/-- A script with a prop, a reactive declaration and an assignment to what it declares. -/
def reactiveScript : String := "export let a;\n$: b = a;\n$: b = 2;"

def reactiveOutline : Script.Outline :=
  [.exported 0 (.variableList .mutable false [.name ⟨"a", 11⟩]), .reactive ⟨14, ⟨17, 23⟩, some ⟨⟨"b", 17⟩, ⟨21, 22⟩⟩⟩,
    .reactive ⟨24, ⟨27, 33⟩, some ⟨⟨"b", 27⟩, ⟨31, 32⟩⟩⟩]

def reactiveBlock : ScriptBlock := ⟨⟨0, 50⟩, ⟨8, 41⟩, none⟩

def reactiveSource : String := "<script>export let a;\n$: b = a;\n$: b = 2;</script>"

theorem reactiveOutline_reported : Script.Outline.Reported reactiveScript.toList reactiveOutline := by
  refine ⟨[⟨0, 13⟩, ⟨14, 23⟩, ⟨24, 33⟩], by decide, .cons ?_ (.cons ?_ (.cons ?_ .nil))⟩
  · exact ⟨[], [' '], 'l', "et a;\n$: b = a;\n$: b = 2;".toList, by decide +kernel, rfl, by decide, by decide, by decide⟩
  · refine ⟨by decide, by decide +kernel, by decide, by decide +kernel, by decide +kernel, by decide, by decide, ?_⟩
    rintro _ ⟨⟩
    exact ⟨by decide, by unfold Script.Binding.Reported; decide +kernel, by decide +kernel, by decide +kernel,
      by decide +kernel, by decide, by decide⟩
  · refine ⟨by decide, by decide +kernel, by decide, by decide +kernel, by decide +kernel, by decide, by decide, ?_⟩
    rintro _ ⟨⟩
    exact ⟨by decide, by unfold Script.Binding.Reported; decide +kernel, by decide +kernel, by decide +kernel,
      by decide +kernel, by decide, by decide⟩

theorem instance_script_adapted_sample :
    outline? Script.readOutline reactiveSource reactiveBlock = some reactiveOutline ∧
    ∃ b out, (scriptPlan Script.readOutline reactiveSource .perInstance [] reactiveBlock).1.run
        (Buffer.ofSource reactiveSource) =
          ⟨b, (scriptPlan Script.readOutline reactiveSource .perInstance [] reactiveBlock).1.notes, none⟩ ∧
      b.render.text = String.ofList ("<script>".toList ++ (out ++ "</script>".toList)) ∧
      b.render.text =
        "<script>let a;\nlet b = __sveltets_1_invalidate(() => (a));\n;() => \x7bb = 2;\x7d</script>" ∧
      Script.Adapts (Script.topNames [] reactiveOutline) [] 0 reactiveOutline reactiveScript.toList out := by
  have read : outline? Script.readOutline reactiveSource reactiveBlock = some reactiveOutline := by decide +kernel
  have whole : reactiveSource.toList = "<script>".toList ++ (reactiveScript.toList ++ "</script>".toList) := by
    decide +kernel
  obtain ⟨b, out, run, text, adapts, -⟩ :=
    instance_script_adapted whole (by decide +kernel) read reactiveOutline_reported []
  have buffer : ((scriptPlan Script.readOutline reactiveSource .perInstance [] reactiveBlock).1.run
      (Buffer.ofSource reactiveSource)).buffer = b := congrArg Outcome.buffer run
  refine ⟨read, b, out, run, text, ?_, adapts⟩
  rw [← buffer]
  decide +kernel

/-- A name that a top-level item of either script binds. -/
def BoundAtTop (reader : Script.Reader) (source : String) (doc : Document) (name : String) : Prop :=
  ∃ block ∈ doc.scripts, ∃ outline, outline? reader source block = some outline ∧ ∃ item ∈ outline, name ∈ item.names

/-- A reactive assignment that is projected to a declaration of its target. -/
structure DeclaresTarget (p : Projection) (base : Nat) (r : Script.Reactive) (a : Script.Assignment) : Prop where
  label : p.map.Puts p.text ⟨base + r.start, (Script.nameSpan base a.target).start⟩ "let "
  sign : p.map.Puts p.text ⟨(Script.nameSpan base a.target).stop, base + a.right.start⟩ " = __sveltets_1_invalidate(() => ("

/-- A reactive statement that is projected to the body of a function, and to no declaration. -/
structure WrapsStatement (p : Projection) (base : Nat) (r : Script.Reactive) : Prop where
  label : p.map.Puts p.text ⟨base + r.start, base + r.body.start⟩ ";() => \x7b"
  undeclared : ∀ range : Span, range.contains (base + r.start) = true → ¬p.map.Puts p.text range "let "

section Reactives

variable {name : String}

theorem boundAtTop_iff (own : doc.instanceScript = some block) (read : outline? reader source block = some outline) :
    BoundAtTop reader source doc name ↔ name ∈ Script.topNames (moduleNames reader source doc) outline := by
  have shared : name ∈ moduleNames reader source doc ↔ ∃ block ∈ doc.moduleScript, ∃ outline,
      outline? reader source block = some outline ∧ ∃ item ∈ outline, name ∈ item.names := by
    unfold moduleNames
    cases doc.moduleScript with
    | none => simp
    | some block => cases found : outline? reader source block <;> simp [Script.topNames, found]
  unfold Script.topNames BoundAtTop Document.scripts
  rw [List.mem_append, List.mem_flatMap, shared, own]
  constructor
  · rintro ⟨b, listed, o, reads, item⟩
    rcases List.mem_append.mp listed with mine | other
    · obtain rfl : b = block := by simpa using mine
      rw [read] at reads
      cases reads
      exact .inl item
    · exact .inr ⟨b, Option.mem_toList.mp other, o, reads, item⟩
  · rintro (item | ⟨b, other, found⟩)
    · exact ⟨block, List.mem_append_left _ (by simp), outline, read, item⟩
    · exact ⟨b, List.mem_append_right _ (Option.mem_toList.mpr other), found⟩

theorem reactive_edits (own : doc.instanceScript = some block) (read : outline? reader source block = some outline)
    {before after : Script.Outline} {r : Script.Reactive} (split : outline = before ++ .reactive r :: after) :
    ∃ now, Script.KnownAt (Script.topNames (moduleNames reader source doc) outline) before now ∧
      ∀ e ∈ (Script.reactivePlan block.content.start now r).1.edits, e ∈ edits (coreCommands reader source doc) := by
  obtain ⟨now, known, listed⟩ := Script.itemsPlan_mem (Script.KnownAt.start
    (Script.topNames (moduleNames reader source doc) outline)) source block.content.start before after (.reactive r)
  refine ⟨now, known, fun e member => ?_⟩
  obtain ⟨c, made, edit⟩ := List.mem_filterMap.mp member
  have adapted : c ∈ (scriptPlan reader source .perInstance (moduleNames reader source doc) block).1.commands := by
    rw [scriptPlan, read]
    rw [← split] at listed
    exact listed c made
  refine List.mem_filterMap.mpr ⟨c, List.mem_append_right _ (List.mem_append_left _ ?_), edit⟩
  rw [own]
  exact List.mem_append_right _ adapted

/-- A reactive assignment declares its target unless it is bound at the top level or assigned before. -/
theorem reactive_projected (projected : ofComponent reader source doc path = .ok p)
    (own : doc.instanceScript = some block) (read : outline? reader source block = some outline)
    {before after : Script.Outline} {r : Script.Reactive} (split : outline = before ++ .reactive r :: after)
    {a : Script.Assignment} (assigned : r.assignment = some a) :
    (Script.Declares (Script.topNames (moduleNames reader source doc) outline) before a →
      DeclaresTarget p block.content.start r a) ∧
    (¬Script.Declares (Script.topNames (moduleNames reader source doc) outline) before a →
      WrapsStatement p block.content.start r) := by
  obtain ⟨b, original, valid, records, text, map⟩ := ofComponent_framed projected
  obtain ⟨now, known, listed⟩ := reactive_edits own read split
  have recorded : ∀ e ∈ edits (coreCommands reader source doc), e ∈ b.replacements := fun e member =>
    records.edits.mem_iff.mpr (by rwa [Buffer.edits_framed])
  have puts {range : Span} {put : String} (member : ⟨range, put⟩ ∈ edits (coreCommands reader source doc))
      (filled : put ≠ "") : p.map.Puts p.text range put := by
    rw [map, text]
    exact valid.puts (recorded _ member) filled
  constructor
  · intro declares
    have fresh := (known.declares a).mpr declares
    have plan : (Script.reactivePlan block.content.start now r).1 =
        Script.declareTarget block.content.start (block.content.start + r.start) a := by
      simp [Script.reactivePlan, assigned, fresh]
    rw [plan] at listed
    exact ⟨puts (listed _ (by simp [Script.declareTarget, Command.edit?])) (by decide),
      puts (listed _ (by simp [Script.declareTarget, Command.edit?])) (by decide)⟩
  · intro bound
    have bound : a.target.name ∈ now := Decidable.not_not.mp fun fresh => bound ((known.declares a).mp fresh)
    have plan : (Script.reactivePlan block.content.start now r).1 =
        Script.wrapStatement block.content.start (block.content.start + r.start) r.body := by
      simp [Script.reactivePlan, assigned, bound]
    rw [plan] at listed
    have member := listed ⟨⟨block.content.start + r.start, block.content.start + r.body.start⟩, ";() => \x7b"⟩
      (by simp [Script.wrapStatement, Command.edit?])
    have head := puts member (by decide)
    refine ⟨head, fun range inside other => ?_⟩
    have order := (valid.proper _ (recorded _ member)).1
    rw [map, text] at head other
    obtain ⟨-, same⟩ := valid.puts_unique head other (Span.contains_iff.mpr ⟨Nat.le_refl _, order⟩) inside
    have differ : ";() => \x7b" ≠ "let " := by decide
    exact differ same

end Reactives

/-- Reactive statements never declare a name again. A name that either script binds is declared by none of them; any
other name that they assign is declared by the first one alone. -/
theorem reactives_never_redeclare (projected : ofComponent reader source doc path = .ok p)
    (own : doc.instanceScript = some block) (read : outline? reader source block = some outline) (name : String) :
    (BoundAtTop reader source doc name → ∀ r a, .reactive r ∈ outline → r.assignment = some a → a.target.name = name →
      WrapsStatement p block.content.start r) ∧
    (¬BoundAtTop reader source doc name → ∀ before r after a, outline = before ++ .reactive r :: after →
      r.assignment = some a → a.target.name = name →
        ((∀ s b, .reactive s ∈ before → s.assignment = some b → b.target.name ≠ name) →
          DeclaresTarget p block.content.start r a) ∧
        ∀ s b, .reactive s ∈ before → s.assignment = some b → b.target.name = name →
          WrapsStatement p block.content.start r) := by
  rw [boundAtTop_iff own read]
  constructor
  · rintro bound r a listed assigned rfl
    obtain ⟨before, after, split⟩ := List.append_of_mem listed
    exact (reactive_projected projected own read split assigned).2 fun declares => declares.1 bound
  · rintro free before r after a split assigned rfl
    have outcome := reactive_projected projected own read split assigned
    exact ⟨fun first => outcome.1 ⟨free, first⟩,
      fun s b earlier assigned' same => outcome.2 fun declares => declares.2 s b earlier assigned' same⟩

/-- What evaluation finds out about a component with one script block. -/
def RunsAlone (source : String) (block : ScriptBlock) : Bool :=
  ((scan source).toOption.filter fun doc => doc.instanceScript = some block ∧ doc.moduleScript = none ∧
    (ofComponent Script.readOutline source doc none).toOption.isSome).isSome

theorem RunsAlone.only (runs : RunsAlone source block = true) : ∃ doc, scan source = .ok doc ∧
    doc.instanceScript = some block ∧ doc.moduleScript = none ∧
      ∃ p, ofComponent Script.readOutline source doc none = .ok p := by
  obtain ⟨doc, found⟩ := Option.isSome_iff_exists.mp runs
  obtain ⟨scanned, found⟩ := Option.filter_eq_some_iff.mp found
  obtain ⟨own, alone, projects⟩ := of_decide_eq_true found
  obtain ⟨p, projected⟩ := Option.isSome_iff_exists.mp projects
  exact ⟨doc, ok_of_toOption scanned, own, alone, p, ok_of_toOption projected⟩

theorem RunsAlone.projected (runs : RunsAlone source block = true) : ∃ doc, scan source = .ok doc ∧
    doc.instanceScript = some block ∧ moduleNames Script.readOutline source doc = [] ∧
      ∃ p, ofComponent Script.readOutline source doc none = .ok p := by
  obtain ⟨doc, scanned, own, alone, projects⟩ := RunsAlone.only runs
  exact ⟨doc, scanned, own, by rw [moduleNames, alone]; rfl, projects⟩

/-- One name is bound, and another one is assigned twice. -/
def boundSample : String := "<script>let m;$:m=1;$:x=m;$:x=2</script>"

def boundOutline : Script.Outline :=
  [.declared (.variableList .mutable false [.name ⟨"m", 4⟩]), .reactive ⟨6, ⟨8, 12⟩, some ⟨⟨"m", 8⟩, ⟨10, 11⟩⟩⟩,
    .reactive ⟨12, ⟨14, 18⟩, some ⟨⟨"x", 14⟩, ⟨16, 17⟩⟩⟩, .reactive ⟨18, ⟨20, 23⟩, some ⟨⟨"x", 20⟩, ⟨22, 23⟩⟩⟩]

theorem reactives_never_redeclare_sample : ∃ doc, scan boundSample = .ok doc ∧ ∃ p,
    ofComponent Script.readOutline boundSample doc none = .ok p ∧ ∃ block, doc.instanceScript = some block ∧
      outline? Script.readOutline boundSample block = some boundOutline ∧
      BoundAtTop Script.readOutline boundSample doc "m" ∧ ¬BoundAtTop Script.readOutline boundSample doc "x" ∧
      WrapsStatement p block.content.start ⟨6, ⟨8, 12⟩, some ⟨⟨"m", 8⟩, ⟨10, 11⟩⟩⟩ ∧
      DeclaresTarget p block.content.start ⟨12, ⟨14, 18⟩, some ⟨⟨"x", 14⟩, ⟨16, 17⟩⟩⟩ ⟨⟨"x", 14⟩, ⟨16, 17⟩⟩ ∧
      WrapsStatement p block.content.start ⟨18, ⟨20, 23⟩, some ⟨⟨"x", 20⟩, ⟨22, 23⟩⟩⟩ := by
  have runs : RunsAlone boundSample ⟨⟨0, 40⟩, ⟨8, 31⟩, none⟩ = true := by decide +kernel
  have read : outline? Script.readOutline boundSample ⟨⟨0, 40⟩, ⟨8, 31⟩, none⟩ = some boundOutline := by decide +kernel
  obtain ⟨doc, scanned, own, names, p, projected⟩ := RunsAlone.projected runs
  have bound : BoundAtTop Script.readOutline boundSample doc "m" := by
    rw [boundAtTop_iff own read, names]
    decide
  have free : ¬BoundAtTop Script.readOutline boundSample doc "x" := by
    rw [boundAtTop_iff own read, names]
    decide
  have wraps := (reactives_never_redeclare projected own read "m").1 bound
  have first := (reactives_never_redeclare projected own read "x").2 free
  refine ⟨doc, scanned, p, projected, _, own, read, bound, free, ?_, ?_, ?_⟩
  · exact wraps _ _ (by simp [boundOutline]) rfl rfl
  · exact (first [_, _] _ [_] _ rfl rfl rfl).1 fun s b earlier assigned => by
      simp only [List.mem_cons, List.not_mem_nil, or_false, reduceCtorEq, false_or, Script.Item.reactive.injEq] at earlier
      subst earlier
      cases assigned
      decide
  · exact (first [_, _, .reactive ⟨12, ⟨14, 18⟩, some ⟨⟨"x", 14⟩, ⟨16, 17⟩⟩⟩] _ [] _ rfl rfl rfl).2 _ _
      (.tail _ (.tail _ (.head _))) rfl rfl

def patternSample : String := "<script>let \x7bx\x7d=y;$:x=1</script>"

def patternOutline : Script.Outline :=
  [.declared (.variableList .mutable false [.other]), .reactive ⟨10, ⟨12, 15⟩, some ⟨⟨"x", 12⟩, ⟨14, 15⟩⟩⟩]

/-- Names in patterns are not listed, so the assignment declares the name once more. -/
theorem pattern_name_declared_again : ∃ doc, scan patternSample = .ok doc ∧ ∃ p,
    ofComponent Script.readOutline patternSample doc none = .ok p ∧ ∃ block, doc.instanceScript = some block ∧
      block.content.slice? patternSample = some "let \x7bx\x7d=y;$:x=1" ∧
      p.map.Puts p.text ⟨18, 20⟩ "let " ∧ (⟨18, 21⟩ : Span).slice? patternSample = some "$:x" := by
  have runs : RunsAlone patternSample ⟨⟨0, 32⟩, ⟨8, 23⟩, none⟩ = true := by decide +kernel
  have read : outline? Script.readOutline patternSample ⟨⟨0, 32⟩, ⟨8, 23⟩, none⟩ = some patternOutline := by
    decide +kernel
  obtain ⟨doc, scanned, own, names, p, projected⟩ := RunsAlone.projected runs
  have split : patternOutline = [patternOutline[0]] ++ .reactive ⟨10, ⟨12, 15⟩, some ⟨⟨"x", 12⟩, ⟨14, 15⟩⟩⟩ :: [] := rfl
  have declared := (reactive_projected projected own read split rfl).1
  rw [names] at declared
  refine ⟨doc, scanned, p, projected, _, own, by decide +kernel, ?_, by decide +kernel⟩
  exact (declared ⟨by decide, by simp [patternOutline]⟩).label

end SvelteLens.Projection
