import SvelteLens.Proofs.Projection.Blanks
import SvelteLens.Script.Parser.Module

/-! What stands behind the scripts of a projection. A script brings no separator of its own, and the blanks behind it are
copied. The footer starts with a line break and a wrapper with a semicolon; a second script and the end of a scope bring
nothing, so they follow a script as closely as they do in the component. -/
namespace SvelteLens

open Text (width bytes)

namespace Text

theorem blank_or_filled (cs : List Char) : cs.all isBlank = true ∨
    ∃ lead d more, cs = lead ++ d :: more ∧ lead.all isBlank = true ∧ isBlank d = false := by
  induction cs with
  | nil => exact .inl rfl
  | cons c cs ih =>
    cases kind : isBlank c with
    | false => exact .inr ⟨[], c, cs, rfl, rfl, kind⟩
    | true =>
      refine ih.imp (fun blank => by rw [List.all_cons, kind, blank]; rfl) ?_
      rintro ⟨lead, d, more, rfl, blank, filled⟩
      exact ⟨c :: lead, d, more, rfl, by rw [List.all_cons, kind, blank]; rfl, filled⟩

end Text

namespace Projection

open Edit Markup

/-- What a text shows of a component from an offset between its blocks on: behind some blanks, it goes on with its tail, a
wrapper, the end of a scope, or in a script. All that stands in front of that script and in no block is among the blanks. -/
inductive Comes (source : String) (doc : Document) (tail : List Char) (start : Nat) (blanks : List Char) :
    List Char → Prop where
  | ending : Comes source doc tail start blanks tail
  | wrapper : Comes source doc tail start blanks (markupOpening.toList ++ more)
  | scope {scope : Directive.Scope} : scope ∈ documentScopes source doc → scope.content.start < start →
      start ≤ scope.content.stop → Comes source doc tail start blanks (Directive.scopeClosing.toList ++ more)
  | script {other : ScriptBlock} : other ∈ doc.scripts → start ≤ other.span.start →
      (∀ before x after, source.toList = before ++ x :: after → start ≤ width before → width before < other.span.start →
        (∀ block ∈ blocks doc, block.contains (width before) = false) → x ∈ blanks) →
      Text.isBlank d = false → Comes source doc tail start blanks (d :: more)

section Layouts

variable {reader : Script.Reader} {source : String} {doc : Document} {zones : List Zone} {b : Buffer}
  (core : Core reader source doc zones b) {start stop first last limit : Nat} {tail text blanks blanks' rest : List Char}
  {ahead wrapped : List Span} {out : List UInt8}
include core

theorem Core.script_chars {block : ScriptBlock} (listed : block ∈ doc.scripts) : ∃ own : List Char,
    bytes own = through (contentCommands reader source doc) source block.content.start block.content.stop := by
  obtain ⟨front, content, back, whole, placed, -⟩ := (core.zoned.script_holds listed).cut
  obtain ⟨-, met, -⟩ := core.script_shown listed
  rw [placed] at met
  rw [← core.original] at whole
  obtain ⟨own, written⟩ := core.valid.closed_chars core.records whole met
  rw [core.original] at written
  refine ⟨own, ?_⟩
  rw [written, ← core.through_content listed, placed, through]

variable (nest : Nest source.toList zones 0 limit doc.nodes)
include nest

theorem Comes.over {block : Span} (h : Comes source doc tail block.stop blanks rest) (listed : block ∈ blocks doc)
    (region : Region source.toList (blocks doc) start block.start)
    (blank : Text.BlankBetween source.toList start block.start)
    (gap : ∀ before x after, source.toList = before ++ x :: after → start ≤ width before → width before < block.start →
      x ∈ blanks') (grown : blanks ⊆ blanks') : Comes source doc tail start blanks' rest := by
  have low := blank.order
  have order := (blocks_bounded core.zoned block listed).order
  cases h with
  | ending => exact .ending
  | wrapper => exact .wrapper
  | @scope _ scope member before behind =>
    refine .scope member (Nat.lt_of_not_le fun late => ?_) (by omega)
    have later := core.scope_behind region blank member late
    obtain ⟨_, _, _, clear, _⟩ := scopesIn_inside nest member
    obtain ⟨z, zone, _, _, rfl⟩ := (mem_blocks core.zoned).mp listed
    rcases clear.apart z zone with le | le
    · have le : z.span.stop ≤ scope.content.start := le
      omega
    · have le : scope.content.start ≤ z.span.start := le
      omega
  | script other behind chars solid =>
    refine .script other (by omega) (fun before x after whole lower upper outside => ?_) solid
    by_cases early : width before < block.start
    · exact gap before x after whole lower early
    · have unheld := outside block listed
      rw [← Bool.not_eq_true, Span.contains_iff] at unheld
      exact grown (chars before x after whole (by omega) upper outside)

/-- Behind the blanks of a stretch of markup its wrapper comes, unless a scope ends there. -/
theorem comes_wrapper (region : Region source.toList (blocks doc) start stop)
    (trimmed : Text.Trimmed source.toList start stop first last)
    (shows : bytes text =
      through (contentCommands reader source doc) source start first ++ (bytes markupOpening.toList ++ out)) :
    ∃ blanks rest, text = blanks ++ rest ∧ blanks.all Text.isBlank = true ∧ Comes source doc tail start blanks rest := by
  have lead := trimmed.lead.order
  have inner := trimmed.order
  have trail := trimmed.trail.order
  obtain ⟨run, solid, -, copied⟩ := core.blanks_copied region trimmed.lead nest (by omega)
  rw [copied, List.append_assoc] at shows
  obtain ⟨rest, rfl, behind⟩ := Text.append_of_bytes shows.symm
  refine ⟨run, rest, rfl, solid, ?_⟩
  cases ends : stopping (documentScopes source doc) first with
  | nil =>
    rw [ends] at behind
    obtain ⟨more, rfl, -⟩ := Text.append_of_bytes behind
    exact .wrapper
  | cons scope others =>
    rw [ends, List.flatMap_cons, List.append_assoc] at behind
    obtain ⟨more, rfl, -⟩ := Text.append_of_bytes behind
    obtain ⟨member, stops⟩ := List.mem_filter.mp (show scope ∈ stopping _ _ from ends ▸ List.mem_cons_self)
    have stops : scope.content.stop = first := by simpa using stops
    refine .scope member (Nat.lt_of_not_le fun late => ?_) (by omega)
    have later := core.scope_behind region trimmed.lead member late
    have order := (scopesIn_inside nest member).2.1
    omega

/-- What comes first of a layout. The induction is on the layout: blanks, styles and scripts that leave only blanks are
passed over. -/
theorem Layout.comes (layout : Layout (contentCommands reader source doc) source doc start ahead wrapped out)
    (ordered : Ahead source.toList (blocks doc) ahead start) (shows : bytes text = out ++ bytes tail) :
    ∃ blanks rest, text = blanks ++ rest ∧ blanks.all Text.isBlank = true ∧ Comes source doc tail start blanks rest := by
  induction layout generalizing text with
  | last gap =>
    cases gap with
    | blank blank =>
      obtain ⟨run, solid, -, copied⟩ := core.blanks_copied ordered.last blank nest (Nat.le_refl _)
      rw [copied, stopping_nil nest fun angle => Nat.lt_irrefl _ angle.lt_width, List.flatMap_nil, List.append_nil,
        ← Text.bytes_append] at shows
      exact ⟨run, tail, Text.bytes_inj shows, solid, .ending⟩
    | filled trimmed =>
      simp only [List.append_assoc] at shows
      exact comes_wrapper core nest ordered.last trimmed shows
  | @block start block ahead wrapped more gap shown out first content _ ih =>
    have listed := ordered.listed block List.mem_cons_self
    cases first with
    | filled trimmed =>
      simp only [List.append_assoc] at shows
      exact comes_wrapper core nest ordered.region trimmed shows
    | blank blank =>
      -- no scope ends at a block, for no angle bracket of an end tag stands there
      have plain : ¬Angle source.toList zones block.start := by
        intro angle
        obtain ⟨z, zone, _, _, rfl⟩ := (mem_blocks core.zoned).mp listed
        have proper := (core.zoned.stand z zone).proper
        have apart := angle.outside z zone
        omega
      obtain ⟨run, solid, gap, copied⟩ := core.blanks_copied ordered.region blank nest (Nat.le_refl _)
      rw [copied, stopping_nil nest plain, List.flatMap_nil, List.append_nil, List.append_assoc, List.append_assoc] at shows
      obtain ⟨text, rfl, behind⟩ := Text.append_of_bytes shows.symm
      cases content with
      | style =>
        obtain ⟨blanks, rest, rfl, solid', comes⟩ := ih ordered.next behind.symm
        refine ⟨run ++ blanks, rest, (List.append_assoc _ _ _).symm, by rw [List.all_append, solid, solid']; rfl, ?_⟩
        exact comes.over core nest listed ordered.region blank (fun before x after whole lower upper =>
          List.mem_append_left _ (gap before x after whole lower upper)) (List.subset_append_right _ _)
      | @script script member =>
        obtain ⟨own, written⟩ := core.script_chars member
        rw [← written] at behind
        obtain ⟨text, rfl, later⟩ := Text.append_of_bytes behind
        rcases Text.blank_or_filled own with empty | ⟨lead, d, more, rfl, leading, filled⟩
        · obtain ⟨blanks, rest, rfl, solid', comes⟩ := ih ordered.next later.symm
          refine ⟨run ++ (own ++ blanks), rest, by simp only [List.append_assoc], ?_, ?_⟩
          · rw [List.all_append, List.all_append, solid, empty, solid']
            rfl
          · exact comes.over core nest listed ordered.region blank (fun before x after whole lower upper =>
              List.mem_append_left _ (gap before x after whole lower upper))
              fun x member => List.mem_append_right _ (List.mem_append_right _ member)
        · refine ⟨run ++ lead, d :: (more ++ text), by simp, by rw [List.all_append, solid, leading]; rfl, ?_⟩
          exact .script member blank.order (fun before x after whole lower upper _ =>
            List.mem_append_left _ (gap before x after whole lower upper)) filled

end Layouts

/-- Between two scripts there are only blocks and blanks, and no line break outside the blocks. -/
structure Joined (source : String) (doc : Document) (block other : ScriptBlock) : Prop where
  order : block.span.stop ≤ other.span.start
  blank : ∀ before x after, source.toList = before ++ x :: after → block.span.stop ≤ width before →
    width before < other.span.start → (∀ b ∈ blocks doc, b.contains (width before) = false) →
      Text.isBlank x = true ∧ x ≠ '\n'

/-- What follows a script in a projection behind blanks: something on another line, a wrapper, the other script or the
end of a scope around the script. -/
inductive Follows (source : String) (doc : Document) (block : ScriptBlock) (blanks next : List Char) : Prop where
  | line : '\n' ∈ blanks → Follows source doc block blanks next
  | wrapper : markupOpening.toList <+: next → Follows source doc block blanks next
  | script {other : ScriptBlock} : other ∈ doc.scripts → Joined source doc block other → Follows source doc block blanks next
  | scope {scope : Directive.Scope} : scope ∈ documentScopes source doc → scope.content.covers block.span = true →
      Directive.scopeClosing.toList <+: next → Follows source doc block blanks next

section Behind

variable {reader : Script.Reader} {source : String} {doc : Document} {block : ScriptBlock} {path : Option Path}
  {p : Projection}

/-- The footer starts on a new line. -/
theorem closing_line (path : Option Path) (p : Projection) : ∃ more, (closing path p).toList = '\n' :: ';' :: more := by
  have first : "\n;const __sveltets_1_render = \x7b props: \x7b" =
      "\n;" ++ "const __sveltets_1_render = \x7b props: \x7b" := by decide +kernel
  unfold closing footer
  rw [first]
  simp only [String.toList_append, List.append_assoc]
  exact ⟨_, rfl⟩

theorem Comes.follows {zones : List Zone} {limit : Nat} (zoned : Zoned source.toList doc zones)
    (nest : Nest source.toList zones 0 limit doc.nodes) (listed : block ∈ doc.scripts) {own blanks rest more : List Char}
    (comes : Comes source doc ('\n' :: ';' :: more) block.span.stop blanks rest) (blank : blanks.all Text.isBlank = true)
    (ends : own.all Text.isBlank = true) : ∃ between d next, own ++ (blanks ++ rest) = between ++ d :: next ∧
      between.all Text.isBlank = true ∧ Text.isBlank d = false ∧ Follows source doc block between (d :: next) := by
  have whole : (own ++ blanks).all Text.isBlank = true := by rw [List.all_append, ends, blank]; rfl
  cases comes with
  | ending =>
    refine ⟨own ++ blanks ++ ['\n'], ';', more, by simp, ?_, by decide, .line (by simp)⟩
    rw [List.all_append, whole]
    rfl
  | wrapper => exact ⟨own ++ blanks, ';', _, (List.append_assoc _ _ _).symm, whole, by decide, .wrapper (List.prefix_append _ _)⟩
  | @scope _ scope member before behind =>
    refine ⟨own ++ blanks, '<', _, (List.append_assoc _ _ _).symm, whole, by decide, .scope member ?_ (List.prefix_append _ _)⟩
    obtain ⟨_, _, _, clear, _⟩ := scopesIn_inside nest member
    obtain ⟨shared, zone⟩ := zoned.script_mem listed
    rcases clear.apart _ zone with le | le
    · have le : block.span.stop ≤ scope.content.start := le
      omega
    · exact Span.covers_iff.mpr ⟨le, behind⟩
  | script other order chars solid =>
    refine ⟨own ++ blanks, _, _, (List.append_assoc _ _ _).symm, whole, solid, ?_⟩
    by_cases broken : '\n' ∈ own ++ blanks
    · exact .line broken
    · refine .script other ⟨order, fun before x after cut lower upper outside => ?_⟩
      have member := List.mem_append_right own (chars before x after cut lower upper outside)
      exact ⟨List.all_eq_true.mp whole x member, fun same => broken (same ▸ member)⟩

/-- Where the content of a script stands in a projection, with all that is projected from what is behind the script. -/
theorem script_placed {zones : List Zone} {b : Buffer} (core : Core reader source doc zones b)
    (projected : ofComponent reader source doc path = .ok p) (listed : block ∈ doc.scripts) :
    ∃ front own rest, p.text.toList = front ++ (own ++ rest) ∧
      bytes own = through (contentCommands reader source doc) source block.content.start block.content.stop ∧
      bytes rest = onward (coreCommands reader source doc) source block.span.stop ++ bytes (closing path p).toList := by
  have bounded := blocks_bounded core.zoned _ (script_mem_blocks listed)
  have upper := Text.le_width_of_isBoundary bounded.stop
  have order := bounded.order
  have filled : source ≠ "" := by
    rintro rfl
    have nothing : width "".toList = 0 := rfl
    omega
  obtain ⟨entry, -, shown⟩ := core.script_shown listed
  have cut : reference source (coreCommands reader source doc) =
      stretch _ _ _ 0 block.span.start ++ onward (coreCommands reader source doc) source block.span.start :=
    written_cut (insertedAt (coreCommands reader source doc)) (bytes source.toList) entry (Nat.zero_le _)
      (by rw [Text.length_bytes]; omega)
  obtain ⟨before, after, whole, starts⟩ := Text.isBoundary_iff.mp bounded.start
  have met : Meets (editAt? (coreCommands reader source doc)) (width [] + width before) := by
    rwa [Text.width_nil, Nat.zero_add, starts]
  have whole : b.source.toList = [] ++ (before ++ after) := by rw [core.original, whole, List.nil_append]
  obtain ⟨lead, written⟩ := core.valid.stretch_chars core.records whole met
  rw [core.original, Text.width_nil, Nat.zero_add, starts] at written
  obtain ⟨texts, inserted⟩ := insertedAt_chars (coreCommands reader source doc) block.span.start
  obtain ⟨own, content⟩ := core.script_chars listed
  have text := ofComponent_bytes core.scanned projected filled
  rw [cut, shown, ← written, ← inserted, ← content] at text
  have parts : bytes (header.toList ++ (lead ++ (texts ++ own))) ++
      (onward (coreCommands reader source doc) source block.span.stop ++ bytes (closing path p).toList) =
        bytes p.text.toList := by
    rw [text]
    simp only [Text.bytes_append, List.append_assoc]
  obtain ⟨rest, split, behind⟩ := Text.append_of_bytes parts
  exact ⟨header.toList ++ (lead ++ texts), own, rest, by rw [split]; simp only [List.append_assoc], content, behind.symm⟩

/-- Scripts are kept apart from what follows them. Behind the content of a script, as it is projected, the next character
that is not blank stands on another line, or it is the semicolon in front of a wrapper, unless only blanks without a line
break and other blocks stand between the script and the other one, or a scope ends directly behind the script. -/
theorem scripts_separated (within : Reads reader source doc Script.Outline.Within) (scanned : scan source = .ok doc)
    (projected : ofComponent reader source doc path = .ok p) (listed : block ∈ doc.scripts) :
    ∃ front own rest, p.text.toList = front ++ (own ++ rest) ∧
      bytes own = through (contentCommands reader source doc) source block.content.start block.content.stop ∧
      bytes rest = onward (coreCommands reader source doc) source block.span.stop ++ bytes (closing path p).toList ∧
      ∀ kept c tail, own = kept ++ c :: tail → Text.isBlank c = false → tail.all Text.isBlank = true →
        ∃ blanks d next, tail ++ rest = blanks ++ d :: next ∧ blanks.all Text.isBlank = true ∧ Text.isBlank d = false ∧
          Follows source doc block blanks (d :: next) := by
  obtain ⟨zones, limit, zoned, nest⟩ := scan_nests scanned
  obtain ⟨b, original, valid, records, _⟩ := ofComponent_core projected
  have core : Core reader source doc zones b := ⟨scanned, zoned, within.confined scanned, original, valid, records⟩
  obtain ⟨front, own, rest, text, content, behind⟩ := script_placed core projected listed
  refine ⟨front, own, rest, text, content, behind, fun kept c tail _ _ ends => ?_⟩
  obtain ⟨left, wrapped, ordered, layout⟩ := core.behind (script_mem_blocks listed)
  obtain ⟨blanks, next, rfl, blank, comes⟩ := layout.comes core nest ordered behind
  obtain ⟨more, footer⟩ := closing_line path p
  rw [footer] at comes
  exact comes.follows zoned nest listed blank ends

end Behind

theorem scripts_separated_sample : ∃ doc, scan sample = .ok doc ∧ Reads Script.readOutline sample doc Script.Outline.Within ∧
    ∃ p, ofComponent Script.readOutline sample doc none = .ok p ∧
      ∃ block, doc.scripts = [block] ∧ documentScopes sample doc = [] ∧
      ∃ front own rest, p.text.toList = front ++ (own ++ rest) ∧
        bytes own = through (contentCommands Script.readOutline sample doc) sample block.content.start block.content.stop ∧
        ∀ kept c tail, own = kept ++ c :: tail → Text.isBlank c = false → tail.all Text.isBlank = true →
          ∃ blanks d next, tail ++ rest = blanks ++ d :: next ∧ blanks.all Text.isBlank = true ∧ Text.isBlank d = false ∧
            ('\n' ∈ blanks ∨ markupOpening.toList <+: d :: next) := by
  have runs : ((scan sample).toOption.any fun doc => Reads Script.readOutline sample doc Script.Outline.Within ∧
      (ofComponent Script.readOutline sample doc none).toOption.isSome ∧
        doc.scripts = [⟨⟨0, 35⟩, ⟨8, 26⟩, none⟩] ∧ documentScopes sample doc = []) = true := by decide +kernel
  obtain ⟨doc, scanned, found⟩ := ok_of_any runs
  obtain ⟨within, succeeds, scripts, unscoped⟩ := of_decide_eq_true found
  obtain ⟨p, projected⟩ := Option.isSome_iff_exists.mp succeeds
  have projected := ok_of_toOption projected
  have listed : (⟨⟨0, 35⟩, ⟨8, 26⟩, none⟩ : ScriptBlock) ∈ doc.scripts := by
    rw [scripts]
    exact List.mem_cons_self
  obtain ⟨front, own, rest, text, content, -, follows⟩ :=
    scripts_separated within scanned projected listed
  refine ⟨doc, scanned, within, p, projected, _, scripts, unscoped, front, own, rest, text, content, ?_⟩
  intro kept c tail split solid ends
  obtain ⟨blanks, d, next, whole, blank, filled, follows⟩ := follows kept c tail split solid ends
  refine ⟨blanks, d, next, whole, blank, filled, ?_⟩
  cases follows with
  | line broken => exact .inl broken
  | wrapper opens => exact .inr opens
  | script other joined =>
    rw [scripts] at other
    obtain rfl := List.mem_singleton.mp other
    exact absurd joined.order (by decide)
  | scope member =>
    rw [unscoped] at member
    cases member

/-- Whether a component is projected with a given text between the margins. -/
def Shows (source middle : String) : Bool :=
  (scan source).toOption.any fun doc => (ofComponent Script.readOutline source doc none).toOption.isSome &&
    decide (reference source (coreCommands Script.readOutline source doc) = bytes middle.toList)

theorem Shows.projected {middle : String} (shows : Shows source middle = true) (filled : source ≠ "") :
    ∃ doc, scan source = .ok doc ∧ ∃ p, ofComponent Script.readOutline source doc none = .ok p ∧
      p.text = header ++ (middle ++ closing none p) := by
  obtain ⟨doc, scanned, found⟩ := ok_of_any shows
  obtain ⟨projects, core⟩ := Bool.and_eq_true_iff.mp found
  obtain ⟨p, projected⟩ := Option.isSome_iff_exists.mp projects
  have projected := ok_of_toOption projected
  exact ⟨doc, scanned, p, projected, ofComponent_text scanned projected filled (of_decide_eq_true core)⟩

/-- A script whose last line is a comment, directly in front of markup. -/
def commentSample : String := "<script>a // b</script>c"

/-- The semicolon of the wrapper is no separator here, for the comment goes on until the end of its line. -/
theorem wrapper_in_comment : ∃ doc, scan commentSample = .ok doc ∧ ∃ p,
    ofComponent Script.readOutline commentSample doc none = .ok p ∧
      p.text = header ++ ("a // b;() => (<>c</>);" ++ closing none p) := by
  have shows : Shows commentSample "a // b;() => (<>c</>);" = true := by decide +kernel
  exact Shows.projected shows (by decide)

def fusedSample : String := "<script>a</script><script context=\"module\">b</script>"

/-- The last word of one script and the first word of the other become one word. -/
theorem scripts_fused : ∃ doc, scan fusedSample = .ok doc ∧ ∃ p,
    ofComponent Script.readOutline fusedSample doc none = .ok p ∧ p.text = header ++ ("ab" ++ closing none p) := by
  have runs : ((scan fusedSample).toOption.any fun doc => doc.instanceScript = some ⟨⟨0, 18⟩, ⟨8, 9⟩, none⟩ ∧
      doc.moduleScript = some ⟨⟨18, 53⟩, ⟨43, 44⟩, none⟩ ∧ doc.styles = [] ∧ doc.nodes.isEmpty) = true := by
    decide +kernel
  obtain ⟨⟨own, shared, styles, nodes⟩, scanned, found⟩ := ok_of_any runs
  obtain ⟨rfl, rfl, rfl, empty⟩ := of_decide_eq_true found
  obtain rfl := List.isEmpty_iff.mp empty
  -- sorting by merging does not compute in the kernel
  have sorted : blocks ⟨some ⟨⟨0, 18⟩, ⟨8, 9⟩, none⟩, some ⟨⟨18, 53⟩, ⟨43, 44⟩, none⟩, [], []⟩ = [⟨0, 18⟩, ⟨18, 53⟩] :=
    List.mergeSort_of_pairwise (by decide)
  have projects : (ofComponent Script.readOutline fusedSample
      ⟨some ⟨⟨0, 18⟩, ⟨8, 9⟩, none⟩, some ⟨⟨18, 53⟩, ⟨43, 44⟩, none⟩, [], []⟩ none).toOption.isSome = true := by
    unfold ofComponent edited
    rw [sorted]
    decide +kernel
  have core : reference fusedSample (coreCommands Script.readOutline fusedSample
      ⟨some ⟨⟨0, 18⟩, ⟨8, 9⟩, none⟩, some ⟨⟨18, 53⟩, ⟨43, 44⟩, none⟩, [], []⟩) = bytes "ab".toList := by
    unfold coreCommands
    rw [sorted]
    decide +kernel
  obtain ⟨p, projected⟩ := Option.isSome_iff_exists.mp projects
  have projected := ok_of_toOption projected
  exact ⟨_, scanned, p, projected, ofComponent_text scanned projected (by decide) core⟩

/-- A script in the content of a component with a slot prop. -/
def scopedSample : String := "<A let:b><script>c</script></A>"

/-- The scope of the slot prop ends between the script and the wrapper behind it. -/
theorem scope_ends_behind_script : ∃ doc, scan scopedSample = .ok doc ∧ ∃ p,
    ofComponent Script.readOutline scopedSample doc none = .ok p ∧
      p.text = header ++ (";() => (<><A ></>);" ++ (Directive.scopeOpening "b" "b" "A" "default" ++
        ("c</>\x7d\x7d;() => (<></A></>);" ++ closing none p))) := by
  have shows : Shows scopedSample (";() => (<><A ></>);" ++ (Directive.scopeOpening "b" "b" "A" "default" ++
      "c</>\x7d\x7d;() => (<></A></>);")) = true := by decide +kernel
  obtain ⟨doc, scanned, p, projected, text⟩ := Shows.projected shows (by decide)
  exact ⟨doc, scanned, p, projected, by simpa only [String.append_assoc] using text⟩

end Projection
end SvelteLens
