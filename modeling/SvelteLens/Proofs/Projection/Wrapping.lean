import SvelteLens.Proofs.Projection.Marks
import SvelteLens.Script.Parser.Module

/-! How markup is wrapped. Between the blocks, and before and behind them, every stretch of a component that
is not blank stands in one wrapper, from its first character that is not blank through its last one. Of the
blocks only the contents of scripts remain, between the wrappers. -/
namespace SvelteLens.Projection

open Edit Markup
open Edit.Buffer (Records)
open Text (width bytes)

/-- What calls make of a stretch of the source, with what they insert at its ends. -/
def through (calls : List Command) (source : String) (start stop : Nat) : List UInt8 :=
  closed (insertedAt calls) (editAt? calls) (bytes source.toList) start stop

/-- What calls make of a stretch of the source, without what they insert at its ends. -/
def within (calls : List Command) (source : String) (start stop : Nat) : List UInt8 :=
  inside (insertedAt calls) (editAt? calls) (bytes source.toList) start stop

def onward (calls : List Command) (source : String) (start : Nat) : List UInt8 :=
  written (insertedAt calls) (editAt? calls) (bytes source.toList) start

/-- What becomes of the stretch between two blocks: nothing of it is wrapped when it is blank, and else all from
its first character that is not blank through its last one. -/
inductive Gap (calls : List Command) (source : String) (start stop : Nat) : List Span → List UInt8 → Prop where
  | blank : Text.BlankBetween source.toList start stop → Gap calls source start stop [] (through calls source start stop)
  | filled : Text.Trimmed source.toList start stop first last →
      Gap calls source start stop [⟨first, last⟩] (through calls source start first ++ (bytes markupOpening.toList ++
        (within calls source first last ++ (bytes markupClosing.toList ++ through calls source last stop))))

/-- What becomes of a block: of a style nothing, and of a script its content. -/
inductive Shown (calls : List Command) (source : String) (doc : Document) : Span → List UInt8 → Prop where
  | style : span ∈ doc.styles → Shown calls source doc span []
  | script : block ∈ doc.scripts →
      Shown calls source doc block.span (through calls source block.content.start block.content.stop)

/-- What becomes of the source from an offset on: gaps and blocks in turn, with the ranges that are wrapped. -/
inductive Layout (calls : List Command) (source : String) (doc : Document) :
    Nat → List Span → List Span → List UInt8 → Prop where
  | last : Gap calls source start (width source.toList) wrapped out → Layout calls source doc start [] wrapped out
  | block {block : Span} {rest wrapped more : List Span} {gap shown out : List UInt8} :
      Gap calls source start block.start wrapped gap → Shown calls source doc block shown →
      Layout calls source doc block.stop rest more out →
      Layout calls source doc start (block :: rest) (wrapped ++ more) (gap ++ (shown ++ out))

section Ranges

variable {calls : List Command} {source : String} {doc : Document} {start stop : Nat} {ahead wrapped : List Span}
  {out : List UInt8}

/-- What is wrapped of a part of the source: ranges in order that share nothing with the blocks, and every
character of it that is not blank and in no block. -/
structure Wraps (text : List Char) (start stop : Nat) (blocks wrapped : List Span) : Prop where
  lower : ∀ w ∈ wrapped, start ≤ w.start ∧ w.start < w.stop ∧ w.stop ≤ stop
  apart : ∀ w ∈ wrapped, ∀ block ∈ blocks, w.Apart block
  ascending : wrapped.Pairwise fun v w => v.stop ≤ w.start
  covers : ∀ before x after, text = before ++ x :: after → Text.isBlank x = false → start ≤ width before →
    width before < stop → (∀ block ∈ blocks, block.contains (width before) = false) →
    ∃ w ∈ wrapped, w.contains (width before) = true

theorem Gap.wraps (h : Gap calls source start stop wrapped out) : Wraps source.toList start stop [] wrapped := by
  cases h with
  | blank blank =>
    refine ⟨nofun, nofun, .nil, fun before x after whole solid lower upper _ => ?_⟩
    rw [blank.blank_of_mem whole lower upper] at solid
    cases solid
  | @filled first last trimmed =>
    have lead := trimmed.lead.order
    have trail := trimmed.trail.order
    refine ⟨fun w member => ?_, nofun, List.pairwise_singleton _ _, fun before x after whole solid lower upper _ => ?_⟩
    · rw [List.mem_singleton.mp member]
      exact ⟨lead, trimmed.order, trail⟩
    · refine ⟨⟨first, last⟩, List.mem_singleton_self _, Span.contains_iff.mpr ⟨?_, ?_⟩⟩
      · refine Nat.le_of_not_lt fun before => ?_
        rw [trimmed.lead.blank_of_mem whole lower before] at solid
        cases solid
      · refine Nat.lt_of_not_le fun behind => ?_
        rw [trimmed.trail.blank_of_mem whole behind upper] at solid
        cases solid

/-- All markup is wrapped once. The induction is on the layout. -/
theorem Layout.wraps {blocks : List Span} (h : Layout calls source doc start ahead wrapped out)
    (ordered : Ahead source.toList blocks ahead start) : Wraps source.toList start (width source.toList) ahead wrapped := by
  induction h with
  | last gap => exact gap.wraps
  | @block start block rest wrapped more gap shown out first _ _ ih =>
    have low := ordered.lower block List.mem_cons_self
    have bounded := ordered.bounded block (ordered.listed block List.mem_cons_self)
    have filled := bounded.order
    have high := Text.le_width_of_isBoundary bounded.stop
    have here := first.wraps
    have tail := ih ordered.next
    refine ⟨fun w member => ?_, fun w member other block => ?_, ?_, fun before x after whole solid low' _ outside => ?_⟩
    · rcases List.mem_append.mp member with member | member
      · have := here.lower w member
        omega
      · have := tail.lower w member
        omega
    · rcases List.mem_append.mp member with member | member
      · have := here.lower w member
        rcases List.mem_cons.mp block with rfl | block
        · exact .inl this.2.2
        · have := ordered.next.lower other block
          exact .inl (by omega)
      · rcases List.mem_cons.mp block with rfl | block
        · exact .inr (tail.lower w member).1
        · exact tail.apart w member other block
    · refine List.pairwise_append.mpr ⟨here.ascending, tail.ascending, fun v before w behind => ?_⟩
      have := here.lower v before
      have := tail.lower w behind
      omega
    · have unheld := outside block List.mem_cons_self
      rw [← Bool.not_eq_true, Span.contains_iff] at unheld
      by_cases ahead' : width before < block.start
      · obtain ⟨w, member, holds⟩ := here.covers before x after whole solid low' ahead' nofun
        exact ⟨w, List.mem_append_left _ member, holds⟩
      · obtain ⟨w, member, holds⟩ := tail.covers before x after whole solid (by omega) ‹_› fun other member =>
          outside other (List.mem_cons_of_mem block member)
        exact ⟨w, List.mem_append_right _ member, holds⟩

end Ranges

/-- A buffer that holds the core of a projection of a scanned component. -/
structure Core (reader : Script.Reader) (source : String) (doc : Document) (zones : List Zone) (b : Buffer) : Prop where
  scanned : scan source = .ok doc
  zoned : Zoned source.toList doc zones
  confined : Confined reader source doc
  original : b.source = source
  valid : b.Consistent
  records : Records b (coreCommands reader source doc)

namespace Core

variable {reader : Script.Reader} {source : String} {doc : Document} {zones : List Zone} {b : Buffer}
  (h : Core reader source doc zones b)
include h

section Gaps

variable {start stop : Nat} (region : Region source.toList (blocks doc) start stop)
include region

theorem bare {i : Nat} (lower : start ≤ i) (upper : i < stop) : Bare doc i := by
  have unheld (block : Span) (listed : block ∈ blocks doc) : block.contains i = false := by
    rw [← Bool.not_eq_true, Span.contains_iff]
    rcases region.outside block listed with before | behind <;> omega
  refine .of_held h.zoned (fun block listed holds => ?_) fun style listed => unheld style (style_mem_blocks listed)
  rw [unheld _ (script_mem_blocks listed)] at holds
  cases holds

theorem unadapted {i : Nat} (lower : start ≤ i) (upper : i ≤ stop) :
    ∀ j ∈ insertions (adaptations reader source doc), j.offset ≠ i := by
  intro j member
  obtain ⟨block, listed, first, last⟩ := adaptations_inside h.confined member
  have ordered := (h.zoned.script_holds listed).toOrdered
  have := ordered.opening
  have := ordered.closing
  rcases region.outside _ (script_mem_blocks listed) with before | behind <;> omega

/-- No content of a tag begins among the blanks at the front of a stretch of markup: the angle bracket of the tag would
be among them, or belong to a block. -/
theorem begins_behind {first : Nat} (blank : Text.BlankBetween source.toList start first) {placed : Placed}
    (tag : placed ∈ doc.tags) {content : Span} (inside : content ∈ placed.tag.content) (lower : start ≤ content.start) :
    first < content.start := by
  have encloses := scan_contents h.scanned tag inside
  obtain ⟨before, after, whole, offset⟩ := encloses.bracket
  rcases Nat.eq_or_lt_of_le lower with rfl | more
  · rcases region.first with nothing | ⟨block, listed, ends⟩
    · omega
    · exact (encloses.unblocked block (mem_blocks_iff.mp listed) ends).elim
  · refine Nat.lt_of_not_le fun early => ?_
    have impossible := blank.blank_of_mem whole (by omega) (by omega)
    exact absurd impossible (by decide)

/-- Nothing is put in front of the first character of a stretch of markup that is not blank. -/
theorem unopened {first last : Nat} (trimmed : Text.Trimmed source.toList start stop first last) :
    ∀ j ∈ insertions (siteCommands source doc), j.side = .before → j.offset ≠ first := by
  intro j member side same
  obtain ⟨placed, tag, content, inside, begins⟩ := siteCommands_before h.zoned member side
  have behind := h.begins_behind region trimmed.lead tag inside (by rw [← begins, same]; exact trimmed.lead.order)
  omega

theorem edited_between {i : Nat} (lower : start ≤ i) (upper : i < stop) :
    editAt? (coreCommands reader source doc) i = editAt? (contentCommands reader source doc) i :=
  (h.bare region lower upper).editAt?

/-- A stretch between the blocks that is not blank is wrapped without the blanks at its ends. -/
theorem filled {first last : Nat} (trimmed : Text.Trimmed source.toList start stop first last)
    (marks : ∀ i, start ≤ i → i ≤ stop → insertedAt (coreCommands reader source doc) i =
      marked reader source doc (wrapper first last) i)
    (made : ∀ c ∈ wrapper first last, c ∈ coreCommands reader source doc) :
    through (coreCommands reader source doc) source start stop =
      through (contentCommands reader source doc) source start first ++ (bytes markupOpening.toList ++
        (within (contentCommands reader source doc) source first last ++ (bytes markupClosing.toList ++
          through (contentCommands reader source doc) source last stop))) := by
  have lead := trimmed.lead.order
  have trail := trimmed.trail.order
  have inner := trimmed.order
  have opening : ⟨first, .before, markupOpening⟩ ∈ insertions (coreCommands reader source doc) :=
    List.mem_filterMap.mpr ⟨_, made _ List.mem_cons_self, rfl⟩
  have closing : ⟨last, .after, markupClosing⟩ ∈ insertions (coreCommands reader source doc) :=
    List.mem_filterMap.mpr ⟨_, made _ (List.mem_cons_of_mem _ List.mem_cons_self), rfl⟩
  have opens : Meets (editAt? (coreCommands reader source doc)) first := h.valid.meets_insertion h.records opening
  have closes : Meets (editAt? (coreCommands reader source doc)) last := h.valid.meets_insertion h.records closing
  have quiet (i : Nat) (low : start ≤ i) (high : i ≤ stop) (notFirst : first ≠ i) (notLast : last ≠ i) :
      insertedAt (coreCommands reader source doc) i = insertedAt (contentCommands reader source doc) i := by
    refine (marks i low high).trans (marked_quiet fun j member here => ?_)
    rcases wrapper_offset member with same | same
    · exact notFirst (same.symm.trans here)
    · exact notLast (same.symm.trans here)
  have atFirst := (marks first lead (by omega)).trans
    (marked_opening inner (h.unadapted region lead (by omega)) (h.unopened region trimmed))
  have atLast := (marks last (by omega) trail).trans (marked_closing inner (h.unadapted region (by omega) trail))
  have before : stretch (insertedAt (coreCommands reader source doc)) (editAt? (coreCommands reader source doc))
      (bytes source.toList) start first = stretch (insertedAt (contentCommands reader source doc))
      (editAt? (contentCommands reader source doc)) (bytes source.toList) start first :=
    stretch_congr (fun i low high => quiet i low (by omega) (by omega) (by omega)) fun i low high =>
      h.edited_between region low (by omega)
  have middle : inside (insertedAt (coreCommands reader source doc)) (editAt? (coreCommands reader source doc))
      (bytes source.toList) first last = within (contentCommands reader source doc) source first last :=
    inside_congr inner (fun i low high => quiet i (by omega) (by omega) (by omega) (by omega)) fun i low high =>
      h.edited_between region (by omega) (by omega)
  have behind : through (coreCommands reader source doc) source last stop =
      bytes markupClosing.toList ++ through (contentCommands reader source doc) source last stop :=
    closed_prefixed trail atLast (fun i low high => quiet i (by omega) high (by omega) (by omega)) fun i low high =>
      h.edited_between region (by omega) high
  calc through (coreCommands reader source doc) source start stop
      = stretch _ _ _ start first ++ (stretch _ _ _ first last ++ through (coreCommands reader source doc) source last stop) := by
        rw [through, closed_append opens lead (by omega), closed_append closes (Nat.le_of_lt inner) trail, through]
    _ = _ := by
        rw [stretch_cons inner, before, middle, behind, atFirst]
        simp only [through, closed, List.append_assoc]

theorem gap (lower : Text.isBoundary source.toList start = true) (upper : Text.isBoundary source.toList stop = true)
    (order : start ≤ stop)
    (marks : ∀ i, start ≤ i → i ≤ stop → insertedAt (coreCommands reader source doc) i =
      marked reader source doc (wrapPlan source start stop).commands i)
    (made : ∀ c ∈ (wrapPlan source start stop).commands, c ∈ coreCommands reader source doc) :
    ∃ wrapped, (wrapPlan source start stop).commands = wrappers wrapped ∧
      Gap (contentCommands reader source doc) source start stop wrapped
        (through (coreCommands reader source doc) source start stop) := by
  have cases' := wrapPlan_cases source start stop
  rw [Nat.max_eq_left order] at cases'
  rcases cases' with ⟨none, blank⟩ | ⟨first, last, trimmed, wraps⟩
  · obtain ⟨run, cut⟩ := Text.slice?_of_boundaries lower upper order
    have blank := blank.resolve_left (by rw [cut]; exact nofun)
    rw [none] at marks
    have same : through (coreCommands reader source doc) source start stop =
        through (contentCommands reader source doc) source start stop :=
      closed_congr order (fun i low high => (marks i low high).trans (marked_quiet nofun)) fun i low high =>
        h.edited_between region low high
    exact ⟨[], none, same ▸ .blank blank⟩
  · rw [wraps] at marks made
    refine ⟨[⟨first, last⟩], wraps, ?_⟩
    rw [h.filled region trimmed marks made]
    exact .filled trimmed

end Gaps

/-- A removed range leaves what the core inserts at its start, and that start is met. -/
theorem removed (span : Span) (filled : span.start < span.stop) (upper : span.stop ≤ width source.toList)
    (listed : span ∈ doc.styles ∨ ∃ block ∈ doc.scripts,
      span = ⟨block.span.start, block.content.start⟩ ∨ span = ⟨block.content.stop, block.span.stop⟩) :
    Meets (editAt? (coreCommands reader source doc)) span.start ∧ onward (coreCommands reader source doc) source span.start =
      insertedAt (coreCommands reader source doc) span.start ++ onward (coreCommands reader source doc) source span.stop := by
  have edit : ⟨span, ""⟩ ∈ edits (coreCommands reader source doc) := removal_mem filled listed
  refine ⟨(h.valid.meets_edit h.records edit).1, ?_⟩
  exact written_removed (h.valid.editAt? h.records edit) filled (by rwa [Text.length_bytes])

/-- Nothing is removed as a tag or a style inside the content of a script, for no zone holds another. -/
theorem bare_content {block : ScriptBlock} (listed : block ∈ doc.scripts) {i : Nat} (lower : block.content.start ≤ i)
    (upper : i < block.content.stop) : Bare doc i := by
  obtain ⟨shared, zone⟩ := h.zoned.script_mem listed
  have ordered := (h.zoned.script_holds listed).toOrdered
  have opens := ordered.opening
  have closes := ordered.closing
  have holds : block.span.contains i = true := Span.contains_iff.mpr ⟨by omega, by omega⟩
  refine .of_held h.zoned (fun other listed' holds' => ?_) fun style listed' => Bool.eq_false_iff.mpr fun holds' => ?_
  · obtain ⟨shared', zone'⟩ := h.zoned.script_mem listed'
    cases h.zoned.unique zone' zone holds' holds
    exact ⟨lower, upper⟩
  · cases h.zoned.unique (h.zoned.style_mem listed') zone holds' holds

theorem inserted_inside {span : Span} (listed : span ∈ blocks doc) {i : Nat} (lower : span.start < i) (upper : i < span.stop) :
    insertedAt (coreCommands reader source doc) i = insertedAt (contentCommands reader source doc) i := by
  rw [insertedAt_core]
  refine marked_quiet fun j member same => ?_
  obtain ⟨c, made, insertion⟩ := List.mem_filterMap.mp member
  obtain ⟨start, stop, offset, region, edge, inserts⟩ := (markupPlan_wraps (blocks_ahead h.zoned)).2 c made
  have at' : offset = j.offset := congrArg Span.start (inserts.reach.symm.trans (Buffer.insertion?_reach insertion).symm)
  have first := edge.lower
  have last := edge.upper
  rcases region.outside span listed with before | behind <;> omega

theorem through_content {block : ScriptBlock} (listed : block ∈ doc.scripts) :
    through (coreCommands reader source doc) source block.content.start block.content.stop =
      through (contentCommands reader source doc) source block.content.start block.content.stop := by
  have ordered := (h.zoned.script_holds listed).toOrdered
  have opens := ordered.opening
  have closes := ordered.closing
  exact closed_congr ordered.content
    (fun i lower upper => h.inserted_inside (script_mem_blocks listed) (by omega) (by omega))
    fun i lower upper => (h.bare_content listed lower upper).editAt?

/-- Of a script its content is written, behind what is inserted in front of it. -/
theorem script_shown {block : ScriptBlock} (listed : block ∈ doc.scripts) :
    Meets (editAt? (coreCommands reader source doc)) block.span.start ∧
      Meets (editAt? (coreCommands reader source doc)) block.content.stop ∧
      onward (coreCommands reader source doc) source block.span.start =
        insertedAt (coreCommands reader source doc) block.span.start ++
          (through (contentCommands reader source doc) source block.content.start block.content.stop ++
            onward (coreCommands reader source doc) source block.span.stop) := by
  have bounded := blocks_bounded h.zoned block.span (script_mem_blocks listed)
  have upper := Text.le_width_of_isBoundary bounded.stop
  have ordered := (h.zoned.script_holds listed).toOrdered
  have opens := ordered.opening
  have order := ordered.content
  have closes := ordered.closing
  have inner : block.content.stop ≤ width source.toList := Nat.le_trans (Nat.le_of_lt closes) upper
  obtain ⟨entry, first⟩ := h.removed ⟨block.span.start, block.content.start⟩ opens (Nat.le_trans order inner)
    (.inr ⟨block, listed, .inl rfl⟩)
  obtain ⟨met, last⟩ := h.removed ⟨block.content.stop, block.span.stop⟩ closes upper (.inr ⟨block, listed, .inr rfl⟩)
  have middle : onward (coreCommands reader source doc) source block.content.start =
      stretch _ _ _ _ _ ++ onward (coreCommands reader source doc) source block.content.stop :=
    written_cut (insertedAt (coreCommands reader source doc)) (bytes source.toList) met order (by rwa [Text.length_bytes])
  refine ⟨entry, met, ?_⟩
  rw [first, middle, last, ← h.through_content listed, through, closed]
  simp only [List.append_assoc]

/-- Of a block only the content of a script is written, behind what is inserted in front of the block. -/
theorem shown {span : Span} (listed : span ∈ blocks doc) :
    Meets (editAt? (coreCommands reader source doc)) span.start ∧
      ∃ out, Shown (contentCommands reader source doc) source doc span out ∧
        onward (coreCommands reader source doc) source span.start = insertedAt (coreCommands reader source doc) span.start ++
          (out ++ onward (coreCommands reader source doc) source span.stop) := by
  rcases List.mem_append.mp (mem_blocks_iff.mp listed) with script | style
  · obtain ⟨block, inside, rfl⟩ := List.mem_map.mp script
    obtain ⟨entry, -, whole⟩ := h.script_shown inside
    exact ⟨entry, _, .script inside, whole⟩
  · have bounded := blocks_bounded h.zoned span listed
    obtain ⟨entry, whole⟩ := h.removed span bounded.order (Text.le_width_of_isBoundary bounded.stop) (.inl style)
    exact ⟨entry, [], .style style, whole⟩

theorem onward_end {start : Nat} (upper : start ≤ width source.toList) : onward (coreCommands reader source doc) source start =
    through (coreCommands reader source doc) source start (width source.toList) := by
  have met := h.valid.meets_end h.records
  have unedited := h.valid.editAt?_end h.records
  rw [h.original] at met unedited
  have cut := written_cut (insertedAt (coreCommands reader source doc)) (bytes source.toList) met upper
    (Nat.le_of_eq (Text.length_bytes _).symm)
  have last := written_end (insertedAt (coreCommands reader source doc)) (bytes source.toList)
    (by rwa [Text.length_bytes])
  rw [Text.length_bytes] at last
  rw [onward, cut, last, through, closed]

/-- From a boundary between the blocks on, gaps and blocks are written in turn. The induction is on the blocks
ahead. -/
theorem layout {ahead : List Span} {start : Nat} (ordered : Ahead source.toList (blocks doc) ahead start)
    (marks : ∀ i, start ≤ i → insertedAt (coreCommands reader source doc) i =
      marked reader source doc (markupPlan source start ahead).commands i)
    (made : ∀ c ∈ (markupPlan source start ahead).commands, c ∈ coreCommands reader source doc) :
    ∃ wrapped, (markupPlan source start ahead).commands = wrappers wrapped ∧
      Layout (contentCommands reader source doc) source doc start ahead wrapped
        (onward (coreCommands reader source doc) source start) := by
  have upper := Text.le_width_of_isBoundary ordered.boundary
  induction ahead generalizing start with
  | nil =>
    obtain ⟨wrapped, wraps, gap⟩ := h.gap ordered.last ordered.boundary
      (Text.isBoundary_iff.mpr ⟨source.toList, [], by simp, rfl⟩) upper (fun i low _ => marks i low) made
    refine ⟨wrapped, wraps, ?_⟩
    rw [h.onward_end upper]
    exact .last gap
  | cons block ahead ih =>
    have inside := ordered.listed block List.mem_cons_self
    have here := ordered.bounded block inside
    have low := ordered.lower block List.mem_cons_self
    have order := here.order
    have stop := Text.le_width_of_isBoundary here.stop
    rw [markupPlan, Plan.commands_append] at made
    obtain ⟨wrapped, wraps, gap⟩ := h.gap ordered.region ordered.boundary here.start low
      (fun i low' high => (marks i low').trans (ordered.marked_before high))
      fun c member => made c (List.mem_append_left _ member)
    obtain ⟨met, content, shown, whole⟩ := h.shown inside
    obtain ⟨more, wraps', layout⟩ := ih ordered.next
      (fun i low' => (marks i (by omega)).trans (ordered.marked_next low'))
      (fun c member => made c (List.mem_append_right _ member)) stop
    have cut : onward (coreCommands reader source doc) source start =
        stretch _ _ _ start block.start ++ onward (coreCommands reader source doc) source block.start :=
      written_cut (insertedAt (coreCommands reader source doc)) (bytes source.toList) met low
        (by rw [Text.length_bytes]; exact Nat.le_trans (Nat.le_of_lt order) stop)
    refine ⟨wrapped ++ more, ?_, ?_⟩
    · rw [markupPlan, Plan.commands_append, wraps, wraps', wrappers, wrappers, wrappers, List.flatMap_append]
    · have parts := Layout.block gap shown layout
      rwa [through, closed, List.append_assoc, ← whole, ← cut] at parts

/-- The core of a projection behind each of the blocks ahead. The induction is on the blocks. -/
theorem layout_behind {ahead : List Span} {start : Nat} {span : Span} (ordered : Ahead source.toList (blocks doc) ahead start)
    (marks : ∀ i, start ≤ i → insertedAt (coreCommands reader source doc) i =
      marked reader source doc (markupPlan source start ahead).commands i)
    (made : ∀ c ∈ (markupPlan source start ahead).commands, c ∈ coreCommands reader source doc) (listed : span ∈ ahead) :
    ∃ after wrapped, Ahead source.toList (blocks doc) after span.stop ∧
      Layout (contentCommands reader source doc) source doc span.stop after wrapped
        (onward (coreCommands reader source doc) source span.stop) := by
  induction ahead generalizing start with
  | nil => cases listed
  | cons block ahead ih =>
    have low := ordered.lower block List.mem_cons_self
    have order := (ordered.bounded block (ordered.listed block List.mem_cons_self)).order
    have marks' (i : Nat) (low' : block.stop ≤ i) : insertedAt (coreCommands reader source doc) i =
        marked reader source doc (markupPlan source block.stop ahead).commands i :=
      (marks i (by omega)).trans (ordered.marked_next low')
    rw [markupPlan, Plan.commands_append] at made
    have made' (c : Command) (member : c ∈ (markupPlan source block.stop ahead).commands) : c ∈ coreCommands reader source doc :=
      made c (List.mem_append_right _ member)
    rcases List.mem_cons.mp listed with rfl | later
    · obtain ⟨wrapped, -, layout⟩ := h.layout ordered.next marks' made'
      exact ⟨ahead, wrapped, ordered.next, layout⟩
    · exact ih ordered.next marks' made' later

/-- The core of a projection, gap by gap and block by block. -/
theorem layout_all : ∃ wrapped, (markupPlan source 0 (blocks doc)).commands = wrappers wrapped ∧
    Layout (contentCommands reader source doc) source doc 0 (blocks doc) wrapped
      (reference source (coreCommands reader source doc)) := by
  exact h.layout (blocks_ahead h.zoned) (fun i _ => insertedAt_core i) fun _ => markup_mem_core

theorem behind {span : Span} (listed : span ∈ blocks doc) : ∃ after wrapped, Ahead source.toList (blocks doc) after span.stop ∧
    Layout (contentCommands reader source doc) source doc span.stop after wrapped
      (onward (coreCommands reader source doc) source span.stop) :=
  h.layout_behind (blocks_ahead h.zoned) (fun i _ => insertedAt_core i) (fun _ => markup_mem_core) listed

end Core

/-- Markup is wrapped exactly once. A projection consists of what becomes of the gaps between the blocks and of the
blocks, in source order. Every gap that is not blank has one wrapper, from its first character that is not blank
through its last one, and there are no other wrappers. Styles and the tags of scripts leave nothing. So every
character of the markup that is not blank stands in exactly one wrapper, and no script in any. -/
theorem markup_wrapped_once {reader : Script.Reader} {source : String} {doc : Document} {path : Option Path} {p : Projection}
    (within : Reads reader source doc Script.Outline.Within) (scanned : scan source = .ok doc)
    (projected : ofComponent reader source doc path = .ok p) :
    (blocks doc).Perm (doc.scripts.map (·.span) ++ doc.styles) ∧ (blocks doc).Pairwise (fun s t => s.stop ≤ t.start) ∧
    ∃ wrapped out, Layout (contentCommands reader source doc) source doc 0 (blocks doc) wrapped out ∧
      (markupPlan source 0 (blocks doc)).commands = wrappers wrapped ∧
      (source ≠ "" → bytes p.text.toList = bytes header.toList ++ (out ++ bytes (closing path p).toList)) ∧
      (source = "" → wrapped = [] ∧ bytes p.text.toList = bytes (closing path p).toList ++ bytes header.toList) ∧
      (∀ w ∈ wrapped, (∀ block ∈ blocks doc, w.Apart block) ∧ ∀ block ∈ doc.scripts, w.Apart block.content) ∧
      ∀ before x after, source.toList = before ++ x :: after → Text.isBlank x = false →
        (∀ block ∈ blocks doc, block.contains (width before) = false) →
        ∃! w, w ∈ wrapped ∧ w.contains (width before) = true := by
  obtain ⟨zones, zoned⟩ := scan_zoned scanned
  obtain ⟨b, original, valid, records, _⟩ := ofComponent_core projected
  have core : Core reader source doc zones b := ⟨scanned, zoned, within.confined scanned, original, valid, records⟩
  obtain ⟨wrapped, made, layout⟩ := core.layout_all
  have wraps := layout.wraps (blocks_ahead zoned)
  refine ⟨List.mergeSort_perm _ _, blocks_ascending zoned, wrapped, _, layout, made, ofComponent_bytes scanned projected, ?_,
    fun w member => ⟨wraps.apart w member, fun block listed => ?_⟩, fun before x after whole solid outside => ?_⟩
  · rintro rfl
    refine ⟨List.eq_nil_iff_forall_not_mem.mpr fun w member => ?_, ofComponent_bytes_empty scanned projected⟩
    have lower := wraps.lower w member
    have nothing : width "".toList = 0 := rfl
    omega
  · have ordered := (zoned.script_holds listed).toOrdered
    have opens := ordered.opening
    have closes := ordered.closing
    rcases wraps.apart w member block.span (script_mem_blocks listed) with before | behind
    · exact .inl (by omega)
    · exact .inr (by omega)
  · have inside : width before < width source.toList := by
      have filled := Char.utf8Size_pos x
      rw [whole, Text.width_append, Text.width_cons]
      omega
    obtain ⟨w, member, holds⟩ := wraps.covers before x after whole solid (Nat.zero_le _) inside outside
    refine ⟨w, ⟨member, holds⟩, fun v both => ?_⟩
    rcases related_of_pairwise wraps.ascending both.1 member with same | apart
    · exact same
    · exact (Span.Apart.not_both apart both.2 holds).elim

/-- A component with markup in front of its script and behind it, and with blanks in and around the markup. -/
def spacedSample : String := " é <p on:a={a}/> <script>export let a;$:a()</script> b "

/-- The markup on both sides is wrapped without the blanks at its ends. -/
theorem markup_wrapped_once_sample : ∃ doc, scan spacedSample = .ok doc ∧
    Reads Script.readOutline spacedSample doc Script.Outline.Within ∧ ∃ p,
      ofComponent Script.readOutline spacedSample doc none = .ok p ∧ ∃ wrapped out,
        Layout (contentCommands Script.readOutline spacedSample doc) spacedSample doc 0 (blocks doc) wrapped out ∧
          wrappers wrapped = wrapper 1 17 ++ wrapper 54 55 ∧
          bytes p.text.toList = bytes header.toList ++ (out ++ bytes (closing none p).toList) := by
  have runs : ((scan spacedSample).toOption.filter fun doc => Reads Script.readOutline spacedSample doc Script.Outline.Within ∧
      (ofComponent Script.readOutline spacedSample doc none).toOption.isSome ∧
        (markupPlan spacedSample 0 (blocks doc)).commands = wrapper 1 17 ++ wrapper 54 55).isSome = true := by decide +kernel
  obtain ⟨doc, found⟩ := Option.isSome_iff_exists.mp runs
  obtain ⟨scanned, holds⟩ := Option.filter_eq_some_iff.mp found
  obtain ⟨within, succeeds, commands⟩ := of_decide_eq_true holds
  obtain ⟨p, projected⟩ := Option.isSome_iff_exists.mp succeeds
  have scanned := ok_of_toOption scanned
  have projected := ok_of_toOption projected
  obtain ⟨_, _, wrapped, out, layout, made, text, _⟩ := markup_wrapped_once within scanned projected
  exact ⟨doc, scanned, within, p, projected, wrapped, out, layout, made.symm.trans commands, text (by decide)⟩

end SvelteLens.Projection
