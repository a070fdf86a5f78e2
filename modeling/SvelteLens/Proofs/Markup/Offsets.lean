import SvelteLens.Proofs.Markup.Zones
import SvelteLens.Proofs.Text.Spans

/-! What the spelling of a document says about its offsets. -/
namespace SvelteLens

open Text (width)

namespace Markup

theorem mem_expression? {d : Directive} {v : ExpressionValue} : v ∈ d.expression? ↔ d.value = .expression v := by
  unfold Directive.expression?
  split <;> simp_all

/-- The parts of a directive follow each other, and the value ends the directive. -/
structure Directive.Ordered (d : Directive) : Prop where
  name : d.span.start < d.nameSpan.start
  head : d.nameSpan.start ≤ d.nameSpan.stop
  modifiers : d.nameSpan.stop ≤ d.headEnd
  stop : d.headEnd ≤ d.span.stop
  value : ∀ v ∈ d.expression?, d.headEnd < v.span.start ∧ v.span.start ≤ v.span.stop ∧
    v.span.stop + 1 + v.quote.toList.length = d.span.stop

theorem Directive.Ordered.covers_value {d : Directive} (h : d.Ordered) {v : ExpressionValue} (value : v ∈ d.expression?) :
    d.span.covers v.span = true := by
  have name := h.name
  have head := h.head
  have modifiers := h.modifiers
  have inner := h.value v value
  rw [Span.covers_iff]
  omega

theorem width_single {cs : List Char} (h : ∀ x ∈ cs, x.utf8Size = 1) : width cs = cs.length := by
  induction cs with
  | nil => rfl
  | cons c cs ih =>
    rw [Text.width_cons, ih fun x member => h x (by simp [member]), h c (by simp), List.length_cons, Nat.add_comm]

theorem Spelled.ordered {first last : Cursor} {d : Directive} (h : Spelled first d last) : d.Ordered := by
  cases h with
  | mk _ word name modifiers assigned =>
    have before := word.lt (by simp)
    have named := name.le
    have modified := modifiers.le
    obtain ⟨run, rest⟩ := assigned.reads
    have ended := rest.le
    refine ⟨before, named, ?_, ?_, fun v found => ?_⟩
    · rw [headEnd_spelled modifiers]
      exact modified
    · rw [headEnd_spelled modifiers]
      exact ended
    · rw [headEnd_spelled modifiers]
      cases assigned with
      | shorthand => cases found
      | valued _ sign valued =>
        have assigns := sign.le
        cases valued with
        | text => cases found
        | expression _ opening text closing size single =>
          cases found
          have opened := opening.lt (by simp)
          have inside := text.le
          have brace : ('\x7d' : Char).utf8Size = 1 := rfl
          have closed := closing.2
          rw [Text.width_cons, brace, width_single single, size] at closed
          refine ⟨Nat.lt_of_le_of_lt assigns opened, inside, ?_⟩
          simp only [closed]
          omega

/-- The content of a script block lies between its tags. -/
structure ScriptBlock.Ordered (block : ScriptBlock) : Prop where
  opening : block.span.start < block.content.start
  content : block.content.start ≤ block.content.stop
  closing : block.content.stop < block.span.stop

theorem ScriptBlock.Ordered.covers_content {block : ScriptBlock} (h : block.Ordered) :
    block.span.covers block.content = true :=
  Span.covers_iff.mpr ⟨Nat.le_of_lt h.opening, Nat.le_of_lt h.closing⟩

/-- The text of the content is as long as its span. -/
structure ScriptBlock.Holds (source : String) (block : ScriptBlock) : Prop extends block.Ordered where
  slice : ∃ content, block.content.slice? source = some content ∧
    block.content.stop = block.content.start + width content.toList

theorem Zone.Stands.holds {source : String} {shared : Bool} {block : ScriptBlock}
    (h : Zone.Stands source.toList (.script shared block)) : block.Holds source := by
  cases h with
  | script here opens ne reads closes ne' =>
    refine ⟨⟨opens.lt ne, reads.le, closes.lt ne'⟩, ?_⟩
    obtain ⟨text, offset⟩ := (here.trans opens).cut
    rw [reads.1] at text
    have cut := Text.slice?_eq_some_iff.mpr ⟨_, _, text, offset.symm, reads.2⟩
    refine ⟨_, Option.map_eq_some_iff.mpr ⟨_, cut, rfl⟩, ?_⟩
    rw [String.toList_ofList]
    exact reads.2

theorem ScriptBlock.Holds.cut {source : String} {block : ScriptBlock} (h : block.Holds source) :
    ∃ front content back, source.toList = front ++ (content ++ back) ∧
      block.content = ⟨width front, width front + width content⟩ ∧
        block.content.slice? source = some (String.ofList content) := by
  obtain ⟨content, slice, stop⟩ := h.slice
  obtain ⟨run, cut, rfl⟩ := Option.map_eq_some_iff.mp slice
  obtain ⟨front, back, whole, start, -⟩ := Text.slice?_eq_some_iff.mp cut
  rw [String.toList_ofList] at stop
  exact ⟨front, run, back, whole, by rw [start, ← stop], slice⟩

namespace Zoned

variable {text : List Char} {doc : Document} {zones : List Zone}

theorem directive_mem (h : Zoned text doc zones) {d : Directive} (member : d ∈ doc.directives) :
    .directive d ∈ zones := by
  rw [h.directives, List.mem_filterMap] at member
  obtain ⟨z, listed, same⟩ := member
  cases z <;> simp_all [Zone.directive?]

theorem style_mem (h : Zoned text doc zones) {s : Span} (member : s ∈ doc.styles) : .style s ∈ zones := by
  rw [h.styles, List.mem_filterMap] at member
  obtain ⟨z, listed, same⟩ := member
  cases z <;> simp_all [Zone.style?]

theorem script_mem (h : Zoned text doc zones) {block : ScriptBlock} (member : block ∈ doc.scripts) :
    ∃ shared, .script shared block ∈ zones := by
  rcases List.mem_append.mp member with member | member
  · exact ⟨false, h.instanceScript block (Option.mem_toList.mp member)⟩
  · exact ⟨true, h.moduleScript block (Option.mem_toList.mp member)⟩

theorem script_holds {source : String} (h : Zoned source.toList doc zones) {block : ScriptBlock}
    (member : block ∈ doc.scripts) : block.Holds source := by
  obtain ⟨shared, zone⟩ := h.script_mem member
  exact (h.stand _ zone).holds

theorem apart (h : Zoned text doc zones) {y z : Zone} (hy : y ∈ zones) (hz : z ∈ zones) :
    y = z ∨ y.span.Apart z.span :=
  related_of_pairwise h.ascending hy hz

/-- A byte lies in at most one zone. -/
theorem unique (h : Zoned text doc zones) {y z : Zone} {o : Nat} (hy : y ∈ zones) (hz : z ∈ zones)
    (inY : y.span.contains o = true) (inZ : z.span.contains o = true) : y = z := by
  rcases h.apart hy hz with same | apart
  · exact same
  · exact (apart.not_both inY inZ).elim

theorem ascending_filterMap {α : Type} (h : Zoned text doc zones) {select : Zone → Option α} (span : α → Span)
    (agrees : ∀ z a, select z = some a → z.span = span a) :
    (zones.filterMap select).Pairwise fun a b => (span a).stop ≤ (span b).start := by
  refine List.pairwise_filterMap.mpr (h.ascending.imp fun {y z} before a first b second => ?_)
  rw [← agrees y a first, ← agrees z b second]
  exact before

theorem styles_ascending (h : Zoned text doc zones) : doc.styles.Pairwise fun s t => s.stop ≤ t.start := by
  rw [h.styles]
  refine h.ascending_filterMap id fun z s found => ?_
  cases z <;> cases found
  rfl

theorem directives_ascending (h : Zoned text doc zones) :
    doc.directives.Pairwise fun d e => d.span.stop ≤ e.span.start := by
  rw [h.directives]
  refine h.ascending_filterMap Directive.span fun z d found => ?_
  cases z <;> cases found
  rfl

theorem directive_ordered (h : Zoned text doc zones) {d : Directive} (member : d ∈ doc.directives) : d.Ordered := by
  cases h.stand _ (h.directive_mem member) with
  | directive _ spelled => exact spelled.ordered

end Zoned
end Markup
end SvelteLens
