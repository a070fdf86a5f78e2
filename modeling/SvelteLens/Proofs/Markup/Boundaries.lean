import SvelteLens.Proofs.Markup.Offsets

/-! Every offset that the scanner returns is a boundary of the text, for the scanner only ever stood at
boundaries. -/
namespace SvelteLens.Markup

open Text (width)

variable {text front run : List Char} {c d : Cursor}

theorem Cursor.Reads.boundary (h : (Cursor.start text).Reads front c) : Text.isBoundary text c.offset = true := by
  obtain ⟨whole, offset⟩ := h.cut
  exact Text.isBoundary_iff.mpr ⟨front, c.rest, whole, offset.symm⟩

/-- All offsets of a directive are boundaries. -/
structure Directive.Sharp (text : List Char) (d : Directive) : Prop where
  start : Text.isBoundary text d.span.start = true
  nameStart : Text.isBoundary text d.nameSpan.start = true
  nameStop : Text.isBoundary text d.nameSpan.stop = true
  headEnd : Text.isBoundary text d.headEnd = true
  stop : Text.isBoundary text d.span.stop = true
  valueStart : ∀ v ∈ d.expression?, Text.isBoundary text v.span.start = true
  valueStop : ∀ v ∈ d.expression?, Text.isBoundary text v.span.stop = true
  brace : ∀ v ∈ d.expression?, Text.isBoundary text (v.span.stop + 1) = true
  quote : ∀ v ∈ d.expression?, ∀ q ∈ v.quote, IsQuote q

theorem Assigned.boundaries {head last : Cursor} {value : DirectiveValue} (h : Assigned head value last)
    (here : (Cursor.start text).Reads front head) {v : ExpressionValue} (found : value = .expression v) :
    Text.isBoundary text v.span.start = true ∧ Text.isBoundary text v.span.stop = true ∧
      Text.isBoundary text (v.span.stop + 1) = true ∧ ∀ q ∈ v.quote, IsQuote q := by
  subst found
  cases h with
  | valued _ sign valued =>
    cases valued with
    | expression quotes opening inner closing =>
      have opened := (here.trans sign).trans opening
      have closed := opened.trans inner
      obtain ⟨brace, single, _, offset⟩ := closing.first
      have after := (closed.trans single).boundary
      rw [offset] at after
      exact ⟨opened.boundary, closed.boundary, after, quotes⟩

theorem Spelled.sharp {first last : Cursor} {d : Directive} (h : Spelled first d last)
    (here : (Cursor.start text).Reads front first) : d.Sharp text := by
  cases h with
  | mk kind word name modifiers assigned =>
    have atName := here.trans word
    have named := atName.trans name
    have headed := named.trans modifiers
    obtain ⟨run, rest⟩ := assigned.reads
    have value (v : ExpressionValue) := assigned.boundaries (v := v) headed
    refine ⟨here.boundary, atName.boundary, named.boundary, ?_, (headed.trans rest).boundary, ?_, ?_, ?_, ?_⟩
    · rw [headEnd_spelled modifiers]
      exact headed.boundary
    · exact fun v found => (value v (mem_expression?.mp found)).1
    · exact fun v found => (value v (mem_expression?.mp found)).2.1
    · exact fun v found => (value v (mem_expression?.mp found)).2.2.1
    · exact fun v found => (value v (mem_expression?.mp found)).2.2.2

theorem Zone.Stands.sharp {d : Directive} (h : Zone.Stands text (.directive d)) : d.Sharp text := by
  cases h with
  | directive here spelled => exact spelled.sharp here

theorem Zone.Stands.boundaries {z : Zone} (h : z.Stands text) :
    Text.isBoundary text z.span.start = true ∧ Text.isBoundary text z.span.stop = true := by
  cases h with
  | directive here spelled => exact ⟨(spelled.sharp here).start, (spelled.sharp here).stop⟩
  | style here reads => exact ⟨here.boundary, (here.trans reads).boundary⟩
  | script here opening _ body closing =>
    exact ⟨here.boundary, (((here.trans opening).trans body).trans closing).boundary⟩

theorem Zone.Stands.content_boundaries {shared : Bool} {block : ScriptBlock} (h : Zone.Stands text (.script shared block)) :
    Text.isBoundary text block.content.start = true ∧ Text.isBoundary text block.content.stop = true := by
  cases h with
  | script here opening _ body => exact ⟨(here.trans opening).boundary, ((here.trans opening).trans body).boundary⟩

theorem ofWord?_starts {word : List Char} {kind : DirectiveKind} (h : DirectiveKind.ofWord? (String.ofList word) = some kind) :
    ∃ x rest, word = x :: rest ∧ Text.isBlank x = false := by
  unfold DirectiveKind.ofWord? at h
  split at h
  case h_11 => cases h
  all_goals
    have spelled := congrArg String.toList ‹String.ofList word = _›
    rw [String.toList_ofList] at spelled
    subst spelled
    exact ⟨_, _, rfl, by decide⟩

theorem Zone.Stands.directive_starts {d : Directive} (h : Zone.Stands text (.directive d)) :
    ∃ before x after, text = before ++ x :: after ∧ width before = d.span.start ∧ Text.isBlank x = false := by
  cases h with
  | directive here spelled =>
    cases spelled with
    | mk kind word =>
      obtain ⟨whole, offset⟩ := here.cut
      obtain ⟨x, rest, rfl, solid⟩ := ofWord?_starts kind
      rw [word.1] at whole
      exact ⟨_, x, _, whole, offset.symm, solid⟩

end SvelteLens.Markup
