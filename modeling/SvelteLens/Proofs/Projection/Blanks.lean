import SvelteLens.Proofs.Edit.Characters
import SvelteLens.Proofs.Projection.Forests

/-! The blanks at the front of a stretch of markup. They are copied as they are: no directive lies among them, and of
the scopes only those can insert there that end at the first character that is not blank. -/
namespace SvelteLens

open Text (width bytes)

namespace Markup

theorem DirectiveKind.ofWord?_filled {word : List Char} {kind : DirectiveKind}
    (h : DirectiveKind.ofWord? (String.ofList word) = some kind) : ∃ x rest, word = x :: rest ∧ Text.isBlank x = false := by
  have words : ∀ w ∈ ["use", "bind", "on", "transition", "in", "out", "animate", "class", "style", "let"],
      (w.toList.head?.any fun x => !Text.isBlank x) = true := by decide
  have among : String.ofList word ∈ ["use", "bind", "on", "transition", "in", "out", "animate", "class", "style", "let"] := by
    unfold DirectiveKind.ofWord? at h
    split at h <;> simp_all
  have filled := words _ among
  rw [String.toList_ofList] at filled
  cases word with
  | nil => cases filled
  | cons x rest => exact ⟨x, rest, rfl, by simpa using filled⟩

theorem Zone.Stands.directive_filled {text : List Char} {d : Directive} (h : Zone.Stands text (.directive d)) :
    ∃ before x after, text = before ++ x :: after ∧ width before = d.span.start ∧ Text.isBlank x = false := by
  cases h with
  | directive reads spelled =>
    cases spelled with
    | mk known word _ _ _ =>
      obtain ⟨x, rest, rfl, solid⟩ := DirectiveKind.ofWord?_filled known
      obtain ⟨whole, offset⟩ := reads.cut
      rw [word.1] at whole
      exact ⟨_, x, _, whole, offset.symm, solid⟩

end Markup

namespace Projection

open Edit Markup

def stopping (scopes : List Directive.Scope) (i : Nat) : List Directive.Scope := scopes.filter (·.content.stop = i)

section Scopes

variable {scope : Directive.Scope} {i : Nat} (other : scope.content.start ≠ i)
include other

/-- A scope brings no text in front of an offset where its content does not start. -/
theorem inserted_before_scope : inserted .before i scope.commands = [] := by
  refine inserted_nil fun j listed _ same => ?_
  obtain ⟨c, made, insertion⟩ := List.mem_filterMap.mp listed
  unfold Directive.Scope.commands at made
  split at made
  · rcases List.mem_pair.mp made with rfl | rfl <;> cases insertion <;> exact other same
  · rcases List.mem_pair.mp made with rfl | rfl
    · cases insertion
      exact other same
    · cases insertion
      simp_all

theorem inserted_after_scope : inserted .after i scope.commands =
    if scope.content.stop = i then [Directive.scopeClosing] else [] := by
  by_cases empty : scope.content.isEmpty = true
  · have same : scope.content.start = scope.content.stop := by simpa [Span.isEmpty] using empty
    rw [if_neg (by rwa [← same]), Directive.Scope.commands, if_pos empty]
    simp [inserted, insertions, Command.insertion?]
  · rw [Directive.Scope.commands, if_neg empty]
    by_cases here : scope.content.stop = i <;> simp [inserted, insertions, Command.insertion?, here]

end Scopes

/-- Where no content of a scope starts, only the ends of scopes are inserted. -/
theorem insertedAt_stopping {scopes : List Directive.Scope} {i : Nat} (starts : ∀ scope ∈ scopes, scope.content.start ≠ i) :
    insertedAt (scopeCommands scopes) i = (stopping scopes i).flatMap fun _ => bytes Directive.scopeClosing.toList := by
  have opens : (scopes.flatMap fun scope => inserted .before i scope.commands) = [] :=
    List.flatMap_eq_nil_iff.mpr fun scope member => inserted_before_scope (starts scope member)
  rw [insertedAt, scopeCommands, inserted_flatMap, inserted_flatMap, opens, List.append_nil]
  clear opens
  induction scopes with
  | nil => rfl
  | cons scope rest ih =>
    obtain ⟨first, later⟩ := List.forall_mem_cons.mp starts
    rw [List.flatMap_cons, List.flatMap_append, ih later, inserted_after_scope first, stopping, stopping, List.filter_cons]
    split <;> simp_all

theorem stopping_nil {source : String} {doc : Document} {zones : List Zone} {i limit : Nat}
    (nest : Nest source.toList zones 0 limit doc.nodes) (plain : ¬Angle source.toList zones i) :
    stopping (documentScopes source doc) i = [] := by
  refine List.filter_eq_nil_iff.mpr fun scope member same => plain ?_
  have same : scope.content.stop = i := by simpa using same
  exact same ▸ scopesIn_angle nest member

namespace Core

variable {reader : Script.Reader} {source : String} {doc : Document} {zones : List Zone} {b : Buffer}
  (h : Core reader source doc zones b) {start stop first i limit : Nat}
  (region : Region source.toList (blocks doc) start stop) (blank : Text.BlankBetween source.toList start first)
include h region blank

theorem directive_apart {d : Markup.Directive} (zone : .directive d ∈ zones) : d.span.stop < start ∨ first ≤ d.span.start := by
  obtain ⟨before, x, after, whole, offset, solid⟩ := (h.zoned.stand _ zone).directive_filled
  have apart : d.span.stop < start ∨ start ≤ d.span.start := by
    rcases region.first with rfl | ⟨block, listed, ends⟩
    · exact .inr (Nat.zero_le _)
    · obtain ⟨z, zone', _, kind, rfl⟩ := (mem_blocks h.zoned).mp listed
      have proper := (h.zoned.stand z zone').proper
      rcases related_of_pairwise h.zoned.ascending zone zone' with rfl | before | behind
      · cases kind
      · have before : d.span.stop ≤ z.span.start := before
        exact .inl (by omega)
      · have behind : z.span.stop ≤ d.span.start := behind
        exact .inr (by omega)
  refine apart.imp_right fun lower => Nat.le_of_not_lt fun upper => ?_
  rw [blank.blank_of_mem whole (by omega) (by omega)] at solid
  cases solid

theorem unrewritten (within : first ≤ stop) (lower : start ≤ i) (upper : i ≤ first) :
    insertedAt (rewritings reader source doc) i = [] := by
  refine insertedAt_nil fun j member same => ?_
  rw [rewritings, insertions_append] at member
  rcases List.mem_append.mp member with scripts | directives
  · exact h.unadapted region lower (by omega) j scripts same
  · obtain ⟨c, made, insertion⟩ := List.mem_filterMap.mp directives
    obtain ⟨site, listed, made⟩ := List.mem_flatMap.mp made
    have directive := site_directive listed
    obtain ⟨behind, inside⟩ := Directive.Site.rewriting_inserts (h.zoned.directive_ordered directive)
      (List.mem_filterMap.mpr ⟨c, made, insertion⟩)
    rcases h.directive_apart region blank (h.zoned.directive_mem directive) with before | later <;> omega

theorem unedited (within : first ≤ stop) (lower : start ≤ i) (upper : i < first) :
    editAt? (contentCommands reader source doc) i = none := by
  cases found : editAt? (contentCommands reader source doc) i with
  | none => rfl
  | some r =>
    obtain ⟨member, rfl⟩ := mem_of_editAt? found
    rw [← h.edited_between region lower (by omega)] at found
    have proper := (h.valid.proper r (h.records.mem_edits.mpr (mem_of_editAt? found).1)).1
    rcases content_edit_cases h.confined h.zoned member with ⟨block, listed, covers⟩ | ⟨d, zone, covers⟩
    · have covers := Span.covers_iff.mp covers
      rcases region.outside _ (script_mem_blocks listed) with before | behind <;> omega
    · have covers := Span.covers_iff.mp covers
      rcases h.directive_apart region blank zone with before | behind <;> omega

theorem scope_behind {scope : Directive.Scope} (member : scope ∈ documentScopes source doc)
    (lower : start ≤ scope.content.start) :
    first < scope.content.start := by
  obtain ⟨placed, tag, found⟩ := List.mem_flatMap.mp member
  exact h.begins_behind region blank tag (scopesOf_content found) lower

variable (nest : Nest source.toList zones 0 limit doc.nodes)
include nest

/-- Among the blanks only the ends of scopes are inserted. -/
theorem inserted_blank (within : first ≤ stop) (lower : start ≤ i) (upper : i ≤ first) :
    insertedAt (contentCommands reader source doc) i =
      (stopping (documentScopes source doc) i).flatMap fun _ => bytes Directive.scopeClosing.toList := by
  rw [insertedAt_nested h.confined h.zoned nest, h.unrewritten region blank within lower upper, List.nil_append]
  refine insertedAt_stopping fun scope member same => ?_
  have behind := h.scope_behind region blank member (by omega)
  omega

/-- The blanks are copied, and the scopes that end at the first character behind them are closed there. -/
theorem blanks_copied (within : first ≤ stop) : ∃ run : List Char, run.all Text.isBlank = true ∧
    (∀ before x after, source.toList = before ++ x :: after → start ≤ width before → width before < first → x ∈ run) ∧
    through (contentCommands reader source doc) source start first = bytes run ++
      (stopping (documentScopes source doc) first).flatMap fun _ => bytes Directive.scopeClosing.toList := by
  have order := blank.order
  have last := h.inserted_blank region blank nest within order (Nat.le_refl first)
  have untouched (j : Nat) (lower : start ≤ j) (upper : j < first) : insertedAt (contentCommands reader source doc) j = [] ∧
      editAt? (contentCommands reader source doc) j = none := by
    have plain : ¬Angle source.toList zones j := by
      intro angle
      obtain ⟨before, after, cut, offset⟩ := angle.bracket
      exact absurd (blank.blank_of_mem cut (by omega) (by omega)) (by decide)
    rw [h.inserted_blank region blank nest within lower (Nat.le_of_lt upper), stopping_nil nest plain]
    exact ⟨rfl, h.unedited region blank within lower upper⟩
  obtain ⟨front, run, back, whole, rfl, rfl, solid⟩ := blank
  refine ⟨run, solid, fun before x after cut lower upper => Text.mem_of_between whole cut lower upper, ?_⟩
  rw [through, closed, last, whole, Text.bytes_append, Text.bytes_append, ← Text.length_bytes run,
    stretch_untouched (Text.length_bytes front).symm fun j low high => untouched j low (by rwa [Text.length_bytes] at high)]

end Core

end Projection
end SvelteLens
