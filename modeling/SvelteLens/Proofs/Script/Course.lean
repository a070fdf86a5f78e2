import Mathlib.Data.List.Forall2
import SvelteLens.Proofs.Edit.Advancing
import SvelteLens.Proofs.Script.Rewriting

/-! The course of an adaptation. When the positions that are reported for a script are those of its
text, all edits go through the content from left to right, item by item, and keep to boundaries. -/
namespace SvelteLens.Script

open Edit
open Text (width)

/-- The name is the text at its position. -/
def Binding.Reported (content : List Char) (b : Binding) : Prop :=
  Text.slice? content b.start (b.start + width b.name.toList) = some b.name.toList

/-- A target and a right side in this order inside a body, with the equals sign between them. -/
structure Assignment.Reported (content : List Char) (body : Span) (a : Assignment) : Prop where
  inside : body.start ≤ a.target.start
  target : a.target.Reported content
  sign : a.target.start + width a.target.name.toList < a.right.start
  rightStart : Text.isBoundary content a.right.start = true
  rightStop : Text.isBoundary content a.right.stop = true
  order : a.right.start ≤ a.right.stop
  nested : a.right.stop ≤ body.stop

/-- A label and a body in this order inside an item. -/
structure Reactive.Reported (content : List Char) (span : Span) (r : Reactive) : Prop where
  inside : span.start ≤ r.start
  label : Text.slice? content r.start (r.start + 1) = some ['$']
  behind : r.start + 1 ≤ r.body.start
  bodyStart : Text.isBoundary content r.body.start = true
  bodyStop : Text.isBoundary content r.body.stop = true
  order : r.body.start ≤ r.body.stop
  nested : r.body.stop ≤ span.stop
  assignment : ∀ a ∈ r.assignment, a.Reported content r.body

/-- The keyword `export` inside an item, and a declaration behind it, which starts with `x`. -/
def ExportReported (content : List Char) (span : Span) (start : Nat) : Prop :=
  ∃ before between x after, content = before ++ ("export".toList ++ (between ++ x :: after)) ∧ width before = start ∧
    Text.isBlank x = false ∧ span.start ≤ start ∧ start + 6 + width between < span.stop

/-- What is reported of an item agrees with the content and lies in the range of the item. -/
def Item.Reported (content : List Char) (span : Span) : Item → Prop
  | .exported start _ => ExportReported content span start
  | .reactive r => r.Reported content span
  | .imports _ | .declared _ | .other => True

/-- The items have disjoint ranges in source order, and each agrees with the content. -/
def Outline.Reported (content : List Char) (outline : Outline) : Prop :=
  ∃ spans : List Span, (spans.Pairwise fun s t => s.stop ≤ t.start) ∧ List.Forall₂ (Item.Reported content) spans outline

variable {source : String} {front content back : List Char}

section Positions

theorem isBoundary_inside (whole : source.toList = front ++ (content ++ back)) {n : Nat}
    (h : Text.isBoundary content n = true) : Text.isBoundary source.toList (width front + n) = true := by
  obtain ⟨a, b, rfl, rfl⟩ := Text.isBoundary_iff.mp h
  exact Text.isBoundary_iff.mpr ⟨front ++ a, b ++ back, by rw [whole]; simp, Text.width_append _ _⟩

theorem width_takeWhile_le {p : Char → Bool} {x : Char} (stops : p x = false) (before after : List Char) :
    width ((before ++ x :: after).takeWhile p) ≤ width before := by
  induction before with
  | nil => simp [stops]
  | cons c before ih =>
    rw [List.cons_append, List.takeWhile_cons]
    split
    · rw [Text.width_cons, Text.width_cons]
      exact Nat.add_le_add_left ih _
    · exact Nat.zero_le _

end Positions

theorem notes_advances {text : List Char} (ds : List Declaration) (offset : Nat) :
    Plan.Advances text offset (notes ds) offset := by
  induction ds with
  | nil => exact .nil (Nat.le_refl _)
  | cons d ds ih => exact ih.note d

theorem dropExport_advances (whole : source.toList = front ++ (content ++ back)) {span : Span} {start : Nat}
    (reported : ExportReported content span start) :
    ∃ stop, Plan.Advances source.toList (width front + span.start) (dropExport source (width front + start))
        (width front + stop) ∧
      stop ≤ span.stop ∧ stop ≤ width content := by
  obtain ⟨before, between, x, after, parts, rfl, solid, inside, nested⟩ := reported
  have keyword : width "export".toList = 6 := rfl
  have cut : source.toList = (front ++ before ++ "export".toList) ++ (between ++ x :: (after ++ back)) := by
    rw [whole, parts]
    simp
  have offset : width (front ++ before ++ "export".toList) = width front + width before + 6 := by
    rw [Text.width_append, Text.width_append, keyword]
  have found := Text.split?_eq_some_iff.mpr ⟨cut, offset⟩
  have short := width_takeWhile_le solid between (after ++ back)
  rw [dropExport, found]
  simp only
  have blanks : (between ++ x :: (after ++ back)).takeWhile Text.isBlank ++
      (between ++ x :: (after ++ back)).dropWhile Text.isBlank = between ++ x :: (after ++ back) :=
    List.takeWhile_append_dropWhile
  generalize (between ++ x :: (after ++ back)).takeWhile Text.isBlank = gap at short blanks ⊢
  generalize (between ++ x :: (after ++ back)).dropWhile Text.isBlank = rest at blanks
  have start : Text.isBoundary source.toList (width front + width before) = true :=
    Text.isBoundary_iff.mpr ⟨front ++ before, _, by rw [cut, List.append_assoc], Text.width_append _ _⟩
  have stop : Text.isBoundary source.toList (width front + width before + 6 + width gap) = true :=
    Text.isBoundary_iff.mpr ⟨front ++ before ++ "export".toList ++ gap, rest, by rw [cut, ← blanks, List.append_assoc _ gap],
      by rw [Text.width_append, offset]⟩
  have length := congrArg width parts
  simp only [Text.width_append, Text.width_cons, keyword] at length
  have removal : Command.Valid source.toList
      (.remove ⟨width front + width before, width front + width before + 6 + width gap⟩) :=
    .remove start stop (by simp only; omega)
  refine ⟨width before + 6 + width gap, ?_, by omega, by omega⟩
  exact (Plan.Advances.command removal).wider (Nat.add_le_add_left inside _) (by simp only [Command.reach]; omega)

theorem wrapStatement_advances (whole : source.toList = front ++ (content ++ back)) {span : Span} {r : Reactive}
    (h : r.Reported content span) :
    Plan.Advances source.toList (width front + span.start) (wrapStatement (width front) (width front + r.start) r.body)
      (width front + r.body.stop) := by
  have start := isBoundary_inside whole (Text.boundaries_of_slice? h.label).1
  have bodyStart := isBoundary_inside whole h.bodyStart
  have bodyStop := isBoundary_inside whole h.bodyStop
  have behind := h.behind
  have head : Command.Valid source.toList (.overwrite ⟨width front + r.start, width front + r.body.start⟩ ";() => \x7b") :=
    .overwrite start bodyStart (by simp only; omega) _
  have tail : Command.Valid source.toList (.insertAfter (width front + r.body.stop) "\x7d") := .insertAfter bodyStop _
  have through : Plan.Advances source.toList (width front + r.start)
      (wrapStatement (width front) (width front + r.start) r.body) (width front + r.body.stop) :=
    (Plan.Advances.command head).append (Nat.add_le_add_left h.order _) (.command tail)
  exact through.wider (Nat.add_le_add_left h.inside _) (Nat.le_refl _)

theorem declareTarget_advances (whole : source.toList = front ++ (content ++ back)) {span : Span} {r : Reactive}
    (h : r.Reported content span) {a : Assignment} (assigned : a.Reported content r.body) :
    Plan.Advances source.toList (width front + span.start) (declareTarget (width front) (width front + r.start) a)
      (width front + r.body.stop) := by
  have start := isBoundary_inside whole (Text.boundaries_of_slice? h.label).1
  obtain ⟨nameStart, nameStop⟩ := Text.boundaries_of_slice? assigned.target
  have nameStart := isBoundary_inside whole nameStart
  have nameStop := isBoundary_inside whole nameStop
  have rightStart := isBoundary_inside whole assigned.rightStart
  have rightStop := isBoundary_inside whole assigned.rightStop
  have behind := h.behind
  have inside := assigned.inside
  have sign := assigned.sign
  have head : Command.Valid source.toList
      (.overwrite ⟨width front + r.start, (nameSpan (width front) a.target).start⟩ "let ") :=
    .overwrite start nameStart (by simp only [nameSpan]; omega) _
  have equals : Command.Valid source.toList
      (.overwrite ⟨(nameSpan (width front) a.target).stop, width front + a.right.start⟩ " = __sveltets_1_invalidate(() => (") :=
    .overwrite (by simpa only [nameSpan, Nat.add_assoc] using nameStop) rightStart (by simp only [nameSpan]; omega) _
  have tail : Command.Valid source.toList (.insertAfter (width front + a.right.stop) "))") := .insertAfter rightStop _
  have through : Plan.Advances source.toList (width front + r.start)
      (declareTarget (width front) (width front + r.start) a) (width front + a.right.stop) :=
    ((Plan.Advances.command head).append (by simp only [Command.reach, nameSpan]; omega)
      (Plan.Advances.command equals)).append (Nat.add_le_add_left assigned.order _)
      ((Plan.Advances.command tail).append (Nat.le_refl _) ((Plan.Advances.nil (Nat.le_refl _)).note _))
  exact through.wider (Nat.add_le_add_left h.inside _) (Nat.add_le_add_left assigned.nested _)

/-- The plan of an item only notes, or it goes through the range of the item. -/
theorem itemPlan_advances (whole : source.toList = front ++ (content ++ back)) {span : Span} {item : Item}
    (h : item.Reported content span) (role : Role) (known : List String) :
    (∀ offset, Plan.Advances source.toList offset (itemPlan role source (width front) known item).1 offset) ∨
      ∃ stop, Plan.Advances source.toList (width front + span.start) (itemPlan role source (width front) known item).1
        (width front + stop) ∧ stop ≤ span.stop ∧ stop ≤ width content := by
  cases item with
  | imports => exact .inl fun offset => .nil (Nat.le_refl _)
  | other => exact .inl fun offset => .nil (Nat.le_refl _)
  | declared d => exact .inl fun offset => notes_advances _ offset
  | exported start d =>
    simp only [itemPlan]
    split
    · obtain ⟨stop, removal, nested, inside⟩ := dropExport_advances whole h
      exact .inr ⟨stop, (notes_advances _ _).append (Nat.le_refl _) removal, nested, inside⟩
    · refine .inl fun offset => ?_
      rw [List.append_nil]
      exact notes_advances _ offset
  | reactive r =>
    have h : r.Reported content span := h
    have inside := Text.le_width_of_isBoundary h.bodyStop
    simp only [itemPlan]
    split
    · refine .inr ⟨r.body.stop, ?_, h.nested, inside⟩
      unfold reactivePlan
      split
      · next a assigned =>
        split
        · exact wrapStatement_advances whole h
        · exact declareTarget_advances whole h (h.assignment a assigned)
      · exact wrapStatement_advances whole h
    · exact .inl fun offset => .nil (Nat.le_refl _)

theorem itemsPlan_advances (whole : source.toList = front ++ (content ++ back)) {spans : List Span} {outline : Outline}
    (reported : List.Forall₂ (Item.Reported content) spans outline) (ordered : spans.Pairwise fun s t => s.stop ≤ t.start)
    {lo : Nat} (bound : lo ≤ width content) (behind : ∀ s ∈ spans, lo ≤ s.start) (role : Role) (known : List String) :
    Plan.Advances source.toList (width front + lo) (itemsPlan role source (width front) known outline).1
      (width front + width content) := by
  induction reported generalizing lo known with
  | nil => exact .nil (Nat.add_le_add_left bound _)
  | @cons span item spans outline first _ ih =>
    obtain ⟨later, rest⟩ := List.pairwise_cons.mp ordered
    have low := behind span List.mem_cons_self
    simp only [itemsPlan]
    rcases itemPlan_advances whole first role known with noted | ⟨stop, through, nested, inside⟩
    · exact (noted _).append (Nat.le_refl _) (ih rest bound (fun s member => behind s (List.mem_cons_of_mem span member)) _)
    · have tail := ih rest inside (fun s member => Nat.le_trans nested (later s member))
        (itemPlan role source (width front) known item).2
      exact (through.wider (Nat.add_le_add_left low _) (Nat.le_refl _)).append (Nat.le_refl _) tail

/-- The adaptation of a script goes through its content from left to right. -/
theorem adaptationPlan_advances (whole : source.toList = front ++ (content ++ back)) {outline : Outline}
    (reported : outline.Reported content) (role : Role) (known : List String) :
    Plan.Advances source.toList (width front) (adaptationPlan role source (width front) known outline).1
      (width front + width content) := by
  obtain ⟨spans, ordered, items⟩ := reported
  exact itemsPlan_advances whole items ordered (Nat.zero_le _) (fun s _ => Nat.zero_le _) role _

end SvelteLens.Script
