import Mathlib.Data.List.Forall2
import SvelteLens.Proofs.Script.Course
import SvelteLens.Proofs.Script.Entries
import SvelteLens.Proofs.Script.Spelling

/-! The names of a script stand where they are reported, written plainly or with escapes, and no edit of the script
touches a name that it declares. -/
namespace SvelteLens.Script

open Edit
open Text (width)

structure Binding.Stands (content : List Char) (range : Span) (b : Binding) : Prop where
  lower : range.start ≤ b.start
  word : ∃ token escaped, WordAt content b.start token b.name escaped ∧ b.start + width token ≤ range.stop

/-- An exported declaration: the keyword inside an item, and behind it the declaration with its names. -/
def ExportStands (content : List Char) (span : Span) (start : Nat) (d : Declared) : Prop :=
  ∃ before between x after, content = before ++ ("export".toList ++ (between ++ x :: after)) ∧ width before = start ∧
    Text.isBlank x = false ∧ span.start ≤ start ∧ start + 6 + width between ≤ span.stop ∧
      ∀ b ∈ d.bindings, b.Stands content ⟨start + 6 + width between, span.stop⟩

/-- A label and a body in this order inside an item, and in the body a name before a right side. -/
structure Reactive.Stands (content : List Char) (span : Span) (r : Reactive) : Prop where
  inside : span.start ≤ r.start
  label : r.start ≤ r.body.start
  order : r.body.start ≤ r.body.stop
  nested : r.body.stop ≤ span.stop
  target : ∀ a ∈ r.assignment, a.target.Stands content ⟨r.body.start, a.right.start⟩
  right : ∀ a ∈ r.assignment, a.right.start ≤ a.right.stop ∧ a.right.stop ≤ r.body.stop

def Item.Stands (content : List Char) (span : Span) : Item → Prop
  | .exported start d => ExportStands content span start d
  | .declared d => ∀ b ∈ d.bindings, b.Stands content span
  | .reactive r => r.Stands content span
  | .imports _ | .other => True

/-- The items have disjoint ranges in source order, and their names stand in them. -/
structure Outline.Stands (content : List Char) (spans : List Span) (outline : Outline) : Prop where
  ordered : spans.Pairwise fun s t => s.stop ≤ t.start
  inside : ∀ s ∈ spans, s.stop ≤ width content
  items : List.Forall₂ (Item.Stands content) spans outline

def unmarked : List Char → List Char
  | '\uFEFF' :: content => content
  | content => content

/-- A range lies in another one that counts from `base`. -/
def Surrounds (base : Nat) (outer inner : Span) : Prop :=
  base + outer.start ≤ inner.start ∧ inner.stop ≤ base + outer.stop

theorem Surrounds.apart {base : Nat} {s t u v : Span} (left : Surrounds base s u) (right : Surrounds base t v)
    (before : s.stop ≤ t.start) : u.Apart v := by
  have first := left.2
  have second := right.1
  exact .inl (by omega)

variable {source : String} {front content back : List Char} {role : Role} {known now : List String} {before : Outline}
  {span range : Span} {item : Item} {e : Entry} {b : Binding} {d : Declared} {r : Reactive}

theorem Binding.Stands.within (h : b.Stands content range) (base : Nat) : Surrounds base range (nameSpan base b) := by
  obtain ⟨lower, token, escaped, word, upper⟩ := h
  have short := word.spells.1.le
  simp only [Surrounds, nameSpan]
  omega

theorem Binding.Stands.filled (h : b.Stands content range) (base : Nat) : (nameSpan base b).start < (nameSpan base b).stop := by
  obtain ⟨-, token, escaped, word, -⟩ := h
  have := Text.width_pos word.spells.2
  simp only [nameSpan]
  omega

theorem Binding.Stands.wider (h : b.Stands content range) (low : span.start ≤ range.start) (high : range.stop ≤ span.stop) :
    b.Stands content span := by
  obtain ⟨lower, token, escaped, word, upper⟩ := h
  exact ⟨Nat.le_trans low lower, token, escaped, word, Nat.le_trans upper high⟩

theorem Item.Stands.entry (h : item.Stands content span) (listed : e ∈ item.entries role known before) :
    e.binding.Stands content span := by
  cases item with
  | imports => cases listed
  | other => cases listed
  | declared d => exact h e.binding (Item.entries_bindings listed (.inl rfl))
  | exported start d =>
    obtain ⟨first, between, x, after, -, -, -, low, -, names⟩ := h
    have stands := names e.binding (Item.entries_bindings listed (.inr ⟨start, rfl⟩))
    exact stands.wider (by simp only; omega) (Nat.le_refl _)
  | reactive r =>
    obtain ⟨start, body, assignment⟩ := r
    cases assignment with
    | none => cases listed
    | some a =>
      rw [Item.entries] at listed
      split at listed
      · obtain rfl := List.mem_singleton.mp listed
        have h : Reactive.Stands content span ⟨start, body, some a⟩ := h
        have inside := h.inside
        have label := h.label
        have nested := h.nested
        have right := h.right a rfl
        simp only at inside label nested right
        exact (h.target a rfl).wider (by simp only; omega) (by simp only; omega)
      · cases listed

theorem dropExport_within (whole : source.toList = front ++ (content ++ back)) {start : Nat}
    (h : ExportStands content span start d) : ∃ stop, stop ≤ span.stop ∧ (∀ b ∈ d.bindings, b.Stands content ⟨stop, span.stop⟩) ∧
      ∀ c ∈ (dropExport source (width front + start)).commands, Surrounds (width front) ⟨span.start, stop⟩ c.reach := by
  obtain ⟨first, between, x, after, parts, rfl, solid, inside, nested, names⟩ := h
  refine ⟨_, nested, names, fun c member => ?_⟩
  have cut : source.toList = (front ++ first ++ "export".toList) ++ (between ++ x :: (after ++ back)) := by
    rw [whole, parts]
    simp
  have keyword : width "export".toList = 6 := rfl
  have offset : width (front ++ first ++ "export".toList) = width front + width first + 6 := by
    rw [Text.width_append, Text.width_append, keyword]
  have short := width_takeWhile_le solid between (after ++ back)
  rw [dropExport, Text.split?_eq_some_iff.mpr ⟨cut, offset⟩] at member
  obtain rfl := List.mem_singleton.mp member
  simp only [Surrounds, Command.reach]
  omega

theorem notes_commands (ds : List Declaration) : Plan.commands (notes ds) = [] := by
  induction ds with
  | nil => rfl
  | cons d ds ih => exact ih

theorem Item.Stands.reach (whole : source.toList = front ++ (content ++ back)) (h : item.Stands content span)
    {c : Command} (member : c ∈ (itemPlan role source (width front) now item).1.commands) :
    Surrounds (width front) span c.reach := by
  cases item with
  | imports => cases member
  | other => cases member
  | declared d =>
    rw [itemPlan, notes_commands] at member
    cases member
  | exported start d =>
    obtain ⟨stop, nested, -, drops⟩ := dropExport_within whole h
    simp only [itemPlan, Plan.commands_append, notes_commands, List.nil_append] at member
    split at member
    · obtain ⟨lower, upper⟩ := drops c member
      simp only at lower upper
      exact ⟨lower, by omega⟩
    · cases member
  | reactive r =>
    have h : r.Stands content span := h
    have inside := h.inside
    have label := h.label
    have order := h.order
    have nested := h.nested
    have wraps {c : Command} (member : c ∈ (wrapStatement (width front) (width front + r.start) r.body).commands) :
        Surrounds (width front) span c.reach := by
      rcases List.mem_pair.mp member with rfl | rfl <;> simp only [Surrounds, Command.reach, Span.empty] <;> omega
    simp only [itemPlan] at member
    split at member
    · unfold reactivePlan at member
      split at member
      · next a assigned =>
        obtain ⟨order, bound⟩ := h.right a assigned
        have target := (h.target a assigned).within (width front)
        split at member
        · exact wraps member
        · simp only [declareTarget, Plan.commands_edit, Plan.commands_note, Plan.commands_nil, List.mem_cons,
            List.not_mem_nil, or_false] at member
          simp only [Surrounds] at target
          have filled := (h.target a assigned).filled (width front)
          rcases member with rfl | rfl | rfl <;> simp only [Surrounds, Command.reach, Span.empty] <;> omega
      · exact wraps member
    · cases member

theorem Item.Stands.apart (whole : source.toList = front ++ (content ++ back)) (h : item.Stands content span)
    (at' : role = .perInstance → KnownAt known before now) (listed : e ∈ item.entries role known before) {c : Command}
    (member : c ∈ (itemPlan role source (width front) now item).1.commands) :
    c.reach.Apart (nameSpan (width front) e.binding) := by
  cases item with
  | imports => cases listed
  | other => cases listed
  | declared d =>
    rw [itemPlan, notes_commands] at member
    cases member
  | exported start d =>
    obtain ⟨stop, -, names, drops⟩ := dropExport_within whole h
    have stands := names e.binding (Item.entries_bindings listed (.inr ⟨start, rfl⟩))
    simp only [itemPlan, Plan.commands_append, notes_commands, List.nil_append] at member
    split at member
    · exact (drops c member).apart (stands.within _) (Nat.le_refl _)
    · cases member
  | reactive r =>
    obtain ⟨start, body, assignment⟩ := r
    cases assignment with
    | none => cases listed
    | some a =>
      rw [Item.entries] at listed
      split at listed
      · next declares =>
        obtain ⟨own, declares⟩ := declares
        obtain rfl := List.mem_singleton.mp listed
        have h : Reactive.Stands content span ⟨start, body, some a⟩ := h
        obtain ⟨order, bound⟩ := h.right a rfl
        have target := (h.target a rfl).within (width front)
        have free : ¬now.contains a.target.name = true := by simpa using ((at' own).declares a).mpr declares
        simp only [itemPlan, own, if_true, reactivePlan, if_neg free] at member
        simp only [declareTarget, Plan.commands_edit, Plan.commands_note, Plan.commands_nil, List.mem_cons,
          List.not_mem_nil, or_false] at member
        simp only [Surrounds] at target
        rcases member with rfl | rfl | rfl <;> simp only [Span.Apart, Command.reach, Span.empty] <;> omega
      · cases listed

section Outlines

variable {spans : List Span} {outline : Outline}

theorem itemsPlan_reach (whole : source.toList = front ++ (content ++ back))
    (items : List.Forall₂ (Item.Stands content) spans outline) {c : Command}
    (member : c ∈ (itemsPlan role source (width front) now outline).1.commands) :
    ∃ s ∈ spans, Surrounds (width front) s c.reach := by
  induction items generalizing now with
  | nil => cases member
  | @cons span item spans outline first _ ih =>
    simp only [itemsPlan, Plan.commands_append] at member
    rcases List.mem_append.mp member with here | later
    · exact ⟨span, List.mem_cons_self, first.reach whole here⟩
    · obtain ⟨s, listed, within⟩ := ih later
      exact ⟨s, List.mem_cons_of_mem _ listed, within⟩

theorem entries_stand (items : List.Forall₂ (Item.Stands content) spans outline)
    (listed : e ∈ entries role known before outline) : ∃ s ∈ spans, e.binding.Stands content s := by
  induction items generalizing before with
  | nil => cases listed
  | @cons span item spans outline first _ ih =>
    rcases List.mem_append.mp listed with here | later
    · exact ⟨span, List.mem_cons_self, first.entry here⟩
    · obtain ⟨s, inside, stands⟩ := ih later
      exact ⟨s, List.mem_cons_of_mem _ inside, stands⟩

/-- The edits of a script leave the names alone that it declares. -/
theorem itemsPlan_apart (whole : source.toList = front ++ (content ++ back))
    (items : List.Forall₂ (Item.Stands content) spans outline) (ordered : spans.Pairwise fun s t => s.stop ≤ t.start)
    (at' : role = .perInstance → KnownAt known before now) (listed : e ∈ entries role known before outline) {c : Command}
    (member : c ∈ (itemsPlan role source (width front) now outline).1.commands) :
    c.reach.Apart (nameSpan (width front) e.binding) := by
  induction items generalizing before now with
  | nil => cases listed
  | @cons span item spans outline first rest ih =>
    obtain ⟨behind, ordered⟩ := List.pairwise_cons.mp ordered
    have next : role = .perInstance → KnownAt known (before ++ [item]) (itemPlan role source (width front) now item).2 := by
      rintro rfl
      exact (at' rfl).next item
    simp only [itemsPlan, Plan.commands_append] at member
    rcases List.mem_append.mp listed with here | later
    · rcases List.mem_append.mp member with own | other
      · exact first.apart whole at' here own
      · obtain ⟨s, inside, within⟩ := itemsPlan_reach whole rest other
        exact (((first.entry here).within _).apart within (behind s inside)).symm
    · rcases List.mem_append.mp member with other | own
      · obtain ⟨s, inside, stands⟩ := entries_stand rest later
        exact (first.reach whole other).apart (stands.within _) (behind s inside)
      · exact ih ordered next later own

end Outlines

end SvelteLens.Script
