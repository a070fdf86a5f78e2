import SvelteLens.Proofs.Script.Course

/-! Positions inside a script, in whatever order they are told. They are enough for the adaptation of a script to stay inside
its content, whatever it is told of names. -/
namespace SvelteLens.Script

open Edit
open Text (width)

def Binding.Within (length : Nat) (b : Binding) : Prop := b.start + width b.name.toList ≤ length

/-- A statement with all its positions inside a text of so many bytes. -/
structure Reactive.Within (length : Nat) (r : Reactive) : Prop where
  label : r.start ≤ length
  bodyStart : r.body.start ≤ length
  bodyStop : r.body.stop ≤ length
  target : ∀ a ∈ r.assignment, a.target.Within length
  rightStart : ∀ a ∈ r.assignment, a.right.start ≤ length
  rightStop : ∀ a ∈ r.assignment, a.right.stop ≤ length

/-- Positions inside a text. Behind the start of an export there is room for the keyword. -/
def Item.Within (content : List Char) : Item → Prop
  | .exported start d => Text.isBoundary content (start + 6) = true ∧ ∀ b ∈ d.bindings, b.Within (width content)
  | .declared d => ∀ b ∈ d.bindings, b.Within (width content)
  | .reactive r => r.Within (width content)
  | .imports _ | .other => True

def Outline.Within (content : List Char) (outline : Outline) : Prop := ∀ item ∈ outline, item.Within content

instance {length : Nat} (b : Binding) : Decidable (b.Within length) := inferInstanceAs (Decidable (_ ≤ _))

instance {length : Nat} (r : Reactive) : Decidable (r.Within length) :=
  decidable_of_iff (r.start ≤ length ∧ r.body.start ≤ length ∧ r.body.stop ≤ length ∧
      (∀ a ∈ r.assignment, a.target.Within length ∧ a.right.start ≤ length ∧ a.right.stop ≤ length))
    ⟨fun h => ⟨h.1, h.2.1, h.2.2.1, fun a found => (h.2.2.2 a found).1, fun a found => (h.2.2.2 a found).2.1,
      fun a found => (h.2.2.2 a found).2.2⟩,
    fun h => ⟨h.label, h.bodyStart, h.bodyStop, fun a found => ⟨h.target a found, h.rightStart a found, h.rightStop a found⟩⟩⟩

instance {content : List Char} : (item : Item) → Decidable (item.Within content)
  | .exported start d => inferInstanceAs (Decidable (Text.isBoundary content (start + 6) = true ∧
      ∀ b ∈ d.bindings, b.Within (width content)))
  | .declared d => inferInstanceAs (Decidable (∀ b ∈ d.bindings, b.Within (width content)))
  | .reactive r => inferInstanceAs (Decidable (r.Within (width content)))
  | .imports _ | .other => .isTrue trivial

instance {content : List Char} {outline : Outline} : Decidable (outline.Within content) :=
  inferInstanceAs (Decidable (∀ item ∈ outline, item.Within content))

section Commands

variable {source : String} {front content back : List Char} {x : Char}

def Inside (front content : List Char) (c : Command) : Prop :=
  width front ≤ c.reach.start ∧ c.reach.stop ≤ width front + width content

theorem notes_inside (ds : List Declaration) : Plan.Each (Inside front content) (notes ds) := by
  induction ds with
  | nil => exact Plan.each_nil
  | cons d ds ih => exact ih

/-- The blanks behind a keyword end at the latest where something else begins behind the content. -/
theorem dropExport_inside (whole : source.toList = front ++ (content ++ x :: back)) (solid : Text.isBlank x = false)
    {start : Nat} (room : Text.isBoundary content (start + 6) = true) :
    Plan.Each (Inside front content) (dropExport source (width front + start)) := by
  obtain ⟨before, after, rfl, offset⟩ := Text.isBoundary_iff.mp room
  have cut : Text.split? (width front + start + 6) source.toList = some (front ++ before, after ++ x :: back) := by
    refine Text.split?_eq_some_iff.mpr ⟨by rw [whole]; simp, ?_⟩
    rw [Text.width_append, offset, Nat.add_assoc]
  have blanks := width_takeWhile_le solid after back
  rw [dropExport, cut]
  refine Plan.each_edit.mpr ⟨⟨Nat.le_add_right _ _, ?_⟩, Plan.each_nil⟩
  rw [Text.width_append, offset]
  simp only [Command.reach]
  omega

theorem wrapStatement_inside {r : Reactive} (within : r.Within (width content)) :
    Plan.Each (Inside front content) (wrapStatement (width front) (width front + r.start) r.body) := by
  have first := within.bodyStart
  have last := within.bodyStop
  refine Plan.each_edit.mpr ⟨⟨Nat.le_add_right _ _, Nat.add_le_add_left first _⟩, Plan.each_edit.mpr
    ⟨⟨Nat.le_add_right _ _, Nat.add_le_add_left last _⟩, Plan.each_nil⟩⟩

theorem declareTarget_inside {r : Reactive} {a : Assignment} (within : r.Within (width content)) (assigned : a ∈ r.assignment) :
    Plan.Each (Inside front content) (declareTarget (width front) (width front + r.start) a) := by
  have target : a.target.start + width a.target.name.toList ≤ width content := within.target a assigned
  have first := within.rightStart a assigned
  have last := within.rightStop a assigned
  refine Plan.each_edit.mpr ⟨⟨Nat.le_add_right _ _, ?_⟩, Plan.each_edit.mpr ⟨⟨?_, Nat.add_le_add_left first _⟩,
    Plan.each_edit.mpr ⟨⟨Nat.le_add_right _ _, Nat.add_le_add_left last _⟩, (Plan.each_note _).mpr Plan.each_nil⟩⟩⟩
  all_goals
    simp only [nameSpan, Command.reach]
    omega

variable (whole : source.toList = front ++ (content ++ x :: back)) (solid : Text.isBlank x = false)
include whole solid

theorem itemPlan_inside {item : Item} (within : item.Within content) (role : Role) (known : List String) :
    Plan.Each (Inside front content) (itemPlan role source (width front) known item).1 := by
  cases item with
  | exported start d =>
    refine Plan.each_append.mpr ⟨notes_inside _, ?_⟩
    split
    · exact dropExport_inside whole solid within.1
    · exact Plan.each_nil
  | declared d => exact notes_inside _
  | reactive r =>
    simp only [itemPlan]
    split
    · unfold reactivePlan
      split
      · next a assigned =>
        split
        · exact wrapStatement_inside within
        · exact declareTarget_inside within assigned
      · exact wrapStatement_inside within
    · exact Plan.each_nil
  | imports => exact Plan.each_nil
  | other => exact Plan.each_nil

/-- An adaptation stays inside the content when the positions do that it goes by. -/
theorem itemsPlan_inside {outline : Outline} (within : outline.Within content) (role : Role)
    (known : List String) : Plan.Each (Inside front content) (itemsPlan role source (width front) known outline).1 := by
  induction outline generalizing known with
  | nil => exact Plan.each_nil
  | cons item outline ih =>
    obtain ⟨here, later⟩ := List.forall_mem_cons.mp within
    exact Plan.each_append.mpr ⟨itemPlan_inside whole solid here role known, ih later _⟩

end Commands

end SvelteLens.Script
