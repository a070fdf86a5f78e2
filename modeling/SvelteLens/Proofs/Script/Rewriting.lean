import SvelteLens.Proofs.Edit.Plans
import SvelteLens.Script.Adaptation

/-! The ranges of a script that do not stay as they are: `export` keywords with the blanks behind
them, and the heads of reactive statements. All else in a script is left alone. -/
namespace SvelteLens.Script

open Edit
open Text (width)

/-- A reactive statement inside a content of so many bytes, with its parts inside it. -/
structure Reactive.Placed (length : Nat) (r : Reactive) : Prop where
  start : r.start ≤ r.body.start
  body : r.body.start ≤ r.body.stop
  stop : r.body.stop ≤ length
  target : ∀ a ∈ r.assignment, r.body.start ≤ a.target.start ∧ a.target.start ≤ r.body.stop
  right : ∀ a ∈ r.assignment, a.right.start ≤ r.body.stop

def Item.Placed (length : Nat) : Item → Prop
  | .exported start _ => start ≤ length
  | .reactive r => r.Placed length
  | .imports _ | .declared _ | .other => True

def Outline.Placed (content : List Char) (outline : Outline) : Prop := ∀ item ∈ outline, item.Placed (width content)

instance {length : Nat} (r : Reactive) : Decidable (r.Placed length) :=
  decidable_of_iff (r.start ≤ r.body.start ∧ r.body.start ≤ r.body.stop ∧ r.body.stop ≤ length ∧
      ∀ a ∈ r.assignment, (r.body.start ≤ a.target.start ∧ a.target.start ≤ r.body.stop) ∧ a.right.start ≤ r.body.stop)
    ⟨fun h => ⟨h.1, h.2.1, h.2.2.1, fun a found => (h.2.2.2 a found).1, fun a found => (h.2.2.2 a found).2⟩,
      fun h => ⟨h.start, h.body, h.stop, fun a found => ⟨h.target a found, h.right a found⟩⟩⟩

instance {length : Nat} : (item : Item) → Decidable (item.Placed length)
  | .exported start _ => inferInstanceAs (Decidable (start ≤ length))
  | .reactive r => inferInstanceAs (Decidable (r.Placed length))
  | .imports _ | .declared _ | .other => .isTrue trivial

instance {content : List Char} {outline : Outline} : Decidable (outline.Placed content) :=
  inferInstanceAs (Decidable (∀ item ∈ outline, item.Placed (width content)))

/-- An assignment declares its target when no top-level item binds the name and no reactive
statement before it assigns it. -/
def Declares (known : List String) (before : Outline) (a : Assignment) : Prop :=
  a.target.name ∉ known ∧
    ∀ r b, Item.reactive r ∈ before → r.assignment = some b → b.target.name ≠ a.target.name

/-- The ranges of an instance script that are rewritten. The names bound at the top level are `known`. -/
inductive Rewritten (source : String) (base : Nat) (known : List String) (outline : Outline) : Span → Prop where
  | exportKeyword : .exported start declared ∈ outline → (kindOf? .perInstance declared).isSome →
      Text.split? (base + start + 6) source.toList = some (front, rest) →
      Rewritten source base known outline ⟨base + start, base + start + 6 + width (rest.takeWhile Text.isBlank)⟩
  | label : outline = before ++ .reactive r :: after → r.assignment = some a → Declares known before a →
      Rewritten source base known outline ⟨base + r.start, (nameSpan base a.target).start⟩
  | equals : outline = before ++ .reactive r :: after → r.assignment = some a → Declares known before a →
      Rewritten source base known outline ⟨(nameSpan base a.target).stop, base + a.right.start⟩
  | wrapped : outline = before ++ .reactive r :: after →
      (∀ a, r.assignment = some a → ¬Declares known before a) →
      Rewritten source base known outline ⟨base + r.start, base + r.body.start⟩

theorem notes_edits (ds : List Declaration) : Plan.edits (notes ds) = [] := by
  induction ds with
  | nil => rfl
  | cons d ds ih => exact ih

theorem dropExport_edits {source : String} {start : Nat} {r : Replacement}
    (h : r ∈ Plan.edits (dropExport source start)) : ∃ front rest,
      Text.split? (start + 6) source.toList = some (front, rest) ∧
        r = ⟨⟨start, start + 6 + width (rest.takeWhile Text.isBlank)⟩, ""⟩ := by
  unfold dropExport at h
  split at h
  · rename_i front rest cut
    simp only [Plan.edits_edit, Command.edit?, Plan.edits_nil, List.append_nil] at h
    split at h
    · simp at h
    · exact ⟨front, rest, cut, by simpa using h⟩
  · simp at h

theorem declareTarget_edits {base start : Nat} {a : Assignment} {r : Replacement}
    (h : r ∈ Plan.edits (declareTarget base start a)) :
    r.span = ⟨start, (nameSpan base a.target).start⟩ ∨
      r.span = ⟨(nameSpan base a.target).stop, base + a.right.start⟩ := by
  simp only [declareTarget, Plan.edits_edit, Command.edit?, Plan.edits_note, Plan.edits_nil, Option.toList_some,
    Option.toList_none, List.cons_append, List.nil_append, List.mem_cons, List.not_mem_nil, or_false] at h
  rcases h with rfl | rfl
  · exact .inl rfl
  · exact .inr rfl

theorem wrapStatement_edits {base start : Nat} {body : Span} {r : Replacement}
    (h : r ∈ Plan.edits (wrapStatement base start body)) : r.span = ⟨start, base + body.start⟩ := by
  simp only [wrapStatement, Plan.edits_edit, Command.edit?, Plan.edits_nil, Option.toList_some, Option.toList_none,
    List.append_nil, List.mem_singleton] at h
  rw [h]

/-- What the plan of one item can edit. Only the instance script is edited at all. -/
inductive ItemEdit (source : String) (base : Nat) (known : List String) : Item → Replacement → Prop where
  | exportKeyword : (kindOf? .perInstance declared).isSome →
      Text.split? (base + start + 6) source.toList = some (front, rest) →
      ItemEdit source base known (.exported start declared)
        ⟨⟨base + start, base + start + 6 + width (rest.takeWhile Text.isBlank)⟩, ""⟩
  | declares : statement.assignment = some a → a.target.name ∉ known →
      edit.span = ⟨base + statement.start, (nameSpan base a.target).start⟩ ∨
        edit.span = ⟨(nameSpan base a.target).stop, base + a.right.start⟩ →
      ItemEdit source base known (.reactive statement) edit
  | wraps : (∀ a, statement.assignment = some a → a.target.name ∈ known) →
      edit.span = ⟨base + statement.start, base + statement.body.start⟩ →
      ItemEdit source base known (.reactive statement) edit

theorem itemPlan_edits {role : Role} {source : String} {base : Nat} {known : List String} {item : Item}
    {r : Replacement} (h : r ∈ Plan.edits (itemPlan role source base known item).1) :
    role = .perInstance ∧ ItemEdit source base known item r := by
  cases item with
  | imports => simp [itemPlan] at h
  | other => simp [itemPlan] at h
  | declared d =>
    rw [itemPlan, notes_edits] at h
    simp at h
  | exported start d =>
    simp only [itemPlan, Plan.edits_append, notes_edits, List.nil_append] at h
    split at h
    · rename_i removed
      obtain ⟨front, rest, cut, rfl⟩ := dropExport_edits h
      exact ⟨removed.1, .exportKeyword (removed.1 ▸ removed.2) cut⟩
    · simp at h
  | reactive statement =>
    simp only [itemPlan] at h
    split at h
    · rename_i own
      refine ⟨own, ?_⟩
      unfold reactivePlan at h
      split at h
      · rename_i a assigned
        split at h
        · rename_i bound
          refine .wraps (fun b other => ?_) (wrapStatement_edits h)
          rw [assigned] at other
          cases other
          simpa using bound
        · rename_i free
          exact .declares assigned (by simpa using free) (declareTarget_edits h)
      · rename_i none
        exact .wraps (fun a some => by rw [none] at some; cases some) (wrapStatement_edits h)
    · simp at h

/-- The names known before an item: those known from the start and those that reactive statements
before it assign. -/
def KnownAt (known : List String) (before : Outline) (now : List String) : Prop :=
  ∀ name, name ∈ now ↔
    name ∈ known ∨ ∃ r a, Item.reactive r ∈ before ∧ r.assignment = some a ∧ a.target.name = name

theorem KnownAt.declares {known now : List String} {before : Outline} (h : KnownAt known before now) (a : Assignment) :
    a.target.name ∉ now ↔ Declares known before a := by
  rw [h]
  constructor
  · intro fresh
    refine ⟨fun bound => fresh (.inl bound), fun r b earlier assigned same => ?_⟩
    exact fresh (.inr ⟨r, b, earlier, assigned, same⟩)
  · rintro ⟨free, first⟩ (bound | ⟨r, b, earlier, assigned, same⟩)
    · exact free bound
    · exact first r b earlier assigned same

/-- Only a reactive assignment brings a name. -/
theorem mem_itemPlan_known {source : String} {base : Nat} {now : List String} {item : Item} {name : String} :
    name ∈ (itemPlan .perInstance source base now item).2 ↔
      name ∈ now ∨ ∃ r a, item = .reactive r ∧ r.assignment = some a ∧ a.target.name = name := by
  cases item with
  | imports => simp [itemPlan]
  | other => simp [itemPlan]
  | declared => simp [itemPlan]
  | exported => simp [itemPlan]
  | reactive statement =>
    simp only [itemPlan, if_true, reactivePlan]
    cases assigned : statement.assignment with
    | none => simp [assigned]
    | some a =>
      simp only
      split
      · rename_i bound
        have old : a.target.name ∈ now := by simpa using bound
        constructor
        · exact .inl
        · rintro (member | ⟨r, b, same, assigned', rfl⟩)
          · exact member
          · cases same
            rw [assigned] at assigned'
            cases assigned'
            exact old
      · constructor
        · intro member
          rcases List.mem_cons.mp member with rfl | member
          · exact .inr ⟨statement, a, rfl, assigned, rfl⟩
          · exact .inl member
        · rintro (member | ⟨r, b, same, assigned', rfl⟩)
          · exact List.mem_cons_of_mem _ member
          · cases same
            rw [assigned] at assigned'
            cases assigned'
            exact List.mem_cons_self

theorem KnownAt.next {source : String} {base : Nat} {known now : List String} {before : Outline}
    (h : KnownAt known before now) (item : Item) :
    KnownAt known (before ++ [item]) (itemPlan .perInstance source base now item).2 := by
  intro name
  rw [mem_itemPlan_known, h name, or_assoc]
  refine or_congr_right ⟨?_, ?_⟩
  · rintro (⟨r, a, earlier, rest⟩ | ⟨r, a, same, rest⟩)
    · exact ⟨r, a, List.mem_append_left _ earlier, rest⟩
    · exact ⟨r, a, by simp [same], rest⟩
  · rintro ⟨r, a, member, rest⟩
    rcases List.mem_append.mp member with earlier | last
    · exact .inl ⟨r, a, earlier, rest⟩
    · exact .inr ⟨r, a, (List.mem_singleton.mp last).symm, rest⟩

theorem ItemEdit.rewritten {source : String} {base : Nat} {known now : List String} {before after : Outline}
    {item : Item} {r : Replacement} (h : ItemEdit source base now item r) (at' : KnownAt known before now) :
    Rewritten source base known (before ++ item :: after) r.span := by
  cases h with
  | exportKeyword values cut => exact .exportKeyword (by simp) values cut
  | declares assigned free ranges =>
    have declares := (at'.declares _).mp free
    rcases ranges with range | range
    · rw [range]
      exact .label rfl assigned declares
    · rw [range]
      exact .equals rfl assigned declares
  | wraps bound range =>
    rw [range]
    exact .wrapped rfl fun a assigned declares => (at'.declares a).mpr declares (bound a assigned)

theorem itemsPlan_edits {role : Role} {source : String} {base : Nat} {known now : List String}
    {before rest : Outline} {r : Replacement} (at' : role = .perInstance → KnownAt known before now)
    (h : r ∈ Plan.edits (itemsPlan role source base now rest).1) :
    role = .perInstance ∧ Rewritten source base known (before ++ rest) r.span ∧
      ∃ item ∈ rest, ∃ names, ItemEdit source base names item r := by
  induction rest generalizing before now with
  | nil => simp [itemsPlan] at h
  | cons item rest ih =>
    simp only [itemsPlan, Plan.edits_append] at h
    rcases List.mem_append.mp h with first | later
    · obtain ⟨rfl, edit⟩ := itemPlan_edits first
      exact ⟨rfl, edit.rewritten (at' rfl), item, by simp, now, edit⟩
    · have next : role = .perInstance →
          KnownAt known (before ++ [item]) (itemPlan role source base now item).2 := by
        rintro rfl
        exact (at' rfl).next item
      obtain ⟨own, rewritten, found, member, edit⟩ := ih next later
      rw [List.append_assoc, List.singleton_append] at rewritten
      exact ⟨own, rewritten, found, List.mem_cons_of_mem item member, edit⟩

/-- The names that the reactive statements of a script must not declare again. -/
def topNames (known : List String) (outline : Outline) : List String := outline.flatMap Item.names ++ known

theorem adaptationPlan_edits {role : Role} {source : String} {base : Nat} {known : List String} {outline : Outline}
    {r : Replacement} (h : r ∈ Plan.edits (adaptationPlan role source base known outline).1) :
    role = .perInstance ∧ Rewritten source base (topNames known outline) outline r.span ∧
      ∃ item ∈ outline, ∃ names, ItemEdit source base names item r := by
  have start : role = .perInstance → KnownAt (topNames known outline) [] (topNames known outline) := by
    intro _ name
    simp
  exact itemsPlan_edits start h

/-- Where an edit lies: at or behind the start of its item, and text is put only inside a reactive
statement. -/
theorem ItemEdit.reach {source : String} {base length : Nat} {known : List String} {item : Item} {r : Replacement}
    (h : ItemEdit source base known item r) (placed : item.Placed length) (order : r.span.start < r.span.stop) :
    base ≤ r.span.start ∧ r.span.start ≤ base + length ∧
      (r.text = "" ∨ ∃ statement, item = .reactive statement ∧ base + statement.start ≤ r.span.start ∧
        r.span.stop ≤ base + statement.body.stop ∧ statement.body.stop ≤ length) := by
  cases h with
  | exportKeyword values cut =>
    have bound : _ ≤ length := placed
    exact ⟨Nat.le_add_right _ _, Nat.add_le_add_left bound _, .inl rfl⟩
  | declares assigned free ranges =>
    have inside : Reactive.Placed length _ := placed
    have start := inside.start
    have stop := inside.stop
    have target := inside.target _ assigned
    have right := inside.right _ assigned
    rcases ranges with range | range
    · rw [range] at order ⊢
      simp only [nameSpan] at order ⊢
      exact ⟨by omega, by omega, .inr ⟨_, rfl, by omega, by omega, by omega⟩⟩
    · rw [range] at order ⊢
      simp only [nameSpan] at order ⊢
      exact ⟨by omega, by omega, .inr ⟨_, rfl, by omega, by omega, by omega⟩⟩
  | wraps bound range =>
    have inside : Reactive.Placed length _ := placed
    have start := inside.start
    have body := inside.body
    have stop := inside.stop
    rw [range]
    simp only
    exact ⟨by omega, by omega, .inr ⟨_, rfl, by omega, by omega, by omega⟩⟩

section Insertions

/-- A plan that only appends text, and not before an offset. -/
def Appends (base : Nat) (plan : Plan Declaration) : Prop :=
  ∀ i ∈ insertions plan.commands, i.side = .after ∧ base ≤ i.offset

variable {base : Nat} {plan more : Plan Declaration}

theorem Appends.append (h : Appends base plan) (k : Appends base more) : Appends base (plan ++ more) := by
  intro i member
  rw [Plan.commands_append, insertions, List.filterMap_append] at member
  exact (List.mem_append.mp member).elim (h i) (k i)

theorem notes_appends (ds : List Declaration) : Appends base (notes ds) := by
  induction ds with
  | nil => exact nofun
  | cons d ds ih => exact ih

theorem dropExport_appends (source : String) (start : Nat) : Appends base (dropExport source start) := by
  unfold dropExport
  split <;> exact nofun

theorem declareTarget_appends (start : Nat) (a : Assignment) : Appends base (declareTarget base start a) := by
  intro i member
  obtain rfl := List.mem_singleton.mp member
  exact ⟨rfl, Nat.le_add_right _ _⟩

theorem wrapStatement_appends (start : Nat) (body : Span) : Appends base (wrapStatement base start body) := by
  intro i member
  obtain rfl := List.mem_singleton.mp member
  exact ⟨rfl, Nat.le_add_right _ _⟩

theorem itemPlan_appends (role : Role) (source : String) (known : List String) (item : Item) :
    Appends base (itemPlan role source base known item).1 := by
  cases item with
  | imports => exact nofun
  | other => exact nofun
  | declared d => exact notes_appends _
  | exported start d =>
    simp only [itemPlan]
    refine (notes_appends _).append ?_
    split
    · exact dropExport_appends _ _
    · exact nofun
  | reactive r =>
    simp only [itemPlan]
    split
    · unfold reactivePlan
      split
      · split
        · exact wrapStatement_appends _ _
        · exact declareTarget_appends _ _
      · exact wrapStatement_appends _ _
    · exact nofun

/-- An adaptation only appends text, and only inside the content or behind it. -/
theorem itemsPlan_appends (role : Role) (source : String) (known : List String) (outline : Outline) :
    Appends base (itemsPlan role source base known outline).1 := by
  induction outline generalizing known with
  | nil => exact nofun
  | cons item rest ih => exact (itemPlan_appends role source known item).append (ih _)

end Insertions

end SvelteLens.Script
