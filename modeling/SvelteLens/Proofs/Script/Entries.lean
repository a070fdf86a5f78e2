import SvelteLens.Proofs.Script.Adapted

/-! What the items of a script declare, form by form. Only plain names are listed, and an item that is exported by
default is no declaration. -/
namespace SvelteLens.Script

open Edit (Plan)

variable {role : Role} {known now : List String} {before : Outline} {a : Assignment}

/-- The name that an item assigns, when it is a reactive statement. -/
def Item.assigns? : Item → Option String
  | .reactive r => r.assignment.map (·.target.name)
  | _ => none

theorem Item.assigns?_eq_some {item : Item} {name : String} :
    item.assigns? = some name ↔ ∃ r b, item = .reactive r ∧ r.assignment = some b ∧ b.target.name = name := by
  cases item <;> simp [Item.assigns?]

theorem declares_iff :
    Declares known before a ↔ a.target.name ∉ known ∧ a.target.name ∉ before.filterMap Item.assigns? := by
  simp only [Declares, List.mem_filterMap, Item.assigns?_eq_some]
  refine and_congr_right fun _ => ⟨?_, ?_⟩
  · rintro first ⟨_, earlier, r, b, rfl, assigned, same⟩
    exact first r b earlier assigned same
  · exact fun first r b earlier assigned same => first ⟨_, earlier, r, b, rfl, assigned, same⟩

instance : Decidable (Declares known before a) := decidable_of_iff _ declares_iff.symm

theorem Target.name?_eq_some {b : Binding} {t : Target} : t.name? = some b ↔ t = .name b := by
  cases t <;> simp [Target.name?]

/-- A name that a script declares, and what it counts as. -/
structure Entry where
  binding : Binding
  kind : DeclarationKind
  deriving DecidableEq, Repr

/-- The entry in a script whose content starts at `base`. -/
def Entry.declaration (base : Nat) (e : Entry) : Declaration := ⟨e.binding.name, e.kind, nameSpan base e.binding⟩

/-- What an item declares when the items of `before` come first and the names of `known` are bound at the top level. -/
def Item.entries (role : Role) (known : List String) (before : Outline) : Item → List Entry
  | .declared (.function b) | .exported _ (.function b) => [⟨b, .function⟩]
  | .declared (.classDef b) | .exported _ (.classDef b) => [⟨b, .classDef⟩]
  | .declared (.variableList _ false ts) | .exported _ (.variableList .constant false ts) =>
    (ts.filterMap Target.name?).map (⟨·, .variable⟩)
  | .exported _ (.variableList .mutable false ts) =>
    match role with
    | .perInstance => (ts.filterMap Target.name?).map (⟨·, .prop⟩)
    | .shared => (ts.filterMap Target.name?).map (⟨·, .variable⟩)
  | .reactive ⟨_, _, some a⟩ => if role = .perInstance ∧ Declares known before a then [⟨a.target, .reactive⟩] else []
  | _ => []

def entries (role : Role) (known : List String) : (before : Outline) → Outline → List Entry
  | _, [] => []
  | before, item :: rest => item.entries role known before ++ entries role known (before ++ [item]) rest

theorem mem_entries {before outline : Outline} {e : Entry} : e ∈ entries role known before outline ↔
    ∃ front item rest, outline = front ++ item :: rest ∧ e ∈ item.entries role known (before ++ front) := by
  induction outline generalizing before with
  | nil => simp [entries]
  | cons first outline ih =>
    rw [entries, List.mem_append, ih]
    constructor
    · rintro (here | ⟨front, item, rest, rfl, later⟩)
      · exact ⟨[], first, outline, rfl, by rwa [List.append_nil]⟩
      · rw [List.append_assoc, List.singleton_append] at later
        exact ⟨first :: front, item, rest, rfl, later⟩
    · rintro ⟨front, item, rest, split, found⟩
      cases front with
      | nil =>
        obtain ⟨rfl, rfl⟩ := List.cons.inj split
        rw [List.append_nil] at found
        exact .inl found
      | cons _ front =>
        obtain ⟨rfl, rfl⟩ := List.cons.inj split
        exact .inr ⟨front, item, rest, rfl, by rwa [List.append_assoc, List.singleton_append]⟩

theorem Item.entries_bindings {item : Item} {d : Declared} {e : Entry} (found : e ∈ item.entries role known before)
    (form : item = .declared d ∨ ∃ start, item = .exported start d) : e.binding ∈ d.bindings := by
  have among (bs : List Binding) (kind : DeclarationKind) (member : e ∈ bs.map (Entry.mk · kind)) : e.binding ∈ bs := by
    obtain ⟨b, inside, rfl⟩ := List.mem_map.mp member
    exact inside
  have alone (b : Binding) (kind : DeclarationKind) (member : e ∈ [Entry.mk b kind]) : e.binding ∈ [b] := by
    rw [List.mem_singleton.mp member]
    exact List.mem_singleton_self b
  cases d with
  | function b => rcases form with rfl | ⟨start, rfl⟩ <;> exact alone b _ found
  | classDef b => rcases form with rfl | ⟨start, rfl⟩ <;> exact alone b _ found
  | type => rcases form with rfl | ⟨start, rfl⟩ <;> cases found
  | variableList kind ambient ts =>
    rcases form with rfl | ⟨start, rfl⟩
    · cases ambient with
      | true => cases found
      | false => exact among _ _ found
    · cases kind <;> cases ambient <;> cases role <;> first | cases found | exact among _ _ found

/-- A prop is what the instance script exports as a variable that can be set. -/
theorem Item.prop_mem_entries {item : Item} {b : Binding} : ⟨b, .prop⟩ ∈ item.entries role known before ↔
    role = .perInstance ∧ ∃ start ts, item = .exported start (.variableList .mutable false ts) ∧ .name b ∈ ts := by
  cases item with
  | imports => simp [Item.entries]
  | other => simp [Item.entries]
  | declared d =>
    cases d with
    | variableList kind ambient ts => cases ambient <;> simp [Item.entries]
    | _ => simp [Item.entries]
  | exported start d =>
    cases d with
    | variableList kind ambient ts =>
      cases kind <;> cases ambient <;> cases role <;> simp [Item.entries, Target.name?_eq_some]
    | _ => simp [Item.entries]
  | reactive r =>
    obtain ⟨start, body, assignment⟩ := r
    cases assignment with
    | none => simp [Item.entries]
    | some a =>
      rw [Item.entries]
      split <;> simp

theorem notes_map (base : Nat) (kind : DeclarationKind) (bs : List Binding) :
    Plan.notes (notes (bs.map fun b => ⟨b.name, kind, nameSpan base b⟩)) =
      (bs.map (Entry.mk · kind)).map (Entry.declaration base) := by
  induction bs with
  | nil => rfl
  | cons b bs ih => exact congrArg _ ih

theorem dropExport_notes (source : String) (start : Nat) : Plan.notes (dropExport source start) = [] := by
  unfold dropExport
  split <;> rfl

/-- The plan of an item notes what the item declares. -/
theorem itemPlan_notes (at' : role = .perInstance → KnownAt known before now) (source : String) (base : Nat) (item : Item) :
    (itemPlan role source base now item).1.notes = (item.entries role known before).map (Entry.declaration base) := by
  cases item with
  | imports => rfl
  | other => rfl
  | declared d =>
    rw [itemPlan]
    cases d with
    | variableList kind ambient ts =>
      cases ambient with
      | true => rfl
      | false => cases kind <;> exact notes_map base .variable _
    | _ => rfl
  | exported start d =>
    have removal (condition : Prop) [Decidable condition] :
        Plan.notes (if condition then dropExport source (base + start) else []) = [] := by
      split
      · exact dropExport_notes source _
      · rfl
    rw [itemPlan, Plan.notes_append, removal, List.append_nil]
    cases d with
    | variableList kind ambient ts =>
      cases ambient with
      | true => cases kind <;> rfl
      | false =>
        cases kind with
        | constant => exact notes_map base .variable _
        | mutable => cases role <;> exact notes_map base _ _
    | _ => rfl
  | reactive r =>
    obtain ⟨start, body, assignment⟩ := r
    rw [itemPlan]
    cases assignment with
    | none => split <;> rfl
    | some a =>
      rw [Item.entries]
      by_cases own : role = .perInstance
      · have fresh := (at' own).declares a
        rw [if_pos own]
        simp only [reactivePlan]
        by_cases declares : Declares known before a
        · have free : ¬now.contains a.target.name = true := by simpa using fresh.mpr declares
          rw [if_neg free, if_pos ⟨own, declares⟩]
          rfl
        · have bound : now.contains a.target.name = true := by
            rw [List.contains_iff_mem]
            exact Decidable.not_not.mp fun free => declares (fresh.mp free)
          rw [if_pos bound, if_neg fun both => declares both.2]
          rfl
      · rw [if_neg own, if_neg fun both => own both.1]
        rfl

/-- The plan of a script notes what the script declares, in the order of the items. -/
theorem itemsPlan_notes (at' : role = .perInstance → KnownAt known before now) (source : String) (base : Nat)
    (outline : Outline) :
    (itemsPlan role source base now outline).1.notes = (entries role known before outline).map (Entry.declaration base) := by
  induction outline generalizing before now with
  | nil => rfl
  | cons item outline ih =>
    have next : role = .perInstance → KnownAt known (before ++ [item]) (itemPlan role source base now item).2 := by
      rintro rfl
      exact (at' rfl).next item
    simp only [itemsPlan, Plan.notes_append, entries, List.map_append, itemPlan_notes at' source base item, ih next]

end SvelteLens.Script
