import Mathlib.Data.List.TakeWhile
import SvelteLens.Proofs.Edit.Passes
import SvelteLens.Proofs.Script.Course

/-! What the content of an instance script becomes. The items are read from left to right, and the text between them
stays: an exported value loses its keyword, and a reactive statement becomes a declaration or the body of a function. -/
namespace SvelteLens.Script

open Edit
open Text (width)

/-- A declaration that binds values. Ambient variables and types do not. -/
inductive Declared.Valued : Declared → Prop where
  | function : Declared.Valued (.function binding)
  | classDef : Declared.Valued (.classDef binding)
  | variables {targets : List Target} : Declared.Valued (.variableList kind false targets)

theorem kindOf?_isSome {role : Role} {d : Declared} : (kindOf? role d).isSome = true ↔ d.Valued := by
  constructor
  · intro known
    unfold kindOf? at known
    split at known
    · exact .function
    · exact .classDef
    · cases known
    · exact .variables
    · exact .variables
    · cases known
  · rintro (_ | _ | @⟨kind, _⟩)
    · rfl
    · rfl
    · cases kind <;> rfl

inductive Item.Stays : Item → Prop where
  | imports {names : List String} : Item.Stays (.imports names)
  | declared : Item.Stays (.declared d)
  | other : Item.Stays .other
  | exported : ¬d.Valued → Item.Stays (.exported start d)

/-- `Adapts known before offset items text out` reads `text`, which starts at `offset`, and its items. The items in
front of it are `before`, and the names that no reactive statement may declare are `known`. -/
inductive Adapts (known : List String) : (before : Outline) → (offset : Nat) → Outline → (text out : List Char) → Prop where
  | done : Adapts known before offset [] text text
  | stays {item : Item} {items before : Outline} {text out : List Char} :
      item.Stays → Adapts known (before ++ [item]) offset items text out →
      Adapts known before offset (item :: items) text out
  | unexported {before items : Outline} {d : Declared} {start offset : Nat} {gap blanks text out : List Char} {c : Char} :
      d.Valued → blanks.all Text.isBlank = true → Text.isBlank c = false → start = offset + width gap →
      Adapts known (before ++ [.exported start d]) (start + 6 + width blanks) items (c :: text) out →
      Adapts known before offset (.exported start d :: items) (gap ++ ("export".toList ++ (blanks ++ c :: text)))
        (gap ++ out)
  | declares {before items : Outline} {r : Reactive} {a : Assignment} {offset : Nat}
      {gap label sign value text out : List Char} :
      r.assignment = some a → Declares known before a → sign ≠ [] → r.start = offset + width gap →
      a.target.start = r.start + width ('$' :: label) →
      a.right.start = a.target.start + width a.target.name.toList + width sign →
      a.right.stop = a.right.start + width value →
      Adapts known (before ++ [.reactive r]) a.right.stop items text out →
      Adapts known before offset (.reactive r :: items)
        (gap ++ ('$' :: label ++ (a.target.name.toList ++ (sign ++ (value ++ text)))))
        (gap ++ ("let ".toList ++ (a.target.name.toList ++
          (" = __sveltets_1_invalidate(() => (".toList ++ (value ++ ("))".toList ++ out))))))
  | wraps {before items : Outline} {r : Reactive} {offset : Nat} {gap label body text out : List Char} :
      (∀ a, r.assignment = some a → ¬Declares known before a) → r.start = offset + width gap →
      r.body.start = r.start + width ('$' :: label) → r.body.stop = r.body.start + width body →
      Adapts known (before ++ [.reactive r]) r.body.stop items text out →
      Adapts known before offset (.reactive r :: items) (gap ++ ('$' :: label ++ (body ++ text)))
        (gap ++ (";() => \x7b".toList ++ (body ++ ("\x7d".toList ++ out))))

section Existence

variable {content front text : List Char}

theorem cut_behind (whole : content = front ++ text) {n : Nat} (boundary : Text.isBoundary content n = true)
    (behind : width front ≤ n) :
    ∃ gap rest, text = gap ++ rest ∧ content = front ++ gap ++ rest ∧ n = width front + width gap := by
  obtain ⟨a, rest, same, rfl⟩ := Text.isBoundary_iff.mp boundary
  obtain ⟨gap, rfl, rfl⟩ := Text.cut_after (whole.symm.trans same) behind
  exact ⟨gap, rest, rfl, by rw [whole, List.append_assoc], Text.width_append _ _⟩

theorem run_behind (whole : content = front ++ text) {run : List Char} {stop : Nat}
    (h : Text.slice? content (width front) stop = some run) : ∃ rest, text = run ++ rest := by
  obtain ⟨earlier, rest, parts, same, _⟩ := Text.slice?_eq_some_iff.mp h
  obtain ⟨gap, rfl, rfl⟩ := Text.cut_after (whole.symm.trans parts) (Nat.le_of_eq same.symm)
  have none : gap = [] := Text.width_eq_zero (by rw [Text.width_append] at same; omega)
  exact ⟨rest, by rw [none]; rfl⟩

theorem ExportReported.cut {span : Span} {start : Nat} (h : ExportReported content span start)
    (whole : content = front ++ text) (behind : width front ≤ span.start) :
    ∃ gap blanks c rest, text = gap ++ ("export".toList ++ (blanks ++ c :: rest)) ∧
      content = front ++ gap ++ "export".toList ++ blanks ++ c :: rest ∧ blanks.all Text.isBlank = true ∧
      Text.isBlank c = false ∧ start = width front + width gap ∧ start + 6 + width blanks ≤ span.stop := by
  obtain ⟨earlier, between, x, after, parts, rfl, solid, inside, nested⟩ := h
  obtain ⟨gap, rfl, rfl⟩ := Text.cut_after (whole.symm.trans parts) (Nat.le_trans behind inside)
  have short := width_takeWhile_le solid between after
  have blanks := List.takeWhile_append_dropWhile (p := Text.isBlank) (l := between ++ x :: after)
  have all := List.all_takeWhile (p := Text.isBlank) (l := between ++ x :: after)
  cases left : (between ++ x :: after).dropWhile Text.isBlank with
  | nil =>
    have blank := List.dropWhile_eq_nil_iff.mp left x (by simp)
    rw [solid] at blank
    cases blank
  | cons c rest =>
    have stops := List.head?_dropWhile_not Text.isBlank (between ++ x :: after)
    rw [left] at stops blanks
    refine ⟨gap, _, c, rest, by rw [blanks], ?_, all, by simpa using stops, Text.width_append _ _, by omega⟩
    rw [parts]
    conv => lhs; rw [← blanks]
    simp

theorem Reactive.Reported.cut_label {span : Span} {r : Reactive} (h : r.Reported content span)
    (whole : content = front ++ text) (behind : width front ≤ span.start) {n : Nat}
    (boundary : Text.isBoundary content n = true) (longer : r.start + 1 ≤ n) :
    ∃ gap label rest, text = gap ++ ('$' :: label ++ rest) ∧ content = front ++ gap ++ '$' :: label ++ rest ∧
      r.start = width front + width gap ∧ n = r.start + width ('$' :: label) := by
  obtain ⟨earlier, after, parts, starts, _⟩ := Text.slice?_eq_some_iff.mp h.label
  have lower : width front ≤ width earlier := by rw [starts]; exact Nat.le_trans behind h.inside
  obtain ⟨gap, rfl, rfl⟩ := Text.cut_after (whole.symm.trans parts) lower
  rw [Text.width_append] at starts
  have whole' : content = (front ++ gap ++ ['$']) ++ after := by rw [parts]; simp
  have dollar : width ['$'] = 1 := rfl
  obtain ⟨label, rest, rfl, all, offset⟩ := cut_behind whole' boundary (by
    rw [Text.width_append, Text.width_append, dollar]; omega)
  refine ⟨gap, label, rest, rfl, by rw [all]; simp, starts.symm, ?_⟩
  rw [offset, Text.width_append, Text.width_append, dollar, starts]
  exact Nat.add_assoc _ _ _

theorem Reactive.Reported.cut_body {span : Span} {r : Reactive} (h : r.Reported content span)
    (whole : content = front ++ text) (behind : width front ≤ span.start) :
    ∃ gap label body rest, text = gap ++ ('$' :: label ++ (body ++ rest)) ∧
      content = front ++ gap ++ '$' :: label ++ body ++ rest ∧ r.start = width front + width gap ∧
      r.body.start = r.start + width ('$' :: label) ∧ r.body.stop = r.body.start + width body := by
  obtain ⟨gap, label, rest, rfl, whole, start, bodyStart⟩ := h.cut_label whole behind h.bodyStart h.behind
  have read : width (front ++ gap ++ '$' :: label) = r.body.start := by
    rw [bodyStart, start, Text.width_append, Text.width_append]
  obtain ⟨body, rest, rfl, whole, bodyStop⟩ := cut_behind whole h.bodyStop (by rw [read]; exact h.order)
  exact ⟨gap, label, body, rest, rfl, whole, start, bodyStart, by rw [bodyStop, read]⟩

/-- A reactive assignment: its label, the name, the equals sign with what is around it, and the value. -/
theorem Reactive.Reported.cut_assignment {span : Span} {r : Reactive} (h : r.Reported content span) {a : Assignment}
    (named : a.Reported content r.body) (whole : content = front ++ text) (behind : width front ≤ span.start) :
    ∃ gap label sign value rest, text = gap ++ ('$' :: label ++ (a.target.name.toList ++ (sign ++ (value ++ rest)))) ∧
      content = front ++ gap ++ '$' :: label ++ a.target.name.toList ++ sign ++ value ++ rest ∧ sign ≠ [] ∧
      r.start = width front + width gap ∧ a.target.start = r.start + width ('$' :: label) ∧
      a.right.start = a.target.start + width a.target.name.toList + width sign ∧
      a.right.stop = a.right.start + width value := by
  obtain ⟨gap, label, rest, rfl, whole, start, target⟩ :=
    h.cut_label whole behind (Text.boundaries_of_slice? named.target).1 (Nat.le_trans h.behind named.inside)
  have read : width (front ++ gap ++ '$' :: label) = a.target.start := by
    rw [target, start, Text.width_append, Text.width_append]
  obtain ⟨rest, rfl⟩ := run_behind whole (by rw [read]; exact named.target)
  have whole := whole.trans (List.append_assoc _ _ _).symm
  have readName := Text.width_append (front ++ gap ++ '$' :: label) a.target.name.toList
  rw [read] at readName
  obtain ⟨sign, rest, rfl, whole, rightStart⟩ := cut_behind whole named.rightStart (by
    rw [readName]; exact Nat.le_of_lt named.sign)
  obtain ⟨value, rest, rfl, whole, rightStop⟩ := cut_behind whole named.rightStop (by
    rw [Text.width_append, ← rightStart]; exact named.order)
  rw [Text.width_append, ← rightStart] at rightStop
  rw [readName] at rightStart
  refine ⟨gap, label, sign, value, rest, rfl, whole, ?_, start, target, rightStart, rightStop⟩
  rintro rfl
  have sign := named.sign
  rw [Text.width_nil] at rightStart
  omega

/-- A content whose positions are reported can be adapted. The induction is on the items; `front` is what was read. -/
theorem Adapts.exist {spans : List Span} {items : Outline} (reported : List.Forall₂ (Item.Reported content) spans items)
    (ordered : spans.Pairwise fun s t => s.stop ≤ t.start) (known : List String) (before : Outline)
    (whole : content = front ++ text) (behind : ∀ s ∈ spans, width front ≤ s.start) :
    ∃ out, Adapts known before (width front) items text out := by
  induction reported generalizing before front text with
  | nil => exact ⟨text, .done⟩
  | @cons span item spans items first _ ih =>
    obtain ⟨later, rest⟩ := List.pairwise_cons.mp ordered
    have start := behind span List.mem_cons_self
    -- behind the item, where the next one is read
    have read (n : Nat) (le : n ≤ span.stop) : ∀ s ∈ spans, n ≤ s.start := fun s member => Nat.le_trans le (later s member)
    have skip : item.Stays → ∃ out, Adapts known before (width front) (item :: items) text out := by
      intro stays
      obtain ⟨out, adapts⟩ := ih rest (before ++ [item]) whole fun s member => behind s (List.mem_cons_of_mem span member)
      exact ⟨out, .stays stays adapts⟩
    cases item with
    | imports => exact skip .imports
    | other => exact skip .other
    | declared => exact skip .declared
    | exported at' d =>
      by_cases valued : d.Valued
      · have reported : ExportReported content span at' := first
        obtain ⟨gap, blanks, c, tail, rfl, whole, all, solid, offset, inside⟩ := reported.cut whole start
        have keyword : width "export".toList = 6 := rfl
        have here : width (front ++ gap ++ "export".toList ++ blanks) = at' + 6 + width blanks := by
          simp only [Text.width_append, keyword, offset]
        obtain ⟨out, adapts⟩ := ih rest (before ++ [.exported at' d]) whole (by rw [here]; exact read _ inside)
        rw [here] at adapts
        exact ⟨_, .unexported valued all solid offset adapts⟩
      · exact skip (.exported valued)
    | reactive r =>
      have reported : r.Reported content span := first
      by_cases declares : ∃ a, r.assignment = some a ∧ Declares known before a
      · obtain ⟨a, assigned, fresh⟩ := declares
        have named := reported.assignment a assigned
        obtain ⟨gap, label, sign, value, tail, rfl, whole, filled, offset, target, rightStart, rightStop⟩ :=
          reported.cut_assignment named whole start
        have here : width (front ++ gap ++ '$' :: label ++ a.target.name.toList ++ sign ++ value) = a.right.stop := by
          rw [rightStop, rightStart, target, offset]
          simp only [Text.width_append]
        obtain ⟨out, adapts⟩ := ih rest (before ++ [.reactive r]) whole (by
          rw [here]; exact read _ (Nat.le_trans named.nested reported.nested))
        rw [here] at adapts
        exact ⟨_, .declares assigned fresh filled offset target rightStart rightStop adapts⟩
      · obtain ⟨gap, label, body, tail, rfl, whole, offset, bodyStart, bodyStop⟩ := reported.cut_body whole start
        have here : width (front ++ gap ++ '$' :: label ++ body) = r.body.stop := by
          rw [bodyStop, bodyStart, offset]
          simp only [Text.width_append]
        obtain ⟨out, adapts⟩ := ih rest (before ++ [.reactive r]) whole (by rw [here]; exact read _ reported.nested)
        rw [here] at adapts
        exact ⟨_, .wraps (fun a assigned fresh => declares ⟨a, assigned, fresh⟩) offset bodyStart bodyStop adapts⟩

end Existence

section Writing

variable {source : String} {base offset : Nat} {known now : List String} {before items : Outline} {item : Item}
  {plan : Plan Declaration} {text out : List Char}

theorem KnownAt.start (known : List String) : KnownAt known [] known := fun name => by simp

theorem notes_writes (ds : List Declaration) (h : Plan.Writes offset plan text out) :
    Plan.Writes offset (notes ds ++ plan) text out := by
  induction ds with
  | nil => exact h
  | cons d ds ih => exact ih.note d

theorem Item.Stays.plan_notes (h : item.Stays) (source : String) (base : Nat) (now : List String) :
    ∃ ds, (itemPlan .perInstance source base now item).1 = notes ds := by
  cases h with
  | imports => exact ⟨[], rfl⟩
  | other => exact ⟨[], rfl⟩
  | declared => exact ⟨_, rfl⟩
  | @exported start d ambient =>
    refine ⟨declarations .perInstance base d, ?_⟩
    rw [itemPlan, if_neg fun given => ambient (kindOf?_isSome.mp given.2), List.append_nil]

theorem dropExport_writes {front rest blanks : List Char} {c : Char} {start : Nat}
    (whole : source.toList = front ++ ("export".toList ++ (blanks ++ c :: rest))) (here : width front = start)
    (all : blanks.all Text.isBlank = true) (solid : Text.isBlank c = false) :
    Plan.Writes start (dropExport source start) ("export".toList ++ blanks) [] := by
  have keyword : width "export".toList = 6 := rfl
  have cut : Text.split? (start + 6) source.toList = some (front ++ "export".toList, blanks ++ c :: rest) :=
    Text.split?_eq_some_iff.mpr ⟨by rw [whole, List.append_assoc], by rw [Text.width_append, here]; rfl⟩
  have gap : (blanks ++ c :: rest).takeWhile Text.isBlank = blanks := by
    rw [List.takeWhile_append_of_pos (by simpa using all), List.takeWhile_cons, solid]
    simp
  rw [dropExport, cut]
  simp only [gap]
  exact .removed rfl (by rw [Text.width_append, keyword, Nat.add_assoc])

theorem wrapStatement_writes (base : Nat) {r : Reactive} {label body : List Char}
    (bodyStart : r.body.start = r.start + width ('$' :: label))
    (bodyStop : r.body.stop = r.body.start + width body) :
    Plan.Writes (base + r.start) (wrapStatement base (base + r.start) r.body) ('$' :: label ++ body)
      (";() => \x7b".toList ++ (body ++ "\x7d".toList)) := by
  have head : Plan.Writes (base + r.start)
      ([.edit (.overwrite ⟨base + r.start, base + r.body.start⟩ ";() => \x7b")] : Plan Declaration) ('$' :: label) _ :=
    .overwritten (List.cons_ne_nil _ _) rfl (by omega) _
  have tail : Plan.Writes (base + r.start + width ('$' :: label) + width body)
      ([.edit (.insertAfter (base + r.body.stop) "\x7d")] : Plan Declaration) [] _ := .appended (by omega) _
  have all := head.append (tail.keep body)
  rwa [List.append_nil] at all

theorem declareTarget_writes (base : Nat) {start : Nat} {a : Assignment} {label sign value : List Char} (filled : sign ≠ [])
    (target : a.target.start = start + width ('$' :: label))
    (rightStart : a.right.start = a.target.start + width a.target.name.toList + width sign)
    (rightStop : a.right.stop = a.right.start + width value) :
    Plan.Writes (base + start) (declareTarget base (base + start) a)
      ('$' :: label ++ (a.target.name.toList ++ (sign ++ value)))
      ("let ".toList ++ (a.target.name.toList ++
        (" = __sveltets_1_invalidate(() => (".toList ++ (value ++ "))".toList)))) := by
  have head : Plan.Writes (base + start)
      ([.edit (.overwrite ⟨base + start, (nameSpan base a.target).start⟩ "let ")] : Plan Declaration) ('$' :: label) _ :=
    .overwritten (List.cons_ne_nil _ _) rfl (by simp only [nameSpan]; omega) _
  have between : Plan.Writes (base + start + width ('$' :: label) + width a.target.name.toList)
      ([.edit (.overwrite ⟨(nameSpan base a.target).stop, base + a.right.start⟩ " = __sveltets_1_invalidate(() => (")] :
        Plan Declaration) sign _ :=
    .overwritten filled (by simp only [nameSpan]; omega) (by omega) _
  have tail : Plan.Writes (base + start + width ('$' :: label) + width a.target.name.toList + width sign + width value)
      ([.edit (.insertAfter (base + a.right.stop) "))"), .note ⟨a.target.name, .reactive, nameSpan base a.target⟩] :
        Plan Declaration) [] _ :=
    (Plan.Writes.appended (by omega) "))").append (.note (.kept []) _)
  have all := head.append ((between.append (tail.keep value)).keep a.target.name.toList)
  rw [List.append_nil, List.append_nil] at all
  exact all

/-- What stands in front of an item is kept, and what follows it is read from where it ends. -/
theorem item_writes {more : Plan Declaration} {stop : Nat} {gap run rest done out : List Char}
    (statement : Plan.Writes (base + offset + width gap) plan run done) (later : Plan.Writes (base + stop) more rest out)
    (here : stop = offset + width gap + width run) :
    Plan.Writes (base + offset) (plan ++ more) (gap ++ (run ++ rest)) (gap ++ (done ++ out)) :=
  (statement.append (later.moved (by omega))).keep gap

/-- The plan of a script writes what its content becomes. The induction is on the items; `front` is what was read. -/
theorem Adapts.writes (h : Adapts known before offset items text out) {front back : List Char}
    (whole : source.toList = front ++ (text ++ back)) (here : width front = base + offset)
    (at' : KnownAt known before now) :
    Plan.Writes (base + offset) (itemsPlan .perInstance source base now items).1 text out := by
  have next (now : List String) (before : Outline) (at' : KnownAt known before now) (item : Item) :
      KnownAt known (before ++ [item]) (itemPlan .perInstance source base now item).2 := at'.next item
  induction h generalizing front now with
  | done => exact .kept _
  | @stays offset item items before text out stays _ ih =>
    obtain ⟨ds, plan⟩ := stays.plan_notes source base now
    have later := ih whole here (next now before at' item)
    simp only [itemsPlan, plan]
    exact notes_writes ds later
  | @unexported before items d start offset gap blanks text out c valued all solid starts _ ih =>
    have keyword : width "export".toList = 6 := rfl
    have plan : (itemPlan .perInstance source base now (.exported start d)).1 =
        notes (declarations .perInstance base d) ++ dropExport source (base + start) := by
      rw [itemPlan, if_pos ⟨rfl, kindOf?_isSome.mpr valued⟩]
    have parts : source.toList = front ++ gap ++ ("export".toList ++ (blanks ++ c :: (text ++ back))) := by
      rw [whole]
      simp
    have removal : Plan.Writes (base + offset + width gap) _ _ _ :=
      (dropExport_writes parts (by rw [Text.width_append]; omega : _ = base + start) all solid).moved (by omega)
    have read : width (front ++ gap ++ "export".toList ++ blanks) = base + (start + 6 + width blanks) := by
      simp only [Text.width_append, keyword]
      omega
    have later := ih (by rw [parts]; simp) read (next now before at' (.exported start d))
    have all := item_writes removal later (by simp only [Text.width_append, keyword]; omega)
    simp only [itemsPlan, plan, List.append_assoc]
    refine notes_writes _ ?_
    simpa only [List.append_assoc, List.nil_append] using all
  | @declares before items r a offset gap label sign value text out assigned fresh filled starts target rightStart
      rightStop _ ih =>
    have plan : (itemPlan .perInstance source base now (.reactive r)).1 = declareTarget base (base + r.start) a := by
      simp [itemPlan, reactivePlan, assigned, (at'.declares a).mpr fresh]
    have read : width (front ++ gap ++ '$' :: label ++ a.target.name.toList ++ sign ++ value) = base + a.right.stop := by
      simp only [Text.width_append]
      omega
    have later := ih (by rw [whole]; simp) read (next now before at' (.reactive r))
    have statement : Plan.Writes (base + offset + width gap) _ _ _ :=
      (declareTarget_writes base filled target rightStart rightStop).moved (by omega)
    have all := item_writes statement later (by simp only [Text.width_append]; omega)
    simp only [itemsPlan, plan]
    simpa only [List.append_assoc] using all
  | @wraps before items r offset gap label body text out bound starts bodyStart bodyStop _ ih =>
    have plan : (itemPlan .perInstance source base now (.reactive r)).1 =
        wrapStatement base (base + r.start) r.body := by
      cases assigned : r.assignment with
      | none => simp [itemPlan, reactivePlan, assigned]
      | some a =>
        have known : a.target.name ∈ now := Decidable.not_not.mp fun free =>
          bound a assigned ((at'.declares a).mp free)
        simp [itemPlan, reactivePlan, assigned, known]
    have read : width (front ++ gap ++ '$' :: label ++ body) = base + r.body.stop := by
      simp only [Text.width_append]
      omega
    have later := ih (by rw [whole]; simp) read (next now before at' (.reactive r))
    have statement : Plan.Writes (base + offset + width gap) _ _ _ :=
      (wrapStatement_writes base bodyStart bodyStop).moved (by omega)
    have all := item_writes statement later (by simp only [Text.width_append]; omega)
    simp only [itemsPlan, plan]
    simpa only [List.append_assoc] using all

end Writing

/-- The plan of a script has the plans of its items, each made with the names that are known there. -/
theorem itemsPlan_mem {known now : List String} {earlier : Outline} (at' : KnownAt known earlier now) (source : String)
    (base : Nat) (before after : Outline) (item : Item) :
    ∃ here, KnownAt known (earlier ++ before) here ∧ ∀ c ∈ (itemPlan .perInstance source base here item).1.commands,
      c ∈ (itemsPlan .perInstance source base now (before ++ item :: after)).1.commands := by
  induction before generalizing earlier now with
  | nil =>
    refine ⟨now, by rwa [List.append_nil], fun c member => ?_⟩
    simp only [List.nil_append, itemsPlan, Plan.commands_append]
    exact List.mem_append_left _ member
  | cons first before ih =>
    have next : KnownAt known (earlier ++ [first]) (itemPlan .perInstance source base now first).2 := at'.next first
    obtain ⟨here, known', listed⟩ := ih next
    rw [List.append_assoc, List.singleton_append] at known'
    refine ⟨here, known', fun c member => ?_⟩
    simp only [List.cons_append, itemsPlan, Plan.commands_append]
    exact List.mem_append_right _ (listed c member)

end SvelteLens.Script
