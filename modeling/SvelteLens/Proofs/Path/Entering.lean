import SvelteLens.Proofs.Path.Lexical

/-! Resolving dots step by step in the text. The components of a path are taken in one after the other, and for each of
them the text that is there so far is read anew: a name or a separator is put at its end, or its last name is cut off.
This leads to the same text as keeping the components apart and spelling them in the end. -/
namespace SvelteLens.Path

variable {c d : Component} {cs stack : List Component}

/-- Takes a component into a path, which is read anew for that. A step up takes off the name at the end; at the root it
leads nowhere, and behind nothing or another step up it is kept. -/
def enter (p : Path) : Component → Path
  | .here => p
  | .up =>
    match p.components.getLast? with
    | some (.name _) => p.parent?.getD p
    | some .root => p
    | _ => p.join ⟨Component.text .up⟩
  | c => p.join ⟨Component.text c⟩

theorem Inner.relative (inside : Inner c) : (⟨Component.text c⟩ : Path).isAbsolute = false := by
  simpa [isAbsolute] using inside.unrooted

theorem Inner.text_join (inside : Inner c) (base : Path) :
    (base.join ⟨Component.text c⟩).text.toList = base.lead ++ (Component.text c).toList := by
  rw [join_eq, inside.relative, if_neg Bool.false_ne_true, String.toList_ofList]

theorem lead_ofComponents (front : List Component) (last : Inner d) :
    (ofComponents (front ++ [d])).lead = (ofComponents (front ++ [d])).text.toList ++ ['/'] := by
  obtain ⟨before, text, -⟩ := endsIn_ofComponents front last.below
  have filled : (Component.text d).toList ≠ [] := by simpa using last.filled
  rcases (ofComponents (front ++ [d])).lead_cases with ⟨empty, -⟩ | ⟨slash, whole, -⟩ | ⟨-, -, lead⟩
  · simp [empty, filled] at text
  · have separator : (Component.text d).toList.getLast? = some '/' := by
      rw [← List.getLast?_append_of_ne_nil before filled, ← text, whole, List.getLast?_concat]
    exact absurd (List.mem_of_getLast? separator) last.whole
  · exact lead

theorem ofComponents_concat (front : List Component) (last : Inner d) (c : Component) :
    (ofComponents (front ++ [d] ++ [c])).text = (ofComponents (front ++ [d])).text ++ "/" ++ Component.text c := by
  have more {cs : List Component} (filled : cs ≠ []) : "/".intercalate ((cs ++ [c]).map Component.text) =
      "/".intercalate (cs.map Component.text) ++ "/" ++ Component.text c := by
    rw [List.map_append, List.map_singleton, String.intercalate_append_of_ne_nil (by simpa using filled)
      (List.cons_ne_nil _ _), String.intercalate_singleton]
  cases front with
  | nil => cases last <;> exact more (List.cons_ne_nil _ _)
  | cons first front =>
    cases first with
    | root =>
      have filled : front ++ [d] ≠ [] := by simp
      have below := congrArg ("/" ++ ·) (more filled)
      simpa [ofComponents, String.append_assoc] using below
    | here => exact more (List.cons_ne_nil _ _)
    | up => exact more (List.cons_ne_nil _ _)
    | name => exact more (List.cons_ne_nil _ _)

theorem join_ofComponents (front : List Component) (last : Inner d) (inside : Inner c) :
    (ofComponents (front ++ [d])).join ⟨Component.text c⟩ = ofComponents (front ++ [d] ++ [c]) := by
  have text : ((ofComponents (front ++ [d])).join ⟨Component.text c⟩).text = (ofComponents (front ++ [d] ++ [c])).text := by
    rw [← String.toList_inj, inside.text_join, lead_ofComponents front last, ofComponents_concat front last]
    simp
  exact congrArg Path.mk text

theorem Straight.join (h : Straight stack) (inside : Inner c) :
    (ofComponents stack.reverse).join ⟨Component.text c⟩ = ofComponents (c :: stack).reverse := by
  rw [List.reverse_cons]
  cases h with
  | nil =>
    rw [join_eq, inside.relative, if_neg Bool.false_ne_true]
    cases inside <;> simp [ofComponents, lead]
  | root =>
    rw [join_eq, inside.relative, if_neg Bool.false_ne_true]
    cases inside <;> simp [ofComponents, lead]
  | up =>
    rw [List.reverse_cons]
    exact join_ofComponents _ .up inside
  | name isName =>
    rw [List.reverse_cons]
    exact join_ofComponents _ (.name isName) inside

theorem Inner.readPart (inside : Inner c) (start : Nat) :
    readPart (start, (Component.text c).toList) = some ⟨c, start, start + (Component.text c).toList.length⟩ := by
  cases inside with
  | up => cases start <;> rfl
  | name isName => simpa [Component.text] using isName.readPart start

theorem Inner.located_join (inside : Inner c) (base : Path) : (base.join ⟨Component.text c⟩).located = base.located ++
    [⟨c, base.lead.length, base.lead.length + (Component.text c).toList.length⟩] := by
  have own (start : Nat) : (parts start start [] (Component.text c).toList).filterMap Path.readPart =
      [⟨c, start, start + (Component.text c).toList.length⟩] := by
    rw [parts_whole inside.whole, List.reverse_nil, List.nil_append, List.filterMap_cons, inside.readPart]
    rfl
  rw [join_eq, inside.relative, if_neg Bool.false_ne_true]
  by_cases empty : base.text = ""
  · have nothing : base.located = [] := List.map_eq_nil_iff.mp (components_eq_nil.mpr empty)
    rw [lead_empty empty, List.nil_append, nothing, List.nil_append, located_relative inside.unrooted]
    exact own 0
  · rw [located_lead empty, own]

/-- The plain spelling of what is left has nothing behind its last component. -/
theorem Straight.located_end (h : Straight stack) : (ofComponents stack.reverse).located.getLast?.elim 0 (·.stop) =
    (ofComponents stack.reverse).text.toList.length := by
  have joined {c : Component} {stack : List Component} (h : Straight stack) (inside : Inner c) :
      (ofComponents (c :: stack).reverse).located.getLast?.elim 0 (·.stop) =
        (ofComponents (c :: stack).reverse).text.toList.length := by
    rw [← h.join inside, inside.located_join, inside.text_join, List.getLast?_concat, Option.elim_some, List.length_append]
  cases h with
  | nil => rfl
  | root => rfl
  | up below => exact joined below .up
  | name isName below => exact joined below (.name isName)

theorem text_prefix_lead (base : Path) : base.text.toList <+: base.lead := by
  rcases base.lead_cases with ⟨empty, -⟩ | ⟨before, whole, lead⟩ | ⟨-, -, lead⟩
  · simp [empty]
  · exact ⟨[], by rw [List.append_nil, whole, lead]⟩
  · exact lead ▸ List.prefix_append _ _

theorem Straight.parent? (h : Straight stack) (inside : Inner c) :
    (ofComponents (c :: stack).reverse).parent? = some (ofComponents stack.reverse) := by
  obtain ⟨rest, lead⟩ := text_prefix_lead (ofComponents stack.reverse)
  rw [← h.join inside, parent?_of_located (inside.located_join _) (.inr inside.below), upTo, h.located_end, cut,
    inside.text_join, ← lead, List.append_assoc, List.take_left, List.drop_zero, String.ofList_toList]

theorem Straight.enter (h : Straight stack) (inside : Inner c) :
    (ofComponents stack.reverse).enter c = ofComponents (normalStep stack c).reverse := by
  cases inside with
  | name isName => exact h.join (.name isName)
  | up =>
    rw [Path.enter, h.components]
    cases h with
    | nil => rfl
    | root => rfl
    | up below ups =>
      rw [List.getLast?_reverse, List.head?_cons]
      exact (Straight.up below ups).join .up
    | name isName below =>
      rw [List.getLast?_reverse, List.head?_cons]
      simp only [below.parent? (.name isName), Option.getD_some, normalStep]

theorem Straight.enters (h : Straight stack) (inside : ∀ c ∈ cs, Inner c) :
    cs.foldl Path.enter (ofComponents stack.reverse) = ofComponents (cs.foldl normalStep stack).reverse := by
  induction cs generalizing stack with
  | nil => rfl
  | cons c cs ih =>
    have isInner := inside c List.mem_cons_self
    rw [List.foldl_cons, List.foldl_cons, h.enter isInner]
    exact ih (h.step isInner) fun d member => inside d (List.mem_cons_of_mem c member)

/-- Resolving dots is taking in the components of the path one after the other, from the empty path on. -/
theorem normalize_eq_enter (p : Path) : p.normalize = p.components.foldl enter ⟨""⟩ := by
  obtain ⟨front, cs, whole, inside, ⟨-, rfl⟩ | ⟨-, rfl | rfl⟩⟩ := components_begin p
  · rw [normalize_eq, resolve, whole]
    exact (Straight.root.enters inside).symm
  · rw [normalize_eq, resolve, whole]
    exact (Straight.nil.enters inside).symm
  · rw [normalize_eq, resolve, whole]
    exact (Straight.nil.enters inside).symm

end SvelteLens.Path
