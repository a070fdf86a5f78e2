import SvelteLens.Path

/-! How the components of a path lie in its text: each under its own characters, and a separator
between any two. -/
namespace SvelteLens.Path

/-- Two ranges of a text with a separator between them. -/
def Separated (text : List Char) (start stop : Nat) : Prop := ∃ i, start ≤ i ∧ i < stop ∧ text[i]? = some '/'

theorem drop_take_middle (before middle after : List Char) :
    ((before ++ middle ++ after).take (before.length + middle.length)).drop before.length = middle := by
  rw [← List.length_append, List.take_left, List.drop_left]

/-- What is left to split starts at `before.length`; the part that is being read is `part`. -/
theorem parts_laid {text : List Char} (rest : List Char) :
    ∀ before part : List Char, text = before ++ part.reverse ++ rest →
      (∀ found ∈ parts (before.length + part.length) before.length part rest, before.length ≤ found.1 ∧
        (text.take (found.1 + found.2.length)).drop found.1 = found.2) ∧
      (parts (before.length + part.length) before.length part rest).Pairwise fun a b => Separated text a.1 b.1 := by
  induction rest with
  | nil =>
    intro before part whole
    have cut := drop_take_middle before part.reverse []
    rw [← whole] at cut
    simpa [parts, Separated] using cut
  | cons c rest ih =>
    intro before part whole
    by_cases separator : c = '/'
    · subst separator
      have later := ih (before ++ part.reverse ++ ['/']) [] (by simp [whole])
      simp only [List.length_append, List.length_reverse, List.length_cons, List.length_nil, Nat.add_zero,
        Nat.zero_add] at later
      obtain ⟨laid, separated⟩ := later
      rw [parts, if_pos rfl]
      refine ⟨?_, ?_⟩
      · intro found member
        rcases List.mem_cons.mp member with rfl | member
        · exact ⟨Nat.le_refl _, whole ▸ drop_take_middle before part.reverse ('/' :: rest)⟩
        · obtain ⟨low, cut⟩ := laid found member
          exact ⟨by omega, cut⟩
      · refine .cons (fun found member => ?_) separated
        have low := (laid found member).1
        exact ⟨before.length + part.length, by simp, by omega, by simp [whole]⟩
    · have later := ih before (c :: part) (by simp [whole])
      rw [parts, if_neg separator]
      exact later

theorem readPart_laid {start : Nat} {part : List Char} {l : Component.Located} (read : readPart (start, part) = some l) :
    l.start = start ∧ l.stop = start + part.length ∧ (Component.text l.component).toList = part ∧ part ≠ [] := by
  unfold readPart at read
  split at read <;> cases read <;> simp_all [Component.text]

structure Laid (text : List Char) (l : Component.Located) : Prop where
  cut : (text.take l.stop).drop l.start = (Component.text l.component).toList
  filled : l.start < l.stop

theorem readParts_laid (before : List Char) {text rest : List Char} (whole : text = before ++ rest) :
    (∀ l ∈ (parts before.length before.length [] rest).filterMap readPart, before.length ≤ l.start ∧ Laid text l) ∧
      ((parts before.length before.length [] rest).filterMap readPart).Pairwise fun a b =>
        Separated text a.start b.stop := by
  have split : text = before ++ [].reverse ++ rest := by simp [whole]
  obtain ⟨laid, separated⟩ := parts_laid rest before [] split
  refine ⟨?_, ?_⟩
  · intro l member
    obtain ⟨⟨start, part⟩, found, read⟩ := List.mem_filterMap.mp member
    obtain ⟨low, cut⟩ := laid _ found
    obtain ⟨rfl, stop, same, filled⟩ := readPart_laid read
    refine ⟨low, by rw [stop, same]; exact cut, ?_⟩
    have := List.length_pos_iff.mpr filled
    omega
  · refine List.pairwise_filterMap.mpr (separated.imp ?_)
    rintro ⟨start, part⟩ ⟨start', part'⟩ ⟨i, low, high, slash⟩ l read l' read'
    obtain ⟨rfl, -⟩ := readPart_laid read
    obtain ⟨rfl, stop, -⟩ := readPart_laid read'
    refine ⟨i, low, ?_, slash⟩
    rw [stop]
    exact Nat.lt_add_right _ high

/-- Between the starts of two components of a path stands a separator. -/
theorem located_laid (p : Path) :
    (∀ l ∈ p.located, Laid p.text.toList l) ∧
      p.located.Pairwise fun a b => Separated p.text.toList a.start b.stop := by
  unfold located
  split
  · next rest whole =>
    obtain ⟨laid, separated⟩ := readParts_laid ['/'] whole
    refine ⟨?_, .cons ?_ separated⟩
    · intro l member
      rcases List.mem_cons.mp member with rfl | member
      · exact ⟨by rw [whole]; rfl, Nat.zero_lt_one⟩
      · exact (laid l member).2
    · intro l member
      obtain ⟨low, laid⟩ := laid l member
      have low : 1 ≤ l.start := low
      exact ⟨0, Nat.le_refl 0, Nat.lt_of_le_of_lt (by omega) laid.filled, by rw [whole]; rfl⟩
  · obtain ⟨laid, separated⟩ := readParts_laid [] (show p.text.toList = [] ++ p.text.toList from rfl)
    exact ⟨fun l member => (laid l member).2, separated⟩

/-- What is left of a path below a base is one component when no separator stands in it. -/
theorem components_of_stripBase? {p base rest : Path} (stripped : p.stripBase? base = some rest)
    (filled : rest.text ≠ "") (plain : '/' ∉ rest.text.toList) :
    ∃ c, p.components = base.components ++ [c] ∧ Component.text c = rest.text := by
  obtain ⟨laid, separated⟩ := p.located_laid
  unfold stripBase? at stripped
  split at stripped
  · next below =>
    obtain ⟨left, whole⟩ := List.isPrefixOf_iff_prefix.mp below
    have split : p.components = base.components ++ (p.located.drop base.components.length).map (·.component) := by
      rw [List.map_drop]
      change _ = _ ++ p.components.drop _
      rw [← whole, List.drop_left]
    have kept : ∀ l ∈ p.located.drop base.components.length, Laid p.text.toList l :=
      fun l member => laid l (List.mem_of_mem_drop member)
    have apart := separated.sublist (List.drop_sublist base.components.length _)
    revert stripped split kept apart
    generalize p.located.drop base.components.length = lasting
    intro stripped split kept apart
    cases lasting with
    | nil =>
      cases stripped
      exact absurd rfl filled
    | cons first others =>
      cases stripped
      cases others with
      | nil =>
        refine ⟨first.component, split, ?_⟩
        have cut := (kept first (List.mem_singleton_self _)).cut
        simp only [List.getLast?_singleton, Option.elim_some, Path.cut, cut, String.ofList_toList]
      | cons second others =>
        -- the cut goes from the first component to the last one, over the separator between them
        exfalso
        apply plain
        have last : (second :: others).getLast (by simp) ∈ second :: others := List.getLast_mem _
        obtain ⟨i, low, high, slash⟩ := List.rel_of_pairwise_cons apart last
        simp only [List.getLast?_cons_cons, List.getLast?_eq_some_getLast (List.cons_ne_nil second others),
          Option.elim_some, Path.cut, String.toList_ofList]
        refine List.mem_of_getElem? (i := i - first.start) ?_
        rw [List.getElem?_drop, Nat.add_sub_cancel' low, List.getElem?_take_of_lt high]
        exact slash
  · cases stripped

/-- A path with one component more than a base has that component left below it. -/
theorem stripBase?_of_components {p base : Path} {c : Component} (whole : p.components = base.components ++ [c]) :
    p.stripBase? base = some ⟨Component.text c⟩ := by
  have below : p.startsWith base = true := by
    rw [startsWith, whole]
    exact List.isPrefixOf_iff_prefix.mpr (List.prefix_append _ _)
  have left : (p.located.drop base.components.length).map (·.component) = [c] := by
    rw [List.map_drop]
    change p.components.drop _ = _
    rw [whole, List.drop_left]
  obtain ⟨l, single, rfl⟩ := List.map_eq_singleton_iff.mp left
  have cut := (p.located_laid.1 l (List.mem_of_mem_drop (single ▸ List.mem_singleton_self l))).cut
  rw [stripBase?, if_pos below, single]
  simp only [List.getLast?_singleton, Option.elim_some, Path.cut, cut, String.ofList_toList]

end SvelteLens.Path
