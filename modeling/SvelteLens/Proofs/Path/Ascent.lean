import SvelteLens.Proofs.Basics
import SvelteLens.Proofs.Path.Normal

/-! The way up from a path. The directories above it are its proper leading parts, innermost first, each below the
next; and two paths with one directory have the same way up. -/
namespace SvelteLens.Path

variable {p q d e base : Path}

theorem startsWith_iff : p.startsWith base = true ↔ base.components <+: p.components := List.isPrefixOf_iff_prefix

/-- One directory lies properly below another. -/
def Below (d e : Path) : Prop := e.components <+: d.components ∧ e.components.length < d.components.length

theorem leadingComponents_ordered (cs : List Component) :
    (leadingComponents cs).Pairwise fun a b => b <+: a ∧ b.length < a.length := by
  refine List.Pairwise.filter _ (List.pairwise_reverse.mpr (List.pairwise_map.mpr ?_))
  refine List.pairwise_lt_range.imp_of_mem fun {i j} _ inside less => ?_
  have upper := List.mem_range.mp inside
  refine ⟨List.take_prefix_take_left (Nat.le_of_lt less), ?_⟩
  rw [List.length_take, List.length_take]
  omega

theorem parents_ordered (p : Path) : p.parents.Pairwise Below := by
  have ordered := leadingComponents_ordered p.components
  rw [← parents_components, List.pairwise_map] at ordered
  exact ordered

theorem mem_leadingComponents {cs front : List Component} (filled : cs.head? = some .root) :
    front ∈ leadingComponents cs ↔ front <+: cs ∧ front.length < cs.length ∧ front ≠ [] := by
  simp only [leadingComponents, filled, List.mem_filter, List.mem_reverse, List.mem_map, List.mem_range]
  constructor
  · rintro ⟨⟨n, less, rfl⟩, kept⟩
    refine ⟨List.take_prefix n cs, ?_, by simpa using kept⟩
    rw [List.length_take]
    omega
  · rintro ⟨⟨rest, rfl⟩, less, ne⟩
    exact ⟨⟨front.length, less, List.take_left⟩, by simpa using ne⟩

/-- The directories above an absolute path have its proper leading parts, and each of them is one. -/
theorem exists_parent_iff (absolute : p.isAbsolute = true) {front : List Component} :
    (∃ d ∈ p.parents, d.components = front) ↔ front <+: p.components ∧ front.length < p.components.length ∧ front ≠ [] := by
  rw [← mem_leadingComponents (head?_components absolute), ← parents_components, List.mem_map]

/-- A directory above a path is one of the way up under one spelling only. -/
theorem parents_inj (hd : d ∈ p.parents) (he : e ∈ p.parents) (same : d.components = e.components) : d = e := by
  rcases related_of_pairwise p.parents_ordered hd he with rfl | below | below
  · rfl
  · exact absurd below.2 (by simp [same])
  · exact absurd below.2 (by simp [same])

/-- The directory of an absolute path has all its components but the last one. -/
theorem components_of_parent? (absolute : p.isAbsolute = true) (above : p.parent? = some d) :
    d.components ≠ [] ∧ ∃ c, p.components = d.components ++ [c] := by
  have listed : d ∈ p.parents := List.mem_of_head? above
  obtain ⟨-, shorter, filled⟩ := (exists_parent_iff absolute).mp ⟨d, listed, rfl⟩
  rcases List.eq_nil_or_concat p.components with none | ⟨front, c, whole⟩
  · simp [none] at shorter
  · rw [List.concat_eq_append] at whole
    have inside : front ≠ [] := by
      rintro rfl
      rw [whole] at shorter
      exact filled (List.length_eq_zero_iff.mp (Nat.lt_one_iff.mp shorter))
    obtain ⟨own, first, same⟩ := parent?_of_components whole inside
    obtain rfl : own = d := Option.some.inj (first.symm.trans above)
    exact ⟨filled, c, same ▸ whole⟩

/-- Two paths in one directory, under any spelling of it. -/
def Siblings (p q : Path) : Prop := ∃ d ∈ p.parent?, ∃ e ∈ q.parent?, d.same e = true

theorem Siblings.symm (h : Siblings p q) : Siblings q p := by
  obtain ⟨d, hd, e, he, same⟩ := h
  exact ⟨e, he, d, hd, same_comm d e ▸ same⟩

theorem Siblings.components (h : Siblings p q) (absolute : p.isAbsolute = true) (absolute' : q.isAbsolute = true) :
    ∃ front c c', front ≠ [] ∧ p.components = front ++ [c] ∧ q.components = front ++ [c'] := by
  obtain ⟨d, above, e, above', same⟩ := h
  obtain ⟨filled, c, whole⟩ := components_of_parent? absolute above
  obtain ⟨-, c', whole'⟩ := components_of_parent? absolute' above'
  exact ⟨d.components, c, c', filled, whole, same_iff.mp same ▸ whole'⟩

theorem Siblings.parent (h : Siblings p q) (absolute : p.isAbsolute = true) (absolute' : q.isAbsolute = true)
    (above : d ∈ p.parents) : ∃ e ∈ q.parents, e.same d = true := by
  obtain ⟨front, c, c', -, whole, whole'⟩ := h.components absolute absolute'
  obtain ⟨leads, shorter, filled⟩ := (exists_parent_iff absolute).mp ⟨d, above, rfl⟩
  have length : d.components.length ≤ front.length := by
    rw [whole, List.length_append, List.length_singleton] at shorter
    omega
  have leads' : d.components <+: front :=
    List.prefix_of_prefix_length_le leads (whole ▸ List.prefix_append front [c]) length
  have less : d.components.length < q.components.length := by
    rw [whole', List.length_append, List.length_singleton]
    omega
  have inside : d.components <+: q.components := leads'.trans (whole' ▸ List.prefix_append front [c'])
  obtain ⟨e, listed, same⟩ := (exists_parent_iff absolute').mpr ⟨inside, less, filled⟩
  exact ⟨e, listed, same_iff.mpr same⟩

/-- A base that is neither of two paths in one directory has both below it or none. -/
theorem Siblings.startsWith (h : Siblings p q) (absolute : p.isAbsolute = true) (absolute' : q.isAbsolute = true)
    (apart : base.same p = false) (below : p.startsWith base = true) : q.startsWith base = true := by
  obtain ⟨front, c, c', -, whole, whole'⟩ := h.components absolute absolute'
  rw [startsWith_iff, whole] at below
  rw [startsWith_iff, whole']
  rcases List.prefix_concat_iff.mp below with same | leads
  · rw [← whole, ← same_iff, apart] at same
    cases same
  · exact leads.trans (List.prefix_append front [c'])

end SvelteLens.Path
