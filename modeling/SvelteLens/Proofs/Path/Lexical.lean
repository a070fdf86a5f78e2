import SvelteLens.Proofs.Path.Descent

/-! Dots that are resolved by the text alone. What is left is spelled so that it is read again as it is. Resolving twice
is therefore resolving once, and it does not matter whether a directory is resolved before something is joined to it. -/
namespace SvelteLens.Path

variable {p : Path} {c : Component} {cs stack : List Component}

/-- A path in which no dot is left to resolve. -/
structure Normal (p : Path) : Prop where
  noHere : Component.here ∉ p.components
  /-- Steps up come before everything else. -/
  upsLead : ∃ ups rest, p.components = List.replicate ups .up ++ rest ∧ Component.up ∉ rest
  /-- Nothing is above the root. -/
  rootTop : p.isAbsolute = true → Component.up ∉ p.components

theorem Inner.components (inside : Inner c) : Path.components ⟨Component.text c⟩ = [c] := by
  have read := components_relative inside.unrooted
  rw [String.ofList_toList, words_whole inside.whole] at read
  have filled : (Component.text c).toList ≠ ['.'] := by
    cases inside with
    | up => decide
    | name isName => exact isName.notHere
  simpa [ofWords, ofFront?, filled, inside.ofWord?] using read

theorem ofComponents_inner (inside : ∀ c ∈ cs, Inner c) : ofComponents cs = ⟨"/".intercalate (cs.map Component.text)⟩ := by
  unfold ofComponents
  split
  · exact absurd rfl (inside .root List.mem_cons_self).below
  · rfl

/-- Components that may stand behind a separator are read back wherever they stand. -/
theorem components_ofComponents (inside : ∀ c ∈ cs, Inner c) : (ofComponents cs).components = cs := by
  rw [ofComponents_inner inside]
  cases cs with
  | nil => rfl
  | cons first rest =>
    have isInner := inside first List.mem_cons_self
    cases rest with
    | nil => simpa using isInner.components
    | cons second rest =>
      have behind := inner_texts fun c member => inside c (List.mem_cons_of_mem first member)
      have filled : (Component.text first).toList ≠ [] := by simpa using isInner.filled
      rw [← String.ofList_toList (s := "/".intercalate _), texts_cons, components_append filled, String.ofList_toList,
        isInner.components, behind]
      rfl

namespace Straight

theorem components (h : Straight stack) : (ofComponents stack.reverse).components = stack.reverse := by
  rcases h.shape with ⟨names, nameable, rfl⟩ | ⟨ups, names, nameable, rfl⟩
  · rw [List.reverse_reverse]
    exact rooted_components nameable
  · rw [List.reverse_reverse]
    refine components_ofComponents (List.forall_mem_append.mpr ⟨fun c member => ?_, ?_⟩)
    · exact List.eq_of_mem_replicate member ▸ .up
    · exact List.forall_mem_map.mpr fun n member => .name (nameable n member)

theorem normal (h : Straight stack) : Normal (ofComponents stack.reverse) := by
  have own := h.components
  rcases h.shape with ⟨names, -, rfl⟩ | ⟨ups, names, -, rfl⟩
  · rw [List.reverse_reverse] at own ⊢
    exact ⟨by simp [own], ⟨0, _, own, by simp⟩, fun _ => by simp [own]⟩
  · rw [List.reverse_reverse] at own ⊢
    refine ⟨by simp [own], ⟨ups, _, own, by simp⟩, fun absolute => ?_⟩
    rw [isAbsolute_iff, own] at absolute
    simp at absolute

theorem foldl (h : Straight stack) : stack.reverse.foldl normalStep [] = stack := by
  induction h with
  | nil => rfl
  | root => rfl
  | name _ _ ih =>
    rw [List.reverse_cons, List.foldl_append, ih]
    rfl
  | @up stack _ ups ih =>
    rw [List.reverse_cons, List.foldl_append, ih]
    cases stack with
    | nil => rfl
    | cons d stack =>
      obtain rfl := ups d List.mem_cons_self
      rfl

end Straight

theorem normal_normalize (p : Path) : Normal p.normalize := (straight_resolve p).normal

theorem components_normalize (p : Path) : p.normalize.components = p.resolve.reverse := (straight_resolve p).components

theorem resolve_normalize (p : Path) : p.normalize.resolve = p.resolve := by
  rw [resolve, components_normalize, (straight_resolve p).foldl]

theorem normalize_normalize (p : Path) : p.normalize.normalize = p.normalize := by
  rw [normalize_eq, resolve_normalize, normalize_eq]

theorem isAbsolute_normalize (p : Path) : p.normalize.isAbsolute = p.isAbsolute := by
  rw [Bool.eq_iff_iff, ← root_mem_resolve, ← root_mem_resolve, resolve_normalize]

theorem resolve_join (base : Path) (relative : p.isAbsolute = false) :
    (base.join p).resolve = (inner p.text.toList).foldl normalStep base.resolve := by
  rw [join_eq, relative, if_neg Bool.false_ne_true]
  by_cases empty : base.text = ""
  · have nothing : base.resolve = [] := by rw [resolve, components_eq_nil.mpr empty, List.foldl_nil]
    rw [lead_empty empty, List.nil_append, String.ofList_toList, nothing]
    rcases components_of_relative relative with whole | whole
    · rw [resolve, whole]
    · rw [resolve, whole]
      rfl
  · rw [resolve, components_lead empty, List.foldl_append, resolve]

/-- A base may be resolved before something is joined to it. -/
theorem normalize_join (base p : Path) : (base.normalize.join p).normalize = (base.join p).normalize := by
  cases absolute : p.isAbsolute with
  | true => rw [join_eq, join_eq, absolute, if_pos rfl, if_pos rfl]
  | false =>
    rw [normalize_eq (base.normalize.join p), normalize_eq (base.join p), resolve_join _ absolute,
      resolve_join _ absolute, resolve_normalize]

end SvelteLens.Path
