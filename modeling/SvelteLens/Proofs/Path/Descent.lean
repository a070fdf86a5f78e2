import SvelteLens.Proofs.Path.Normal

/-! The way down from a directory. Names that are joined to a path become its last components, and what is left of the
whole below that path is their plain spelling. -/
namespace SvelteLens.Path

variable {root : Path} {names : List String}

instance (word : List Char) : Decidable (Nameable word) :=
  decidable_of_iff (word ≠ [] ∧ '/' ∉ word ∧ word ≠ ['.'] ∧ word ≠ ['.', '.'])
    ⟨fun ⟨filled, whole, notHere, notUp⟩ => ⟨filled, whole, notHere, notUp⟩,
      fun h => ⟨h.filled, h.whole, h.notHere, h.notUp⟩⟩

/-- What lies under the names below a directory, spelled from the directory's own spelling on. -/
def descend (root : Path) (names : List String) : Path := root.join ⟨"/".intercalate names⟩

theorem intercalate_relative (nameable : ∀ n ∈ names, Nameable n.toList) :
    (⟨"/".intercalate names⟩ : Path).isAbsolute = false := by
  cases names with
  | nil => rfl
  | cons first rest =>
    have isName := nameable first List.mem_cons_self
    obtain ⟨tail, whole⟩ : first.toList <+: ("/".intercalate (first :: rest)).toList := by
      simpa using intercalate_prefix [first] rest
    have head : ("/".intercalate (first :: rest)).toList.head? = first.toList.head? := by
      rw [← whole, List.head?_append_of_ne_nil _ isName.filled]
    have other : first.toList.head? ≠ some '/' := fun same => isName.whole (List.mem_of_head? same)
    rw [isAbsolute, head]
    simpa using other

theorem descend_text (nameable : ∀ n ∈ names, Nameable n.toList) :
    (root.descend names).text.toList = root.lead ++ ("/".intercalate names).toList := by
  rw [descend, join_eq, intercalate_relative nameable, if_neg Bool.false_ne_true, String.toList_ofList]

theorem descend_components (nameable : ∀ n ∈ names, Nameable n.toList) (filled : root.text ≠ "") :
    (root.descend names).components = root.components ++ names.map .name := by
  rw [descend, join_eq, intercalate_relative nameable, if_neg Bool.false_ne_true, components_lead filled,
    inner_intercalate nameable]

theorem isAbsolute_join (absolute : root.isAbsolute = true) (p : Path) : (root.join p).isAbsolute = true := by
  rw [join_eq]
  split
  · assumption
  · have filled : root.text ≠ "" := by
      intro empty
      simp [isAbsolute, empty] at absolute
    rw [isAbsolute_iff, components_lead filled]
    exact List.mem_append_left _ (isAbsolute_iff.mp absolute)

theorem Nameable.readPart {word : List Char} (nameable : Nameable word) (start : Nat) :
    readPart (start, word) = some ⟨.name (String.ofList word), start, start + word.length⟩ := by
  unfold Path.readPart
  split
  · next same => cases same; exact absurd rfl nameable.notHere
  · next same => cases same; exact absurd rfl nameable.filled
  · next same => cases same; exact absurd rfl nameable.notHere
  · next same => cases same; exact absurd rfl nameable.notUp
  · next same => cases same; rfl

/-- Names between separators lie from the first character of their text up to its end. -/
theorem parts_names (nameable : ∀ n ∈ names, Nameable n.toList) (filled : names ≠ []) (start : Nat) :
    ∃ first rest, (parts start start [] ("/".intercalate names).toList).filterMap readPart = first :: rest ∧
      first.start = start ∧
      (first :: rest).getLast?.elim 0 (·.stop) = start + ("/".intercalate names).toList.length := by
  induction names generalizing start with
  | nil => exact absurd rfl filled
  | cons n names ih =>
    have isName := nameable n List.mem_cons_self
    have own : (parts start start [] n.toList).filterMap readPart =
        [⟨.name n, start, start + n.toList.length⟩] := by
      rw [parts_whole isName.whole, List.reverse_nil, List.nil_append, List.filterMap_cons, isName.readPart]
      simp
    cases names with
    | nil => exact ⟨_, [], by simpa using own, rfl, by simp⟩
    | cons m names =>
      have text : ("/".intercalate (n :: m :: names)).toList = n.toList ++ '/' :: ("/".intercalate (m :: names)).toList := by
        simp [String.intercalate_cons_cons]
      obtain ⟨first, rest, later, -, stop⟩ := ih (fun k member => nameable k (List.mem_cons_of_mem n member))
        (List.cons_ne_nil m names) (start + n.toList.length + 1)
      refine ⟨_, first :: rest, by rw [text, parts_append, List.filterMap_append, own, later]; rfl, rfl, ?_⟩
      rw [List.getLast?_cons_cons, stop, text, List.length_append, List.length_cons]
      omega

theorem stripBase?_descend (nameable : ∀ n ∈ names, Nameable n.toList) (inside : names ≠ []) (filled : root.text ≠ "") :
    (root.descend names).stripBase? root = some ⟨"/".intercalate names⟩ := by
  have text : (root.descend names).text.toList = root.lead ++ ("/".intercalate names).toList := descend_text nameable
  have whole := descend_components nameable filled
  obtain ⟨first, rest, read, start, stop⟩ := parts_names nameable inside root.lead.length
  have located : (root.descend names).located = root.located ++ first :: rest := by
    rw [← read, ← located_lead filled, ← text, String.ofList_toList]
  have depth : root.components.length = root.located.length := List.length_map _
  have below : (root.descend names).startsWith root = true :=
    List.isPrefixOf_iff_prefix.mpr (whole ▸ List.prefix_append root.components _)
  rw [stripBase?, if_pos below, located, depth, List.drop_left]
  simp only [start, stop, cut, text]
  rw [← List.length_append, List.take_length, List.drop_left, String.ofList_toList]

end SvelteLens.Path
