import SvelteLens.Proofs.Path.Names

/-! Paths in normal form. Resolving dots leaves names behind the root or behind steps up, and the plain spelling of
these is read back as the same components. What lies further down is spelled with a longer text. -/
namespace SvelteLens.Path

variable {names more : List String} {p q : Path} {c : Component} {cs stack : List Component}

theorem inner_append (before after : List Char) : inner (before ++ '/' :: after) = inner before ++ inner after := by
  rw [inner, words_append, List.filterMap_append]
  rfl

/-- A component that can stand behind a separator. -/
inductive Inner : Component → Prop where
  | up : Inner .up
  | name : Nameable n.toList → Inner (.name n)

namespace Inner

theorem filled (inside : Inner c) : Component.text c ≠ "" := by
  cases inside with
  | up => decide
  | name isName => exact fun empty => isName.filled (String.toList_eq_nil_iff.mpr empty)

theorem whole (inside : Inner c) : '/' ∉ (Component.text c).toList := by
  cases inside with
  | up => decide
  | name isName => exact isName.whole

theorem unrooted (inside : Inner c) : (Component.text c).toList.head? ≠ some '/' :=
  fun first => inside.whole (List.mem_of_head? first)

theorem ofWord? (inside : Inner c) : ofWord? (Component.text c).toList = some c := by
  cases inside with
  | up => rfl
  | name isName => simpa [Component.text] using isName.ofWord?

theorem below (inside : Inner c) : c ≠ .root := by
  rintro rfl
  cases inside

end Inner

theorem texts_cons (first second : Component) (rest : List Component) :
    ("/".intercalate ((first :: second :: rest).map Component.text)).toList =
      (Component.text first).toList ++ '/' :: ("/".intercalate ((second :: rest).map Component.text)).toList := by
  simp [String.intercalate_cons_cons]

theorem inner_texts (inside : ∀ c ∈ cs, Inner c) : inner ("/".intercalate (cs.map Component.text)).toList = cs := by
  induction cs with
  | nil => rfl
  | cons first rest ih =>
    have isInner := inside first List.mem_cons_self
    have own : inner (Component.text first).toList = [first] := by
      rw [inner, words_whole isInner.whole]
      simp [isInner.ofWord?]
    cases rest with
    | nil => simpa using own
    | cons second rest =>
      have below := ih fun c member => inside c (List.mem_cons_of_mem _ member)
      rw [texts_cons, inner_append, own, below]
      rfl

theorem texts_names (names : List String) : (names.map Component.name).map Component.text = names := by
  rw [List.map_map]
  exact List.map_id names

theorem inner_intercalate (nameable : ∀ n ∈ names, Nameable n.toList) :
    inner ("/".intercalate names).toList = names.map .name := by
  have read := inner_texts (List.forall_mem_map.mpr fun n member => Inner.name (nameable n member))
  rwa [texts_names] at read

theorem ofWord?_eq_some {word : List Char} {c : Component} (read : ofWord? word = some c) (whole : '/' ∉ word) : Inner c := by
  unfold ofWord? at read
  split at read
  · cases read
  · cases read
  · cases read
    exact .up
  · next filled notHere notUp =>
    cases read
    refine .name ?_
    rw [String.toList_ofList]
    exact ⟨filled, whole, notHere, notUp⟩

theorem mem_words {part cs word : List Char} (unbroken : '/' ∉ part) (member : word ∈ words part cs) : '/' ∉ word := by
  induction cs generalizing part with
  | nil =>
    rw [words_nil, List.mem_singleton] at member
    rw [member]
    simpa using unbroken
  | cons c cs ih =>
    rw [words_cons] at member
    split at member
    · rcases List.mem_cons.mp member with rfl | member
      · simpa using unbroken
      · exact ih List.not_mem_nil member
    · next other => exact ih (by simpa [unbroken] using Ne.symm other) member

/-- Behind a separator, every component is a name or leads up. -/
theorem mem_inner {cs : List Char} {c : Component} (member : c ∈ inner cs) : Inner c := by
  obtain ⟨word, listed, read⟩ := List.mem_filterMap.mp member
  exact ofWord?_eq_some read (mem_words List.not_mem_nil listed)

theorem components_absolute (absolute : p.isAbsolute = true) :
    ∃ cs, p.text.toList = '/' :: cs ∧ p.components = .root :: inner cs := by
  obtain ⟨text⟩ := p
  have first : text.toList.head? = some '/' := by simpa [isAbsolute] using absolute
  obtain ⟨cs, whole⟩ := List.head?_eq_some_iff.mp first
  refine ⟨cs, whole, ?_⟩
  rw [← components_root, ← whole, String.ofList_toList]

theorem head?_components (absolute : p.isAbsolute = true) : p.components.head? = some .root := by
  obtain ⟨cs, -, whole⟩ := components_absolute absolute
  rw [whole, List.head?_cons]

/-- Of a relative path, only a dot at the very front is read in another way than behind a separator. -/
theorem components_of_relative (relative : p.isAbsolute = false) :
    p.components = inner p.text.toList ∨ p.components = .here :: inner p.text.toList := by
  have rootless : p.text.toList.head? ≠ some '/' := by simpa [isAbsolute] using relative
  have whole := components_relative rootless
  rw [String.ofList_toList] at whole
  obtain ⟨first, rest, split⟩ := words_first [] p.text.toList
  rw [whole, inner, split, ofWords, ofFront?, List.filterMap_cons]
  split
  · next here =>
    rw [here]
    exact .inr rfl
  · left
    cases ofWord? ([].reverse ++ first) <;> rfl

theorem isAbsolute_iff : p.isAbsolute = true ↔ .root ∈ p.components := by
  constructor
  · exact fun absolute => List.mem_of_head? (head?_components absolute)
  · intro member
    by_contra relative
    rcases components_of_relative (Bool.eq_false_iff.mpr relative) with whole | whole
    · exact (mem_inner (whole ▸ member)).below rfl
    · rw [whole] at member
      exact (mem_inner ((List.mem_cons.mp member).resolve_left nofun)).below rfl

theorem isAbsolute_congr (same : p.same q = true) : p.isAbsolute = q.isAbsolute := by
  rw [Bool.eq_iff_iff, isAbsolute_iff, isAbsolute_iff, same_iff.mp same]

def rooted (names : List String) : Path := ofComponents (.root :: names.map .name)

theorem rooted_text (names : List String) : (rooted names).text.toList = '/' :: ("/".intercalate names).toList := by
  rw [rooted, ofComponents, texts_names]
  simp

theorem rooted_components (nameable : ∀ n ∈ names, Nameable n.toList) :
    (rooted names).components = .root :: names.map .name := by
  have spelled : rooted names = ⟨String.ofList ('/' :: ("/".intercalate names).toList)⟩ := by
    rw [← rooted_text, String.ofList_toList]
  rw [spelled, components_root, inner_intercalate nameable]

/-- What is resolved of a path below the root, last component first. -/
def Resolved (stack : List Component) : Prop :=
  ∃ names : List String, (∀ n ∈ names, Nameable n.toList) ∧ stack = (.root :: names.map .name).reverse

/-- What can be left when dots are resolved, last component first: names behind the root, or behind steps up. -/
inductive Straight : List Component → Prop where
  | nil : Straight []
  | root : Straight [.root]
  | up {stack : List Component} (below : Straight stack) (ups : ∀ c ∈ stack, c = .up) : Straight (.up :: stack)
  | name {n : String} {stack : List Component} (isName : Nameable n.toList) (below : Straight stack) :
      Straight (.name n :: stack)

namespace Straight

theorem step (h : Straight stack) (inside : Inner c) : Straight (normalStep stack c) := by
  cases inside with
  | name isName => exact .name isName h
  | up =>
    cases h with
    | nil => exact .up .nil nofun
    | root => exact .root
    | up below ups => exact .up (.up below ups) (List.forall_mem_cons.mpr ⟨rfl, ups⟩)
    | name _ below => exact below

theorem steps (h : Straight stack) (inside : ∀ c ∈ cs, Inner c) : Straight (cs.foldl normalStep stack) := by
  induction cs generalizing stack with
  | nil => exact h
  | cons c cs ih =>
    exact ih (h.step (inside c List.mem_cons_self)) fun d member => inside d (List.mem_cons_of_mem _ member)

theorem shape (h : Straight stack) : Resolved stack ∨ ∃ (ups : Nat) (names : List String),
    (∀ n ∈ names, Nameable n.toList) ∧ stack = (List.replicate ups Component.up ++ names.map Component.name).reverse := by
  induction h with
  | nil => exact .inr ⟨0, [], nofun, rfl⟩
  | root => exact .inl ⟨[], nofun, rfl⟩
  | @up stack _ ups =>
    refine .inr ⟨stack.length + 1, [], nofun, ?_⟩
    rw [List.map_nil, List.append_nil, List.reverse_replicate, List.replicate_succ, ← List.eq_replicate_of_mem ups]
  | name isName _ ih =>
    rcases ih with ⟨names, nameable, rfl⟩ | ⟨ups, names, nameable, rfl⟩
    · exact .inl ⟨names ++ [_], List.forall_mem_append.mpr ⟨nameable, List.forall_mem_singleton.mpr isName⟩, by simp⟩
    · exact .inr ⟨ups, names ++ [_], List.forall_mem_append.mpr ⟨nameable, List.forall_mem_singleton.mpr isName⟩, by simp⟩

end Straight

theorem root_mem_steps (inside : ∀ c ∈ cs, Inner c) : .root ∈ cs.foldl normalStep stack ↔ .root ∈ stack := by
  induction cs generalizing stack with
  | nil => rfl
  | cons c cs ih =>
    rw [List.foldl_cons, ih fun d member => inside d (List.mem_cons_of_mem _ member)]
    cases inside c List.mem_cons_self with
    | name => simp [normalStep]
    | up => unfold normalStep; split <;> simp

/-- What is left of a path when its dots are resolved, last component first. -/
def resolve (p : Path) : List Component := p.components.foldl normalStep []

theorem normalize_eq (p : Path) : p.normalize = ofComponents p.resolve.reverse := rfl

theorem components_begin (p : Path) : ∃ front cs, p.components = front ++ cs ∧ (∀ c ∈ cs, Inner c) ∧
    (p.isAbsolute = true ∧ front = [.root] ∨ p.isAbsolute = false ∧ (front = [] ∨ front = [.here])) := by
  cases absolute : p.isAbsolute with
  | true =>
    obtain ⟨cs, -, whole⟩ := components_absolute absolute
    exact ⟨[.root], inner cs, whole, fun _ => mem_inner, .inl ⟨rfl, rfl⟩⟩
  | false =>
    rcases components_of_relative absolute with whole | whole
    · exact ⟨[], _, whole, fun _ => mem_inner, .inr ⟨rfl, .inl rfl⟩⟩
    · exact ⟨[.here], _, whole, fun _ => mem_inner, .inr ⟨rfl, .inr rfl⟩⟩

theorem resolve_begin (p : Path) : ∃ start cs : List Component, p.resolve = cs.foldl normalStep start ∧
    (∀ c ∈ cs, Inner c) ∧ (p.isAbsolute = true ∧ start = [.root] ∨ p.isAbsolute = false ∧ start = []) := by
  obtain ⟨front, cs, whole, inside, ⟨absolute, rfl⟩ | ⟨relative, front⟩⟩ := components_begin p
  · exact ⟨[.root], cs, by rw [resolve, whole]; rfl, inside, .inl ⟨absolute, rfl⟩⟩
  · exact ⟨[], cs, by rcases front with rfl | rfl <;> (rw [resolve, whole]; rfl), inside, .inr ⟨relative, rfl⟩⟩

theorem straight_resolve (p : Path) : Straight p.resolve := by
  obtain ⟨start, cs, left, inside, ⟨-, rfl⟩ | ⟨-, rfl⟩⟩ := resolve_begin p
  · exact left ▸ Straight.root.steps inside
  · exact left ▸ Straight.nil.steps inside

theorem root_mem_resolve (p : Path) : .root ∈ p.resolve ↔ p.isAbsolute = true := by
  obtain ⟨start, cs, left, inside, ⟨absolute, rfl⟩ | ⟨relative, rfl⟩⟩ := resolve_begin p
  · simp [left, root_mem_steps inside, absolute]
  · simp [left, root_mem_steps inside, relative]

/-- Resolving the dots of an absolute path leaves names below the root. -/
theorem normalize_rooted (absolute : p.isAbsolute = true) :
    ∃ names : List String, (∀ n ∈ names, Nameable n.toList) ∧ p.normalize = rooted names := by
  have root := (root_mem_resolve p).mpr absolute
  rcases (straight_resolve p).shape with ⟨names, nameable, left⟩ | ⟨ups, names, -, left⟩
  · exact ⟨names, nameable, by rw [normalize_eq, left, List.reverse_reverse]; rfl⟩
  · simp [left] at root

theorem rooted_of_normal (absolute : p.isAbsolute = true) (normal : p.normalize = p) :
    ∃ names : List String, (∀ n ∈ names, Nameable n.toList) ∧ p = rooted names := by
  obtain ⟨names, nameable, same⟩ := normalize_rooted absolute
  exact ⟨names, nameable, normal.symm.trans same⟩

theorem intercalate_prefix (names more : List String) :
    ("/".intercalate names).toList <+: ("/".intercalate (names ++ more)).toList := by
  induction names with
  | nil => simp
  | cons first rest ih =>
    cases rest with
    | nil =>
      cases more with
      | nil => simp
      | cons second more => simp [String.intercalate_cons_cons, List.prefix_append]
    | cons second rest =>
      rw [List.cons_append] at ih
      simpa [String.intercalate_cons_cons, List.prefix_append_right_inj] using ih

/-- Of two normal paths one below the other, the lower one has the longer text. -/
theorem rooted_prefix (names more : List String) : (rooted names).text.toList <+: (rooted (names ++ more)).text.toList := by
  rw [rooted_text, rooted_text, List.cons_prefix_cons]
  exact ⟨rfl, intercalate_prefix names more⟩

end SvelteLens.Path
