import Mathlib.Data.List.Forall2
import SvelteLens.Path.Table
import SvelteLens.Proofs.Path.Spelling

/-! The components of paths that are put together or cut. Behind a separator the components of a
text do not depend on what stands before it, so the components of a join are those of the base and
those of the rest; and the directories above a path have its leading components. Two spellings of a
path are therefore alike in everything that is made of them. -/
namespace SvelteLens.Path

theorem parts_append (index start : Nat) (part before after : List Char) :
    parts index start part (before ++ '/' :: after) =
      parts index start part before ++ parts (index + before.length + 1) (index + before.length + 1) [] after := by
  induction before generalizing index start part with
  | nil => simp [parts]
  | cons c before ih =>
    have length : index + (c :: before).length + 1 = index + 1 + before.length + 1 := by
      rw [List.length_cons]
      omega
    rw [List.cons_append, parts, parts, length]
    split
    · rw [ih, List.cons_append]
    · exact ih ..

theorem parts_whole {word : List Char} (whole : '/' ∉ word) (index start : Nat) (part : List Char) :
    parts index start part word = [(start, part.reverse ++ word)] := by
  induction word generalizing index part with
  | nil => simp [parts]
  | cons c word ih =>
    have other : c ≠ '/' := fun same => whole (same ▸ List.mem_cons_self)
    rw [parts, if_neg other, ih fun member => whole (List.mem_cons_of_mem c member)]
    simp

/-- The texts between separators. The first of them begins with what was read of it, last character
first. -/
def words (part cs : List Char) : List (List Char) := (parts 0 0 part cs).map Prod.snd

theorem words_eq (index start : Nat) (part cs : List Char) : (parts index start part cs).map Prod.snd = words part cs := by
  have indices (index start index' start' : Nat) :
      (parts index start part cs).map Prod.snd = (parts index' start' part cs).map Prod.snd := by
    induction cs generalizing index start index' start' part with
    | nil => rfl
    | cons c cs ih =>
      unfold parts
      split
      · rw [List.map_cons, List.map_cons, ih _ _ _ (index' + 1) (index' + 1)]
      · exact ih ..
  exact indices ..

@[simp] theorem words_nil (part : List Char) : words part [] = [part.reverse] := rfl

theorem words_cons (part : List Char) (c : Char) (cs : List Char) :
    words part (c :: cs) = if c = '/' then part.reverse :: words [] cs else words (c :: part) cs := by
  rw [words, parts]
  split
  · rw [List.map_cons, words_eq]
  · rw [words_eq]

theorem words_append (part before after : List Char) :
    words part (before ++ '/' :: after) = words part before ++ words [] after := by
  rw [words, parts_append, List.map_append, words_eq, words_eq]

theorem words_whole {word : List Char} (whole : '/' ∉ word) (part : List Char) :
    words part word = [part.reverse ++ word] := by
  rw [words, parts_whole whole, List.map_singleton]

theorem words_first (part cs : List Char) : ∃ more rest, words part cs = (part.reverse ++ more) :: rest := by
  induction cs generalizing part with
  | nil => exact ⟨[], [], by simp⟩
  | cons c cs ih =>
    rw [words_cons]
    split
    · exact ⟨[], words [] cs, by simp⟩
    · obtain ⟨more, rest, whole⟩ := ih (c :: part)
      exact ⟨c :: more, rest, by simpa using whole⟩

/-- The component that a text between separators stands for, anywhere but at the front. -/
def ofWord? : List Char → Option Component
  | [] => none
  | ['.'] => none
  | ['.', '.'] => some .up
  | word => some (.name (String.ofList word))

/-- At the very front of a relative path, a dot counts. -/
def ofFront? (word : List Char) : Option Component := if word = ['.'] then some .here else ofWord? word

/-- The components of a relative path by its texts between separators. -/
def ofWords : List (List Char) → List Component
  | [] => []
  | word :: rest => (ofFront? word).toList ++ rest.filterMap ofWord?

def inner (cs : List Char) : List Component := (words [] cs).filterMap ofWord?

theorem readPart_component (start : Nat) (word : List Char) :
    (readPart (start, word)).map (·.component) = if start = 0 then ofFront? word else ofWord? word := by
  unfold readPart ofFront? ofWord?
  split <;> simp_all

theorem parts_components (index start : Nat) (part cs : List Char) :
    ((parts index start part cs).filterMap readPart).map (·.component) =
      if start = 0 then ofWords (words part cs) else (words part cs).filterMap ofWord? := by
  have first (start : Nat) (word : List Char) (found : List (Nat × List Char)) (rest : List (List Char))
      (read : (found.filterMap readPart).map (·.component) = rest.filterMap ofWord?) :
      (((start, word) :: found).filterMap readPart).map (·.component) =
        if start = 0 then ofWords (word :: rest) else (word :: rest).filterMap ofWord? := by
    have split : (((start, word) :: found).filterMap readPart).map (·.component) =
        ((readPart (start, word)).map (·.component)).toList ++ rest.filterMap ofWord? := by
      rw [← read, List.filterMap_cons]
      cases readPart (start, word) <;> rfl
    rw [split, readPart_component]
    by_cases front : start = 0
    · rw [if_pos front, if_pos front, ofWords]
    · rw [if_neg front, if_neg front, List.filterMap_cons]
      cases ofWord? word <;> rfl
  induction cs generalizing index start part with
  | nil => exact first start part.reverse [] [] rfl
  | cons c cs ih =>
    rw [parts, words_cons]
    split
    · exact first start _ _ _ (ih (index + 1) (index + 1) [])
    · exact ih (index + 1) start (c :: part)

theorem located_root (cs : List Char) :
    located ⟨String.ofList ('/' :: cs)⟩ = ⟨.root, 0, 1⟩ :: (parts 1 1 [] cs).filterMap readPart := by
  simp only [located, String.toList_ofList]

theorem located_relative {cs : List Char} (relative : cs.head? ≠ some '/') :
    located ⟨String.ofList cs⟩ = (parts 0 0 [] cs).filterMap readPart := by
  unfold located
  rw [String.toList_ofList]
  split
  · exact absurd rfl relative
  · rfl

theorem components_root (cs : List Char) : components ⟨String.ofList ('/' :: cs)⟩ = .root :: inner cs := by
  rw [components, located_root, List.map_cons, parts_components]
  rfl

theorem components_relative {cs : List Char} (relative : cs.head? ≠ some '/') :
    components ⟨String.ofList cs⟩ = ofWords (words [] cs) := by
  rw [components, located_relative relative, parts_components]
  rfl

/-- A separator that has something before it ends the components of what stands before it. -/
theorem located_append {before : List Char} (filled : before ≠ []) (after : List Char) :
    located ⟨String.ofList (before ++ '/' :: after)⟩ = located ⟨String.ofList before⟩ ++
      (parts (before.length + 1) (before.length + 1) [] after).filterMap readPart := by
  cases before with
  | nil => exact absurd rfl filled
  | cons c before =>
    by_cases root : c = '/'
    · subst root
      rw [List.cons_append, located_root, located_root, parts_append, List.filterMap_append, List.length_cons,
        Nat.add_comm 1, List.cons_append]
    · have relative (cs : List Char) : (c :: cs).head? ≠ some '/' := by simpa using root
      rw [List.cons_append, located_relative (relative _), located_relative (relative _), ← List.cons_append,
        parts_append, List.filterMap_append, Nat.zero_add]

theorem components_append {before : List Char} (filled : before ≠ []) (after : List Char) :
    components ⟨String.ofList (before ++ '/' :: after)⟩ = components ⟨String.ofList before⟩ ++ inner after := by
  rw [components, located_append filled, List.map_append, parts_components, if_neg (Nat.succ_ne_zero _)]
  rfl

def lead (base : Path) : List Char :=
  match base.text.toList.getLast? with
  | none => []
  | some '/' => base.text.toList
  | some _ => base.text.toList ++ ['/']

theorem lead_cases (base : Path) :
    (base.text = "" ∧ base.lead = []) ∨
      (∃ before, base.text.toList = before ++ ['/'] ∧ base.lead = before ++ ['/']) ∨
      (base.text ≠ "" ∧ base.text.toList.getLast? ≠ some '/' ∧ base.lead = base.text.toList ++ ['/']) := by
  cases last : base.text.toList.getLast? with
  | none =>
    have empty : base.text = "" := by simpa using List.getLast?_eq_none_iff.mp last
    exact .inl ⟨empty, by simp [lead, empty]⟩
  | some c =>
    by_cases separator : c = '/'
    · subst separator
      obtain ⟨before, whole⟩ := List.getLast?_eq_some_iff.mp last
      refine .inr (.inl ⟨before, whole, ?_⟩)
      rw [← whole]
      simp only [lead, last]
    · refine .inr (.inr ⟨?_, by simpa using separator, by simp [lead, last]⟩)
      rintro empty
      simp [empty] at last

theorem lead_separated (base : Path) : base.lead = [] ∨ ∃ before, base.lead = before ++ ['/'] := by
  rcases base.lead_cases with ⟨-, lead⟩ | ⟨before, -, lead⟩ | ⟨-, -, lead⟩
  · exact .inl lead
  · exact .inr ⟨before, lead⟩
  · exact .inr ⟨_, lead⟩

theorem lead_empty {base : Path} (empty : base.text = "") : base.lead = [] := by simp [lead, empty]

theorem join_eq (base p : Path) :
    base.join p = if p.isAbsolute then p else ⟨String.ofList (base.lead ++ p.text.toList)⟩ := by
  unfold join
  split
  · rfl
  · cases last : base.text.toList.getLast? with
    | none => simp [lead, last]
    | some c =>
      by_cases separator : c = '/'
      · subst separator
        simp [lead, last]
      · simp [lead, last, String.append_assoc]

/-- What stands behind a base is read after the base, from where it stands. -/
theorem located_lead {base : Path} (filled : base.text ≠ "") (cs : List Char) :
    located ⟨String.ofList (base.lead ++ cs)⟩ =
      base.located ++ (parts base.lead.length base.lead.length [] cs).filterMap readPart := by
  have spelled : base = ⟨String.ofList base.text.toList⟩ := by simp
  rcases base.lead_cases with ⟨empty, -⟩ | ⟨before, whole, lead⟩ | ⟨-, -, lead⟩
  · exact absurd empty filled
  · -- the base ends in a separator, behind which it has no component
    have own : base.located = located ⟨String.ofList (before ++ '/' :: [])⟩ := by rw [← whole, ← spelled]
    rw [lead, own, List.append_assoc, List.singleton_append, List.length_append, List.length_singleton]
    cases before with
    | nil => rw [List.nil_append, List.nil_append, located_root, located_root]; rfl
    | cons c before =>
      rw [located_append (List.cons_ne_nil c before), located_append (List.cons_ne_nil c before)]
      simp [parts, readPart]
  · have filled : base.text.toList ≠ [] := by simpa using filled
    rw [lead, List.append_assoc, List.singleton_append, located_append filled, ← spelled, List.length_append,
      List.length_singleton]

theorem components_lead {base : Path} (filled : base.text ≠ "") (cs : List Char) :
    components ⟨String.ofList (base.lead ++ cs)⟩ = base.components ++ inner cs := by
  have behind : base.lead.length ≠ 0 := by
    rcases base.lead_cases with ⟨empty, -⟩ | ⟨before, -, lead⟩ | ⟨-, -, lead⟩
    · exact absurd empty filled
    · simp [lead]
    · simp [lead]
  rw [components, located_lead filled, List.map_append, parts_components, if_neg behind]
  rfl

theorem components_eq_nil {p : Path} : p.components = [] ↔ p.text = "" := by
  constructor
  · intro none
    have spelled : p = ⟨String.ofList p.text.toList⟩ := by simp
    cases whole : p.text.toList with
    | nil => simpa using whole
    | cons c cs =>
      rw [spelled, whole] at none
      by_cases root : c = '/'
      · subst root
        rw [components_root] at none
        cases none
      · have relative : (c :: cs).head? ≠ some '/' := by simpa using root
        obtain ⟨more, rest, first⟩ := words_first [c] cs
        rw [components_relative relative, words_cons, if_neg root, first] at none
        have front : ofFront? (c :: more) = Option.none := by
          simpa [ofWords] using (List.append_eq_nil_iff.mp none).1
        unfold ofFront? ofWord? at front
        split at front
        · cases front
        · split at front <;> simp_all
  · intro empty
    have spelled : p = ⟨""⟩ := congrArg Path.mk empty
    rw [spelled]
    rfl

/-- Two paths that differ at most in how one directory at their front is spelled. -/
def Respelled (p q : Path) : Prop :=
  ∃ (a b : Path) (rest : List Char), a.same b = true ∧ p.text.toList = a.lead ++ rest ∧ q.text.toList = b.lead ++ rest

theorem empty_congr {a b : Path} (same : a.same b = true) : a.text = "" ↔ b.text = "" := by
  rw [← components_eq_nil, ← components_eq_nil, same_iff.mp same]

theorem Respelled.refl (p : Path) : Respelled p p := ⟨⟨""⟩, ⟨""⟩, p.text.toList, rfl, rfl, rfl⟩

theorem Respelled.same {p q : Path} (respelled : Respelled p q) : p.same q = true := by
  obtain ⟨a, b, rest, same, left, right⟩ := respelled
  have left : p = ⟨String.ofList (a.lead ++ rest)⟩ := by rw [← left]; simp
  have right : q = ⟨String.ofList (b.lead ++ rest)⟩ := by rw [← right]; simp
  rw [same_iff, left, right]
  by_cases filled : a.text = ""
  · rw [lead_empty filled, lead_empty ((empty_congr same).mp filled)]
  · rw [components_lead filled, components_lead (mt (empty_congr same).mpr filled), same_iff.mp same]

theorem Respelled.append {p q : Path} (respelled : Respelled p q) (more : String) :
    Respelled ⟨p.text ++ more⟩ ⟨q.text ++ more⟩ := by
  obtain ⟨a, b, rest, same, left, right⟩ := respelled
  exact ⟨a, b, rest ++ more.toList, same, by simp [left], by simp [right]⟩

/-- What is put under two spellings of a directory differs only in how the directory is spelled. -/
theorem join_respelled {a b : Path} (same : a.same b = true) (p : Path) : Respelled (a.join p) (b.join p) := by
  rw [join_eq, join_eq]
  split
  · exact .refl p
  · exact ⟨a, b, p.text.toList, same, by simp, by simp⟩

theorem join_congr {a b : Path} (same : a.same b = true) (p : Path) : (a.join p).same (b.join p) = true :=
  (join_respelled same p).same

theorem Respelled.join {p q : Path} (respelled : Respelled p q) (r : Path) : Respelled (p.join r) (q.join r) :=
  join_respelled respelled.same r

theorem normalize_congr {p q : Path} (same : p.same q = true) : p.normalize = q.normalize := by
  rw [normalize, normalize, same_iff.mp same]

theorem fileName?_congr {p q : Path} (same : p.same q = true) : p.fileName? = q.fileName? := by
  rw [fileName?, fileName?, same_iff.mp same]

theorem extension?_congr {p q : Path} (same : p.same q = true) : p.extension? = q.extension? := by
  rw [extension?, extension?, fileName?_congr same]

/-- The parts of a text up to a given one are those of the text that ends with it. -/
theorem parts_cut {text : List Char} (rest : List Char) :
    ∀ (before part : List Char) (n : Nat) (found : Nat × List Char), text = before ++ part.reverse ++ rest →
      (parts (before.length + part.length) before.length part rest)[n]? = some found →
      ∃ kept, text.take (found.1 + found.2.length) = before ++ part.reverse ++ kept ∧
        parts (before.length + part.length) before.length part kept =
          (parts (before.length + part.length) before.length part rest).take (n + 1) := by
  have first (before part rest : List Char) :
      (before ++ part.reverse ++ rest).take (before.length + part.reverse.length) = before ++ part.reverse ++ [] := by
    rw [← List.length_append, List.take_left, List.append_nil]
  induction rest with
  | nil =>
    intro before part n found whole at'
    cases n with
    | zero =>
      cases at'
      exact ⟨[], whole ▸ first before part [], rfl⟩
    | succ n => simp [parts] at at'
  | cons c rest ih =>
    intro before part n found whole at'
    by_cases separator : c = '/'
    · subst separator
      rw [parts, if_pos rfl] at at' ⊢
      cases n with
      | zero =>
        cases at'
        exact ⟨[], whole ▸ first before part ('/' :: rest), rfl⟩
      | succ n =>
        have later := ih (before ++ part.reverse ++ ['/']) [] n found (by simp [whole])
        simp only [List.length_append, List.length_reverse, List.length_cons, List.length_nil, Nat.add_zero,
          Nat.zero_add] at later
        obtain ⟨kept, cut, same⟩ := later at'
        refine ⟨'/' :: kept, by simp [cut], ?_⟩
        rw [parts, if_pos rfl, same, List.take_succ_cons]
    · rw [parts, if_neg separator] at at' ⊢
      obtain ⟨kept, cut, same⟩ := ih before (c :: part) n found (by simp [whole]) at'
      refine ⟨c :: kept, by simp [cut], ?_⟩
      rw [parts, if_neg separator]
      exact same

theorem readParts_cut (before : List Char) {text rest : List Char} {kept more : List Component.Located} {l : Component.Located}
    (whole : text = before ++ rest)
    (read : (parts before.length before.length [] rest).filterMap readPart = kept ++ l :: more) :
    ∃ short, text.take l.stop = before ++ short ∧
      (parts before.length before.length [] short).filterMap readPart = kept ++ [l] := by
  obtain ⟨first, last, split, early, late⟩ := List.filterMap_eq_append_iff.mp read
  obtain ⟨blank, ⟨start, word⟩, others, tail, nothing, found, -⟩ := List.filterMap_eq_cons_iff.mp late
  obtain ⟨rfl, stop, -⟩ := readPart_laid found
  have at' : (parts before.length before.length [] rest)[first.length + blank.length]? = some (l.start, word) := by
    rw [split, tail, ← List.append_assoc, List.getElem?_append_right (by simp)]
    simp
  have split' : text = before ++ [].reverse ++ rest := by simp [whole]
  obtain ⟨short, cut, same⟩ := parts_cut rest before [] _ _ split' at'
  refine ⟨short, by rw [stop]; simpa using cut, ?_⟩
  have taken : (parts before.length before.length [] rest).take (first.length + blank.length + 1) =
      first ++ (blank ++ [(l.start, word)]) := by
    have length : first.length + blank.length + 1 = (first ++ (blank ++ [(l.start, word)])).length := by
      simp only [List.length_append, List.length_singleton, Nat.add_assoc]
    have behind : first ++ (blank ++ (l.start, word) :: others) = first ++ (blank ++ [(l.start, word)]) ++ others := by simp
    rw [split, tail, behind, length, List.take_left]
  have same : parts before.length before.length [] short = first ++ (blank ++ [(l.start, word)]) := same.trans taken
  rw [same, List.filterMap_append, List.filterMap_append, early, List.filterMap_eq_nil_iff.mpr nothing]
  simp [found]

/-- A path that is cut behind one of its components has the components up to that one. -/
theorem located_upTo {p : Path} {kept more : List Component.Located} (split : p.located = kept ++ more) :
    (p.upTo kept).located = kept := by
  cases last : kept.getLast? with
  | none =>
    have empty := List.getLast?_eq_none_iff.mp last
    subst empty
    rfl
  | some l =>
    obtain ⟨front, rfl⟩ := List.getLast?_eq_some_iff.mp last
    have text : (p.upTo (front ++ [l])).text.toList = p.text.toList.take l.stop := by
      simp [upTo, cut]
    rw [List.append_assoc, List.singleton_append] at split
    unfold located at split
    split at split
    · next cs whole =>
      cases front with
      | nil =>
        cases split
        simp only [located, text, whole]
        rfl
      | cons root front =>
        obtain ⟨rfl, read⟩ := List.cons_eq_cons.mp split
        obtain ⟨short, cut, same⟩ := readParts_cut ['/'] whole read
        rw [cut] at text
        simp only [located, text, List.singleton_append]
        exact congrArg _ same
    · next relative =>
      have whole : p.text.toList = [] ++ p.text.toList := rfl
      obtain ⟨short, cut, same⟩ := readParts_cut [] whole split
      have cut : p.text.toList.take l.stop = short := cut
      unfold located
      rw [text, cut]
      split
      · next cs =>
        have whole := List.take_append_drop l.stop p.text.toList
        rw [cut] at whole
        exact absurd whole.symm (relative _)
      · exact same

/-- The leading parts of a list of components, longest first, as `leading` gives them. -/
def leadingComponents (cs : List Component) : List (List Component) :=
  ((List.range cs.length).map cs.take).reverse.filter fun kept => !(kept.isEmpty && cs.head? == some .root)

theorem leading_components (ls : List Component.Located) :
    (leading ls).map (List.map (·.component)) = leadingComponents (ls.map (·.component)) := by
  have takes : (List.range (ls.map (·.component)).length).map (ls.map (·.component)).take =
      ((List.range ls.length).map ls.take).map (List.map (·.component)) := by
    rw [List.map_map, List.length_map]
    exact List.map_congr_left fun n _ => List.map_take.symm
  have root : ((ls.map (·.component)).head? == some .root) = ls.head?.any (·.component == .root) := by
    cases ls <;> simp
  rw [leadingComponents, takes, ← List.map_reverse, List.filter_map, leading]
  congr 1
  refine List.filter_congr fun kept _ => ?_
  rw [Function.comp_apply, root, List.isEmpty_map]

theorem parents_components (p : Path) : p.parents.map components = leadingComponents p.components := by
  rw [parents, List.map_map, components, ← leading_components]
  refine List.map_congr_left fun kept member => ?_
  obtain ⟨n, -, rfl⟩ : ∃ n < p.located.length, p.located.take n = kept := by
    simpa using (List.mem_filter.mp member).1
  have split : p.located = p.located.take n ++ p.located.drop n := (List.take_append_drop n _).symm
  rw [Function.comp_apply, components, located_upTo split]

theorem parents_congr {p q : Path} (same : p.same q = true) : List.Forall₂ (·.same · = true) p.parents q.parents := by
  have components : p.parents.map components = q.parents.map components := by
    rw [parents_components, parents_components, same_iff.mp same]
  rw [← List.forall₂_eq_eq_eq, List.forall₂_map_left_iff, List.forall₂_map_right_iff] at components
  exact components.imp fun _ _ alike => same_iff.mpr alike

theorem ancestors_congr {p q : Path} (same : p.same q = true) : List.Forall₂ (·.same · = true) p.ancestors q.ancestors :=
  .cons same (parents_congr same)

end SvelteLens.Path
