import Mathlib.Data.List.TakeWhile
import SvelteLens.Proofs.Path.Joining

/-! The name that a text ends with. What stands behind the last separator of a text is the file name
of the path, under whatever base the text is put and whatever dots are resolved before it. -/
namespace SvelteLens.Path

/-- A text behind which a word begins: there is nothing, or a separator at its end. -/
def Separates (front : List Char) : Prop := front = [] ∨ ∃ before, front = before ++ ['/']

def EndsIn (text word : List Char) : Prop := ∃ front, text = front ++ word ∧ Separates front

def lastWord (text : List Char) : List Char := (text.reverse.takeWhile (· ≠ '/')).reverse

/-- A word that is a name, wherever it stands in a path. -/
structure Nameable (word : List Char) : Prop where
  filled : word ≠ []
  whole : '/' ∉ word
  notHere : word ≠ ['.']
  notUp : word ≠ ['.', '.']

variable {text word : List Char} {p : Path}

theorem EndsIn.append {front : List Char} (ends : EndsIn text word) (edge : Separates front) :
    EndsIn (front ++ text) word := by
  obtain ⟨inner, rfl, rfl | ⟨before, rfl⟩⟩ := ends
  · exact ⟨front, by simp, edge⟩
  · exact ⟨front ++ (before ++ ['/']), by simp, .inr ⟨front ++ before, by simp⟩⟩

theorem lastWord_whole (text : List Char) : '/' ∉ lastWord text := by
  intro member
  simpa using List.mem_takeWhile_imp (List.mem_reverse.mp member)

theorem endsIn_lastWord (text : List Char) : EndsIn text (lastWord text) := by
  have whole := List.takeWhile_append_dropWhile (p := (· ≠ '/')) (l := text.reverse)
  refine ⟨(text.reverse.dropWhile (· ≠ '/')).reverse, ?_, ?_⟩
  · rw [lastWord, ← List.reverse_append, whole, List.reverse_reverse]
  · cases rest : text.reverse.dropWhile (· ≠ '/') with
    | nil => exact .inl rfl
    | cons c rest' =>
      have separator : c = '/' := by
        have head := List.head?_dropWhile_not (· ≠ '/') text.reverse
        rw [rest] at head
        simpa using head
      exact .inr ⟨rest'.reverse, by simp [separator]⟩

theorem EndsIn.lastWord_eq (ends : EndsIn text word) (whole : '/' ∉ word) : lastWord text = word := by
  have all : ∀ c ∈ word.reverse, (decide (c ≠ '/')) = true := by
    intro c member
    simpa using fun same : c = '/' => whole (same ▸ List.mem_reverse.mp member)
  obtain ⟨front, rfl, rfl | ⟨before, rfl⟩⟩ := ends
  · rw [lastWord, List.nil_append, List.takeWhile_eq_self_iff.mpr all, List.reverse_reverse]
  · rw [lastWord, List.reverse_append, List.takeWhile_append_of_pos all]
    simp

theorem lastWord_append (text : List Char) {more : List Char} (whole : '/' ∉ more) :
    lastWord (text ++ more) = lastWord text ++ more := by
  obtain ⟨front, split, edge⟩ := endsIn_lastWord text
  have ends : EndsIn (text ++ more) (lastWord text ++ more) :=
    ⟨front, by rw [← List.append_assoc, ← split], edge⟩
  exact ends.lastWord_eq fun member =>
    (List.mem_append.mp member).elim (lastWord_whole text) whole

theorem Nameable.ofWord? (nameable : Nameable word) : ofWord? word = some (.name (String.ofList word)) := by
  unfold Path.ofWord?
  split
  · exact absurd rfl nameable.filled
  · exact absurd rfl nameable.notHere
  · exact absurd rfl nameable.notUp
  · rfl

theorem Nameable.inner (nameable : Nameable word) : inner word = [.name (String.ofList word)] := by
  rw [Path.inner, words_whole nameable.whole]
  simp [nameable.ofWord?]

theorem components_of_endsIn (ends : EndsIn p.text.toList word) (nameable : Nameable word) :
    ∃ front, p.components = front ++ [.name (String.ofList word)] := by
  have spelled : p = ⟨String.ofList p.text.toList⟩ := by simp
  obtain ⟨front, text, rfl | ⟨before, rfl⟩⟩ := ends
  · have relative : word.head? ≠ some '/' := fun first => nameable.whole (List.mem_of_head? first)
    rw [spelled, text, List.nil_append, components_relative relative, words_whole nameable.whole]
    refine ⟨[], ?_⟩
    simp [ofWords, ofFront?, nameable.notHere, nameable.ofWord?]
  · rw [spelled, text, List.append_assoc, List.singleton_append]
    cases before with
    | nil =>
      rw [List.nil_append, components_root, nameable.inner]
      exact ⟨[.root], rfl⟩
    | cons c before =>
      rw [components_append (List.cons_ne_nil c before), nameable.inner]
      exact ⟨_, rfl⟩

theorem fileName?_of_components {front : List Component} {name : String} (whole : p.components = front ++ [.name name]) :
    p.fileName? = some name := by
  rw [fileName?, whole, List.getLast?_concat]

theorem fileName?_of_endsIn (ends : EndsIn p.text.toList word) (nameable : Nameable word) :
    p.fileName? = some (String.ofList word) := by
  obtain ⟨front, whole⟩ := components_of_endsIn ends nameable
  exact fileName?_of_components whole

theorem endsIn_join (base : Path) (ends : EndsIn p.text.toList word) : EndsIn (base.join p).text.toList word := by
  rw [join_eq]
  split
  · exact ends
  · simpa using ends.append base.lead_separated

theorem endsIn_intercalate (texts : List String) (word : String) :
    EndsIn ("/".intercalate (texts ++ [word])).toList word.toList := by
  induction texts with
  | nil => exact ⟨[], by simp, .inl rfl⟩
  | cons first rest ih =>
    have filled : rest ++ [word] ≠ [] := by simp
    obtain ⟨second, others, split⟩ := List.exists_cons_of_ne_nil filled
    rw [List.cons_append, split, String.intercalate_cons_cons, ← split]
    have edge : Separates (first.toList ++ ['/']) := .inr ⟨_, rfl⟩
    simpa using ih.append edge

theorem endsIn_ofComponents (front : List Component) {c : Component} (below : c ≠ .root) :
    EndsIn (ofComponents (front ++ [c])).text.toList (Component.text c).toList := by
  have last (cs : List Component) :
      EndsIn ("/".intercalate ((cs ++ [c]).map Component.text)).toList (Component.text c).toList := by
    rw [List.map_append, List.map_singleton]
    exact endsIn_intercalate (cs.map Component.text) (Component.text c)
  unfold ofComponents
  split
  · next rest split =>
    cases front with
    | nil => exact absurd (List.cons_eq_cons.mp split).1 below
    | cons d front =>
      obtain ⟨-, rfl⟩ := List.cons_eq_cons.mp split
      have edge : Separates ['/'] := .inr ⟨[], rfl⟩
      simpa using (last front).append edge
  · exact last front

theorem endsIn_normalize (ends : EndsIn p.text.toList word) (nameable : Nameable word) :
    EndsIn p.normalize.text.toList word := by
  obtain ⟨front, whole⟩ := components_of_endsIn ends nameable
  have last : (p.components.foldl normalStep []).reverse =
      (front.foldl normalStep []).reverse ++ [.name (String.ofList word)] := by
    rw [whole, List.foldl_append, List.foldl_cons, List.foldl_nil]
    simp [normalStep]
  have below : Component.name (String.ofList word) ≠ .root := by simp
  rw [normalize, last]
  simpa [Component.text] using endsIn_ofComponents _ below

theorem parent?_of_located {kept : List Component.Located} {l : Component.Located} (whole : p.located = kept ++ [l])
    (below : kept ≠ [] ∨ l.component ≠ .root) : p.parent? = some (p.upTo kept) := by
  have inside : (!(kept.isEmpty && (kept ++ [l]).head?.any (·.component == .root))) = true := by
    cases kept with
    | nil => simpa using below
    | cons => rfl
  have longest : (kept ++ [l]).take kept.length = kept := List.take_left
  rw [parent?, parents, whole, leading, List.length_append, List.length_singleton, List.range_succ, List.map_append,
    List.reverse_append, List.map_singleton, List.reverse_singleton, List.singleton_append, longest, List.filter_cons,
    if_pos inside, List.map_cons, List.head?_cons]

theorem parent?_of_components {front : List Component} {c : Component} (whole : p.components = front ++ [c])
    (filled : front ≠ []) : ∃ q, p.parent? = some q ∧ q.components = front := by
  obtain ⟨kept, last, split, rfl, single⟩ := List.map_eq_append_iff.mp whole
  obtain ⟨l, rfl, -⟩ := List.map_eq_singleton_iff.mp single
  refine ⟨p.upTo kept, parent?_of_located split (.inl (by simpa using filled)), ?_⟩
  rw [components, located_upTo split]

end SvelteLens.Path
