import SvelteLens.FileTree
import SvelteLens.Proofs.Path.Descent

/-! What a tree of files tells of a path, and which files it has below a directory. -/
namespace SvelteLens

open SvelteLens.Path (Respelled lastWord)

/-- Whether something is a file does not hang on how its directory is spelled. -/
def Path.Unspelled (isFile : Path → Bool) : Prop :=
  ∀ (d e : Path) (name : String), d.same e = true → isFile (d.join ⟨name⟩) = isFile (e.join ⟨name⟩)

theorem Path.Respelled.lastWord_eq {p q : Path} (h : Respelled p q) : lastWord p.text.toList = lastWord q.text.toList := by
  obtain ⟨a, b, rest, -, left, right⟩ := h
  have ends (base : Path) : lastWord (base.lead ++ rest) = lastWord rest :=
    ((Path.endsIn_lastWord rest).append base.lead_separated).lastWord_eq (Path.lastWord_whole rest)
  rw [left, right, ends, ends]

namespace FileTree

variable {p q : Path}

theorem locate?_congr (t : FileTree) (same : p.same q = true) : t.locate? p = t.locate? q := by
  rw [locate?, locate?, Path.isAbsolute_congr same, Path.same_iff.mp same]

theorem isFile_respelled (t : FileTree) (respelled : Respelled p q) : t.isFile p = t.isFile q := by
  have last : lastPart p = lastPart q := respelled.lastWord_eq
  rw [isFile, isFile, file?, file?, last, t.locate?_congr respelled.same]

theorem unspelled (t : FileTree) : Path.Unspelled t.isFile :=
  fun _ _ name same => t.isFile_respelled (Path.join_respelled same ⟨name⟩)

def Named (t : FileTree) : Prop := ∀ entry ∈ t.files, ∀ n ∈ entry.1, Path.Nameable n.toList

instance (t : FileTree) : Decidable t.Named :=
  inferInstanceAs (Decidable (∀ entry ∈ t.files, ∀ n ∈ entry.1, Path.Nameable n.toList))

section Places

variable {t : FileTree} {root : Path} {place names file : List String}

/-- Where one component leads from a place, given as its names in reverse. -/
def stepped (place : List String) : Component → List String
  | .root => []
  | .here => place
  | .up => place.tail
  | .name n => n :: place

theorem follow?_cons (t : FileTree) (place : List String) (c : Component) (cs : List Component) :
    t.follow? place (c :: cs) = if t.isDirectory place.reverse then t.follow? (stepped place c) cs else none := by
  cases c <;> rfl

theorem follow?_append (place : List String) (cs ds : List Component) :
    t.follow? place (cs ++ ds) = (t.follow? place cs).bind fun found => t.follow? found.reverse ds := by
  induction cs generalizing place with
  | nil => simp [follow?]
  | cons c cs ih =>
    rw [List.cons_append, follow?_cons, follow?_cons]
    split
    · exact ih _
    · rfl

theorem follow?_names (found : t.follow? place (names.map .name) = some file) : file = place.reverse ++ names := by
  induction names generalizing place with
  | nil => simpa [follow?, eq_comm] using found
  | cons n names ih =>
    rw [List.map_cons, follow?_cons] at found
    split at found
    · simpa [stepped] using ih found
    · cases found

theorem follow?_file (listed : place.reverse ++ names ∈ t.files.map Prod.fst) :
    t.follow? place (names.map .name) = some (place.reverse ++ names) := by
  induction names generalizing place with
  | nil => simp [follow?]
  | cons n names ih =>
    obtain ⟨⟨file, content⟩, member, same⟩ := List.mem_map.mp listed
    have leads : t.isDirectory place.reverse = true := by
      unfold isDirectory
      rw [Bool.or_eq_true]
      refine .inr (List.any_eq_true.mpr ⟨⟨file, content⟩, member, ?_⟩)
      have same : file = place.reverse ++ n :: names := same
      simp [same]
    rw [List.map_cons, follow?_cons, if_pos leads]
    have deeper : t.follow? (n :: place) (names.map .name) = some ((n :: place).reverse ++ names) :=
      ih (by simpa using listed)
    simpa [stepped] using deeper

theorem Named.below (named : t.Named) (listed : place ++ names ∈ t.files.map Prod.fst) :
    ∀ n ∈ names, Path.Nameable n.toList := by
  intro n member
  obtain ⟨entry, inside, same⟩ := List.mem_map.mp listed
  exact named entry inside n (same ▸ List.mem_append_right place member)

theorem absolute_of_locate? (here : t.locate? root = some place) : root.isAbsolute = true := by
  unfold locate? at here
  split at here
  · assumption
  · cases here

theorem filled_of_locate? (here : t.locate? root = some place) : root.text ≠ "" := by
  have absolute := absolute_of_locate? here
  intro empty
  simp [Path.isAbsolute, empty] at absolute

theorem locate?_rooted (nameable : ∀ n ∈ names, Path.Nameable n.toList) (found : t.locate? (Path.rooted names) = some file) :
    file = names := by
  rw [locate?, if_pos (absolute_of_locate? found), Path.rooted_components nameable, follow?_cons] at found
  split at found
  · exact follow?_names found
  · cases found

/-- A file below a directory lies where the directory lies and its own names lead. -/
theorem locate?_descend (nameable : ∀ n ∈ names, Path.Nameable n.toList) (here : t.locate? root = some place)
    (listed : place ++ names ∈ t.files.map Prod.fst) : t.locate? (root.descend names) = some (place ++ names) := by
  have absolute := absolute_of_locate? here
  have whole := Path.descend_components nameable (filled_of_locate? here)
  have below : (root.descend names).isAbsolute = true := by
    rw [Path.isAbsolute_iff, whole]
    exact List.mem_append_left _ (Path.isAbsolute_iff.mp absolute)
  rw [locate?, if_pos absolute] at here
  rw [locate?, if_pos below, whole, follow?_append, here, Option.bind_some, follow?_file]
  · rw [List.reverse_reverse]
  · rwa [List.reverse_reverse]

/-- A directory and what is below it are not hidden. -/
structure Shown (root : Path) (names : List String) : Prop where
  root : root.fileName? ≠ some hiddenName
  names : hiddenName ∉ names

theorem mem_walk (here : t.locate? root = some place) :
    names ∈ t.walk root ↔ names ≠ [] ∧ place ++ names ∈ t.files.map Prod.fst := by
  rw [walk, here]
  simp only [List.mem_filterMap, List.mem_map]
  constructor
  · rintro ⟨⟨file, content⟩, member, kept⟩
    split at kept
    · next tests =>
      rw [Bool.and_eq_true, bne_iff_ne] at tests
      obtain ⟨leads, inside⟩ := tests
      obtain ⟨rest, rfl⟩ := List.isPrefixOf_iff_prefix.mp leads
      rw [List.drop_left, Option.some.injEq] at kept
      subst kept
      exact ⟨by simpa using inside, _, member, rfl⟩
    · cases kept
  · rintro ⟨inside, ⟨file, content⟩, member, same⟩
    obtain rfl : file = place ++ names := same
    exact ⟨_, member, by simp [inside]⟩

theorem mem_unhidden {visited : List (List String)} {p : Path} :
    p ∈ unhidden root visited ↔ ∃ names ∈ visited, Shown root names ∧ p = root.descend names := by
  unfold unhidden
  split
  · next hidden =>
    refine iff_of_false List.not_mem_nil ?_
    rintro ⟨names, -, shown, -⟩
    exact shown.root hidden
  · next shown =>
    simp only [List.mem_map, List.mem_filter, Bool.not_eq_true', List.contains_eq_mem, decide_eq_false_iff_not]
    constructor
    · rintro ⟨names, ⟨member, unhidden⟩, rfl⟩
      exact ⟨names, member, ⟨shown, unhidden⟩, rfl⟩
    · rintro ⟨names, member, unhidden, rfl⟩
      exact ⟨names, ⟨member, unhidden.names⟩, rfl⟩

end Places

end FileTree
end SvelteLens
