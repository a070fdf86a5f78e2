import SvelteLens.Proofs.Path.Joining
import SvelteLens.Proofs.Service.Search
import SvelteLens.Proofs.Service.Tables

/-! What a specifier can stand for does not depend on how the importing directory is spelled. The
candidates are put under that directory or under one above it, and each of them gets its endings
behind the last separator, so two spellings of the directory lead to the same paths in the same
order. -/
namespace SvelteLens

namespace Files

theorem isFile_congr {p q : Path} (same : p.same q = true) (files : Files) : files.isFile p = files.isFile q :=
  Path.isIn_congr same _

theorem read?_congr {p q : Path} (same : p.same q = true) (files : Files) : files.read? p = files.read? q := by
  rw [read?, read?, Path.Table.get?_congr same]

end Files

theorem Service.Surroundings.manifest?_congr {p q : Path} (same : p.same q = true) (env : Surroundings) :
    env.manifest? p = env.manifest? q := by
  rw [manifest?, manifest?, Files.read?_congr same]

namespace Path

/-- An ending without separators ends a text exactly when it ends what stands under the base. -/
theorem suffix_lead {ending : List Char} (plain : '/' ∉ ending) (base : Path) (rest : List Char) :
    ending <:+ base.lead ++ rest ↔ ending <:+ rest := by
  refine ⟨fun suffix => ?_, fun suffix => suffix.trans (List.suffix_append _ _)⟩
  rcases base.lead_separated with lead | ⟨before, lead⟩
  · rwa [lead] at suffix
  · rw [lead, List.append_assoc, List.singleton_append] at suffix
    rcases List.suffix_or_suffix_of_suffix suffix (List.suffix_append before _) with short | long
    · exact (List.suffix_cons_iff.mp short).resolve_left fun whole => plain (whole ▸ List.mem_cons_self)
    · exact absurd (long.subset List.mem_cons_self) plain

end Path

namespace Service.Resolution

open Config
open List (Forall₂ forall₂_same)
open SvelteLens.Path (Respelled)

variable {p q directory other : Path}

def Respelt (s t : String) : Prop := Respelled ⟨s⟩ ⟨t⟩

theorem stripEnding?_respelt {ending : String} (plain : '/' ∉ ending.toList) (respelled : Respelled p q) :
    Option.Rel Respelt (stripEnding? p.text ending) (stripEnding? q.text ending) := by
  obtain ⟨a, b, rest, same, left, right⟩ := respelled
  by_cases ends : ending.toList <:+ rest
  · have cut (base : Path) : (base.lead ++ rest).take ((base.lead ++ rest).length - ending.length) =
        base.lead ++ rest.take (rest.length - ending.length) := by
      have short : ending.length ≤ rest.length := String.length_toList ▸ ends.length_le
      rw [List.length_append, Nat.add_sub_assoc short, List.take_length_add_append]
    have here := List.isSuffixOf_iff_suffix.mpr ((Path.suffix_lead plain a rest).mpr ends)
    have there := List.isSuffixOf_iff_suffix.mpr ((Path.suffix_lead plain b rest).mpr ends)
    rw [stripEnding?, stripEnding?, left, right]
    rw [if_pos here, if_pos there, cut, cut]
    exact .some ⟨a, b, rest.take (rest.length - ending.length), same, by simp, by simp⟩
  · have here := mt (Path.suffix_lead plain a rest).mp ends
    have there := mt (Path.suffix_lead plain b rest).mp ends
    rw [← List.isSuffixOf_iff_suffix] at here there
    rw [stripEnding?, stripEnding?, left, right]
    rw [if_neg here, if_neg there]
    exact .none

theorem compiledEndings_plain : ∀ ending ∈ compiledEndings, '/' ∉ ending.toList := by decide

theorem compiled_respelt (respelled : Respelled p q) (endings : List String)
    (plain : ∀ ending ∈ endings, '/' ∉ ending.toList) :
    Option.Rel Respelt (endings.findSome? (stripEnding? p.text)) (endings.findSome? (stripEnding? q.text)) := by
  induction endings with
  | nil => exact .none
  | cons ending rest ih =>
    have first := stripEnding?_respelt (plain ending List.mem_cons_self) respelled
    rw [List.findSome?_cons, List.findSome?_cons]
    generalize stripEnding? p.text ending = here at first
    generalize stripEnding? q.text ending = there at first
    cases first with
    | some found => exact .some found
    | none => exact ih fun later member => plain later (List.mem_cons_of_mem _ member)

theorem withEndings_respelled (allowJs : Bool) {s t : String} (respelt : Respelt s t) :
    Forall₂ Respelled (withEndings allowJs s) (withEndings allowJs t) := by
  rw [withEndings, withEndings, List.forall₂_map_left_iff, List.forall₂_map_right_iff]
  exact forall₂_same.mpr fun ending _ => respelt.append ending

/-- Two spellings of a candidate are tried in the same ways. -/
theorem spellings_respelled (allowJs : Bool) (respelled : Respelled p q) :
    Forall₂ Respelled (spellings allowJs p) (spellings allowJs q) := by
  have itself : Forall₂ Respelled (if p.extension?.isSome then [p] else []) (if q.extension?.isSome then [q] else []) := by
    rw [Path.extension?_congr respelled.same]
    split
    · exact .cons respelled .nil
    · exact .nil
  have compiled : Forall₂ Respelt (compiledEndings.findSome? (stripEnding? p.text)).toList
      (compiledEndings.findSome? (stripEnding? q.text)).toList := by
    have found := compiled_respelt respelled compiledEndings compiledEndings_plain
    generalize compiledEndings.findSome? (stripEnding? p.text) = here at found
    generalize compiledEndings.findSome? (stripEnding? q.text) = there at found
    cases found with
    | some found => exact .cons found .nil
    | none => exact .nil
  have scripts := List.rel_flatMap compiled fun s t respelt => withEndings_respelled allowJs (s := s) (t := t) respelt
  have named := withEndings_respelled allowJs (s := p.text) (t := q.text) respelled
  have index := withEndings_respelled allowJs (s := (p.join ⟨"index"⟩).text) (t := (q.join ⟨"index"⟩).text)
    (respelled.join ⟨"index"⟩)
  exact List.rel_append (List.rel_append (List.rel_append itself scripts) named) index

theorem entryCandidates_respelled (env : Surroundings) (respelled : Respelled p q) :
    Forall₂ Respelled (entryCandidates env p) (entryCandidates env q) := by
  have manifest := env.manifest?_congr (respelled.join ⟨"package.json"⟩).same
  rw [entryCandidates, entryCandidates, manifest]
  refine List.rel_append ?_ (.cons (respelled.join ⟨"index"⟩) .nil)
  rw [List.forall₂_map_left_iff, List.forall₂_map_right_iff]
  refine forall₂_same.mpr fun entry _ => ?_
  rw [Path.normalize_congr (respelled.join ⟨entry⟩).same]
  exact .refl _

theorem packageCandidates_respelled (env : Surroundings) (specifier : String) (same : directory.same other = true) :
    Forall₂ Respelled (packageCandidates env specifier directory) (packageCandidates env specifier other) := by
  unfold packageCandidates
  split
  · exact .nil
  · next package subpath _ =>
    refine List.rel_flatMap (Path.ancestors_congr same) fun above above' alike => ?_
    have modules : Respelled (above.join ⟨"node_modules"⟩) (above'.join ⟨"node_modules"⟩) :=
      Path.join_respelled alike _
    have found : Forall₂ Respelled
        [(above.join ⟨"node_modules"⟩).join ⟨package⟩,
          ((above.join ⟨"node_modules"⟩).join ⟨"@types"⟩).join ⟨typesName package⟩]
        [(above'.join ⟨"node_modules"⟩).join ⟨package⟩,
          ((above'.join ⟨"node_modules"⟩).join ⟨"@types"⟩).join ⟨typesName package⟩] :=
      .cons (modules.join _) (.cons ((modules.join _).join _) .nil)
    refine List.rel_flatMap found fun package package' respelled => ?_
    split
    · exact .cons (respelled.join _) .nil
    · exact entryCandidates_respelled env respelled

theorem candidates_respelled (scope : Scope) (env : Surroundings) (specifier : String) (same : directory.same other = true) :
    Forall₂ Respelled (candidates scope env specifier directory) (candidates scope env specifier other) := by
  unfold candidates
  split
  · rw [Path.normalize_congr (Path.join_congr same _)]
    exact .cons (.refl _) .nil
  · refine List.rel_append ?_ (packageCandidates_respelled env specifier same)
    exact forall₂_same.mpr fun p _ => .refl p

/-- Two spellings of the importing directory lead to the same paths, in the same order. -/
theorem paths_congr (scope : Scope) (env : Surroundings) (specifier : String) (same : directory.same other = true) :
    Forall₂ (·.same · = true) (paths scope env specifier directory) (paths scope env specifier other) := by
  have respelled := List.rel_flatMap (candidates_respelled scope env specifier same)
    fun p q respelled => spellings_respelled scope.settings.allowJs respelled
  exact respelled.imp fun _ _ alike => alike.same

end Service.Resolution
end SvelteLens
