import SvelteLens.Proofs.Path.Entering
import SvelteLens.Proofs.Service.Answers

/-! Imports from one directory under several spellings. A specifier that names a file by its place is joined to the
directory before the dots are resolved, so it does not matter which dots the directory is spelled with. A bare specifier
is looked for in the project first, where the directory plays no part, and then among the packages of the directory and
of those above it. These are told from the spelling: `x/..` has `x` above it. -/
namespace SvelteLens.Service

namespace Resolution

open Config

variable {scope : Scope} {env : Surroundings} {specifier : String} {directory other : Path}

def isPlaced (specifier : String) : Bool := isRelative specifier || (Path.mk specifier).isAbsolute

/-- What a bare specifier can stand for in a project, wherever it is imported. -/
def projectCandidates (scope : Scope) (specifier : String) : List Path :=
  aliasCandidates scope specifier ++ (scope.settings.baseUrl.map fun base => (base.join ⟨specifier⟩).normalize).toList

def projectPaths (scope : Scope) (specifier : String) : List Path :=
  (projectCandidates scope specifier).flatMap (spellings scope.settings.allowJs)

theorem candidates_placed (placed : isPlaced specifier = true) :
    candidates scope env specifier directory = [(directory.join ⟨specifier⟩).normalize] := if_pos placed

theorem candidates_bare (bare : isPlaced specifier = false) : candidates scope env specifier directory =
    projectCandidates scope specifier ++ packageCandidates env specifier directory :=
  if_neg (Bool.eq_false_iff.mp bare)

/-- The place that a specifier names does not depend on how the dots of the directory are spelled. -/
theorem paths_placed (placed : isPlaced specifier = true) (alike : directory.normalize = other.normalize) :
    paths scope env specifier directory = paths scope env specifier other := by
  rw [paths, paths, candidates_placed placed, candidates_placed placed, ← Path.normalize_join, alike, Path.normalize_join]

end Resolution

namespace Overlay

open Resolution (isPlaced projectPaths)

variable {env : Surroundings} {o m : Overlay} {specifier : String} {directory other : Path}
  {first next : Action Overlay (Option Path)}

theorem orSearch_found {found : Path} (run : first o = (.ok (some found), m)) :
    orSearch first next o = (.ok (some found), m) := Action.bind_ok run

theorem orSearch_missed (run : first o = (.ok none, m)) : orSearch first next o = next m := Action.bind_ok run

theorem orSearch_failed {failure : Failure} (run : first o = (.error failure, m)) :
    orSearch first next o = (.error failure, m) := Action.bind_error run

/-- An import comes to the packages, with the overlay that the search in the project leaves: its specifier is bare, and
nothing exists that it can stand for in the project. -/
def ReachesPackages (env : Surroundings) (o : Overlay) (specifier : String) (m : Overlay) : Prop :=
  isPlaced specifier = false ∧ firstExisting env (projectPaths o.scope specifier) o = (.ok none, m)

theorem resolveUncached_bare (bare : isPlaced specifier = false) : resolveUncached env specifier directory o =
    orSearch (firstExisting env (projectPaths o.scope specifier)) (resolvePackage env o.scope specifier directory) o := by
  rw [resolveUncached_eq, Resolution.paths, Resolution.candidates_bare bare, List.flatMap_append, firstExisting_append,
    ← resolvePackage_eq]
  rfl

theorem ReachesPackages.resolveUncached (reaches : ReachesPackages env o specifier m) (directory : Path) :
    resolveUncached env specifier directory o = resolvePackage env o.scope specifier directory m := by
  rw [resolveUncached_bare reaches.1, orSearch_missed reaches.2]

/-- An import from two directories comes to the packages, or it ends before in the same way. -/
theorem resolveUncached_alike (alike : directory.normalize = other.normalize) :
    resolveUncached env specifier directory o = resolveUncached env specifier other o ∨
      ∃ m, ReachesPackages env o specifier m := by
  cases placed : isPlaced specifier with
  | true =>
    left
    rw [resolveUncached_eq, resolveUncached_eq, Resolution.paths_placed placed alike]
  | false =>
    cases run : firstExisting env (projectPaths o.scope specifier) o with
    | mk answer m =>
      cases answer with
      | error failure =>
        left
        rw [resolveUncached_bare placed, resolveUncached_bare placed, orSearch_failed run, orSearch_failed run]
      | ok found =>
        cases found with
        | none => exact .inr ⟨m, placed, run⟩
        | some found =>
          left
          rw [resolveUncached_bare placed, resolveUncached_bare placed, orSearch_found run, orSearch_found run]

/-- Two spellings of a directory with the same components lead an import to the same path. -/
theorem resolveUncached_same (same : directory.same other = true) (specifier : String) :
    SameAnswers (resolveUncached env specifier directory o).1 (resolveUncached env specifier other o).1 := by
  rw [resolveUncached_eq, resolveUncached_eq]
  exact (Agrees.refl env o).firstExisting (Resolution.paths_congr o.scope env specifier same)

/-- Dots are resolved by the text alone. The outcome is what comes of taking in the components of the path one at a time,
where what is there so far is read anew each time. It has no `.`; it has `..` at its front alone, and not behind a root; it
is absolute when the path is, and there is nothing more to resolve in it. A directory may be resolved before something is
joined to it. So an import comes to the same end, by the same search, from two directories that are resolved to one, unless
it comes to the packages, which are those of the directory as it is spelled. There it still comes to the same path when the
directories are spelled with the same components. -/
theorem dots_resolved_lexically :
    (∀ p : Path, p.normalize = p.components.foldl Path.enter ⟨""⟩ ∧ p.normalize.Normal ∧
      p.normalize.isAbsolute = p.isAbsolute ∧ p.normalize.normalize = p.normalize) ∧
    (∀ a b : Path, (a.join b).normalize = (a.normalize.join b).normalize) ∧
    ∀ (env : Surroundings) (o : Overlay) (specifier : String) (directory other : Path),
      (directory.normalize = other.normalize →
        resolveUncached env specifier directory o = resolveUncached env specifier other o ∨
        ∃ m, ReachesPackages env o specifier m ∧
          resolveUncached env specifier directory o = resolvePackage env o.scope specifier directory m ∧
          resolveUncached env specifier other o = resolvePackage env o.scope specifier other m) ∧
      (directory.same other = true →
        SameAnswers (resolveUncached env specifier directory o).1 (resolveUncached env specifier other o).1) := by
  refine ⟨fun p => ⟨p.normalize_eq_enter, p.normal_normalize, p.isAbsolute_normalize, p.normalize_normalize⟩,
    fun a b => (Path.normalize_join a b).symm, fun env o specifier directory other => ⟨fun alike => ?_, fun same => ?_⟩⟩
  · rcases resolveUncached_alike alike with ends | ⟨m, reaches⟩
    · exact .inl ends
    · exact .inr ⟨m, reaches, reaches.resolveUncached directory, reaches.resolveUncached other⟩
  · exact resolveUncached_same same specifier

def nestedPackage : Surroundings where
  markup := .ofText fun _ => .error (.refused "no markup")
  script _ _ := none
  files := Path.Table.ofEntries [(⟨"/a.ts"⟩, .text "export {};"), (⟨"/node_modules/p/index.ts"⟩, .text "export {};"),
    (⟨"/x/node_modules/p/index.ts"⟩, .text "export {};")]

/-- The script is found from either spelling of its directory, and the inner package from two spellings with the same
components. -/
theorem dots_resolved_lexically_nested :
    let o := Overlay.ofScope sampleScope
    let d : Path := ⟨"/x/.././"⟩
    let e : Path := ⟨"/"⟩
    let x : Path := ⟨"//x/."⟩
    let y : Path := ⟨"/x"⟩
    (d.normalize = e.normalize ∧ resolveUncached nestedPackage "./a" d o = resolveUncached nestedPackage "./a" e o ∧
      (resolveUncached nestedPackage "./a" d o).1 = .ok (some ⟨"/a.ts"⟩)) ∧
    x.same y = true ∧ SameAnswers (resolveUncached nestedPackage "p" x o).1 (resolveUncached nestedPackage "p" y o).1 ∧
      (resolveUncached nestedPackage "p" y o).1 = .ok (some ⟨"/x/node_modules/p/index.ts"⟩) := by
  intro o d e x y
  obtain ⟨-, -, imports⟩ := dots_resolved_lexically
  have alike : d.normalize = e.normalize := by decide +kernel
  have same : x.same y = true := by decide +kernel
  have ends := (imports nestedPackage o "./a" d e).1 alike
  have bare (m : Overlay) : ¬ReachesPackages nestedPackage o "./a" m := fun reaches => Bool.noConfusion reaches.1
  exact ⟨⟨alike, ends.resolve_right fun ⟨m, reaches, _⟩ => bare m reaches, by decide +kernel⟩,
    same, (imports nestedPackage o "p" x y).2 same, by decide +kernel⟩

/-- A package of a directory that the spelling only passes through is found before that of the directory itself. -/
theorem package_found_on_detour :
    let o := Overlay.ofScope sampleScope
    let d : Path := ⟨"/x/.."⟩
    let e : Path := ⟨"/"⟩
    (⟨"/x/../a.ts"⟩ : Path).parent? = some d ∧ (⟨"/a.ts"⟩ : Path).parent? = some e ∧ d.normalize = e.normalize ∧
      (resolveUncached nestedPackage "p" d o).1 = .ok (some ⟨"/x/node_modules/p/index.ts"⟩) ∧
      (resolveUncached nestedPackage "p" e o).1 = .ok (some ⟨"/node_modules/p/index.ts"⟩) := by
  decide +kernel

end Overlay
end SvelteLens.Service
