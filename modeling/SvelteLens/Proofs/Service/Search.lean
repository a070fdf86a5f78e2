import SvelteLens.Service.Overlay

/-! The order of a search. An import is searched for on several levels, one inside the other: the
ways to read its specifier, the targets of an alias, the directories, the packages in them, the
entries of a manifest, and the endings of a name. Laid out flat, the search goes through one list of
paths and ends at the first one that exists. -/
namespace SvelteLens.Service

namespace Resolution

open Config

/-- The paths for one candidate: itself, when it has an extension; the script that it was compiled
from; itself with an ending; the index of the directory of that name. -/
def spellings (allowJs : Bool) (candidate : Path) : List Path :=
  (if candidate.extension?.isSome then [candidate] else []) ++
    ((compiledEndings.findSome? (stripEnding? candidate.text)).toList.flatMap (withEndings allowJs)) ++
    withEndings allowJs candidate.text ++
    withEndings allowJs (candidate.join ⟨"index"⟩).text

def aliasTargets (base : Path) (specifier : String) (entry : String × List String) : List Path :=
  match capture? entry.1 specifier with
  | some captured => entry.2.map fun target => (base.join ⟨substitute target captured⟩).normalize
  | none => []

/-- The targets of all aliases that match, against the base directory or else the root. -/
def aliasCandidates (scope : Scope) (specifier : String) : List Path :=
  scope.settings.aliases.flatMap (aliasTargets (scope.settings.baseUrl.getD scope.root) specifier)

/-- What a package offers: the entries of its manifest, then its index. -/
def entryCandidates (env : Surroundings) (package : Path) : List Path :=
  let manifest := env.manifest? (package.join ⟨"package.json"⟩)
  (manifest.elim [] Manifest.entries).map (fun entry => (package.join ⟨entry⟩).normalize) ++
    [package.join ⟨"index"⟩]

/-- The packages of a directory and those above it, the packages proper before their typings. -/
def packageCandidates (env : Surroundings) (specifier : String) (directory : Path) : List Path :=
  match splitPackage? specifier with
  | none => []
  | some (package, subpath) =>
    directory.ancestors.flatMap fun above =>
      let modules := above.join ⟨"node_modules"⟩
      [modules.join ⟨package⟩, (modules.join ⟨"@types"⟩).join ⟨typesName package⟩].flatMap fun found =>
        match subpath with
        | some subpath => [found.join ⟨subpath⟩]
        | none => entryCandidates env found

def candidates (scope : Scope) (env : Surroundings) (specifier : String) (directory : Path) : List Path :=
  if isRelative specifier || (Path.mk specifier).isAbsolute then
    [(directory.join ⟨specifier⟩).normalize]
  else
    aliasCandidates scope specifier ++
      (scope.settings.baseUrl.map fun base => (base.join ⟨specifier⟩).normalize).toList ++
      packageCandidates env specifier directory

/-- Every path that a specifier can stand for, imported from a directory. -/
def paths (scope : Scope) (env : Surroundings) (specifier : String) (directory : Path) : List Path :=
  (candidates scope env specifier directory).flatMap (spellings scope.settings.allowJs)

end Resolution

namespace Overlay

open Config

variable {env : Surroundings} {scope : Scope} {α : Type}

/-- A search that goes on with another one when it finds nothing. -/
def orSearch (first next : Action Overlay (Option Path)) : Action Overlay (Option Path) := do
  if let some found ← first then return some found
  next

/-- A search through two lists goes on to the second when nothing of the first exists. -/
theorem firstExisting_append (env : Surroundings) (first second : List Path) :
    firstExisting env (first ++ second) = orSearch (firstExisting env first) (firstExisting env second) := by
  induction first with
  | nil => simp [firstExisting, orSearch]
  | cons p rest ih =>
    simp only [List.cons_append, firstExisting, orSearch, bind_assoc] at ih ⊢
    refine bind_congr fun there => ?_
    cases there with
    | true => simp
    | false => simpa using ih

theorem firstFound_cons (search : α → Action Overlay (Option Path)) (place : α) (rest : List α) :
    firstFound search (place :: rest) = orSearch (search place) (firstFound search rest) := rfl

theorem firstFound_eq {search : α → Action Overlay (Option Path)} {tried : α → List Path}
    (searches : ∀ place, search place = firstExisting env (tried place)) (places : List α) :
    firstFound search places = firstExisting env (places.flatMap tried) := by
  induction places with
  | nil => rfl
  | cons place rest ih => rw [firstFound_cons, List.flatMap_cons, firstExisting_append, searches, ih]

theorem resolveCandidate_eq (env : Surroundings) (scope : Scope) (candidate : Path) :
    resolveCandidate env scope candidate =
      firstExisting env (Resolution.spellings scope.settings.allowJs candidate) := by
  have extended := firstExisting_append env (Resolution.withEndings scope.settings.allowJs candidate.text)
    (Resolution.withEndings scope.settings.allowJs (candidate.join ⟨"index"⟩).text)
  have compiled (script : String) :=
    (firstExisting_append env (Resolution.withEndings scope.settings.allowJs script) _).trans (congrArg _ extended)
  -- a candidate with an extension is itself the first path of the list
  have itself {others : List Path} {later : Action Overlay (Option Path)} (same : firstExisting env others = later) :
      firstExisting env (candidate :: others) = (do
        if ← fileExists env candidate then return some candidate
        later) := by
    subst same
    rfl
  unfold resolveCandidate Resolution.spellings
  generalize Resolution.compiledEndings.findSome? (Resolution.stripEnding? candidate.text) = script
  cases candidate.extension?.isSome with
  | false =>
    rw [if_neg Bool.false_ne_true, if_neg Bool.false_ne_true, List.nil_append]
    cases script with
    | none => exact extended.symm
    | some script =>
      rw [Option.toList_some, List.flatMap_singleton, List.append_assoc]
      exact (compiled script).symm
  | true =>
    rw [if_pos rfl, if_pos rfl, List.append_assoc, List.append_assoc, List.singleton_append]
    cases script with
    | none => exact (itself extended).symm
    | some script =>
      rw [Option.toList_some, List.flatMap_singleton]
      exact (itself (compiled script)).symm

theorem resolveAlias_eq (env : Surroundings) (scope : Scope) (specifier : String) :
    resolveAlias env scope specifier = firstExisting env
      ((Resolution.aliasCandidates scope specifier).flatMap (Resolution.spellings scope.settings.allowJs)) := by
  rw [Resolution.aliasCandidates, List.flatMap_assoc]
  refine firstFound_eq (fun place => ?_) _
  obtain ⟨pattern, targets⟩ := place
  rw [Resolution.aliasTargets]
  dsimp only
  cases Resolution.capture? pattern specifier with
  | none => rfl
  | some captured =>
    dsimp only
    rw [List.flatMap_map]
    exact firstFound_eq (fun target => resolveCandidate_eq env scope _) _

theorem resolvePackageEntry_eq (env : Surroundings) (scope : Scope) (package : Path) :
    resolvePackageEntry env scope package = firstExisting env
      ((Resolution.entryCandidates env package).flatMap (Resolution.spellings scope.settings.allowJs)) := by
  have index := resolveCandidate_eq env scope (package.join ⟨"index"⟩)
  unfold resolvePackageEntry Resolution.entryCandidates
  cases env.manifest? (package.join ⟨"package.json"⟩) with
  | none => exact index.trans (by simp)
  | some manifest =>
    have named := firstFound_eq (fun entry => resolveCandidate_eq env scope (package.join ⟨entry⟩).normalize)
      manifest.entries
    have whole : orSearch (firstFound _ manifest.entries) _ = _ := congr (congrArg orSearch named) index
    dsimp only [Option.elim_some]
    rw [List.flatMap_append, List.flatMap_map, List.flatMap_singleton, firstExisting_append]
    exact whole

theorem resolvePackage_eq (env : Surroundings) (scope : Scope) (specifier : String) (directory : Path) :
    resolvePackage env scope specifier directory = firstExisting env
      ((Resolution.packageCandidates env specifier directory).flatMap
        (Resolution.spellings scope.settings.allowJs)) := by
  unfold resolvePackage Resolution.packageCandidates
  cases Resolution.splitPackage? specifier with
  | none => rfl
  | some parts =>
    obtain ⟨package, subpath⟩ := parts
    dsimp only
    rw [List.flatMap_assoc]
    refine firstFound_eq (fun above => ?_) _
    rw [List.flatMap_assoc]
    refine firstFound_eq (fun found => ?_) _
    cases subpath with
    | none => exact resolvePackageEntry_eq env scope found
    | some subpath =>
      rw [List.flatMap_singleton]
      exact resolveCandidate_eq env scope _

theorem join_absolute (directory : Path) {p : Path} (absolute : p.isAbsolute = true) : directory.join p = p :=
  if_pos absolute

/-- The search goes through the list of all paths that the specifier can stand for, level by level. -/
theorem resolveUncached_eq (env : Surroundings) (specifier : String) (directory : Path) (o : Overlay) :
    resolveUncached env specifier directory o =
      firstExisting env (Resolution.paths o.scope env specifier directory) o := by
  change (if Resolution.isRelative specifier then _ else _ : Action Overlay (Option Path)) o = _
  unfold Resolution.paths Resolution.candidates
  cases Resolution.isRelative specifier with
  | true => simp [resolveCandidate_eq]
  | false =>
    cases absolute : (Path.mk specifier).isAbsolute with
    | true => simp [resolveCandidate_eq, join_absolute directory absolute]
    | false =>
      have aliases := resolveAlias_eq env o.scope specifier
      have packages := resolvePackage_eq env o.scope specifier directory
      rw [if_neg Bool.false_ne_true, if_neg Bool.false_ne_true, Bool.or_self, if_neg Bool.false_ne_true]
      cases o.scope.settings.baseUrl with
      | none =>
        rw [Option.map_none, Option.toList_none, List.append_nil, List.flatMap_append, firstExisting_append]
        exact congrFun (congr (congrArg orSearch aliases) packages) o
      | some base =>
        have based := resolveCandidate_eq env o.scope (base.join ⟨specifier⟩).normalize
        rw [Option.map_some, Option.toList_some, List.append_assoc, List.flatMap_append, List.flatMap_append,
          List.flatMap_singleton, firstExisting_append, firstExisting_append]
        exact congrFun (congr (congrArg orSearch aliases) (congr (congrArg orSearch based) packages)) o

end Overlay
end SvelteLens.Service
