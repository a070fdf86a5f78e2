import SvelteLens.Proofs.Service.Answers
import SvelteLens.Proofs.Text.Cuts

/-! Where an import leads, told without the search. The paths that a specifier can stand for are
listed by what the patterns, the packages and the endings mean: what is put for a star is any text
that makes the pattern up to the specifier, and a package is any name that the specifier begins with.
There is one such list, and the search gives the first of its paths that exists. -/
namespace SvelteLens.Service

namespace Resolution

open Config
open List (Forall₂)

/-- A specifier that names a file by its place under the importing directory. -/
inductive Relative : (specifier : String) → Prop where
  | here : Relative "."
  | up : Relative ".."
  | below (rest : String) : Relative ("./" ++ rest)
  | beside (rest : String) : Relative ("../" ++ rest)

/-- What the first star of a pattern stands for in a specifier. A pattern without a star stands for
itself alone. -/
inductive Matches : (pattern specifier captured : String) → Prop where
  | star {front captured back : String} (first : '*' ∉ front.toList) :
      Matches (front ++ "*" ++ back) (front ++ captured ++ back) captured
  | plain {pattern : String} (starless : '*' ∉ pattern.toList) : Matches pattern pattern ""

/-- A target with a text in the place of its first star. -/
inductive Filled (captured : String) : (target result : String) → Prop where
  | star {front back : String} (first : '*' ∉ front.toList) :
      Filled captured (front ++ "*" ++ back) (front ++ captured ++ back)
  | plain {target : String} (starless : '*' ∉ target.toList) : Filled captured target target

/-- What aliases lead to: each that matches to all its targets, in the order of declaration. -/
inductive Aliased (base : Path) (specifier : String) : List (String × List String) → List Path → Prop where
  | nil : Aliased base specifier [] []
  | taken {pattern captured : String} {targets results : List String} {rest : List (String × List String)}
      {later : List Path} (fits : Matches pattern specifier captured)
      (filled : Forall₂ (Filled captured) targets results) (others : Aliased base specifier rest later) :
      Aliased base specifier ((pattern, targets) :: rest)
        (results.map (fun result => (base.join ⟨result⟩).normalize) ++ later)
  | passed {pattern : String} {targets : List String} {rest : List (String × List String)} {later : List Path}
      (unfit : ∀ captured, ¬Matches pattern specifier captured) (others : Aliased base specifier rest later) :
      Aliased base specifier ((pattern, targets) :: rest) later

/-- The name of a package, and the name under which its typings are published. A package in a scope
has two parts. -/
inductive Names : (package typings : String) → Prop where
  | plain {name : String} (filled : name ≠ "") (unscoped : name.toList.head? ≠ some '@')
      (whole : '/' ∉ name.toList) : Names name name
  | inScope {scope name : String} (first : '/' ∉ scope.toList) (second : '/' ∉ name.toList) :
      Names ("@" ++ scope ++ "/" ++ name) (scope ++ "__" ++ name)

/-- The package that a specifier names, and what it wants of it: a part, or else its entry. -/
inductive Wants : (specifier package typings : String) → (part : Option String) → Prop where
  | entry {package typings : String} (names : Names package typings) : Wants package package typings none
  | closed {package typings : String} (names : Names package typings) :
      Wants (package ++ "/") package typings none
  | part {package typings part : String} (names : Names package typings) (filled : part ≠ "") :
      Wants (package ++ "/" ++ part) package typings (some part)

/-- What the packages lead to, from the importing directory outwards. In each directory the package
proper comes before its typings. -/
inductive Packaged (env : Surroundings) (specifier : String) (directory : Path) : List Path → Prop where
  | part {package typings part : String} (wants : Wants specifier package typings (some part)) :
      Packaged env specifier directory (directory.ancestors.flatMap fun above =>
        let modules := above.join ⟨"node_modules"⟩
        [(modules.join ⟨package⟩).join ⟨part⟩, ((modules.join ⟨"@types"⟩).join ⟨typings⟩).join ⟨part⟩])
  | entry {package typings : String} (wants : Wants specifier package typings none) :
      Packaged env specifier directory (directory.ancestors.flatMap fun above =>
        let modules := above.join ⟨"node_modules"⟩
        entryCandidates env (modules.join ⟨package⟩) ++
          entryCandidates env ((modules.join ⟨"@types"⟩).join ⟨typings⟩))
  | nothing (unnamed : ∀ package typings part, ¬Wants specifier package typings part) :
      Packaged env specifier directory []

/-- The candidates for a specifier that is imported from a directory. -/
inductive Candidates (scope : Scope) (env : Surroundings) (specifier : String) (directory : Path) : List Path → Prop where
  | relative (relative : Relative specifier) :
      Candidates scope env specifier directory [(directory.join ⟨specifier⟩).normalize]
  | absolute (absolute : (Path.mk specifier).isAbsolute = true) :
      Candidates scope env specifier directory [(Path.mk specifier).normalize]
  | bare {aliased packaged : List Path} (placeless : ¬Relative specifier)
      (rootless : (Path.mk specifier).isAbsolute = false)
      (aliases : Aliased (scope.settings.baseUrl.getD scope.root) specifier scope.settings.aliases aliased)
      (packages : Packaged env specifier directory packaged) :
      Candidates scope env specifier directory (aliased ++
        (scope.settings.baseUrl.map fun base => (base.join ⟨specifier⟩).normalize).toList ++ packaged)

/-- The paths for one candidate: itself, when it has an extension; the script that it was compiled
from; itself with an ending; the index of the directory of that name. -/
inductive Spelled (allowJs : Bool) (candidate : Path) : List Path → Prop where
  | compiled {script ending : String} (known : ending ∈ [".js", ".jsx", ".mjs", ".cjs"])
      (ends : candidate.text = script ++ ending) :
      Spelled allowJs candidate ((if candidate.extension?.isSome then [candidate] else []) ++
        withEndings allowJs script ++ withEndings allowJs candidate.text ++
        withEndings allowJs (candidate.join ⟨"index"⟩).text)
  | other (uncompiled : ∀ ending ∈ [".js", ".jsx", ".mjs", ".cjs"], ∀ script, candidate.text ≠ script ++ ending) :
      Spelled allowJs candidate ((if candidate.extension?.isSome then [candidate] else []) ++
        withEndings allowJs candidate.text ++ withEndings allowJs (candidate.join ⟨"index"⟩).text)

/-- All paths that a specifier can stand for, in the order in which they count. -/
def Listed (scope : Scope) (env : Surroundings) (specifier : String) (directory : Path) (paths : List Path) : Prop :=
  ∃ candidates spelled, Candidates scope env specifier directory candidates ∧
    Forall₂ (Spelled scope.settings.allowJs) candidates spelled ∧ paths = spelled.flatten

theorem isRelative_iff {specifier : String} : isRelative specifier = true ↔ Relative specifier := by
  constructor
  · intro relative
    unfold isRelative at relative
    split at relative
    · next whole => exact (String.toList_inj.mp whole : specifier = ".") ▸ .here
    · next whole => exact (String.toList_inj.mp whole : specifier = "..") ▸ .up
    · next rest whole =>
      have split : specifier = "./" ++ String.ofList rest := String.toList_inj.mp (by simp [whole])
      exact split ▸ .below _
    · next rest whole =>
      have split : specifier = "../" ++ String.ofList rest := String.toList_inj.mp (by simp [whole])
      exact split ▸ .beside _
    · cases relative
  · rintro (_ | _ | rest | rest)
    · rfl
    · rfl
    · simp [isRelative]
    · simp [isRelative]

theorem capture?_eq_some {pattern specifier captured : String} :
    capture? pattern specifier = some captured ↔ Matches pattern specifier captured := by
  unfold capture?
  constructor
  · intro captures
    split at captures
    · next starless =>
      split at captures <;> cases captures
      next same => exact same ▸ .plain (Text.breakAt?_eq_none.mp starless)
    · next front back split =>
      obtain ⟨whole, first⟩ := Text.breakAt?_eq_some.mp split
      dsimp only at captures
      split at captures <;> cases captures
      next fits =>
        rw [Bool.and_eq_true, List.isPrefixOf_iff_prefix, List.isSuffixOf_iff_suffix] at fits
        obtain ⟨⟨rest, ahead⟩, inner, behind⟩ := fits
        rw [← ahead, List.drop_left] at behind ⊢
        have pattern' : pattern = String.ofList front ++ "*" ++ String.ofList back :=
          String.toList_inj.mp (by simp [whole])
        have specifier' : specifier = String.ofList front ++ String.ofList inner ++ String.ofList back :=
          String.toList_inj.mp (by simp [← ahead, ← behind])
        rw [pattern', specifier', ← behind, List.length_append, Nat.add_sub_cancel, List.take_left]
        exact .star (by simpa using first)
  · rintro (⟨first⟩ | starless)
    · next front back =>
      have whole : (front ++ "*" ++ back).toList = front.toList ++ '*' :: back.toList := by simp
      rw [Text.breakAt?_eq_some.mpr ⟨whole, first⟩]
      simp [List.isSuffixOf_iff_suffix]
    · rw [Text.breakAt?_eq_none.mpr starless]
      simp

theorem substitute_eq {target captured result : String} :
    substitute target captured = result ↔ Filled captured target result := by
  unfold substitute
  constructor
  · rintro rfl
    split
    · next front back split =>
      obtain ⟨whole, first⟩ := Text.breakAt?_eq_some.mp split
      have target' : target = String.ofList front ++ "*" ++ String.ofList back :=
        String.toList_inj.mp (by simp [whole])
      rw [target']
      exact .star (by simpa using first)
    · next starless => exact .plain (Text.breakAt?_eq_none.mp starless)
  · rintro (first | starless)
    · next front back =>
      have whole : (front ++ "*" ++ back).toList = front.toList ++ '*' :: back.toList := by simp
      rw [Text.breakAt?_eq_some.mpr ⟨whole, first⟩]
      simp
    · rw [Text.breakAt?_eq_none.mpr starless]

theorem aliased_iff {base : Path} {specifier : String} {aliases : List (String × List String)} {paths : List Path} :
    Aliased base specifier aliases paths ↔ aliases.flatMap (aliasTargets base specifier) = paths := by
  induction aliases generalizing paths with
  | nil =>
    constructor
    · rintro ⟨⟩
      rfl
    · rintro rfl
      exact .nil
  | cons first rest ih =>
    obtain ⟨pattern, targets⟩ := first
    rw [List.flatMap_cons, aliasTargets]
    constructor
    · rintro (_ | ⟨fits, filled, others⟩ | ⟨unfit, others⟩)
      · rw [capture?_eq_some.mpr fits, ih.mp others, ← (forall₂_iff_map fun _ _ => substitute_eq).mp filled]
        simp only [List.map_map, Function.comp_def]
      · have unmatched : capture? pattern specifier = none :=
          Option.eq_none_iff_forall_ne_some.mpr fun captured => mt capture?_eq_some.mp (unfit captured)
        rw [unmatched, ih.mp others]
        rfl
    · rintro rfl
      have others : Aliased base specifier rest (rest.flatMap (aliasTargets base specifier)) := ih.mpr rfl
      dsimp only
      cases captures : capture? pattern specifier with
      | some captured =>
        have filled : Forall₂ (Filled captured) targets (targets.map (substitute · captured)) :=
          (forall₂_iff_map fun _ _ => substitute_eq).mpr rfl
        have fits : Matches pattern specifier captured := capture?_eq_some.mp captures
        have taken := Aliased.taken fits filled others
        simpa only [List.map_map, Function.comp_def] using taken
      | none =>
        have unfit (captured : String) : ¬Matches pattern specifier captured := fun fits => by
          rw [capture?_eq_some.mpr fits] at captures
          cases captures
        exact Aliased.passed unfit others

theorem wants_iff {specifier package typings : String} {subpath : Option String} :
    Wants specifier package typings subpath ↔ Names package typings ∧ ∃ sub : List Char,
      (specifier.toList = package.toList ∧ sub = [] ∨ specifier.toList = package.toList ++ '/' :: sub) ∧
      subpath = if sub.isEmpty then none else some (String.ofList sub) := by
  constructor
  · rintro (names | names | ⟨names, filled⟩)
    · exact ⟨names, [], .inl ⟨rfl, rfl⟩, rfl⟩
    · exact ⟨names, [], .inr (by simp), rfl⟩
    · next sub => exact ⟨names, sub.toList, .inr (by simp), by simp [filled]⟩
  · rintro ⟨names, sub, ⟨whole, rfl⟩ | whole, rfl⟩
    · rw [String.toList_inj.mp whole]
      exact .entry names
    · have specifier' : specifier = package ++ "/" ++ String.ofList sub := String.toList_inj.mp (by simp [whole])
      rw [specifier']
      cases sub with
      | nil => simpa using Wants.closed names
      | cons c sub =>
        have filled : String.ofList (c :: sub) ≠ "" := by simp
        exact .part names filled

theorem splitScope?_eq_some {specifier lead rest : List Char} : splitScope? specifier = some (lead, rest) ↔
    (specifier.head? ≠ some '@' ∧ lead = [] ∧ rest = specifier) ∨
      ∃ scope, '/' ∉ scope ∧ lead = '@' :: scope ++ ['/'] ∧ specifier = '@' :: scope ++ '/' :: rest := by
  unfold splitScope?
  constructor
  · intro split
    split at split
    · next marked =>
      obtain ⟨⟨first, rest⟩, found, parts⟩ := Option.map_eq_some_iff.mp split
      cases parts
      obtain ⟨rfl, whole⟩ := Text.breakAt?_eq_some.mp found
      cases first with
      | nil => simp at marked
      | cons c scope =>
        obtain rfl : c = '@' := by simpa using marked
        exact .inr ⟨scope, fun member => whole (List.mem_cons_of_mem _ member), rfl, rfl⟩
    · next unscoped =>
      cases split
      exact .inl ⟨unscoped, rfl, rfl⟩
  · rintro (⟨unscoped, rfl, rfl⟩ | ⟨scope, whole, rfl, rfl⟩)
    · rw [if_neg unscoped]
    · have found : Text.breakAt? ['/'] ('@' :: scope ++ '/' :: rest) = some ('@' :: scope, rest) :=
        Text.breakAt?_eq_some.mpr ⟨rfl, by simpa using whole⟩
      rw [if_pos (by rfl), found, Option.map_some]

/-- A package's name is split into the scope and the rest; the specifier has it at its front. -/
theorem splitPackage?_iff {specifier package : String} {subpath : Option String} :
    splitPackage? specifier = some (package, subpath) ↔ ∃ lead rest name sub,
      splitScope? specifier.toList = some (lead, rest) ∧
      (Text.breakAt? ['/'] rest).getD (rest, []) = (name, sub) ∧ lead ++ name ≠ [] ∧
      package = String.ofList (lead ++ name) ∧ subpath = if sub.isEmpty then none else some (String.ofList sub) := by
  unfold splitPackage?
  constructor
  · intro split
    obtain ⟨⟨lead, rest⟩, marked, split⟩ := Option.bind_eq_some_iff.mp split
    dsimp only at split
    split at split
    · cases split
    · next filled =>
      cases split
      exact ⟨lead, rest, _, _, marked, rfl, by rwa [List.isEmpty_iff] at filled, rfl, rfl⟩
  · rintro ⟨lead, rest, name, sub, marked, named, filled, rfl, rfl⟩
    refine Option.bind_eq_some_iff.mpr ⟨(lead, rest), marked, ?_⟩
    dsimp only
    rw [named, if_neg (by simpa using filled)]

theorem splitPackage?_eq_some {specifier package : String} {subpath : Option String} :
    splitPackage? specifier = some (package, subpath) ↔ ∃ typings, Wants specifier package typings subpath := by
  rw [splitPackage?_iff]
  constructor
  · rintro ⟨lead, rest, name, sub, marked, named, filled, rfl, rfl⟩
    obtain ⟨whole, behind⟩ := Text.breakAt?_getD.mp named
    rcases splitScope?_eq_some.mp marked with ⟨unscoped, rfl, rfl⟩ | ⟨scope, first, rfl, split⟩
    · have names : Names (String.ofList name) (String.ofList name) := by
        refine .plain (by simpa using filled) ?_ (by simpa using whole)
        cases name with
        | nil => exact absurd rfl filled
        | cons c name =>
          rcases behind with ⟨behind, -⟩ | behind <;> simpa [behind] using unscoped
      exact ⟨_, wants_iff.mpr ⟨names, sub, by simpa using behind, rfl⟩⟩
    · have names : Names ("@" ++ String.ofList scope ++ "/" ++ String.ofList name)
          (String.ofList scope ++ "__" ++ String.ofList name) := .inScope (by simpa using first) (by simpa using whole)
      have package : String.ofList ('@' :: scope ++ ['/'] ++ name) =
          "@" ++ String.ofList scope ++ "/" ++ String.ofList name := String.toList_inj.mp (by simp)
      refine ⟨_, wants_iff.mpr ⟨package ▸ names, sub, ?_, rfl⟩⟩
      rw [split]
      rcases behind with ⟨rfl, rfl⟩ | rfl
      · exact .inl ⟨by simp, rfl⟩
      · exact .inr (by simp)
  · rintro ⟨typings, wants⟩
    obtain ⟨names, sub, behind, rfl⟩ := wants_iff.mp wants
    cases names with
    | plain filled unscoped whole =>
      refine ⟨[], specifier.toList, package.toList, sub, splitScope?_eq_some.mpr (.inl ⟨?_, rfl, rfl⟩),
        Text.breakAt?_getD.mpr ⟨whole, behind⟩, by simpa using filled, by simp, rfl⟩
      have filled : package.toList ≠ [] := by simpa using filled
      rcases behind with ⟨behind, -⟩ | behind
      · rwa [behind]
      · rwa [behind, List.head?_append_of_ne_nil _ filled]
    | @inScope scope name first second =>
      refine ⟨'@' :: scope.toList ++ ['/'], specifier.toList.drop (scope.toList.length + 2), name.toList, sub,
        splitScope?_eq_some.mpr (.inr ⟨scope.toList, first, rfl, ?_⟩),
        Text.breakAt?_getD.mpr ⟨second, ?_⟩, by simp, String.toList_inj.mp (by simp), rfl⟩
      · rcases behind with ⟨behind, -⟩ | behind <;> simp [behind]
      · rcases behind with ⟨behind, none⟩ | behind
        · exact .inl ⟨by simp [behind], none⟩
        · exact .inr (by simp [behind])

/-- The typings of a package are looked up under the name that goes with it. -/
theorem Names.typings {package typings : String} (names : Names package typings) : typesName package = typings := by
  unfold typesName
  cases names with
  | plain filled unscoped whole =>
    split
    · next both split => exact absurd (by rw [split]; rfl) unscoped
    · rfl
  | @inScope scope name first second =>
    have split : ("@" ++ scope ++ "/" ++ name).toList = '@' :: (scope.toList ++ '/' :: name.toList) := by simp
    have parts : Text.breakAt? ['/'] (scope.toList ++ '/' :: name.toList) = some (scope.toList, name.toList) :=
      Text.breakAt?_eq_some.mpr ⟨rfl, first⟩
    simp [split, parts]

theorem packaged_iff {env : Surroundings} {specifier : String} {directory : Path} {paths : List Path} :
    Packaged env specifier directory paths ↔ packageCandidates env specifier directory = paths := by
  unfold packageCandidates
  constructor
  · rintro (wants | wants | unnamed)
    · obtain ⟨names, -⟩ := wants_iff.mp wants
      rw [splitPackage?_eq_some.mpr ⟨_, wants⟩]
      dsimp only
      rw [names.typings]
      rfl
    · obtain ⟨names, -⟩ := wants_iff.mp wants
      rw [splitPackage?_eq_some.mpr ⟨_, wants⟩]
      dsimp only
      rw [names.typings]
      simp
    · cases split : splitPackage? specifier with
      | none => rfl
      | some parts =>
        obtain ⟨typings, wants⟩ := splitPackage?_eq_some.mp split
        exact absurd wants (unnamed _ _ _)
  · rintro rfl
    cases split : splitPackage? specifier with
    | none =>
      refine .nothing fun package typings part wants => ?_
      rw [splitPackage?_eq_some.mpr ⟨_, wants⟩] at split
      cases split
    | some parts =>
      obtain ⟨package, part⟩ := parts
      obtain ⟨typings, wants⟩ := splitPackage?_eq_some.mp split
      obtain ⟨names, -⟩ := wants_iff.mp wants
      dsimp only
      rw [names.typings]
      cases part with
      | some part => exact .part wants
      | none => simpa using Packaged.entry wants

theorem candidates_iff {scope : Scope} {env : Surroundings} {specifier : String} {directory : Path} {paths : List Path} :
    Candidates scope env specifier directory paths ↔ candidates scope env specifier directory = paths := by
  unfold candidates
  constructor
  · rintro (relative | absolute | ⟨placeless, rootless, aliases, packages⟩)
    · rw [isRelative_iff.mpr relative]
      rfl
    · rw [absolute, Bool.or_true, if_pos rfl, Overlay.join_absolute directory absolute]
    · rw [rootless, Bool.eq_false_iff.mpr (mt isRelative_iff.mp placeless), aliasCandidates, aliased_iff.mp aliases,
        packaged_iff.mp packages]
      rfl
  · rintro rfl
    split
    · next placed =>
      rcases Bool.or_eq_true _ _ ▸ placed with relative | absolute
      · exact .relative (isRelative_iff.mp relative)
      · rw [Overlay.join_absolute directory absolute]
        exact .absolute absolute
    · next unplaced =>
      rw [Bool.or_eq_true, not_or, Bool.not_eq_true, Bool.not_eq_true] at unplaced
      exact .bare (mt isRelative_iff.mpr (by simp [unplaced.1])) unplaced.2 (aliased_iff.mpr rfl) (packaged_iff.mpr rfl)

theorem stripEnding?_eq_some {text ending stem : String} :
    stripEnding? text ending = some stem ↔ text = stem ++ ending := by
  unfold stripEnding?
  constructor
  · intro strips
    dsimp only at strips
    split at strips <;> cases strips
    next ends =>
      obtain ⟨front, whole⟩ := List.isSuffixOf_iff_suffix.mp ends
      rw [← whole, List.length_append, String.length_toList, Nat.add_sub_cancel, List.take_left]
      exact String.toList_inj.mp (by simp [← whole])
  · rintro rfl
    have ends : ending.toList.isSuffixOf (stem ++ ending).toList := List.isSuffixOf_iff_suffix.mpr (by simp)
    have length : (stem ++ ending).toList.length - ending.length = stem.toList.length := by
      rw [String.toList_append, List.length_append, ← String.length_toList, Nat.add_sub_cancel]
    dsimp only
    rw [if_pos ends, length]
    simp

theorem compiledEndings_apart : ∀ one ∈ compiledEndings, ∀ other ∈ compiledEndings,
    one.toList <:+ other.toList → one = other := by
  decide

theorem compiledFrom_eq_some {text script : String} :
    compiledEndings.findSome? (stripEnding? text) = some script ↔
      ∃ ending ∈ compiledEndings, text = script ++ ending := by
  constructor
  · intro found
    obtain ⟨ending, known, strips⟩ := List.exists_of_findSome?_eq_some found
    exact ⟨ending, known, stripEnding?_eq_some.mp strips⟩
  · rintro ⟨ending, known, ends⟩
    cases found : compiledEndings.findSome? (stripEnding? text) with
    | none =>
      have strips := List.findSome?_eq_none_iff.mp found ending known
      rw [stripEnding?_eq_some.mpr ends] at strips
      cases strips
    | some other =>
      obtain ⟨ending', known', strips⟩ := List.exists_of_findSome?_eq_some found
      have ends' := stripEnding?_eq_some.mp strips
      have suffix : ending.toList <:+ text.toList := ⟨script.toList, by simp [ends]⟩
      have suffix' : ending'.toList <:+ text.toList := ⟨other.toList, by simp [ends']⟩
      obtain rfl : ending = ending' := by
        rcases List.suffix_or_suffix_of_suffix suffix suffix' with inner | inner
        · exact compiledEndings_apart ending known ending' known' inner
        · exact (compiledEndings_apart ending' known' ending known inner).symm
      rw [ends] at ends'
      exact congrArg some (by simpa using ends'.symm)

theorem spelled_iff {allowJs : Bool} {candidate : Path} {paths : List Path} :
    Spelled allowJs candidate paths ↔ spellings allowJs candidate = paths := by
  unfold spellings
  constructor
  · rintro (⟨known, ends⟩ | uncompiled)
    · rw [compiledFrom_eq_some.mpr ⟨_, known, ends⟩]
      simp
    · have none : compiledEndings.findSome? (stripEnding? candidate.text) = none :=
        Option.eq_none_iff_forall_ne_some.mpr fun script found => by
          obtain ⟨ending, known, ends⟩ := compiledFrom_eq_some.mp found
          exact uncompiled ending known script ends
      rw [none]
      simp
  · rintro rfl
    cases found : compiledEndings.findSome? (stripEnding? candidate.text) with
    | some script =>
      obtain ⟨ending, known, ends⟩ := compiledFrom_eq_some.mp found
      simpa using Spelled.compiled known ends
    | none =>
      have uncompiled : ∀ ending ∈ compiledEndings, ∀ script, candidate.text ≠ script ++ ending :=
        fun ending known script ends => by
          rw [compiledFrom_eq_some.mpr ⟨ending, known, ends⟩] at found
          cases found
      have spelled : Spelled allowJs candidate _ := .other uncompiled
      simpa using spelled

/-- There is one list of the paths that a specifier can stand for. -/
theorem listed_iff {scope : Scope} {env : Surroundings} {specifier : String} {directory : Path} {ps : List Path} :
    Listed scope env specifier directory ps ↔ ps = paths scope env specifier directory := by
  have spelled_all {candidates : List Path} {spelled : List (List Path)} :
      Forall₂ (Spelled scope.settings.allowJs) candidates spelled ↔
        candidates.map (spellings scope.settings.allowJs) = spelled :=
    forall₂_iff_map fun _ _ => spelled_iff.symm
  unfold Listed paths
  constructor
  · rintro ⟨cs, spelled, listed, each, rfl⟩
    rw [← spelled_all.mp each, ← candidates_iff.mp listed]
    rfl
  · rintro rfl
    exact ⟨_, _, candidates_iff.mpr rfl, spelled_all.mpr rfl, rfl⟩

end Resolution

namespace Overlay

open Resolution (Listed)

variable {env : Surroundings} {o m : Overlay}

/-- The first of some paths that exists. Only when the parsers break off on a path before there is no
answer. -/
inductive FirstOf (env : Surroundings) (o : Overlay) (paths : List Path) : Except Failure (Option Path) → Prop where
  | none (missing : ∀ p ∈ paths, (fileExists env p o).1 = .ok false) : FirstOf env o paths (.ok none)
  | found {before after : List Path} {p : Path} (split : paths = before ++ p :: after)
      (missing : ∀ q ∈ before, (fileExists env q o).1 = .ok false) (there : (fileExists env p o).1 = .ok true) :
      FirstOf env o paths (.ok (some p))
  | broken {before after : List Path} {p : Path} {message : Option String} (split : paths = before ++ p :: after)
      (missing : ∀ q ∈ before, (fileExists env q o).1 = .ok false)
      (fault : (fileExists env p o).1 = .error (.fault message)) : FirstOf env o paths (.error (.fault message))

theorem FirstOf.cons {p : Path} {rest : List Path} {answer : Except Failure (Option Path)}
    (missing : (fileExists env p o).1 = .ok false) (later : FirstOf env o rest answer) :
    FirstOf env o (p :: rest) answer := by
  have absent {before : List Path} (others : ∀ q ∈ before, (fileExists env q o).1 = .ok false) :
      ∀ q ∈ p :: before, (fileExists env q o).1 = .ok false := List.forall_mem_cons.mpr ⟨missing, others⟩
  cases later with
  | none others => exact .none (absent others)
  | found split others there => exact .found (congrArg (p :: ·) split) (absent others) there
  | broken split others fault => exact .broken (congrArg (p :: ·) split) (absent others) fault

/-- Probing the paths one after the other does not change which of them exist. -/
theorem firstExisting_firstOf (paths : List Path) (demands : Demands env o m) :
    FirstOf env o paths (firstExisting env paths m).1 := by
  induction paths generalizing m with
  | nil => exact .none nofun
  | cons p rest ih =>
    have probed : (fileExists env p o).1 = (fileExists env p m).1 :=
      demands.agrees.fileExists (Path.same_iff.mpr rfl)
    have later := fileExists_demands env p m
    have unrefused := (fileExists_ends env p m).1.unrefused
    unfold Action.Ends at later
    cases run : fileExists env p m with
    | mk answer after =>
      rw [run] at probed later unrefused
      rw [firstExisting]
      cases answer with
      | error failure =>
        rw [Action.bind_error run]
        cases failure with
        | error e => exact absurd ⟨e, rfl⟩ unrefused
        | fault message => exact .broken (List.nil_append _).symm nofun probed
      | ok there =>
        rw [Action.bind_ok run]
        cases there with
        | true => exact .found (List.nil_append _).symm nofun probed
        | false => exact (ih (demands.trans later)).cons probed

/-- In any overlay, under any settings, for any specifier and importing directory: the paths that the
specifier can stand for form one list, the search without kept answers gives the first of them that
exists, or none when none exists, and the probes on the way leave every path existing or missing as it
was. -/
theorem resolveUncached_first (env : Surroundings) (o : Overlay) (specifier : String) (directory : Path) :
    ∃ paths, (∀ others, Listed o.scope env specifier directory others ↔ others = paths) ∧
      FirstOf env o paths (resolveUncached env specifier directory o).1 ∧
      ∀ p, (fileExists env p (resolveUncached env specifier directory o).2).1 = (fileExists env p o).1 := by
  refine ⟨Resolution.paths o.scope env specifier directory, fun others => Resolution.listed_iff, ?_, fun p => ?_⟩
  · rw [resolveUncached_eq]
    exact firstExisting_firstOf _ .refl
  · have demands : Demands env o (resolveUncached env specifier directory o).2 :=
      resolveUncached_demands env specifier directory o
    exact (demands.agrees.fileExists (Path.same_iff.mpr rfl)).symm

end Overlay
end SvelteLens.Service
