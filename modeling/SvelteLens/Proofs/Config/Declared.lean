import SvelteLens.Proofs.Basics
import SvelteLens.Proofs.Config.Globs
import SvelteLens.Proofs.FileTree
import SvelteLens.Proofs.Service.Tables

/-! The files that a configuration declares. Those that it lists come first; the others are the sources below the root
that a pattern to include takes and no pattern to exclude. -/
namespace SvelteLens

namespace Path

theorem mem_of_mem_distinct {paths : List Path} {p : Path} (member : p ∈ distinct paths) : p ∈ paths := by
  induction paths with
  | nil => exact member
  | cons q rest ih =>
    rcases List.mem_cons.mp member with rfl | later
    · exact List.mem_cons_self
    · exact List.mem_cons_of_mem q (ih (List.mem_of_mem_filter later))

/-- Of paths that are all different, one at most is a spelling of a given one. -/
theorem Distinct.filter_same {paths : List Path} {p q : Path} (apart : Distinct paths) (member : p ∈ paths)
    (same : p.same q = true) : paths.filter (·.same q) = [p] := by
  induction paths with
  | nil => cases member
  | cons r rest ih =>
    obtain ⟨others, later⟩ := List.pairwise_cons.mp apart
    rcases List.mem_cons.mp member with rfl | inside
    · have none : rest.filter (·.same q) = [] := by
        refine List.filter_eq_nil_iff.mpr fun s listed again => ?_
        have twice := others s listed
        rw [same_trans same, same_comm, again] at twice
        cases twice
      rw [List.filter_cons, if_pos same, none]
    · have other : r.same q = false := by
        rw [← others p inside, same_comm r, same_comm r, same_trans same]
      rw [List.filter_cons, other, if_neg Bool.false_ne_true, ih later inside]

end Path

/-- What is asked of a walk: it comes to every file below a directory, and to no other. -/
def Config.Libraries.Walks (libs : Libraries) : Prop :=
  ∀ {tree : FileTree} {root : Path} {place : List String}, tree.locate? root = some place →
    ∀ names, names ∈ libs.walk tree root ↔ names ≠ [] ∧ place ++ names ∈ tree.files.map Prod.fst

theorem Config.Libraries.standard_walks : standard.Walks := fun here _ => FileTree.mem_walk here

namespace Config.ProjectFile

variable {libs : Libraries} {f : ProjectFile} {tree : FileTree} {root : Path} {allowJs : Bool} {ps : List Path}

def listed (f : ProjectFile) (root : Path) : List Path := (f.files.getD []).map fun file => (root.join ⟨file⟩).normalize

/-- Whether a path below the root is included and not excluded. -/
def picks (libs : Libraries) (f : ProjectFile) (text : String) : Bool :=
  f.included.any (libs.takes · text) && !f.exclusions.any (libs.takes · text)

/-- The sources that a walk leads to and the patterns pick. -/
def found (libs : Libraries) (f : ProjectFile) (tree : FileTree) (root : Path) (allowJs : Bool) : List Path :=
  (FileTree.unhidden root (libs.walk tree root)).filter fun p =>
    isSource allowJs p && (p.stripBase? root).any fun relative => f.picks libs relative.text

/-- Patterns are read when each of them is a glob, and then they are read in order. -/
theorem globs_eq_ok {patterns : List String} {read : List (String → Bool)} :
    globs libs patterns = .ok read ↔ patterns.map (fun pattern => libs.glob? (globText pattern)) = read.map some := by
  induction patterns generalizing read with
  | nil =>
    have none : globs libs [] = .ok [] := rfl
    rw [none, List.map_nil, Except.ok.injEq, eq_comm, eq_comm (a := []), List.map_eq_nil_iff]
  | cons pattern patterns ih =>
    unfold globs at ih ⊢
    rw [List.mapM_cons, chain_ok, List.map_cons]
    cases glob : libs.glob? (globText pattern) with
    | none =>
      refine iff_of_false (fun ⟨_, step, _⟩ => by cases step) fun same => ?_
      cases read <;> cases same
    | some g =>
      constructor
      · rintro ⟨g', step, rest⟩
        cases step
        obtain ⟨later, more, same⟩ := chain_ok.mp rest
        cases same
        rw [ih.mp more]
        rfl
      · intro same
        cases read with
        | nil => cases same
        | cons g' later =>
          obtain ⟨first, more⟩ := List.cons_eq_cons.mp same
          cases first
          exact ⟨g, rfl, chain_ok.mpr ⟨later, ih.mpr more, rfl⟩⟩

theorem globs_ok_iff {patterns : List String} : (∃ read, globs libs patterns = .ok read) ↔ ∀ p ∈ patterns, libs.IsGlob p := by
  simp only [globs_eq_ok]
  constructor
  · rintro ⟨read, same⟩ p member
    have glob : libs.glob? (globText p) ∈ read.map some := same ▸ List.mem_map.mpr ⟨p, member, rfl⟩
    obtain ⟨g, -, own⟩ := List.mem_map.mp glob
    rw [Libraries.IsGlob, ← own, Option.isSome_some]
  · intro all
    induction patterns with
    | nil => exact ⟨[], rfl⟩
    | cons p patterns ih =>
      obtain ⟨g, own⟩ := Option.isSome_iff_exists.mp (all p List.mem_cons_self)
      obtain ⟨later, more⟩ := ih fun q member => all q (List.mem_cons_of_mem p member)
      exact ⟨g :: later, by rw [List.map_cons, List.map_cons, own, more]⟩

theorem globs_takes {patterns : List String} {read : List (String → Bool)} (ok : globs libs patterns = .ok read)
    (text : String) : read.any (· text) = patterns.any (libs.takes · text) := by
  have same := congrArg (fun gs : List (Option (String → Bool)) => gs.any (·.any (· text))) (globs_eq_ok.mp ok)
  simp only [List.any_map, Function.comp_def, Option.any_some] at same
  simp only [Libraries.takes, same]

/-- The files are declared when all patterns are globs; without a pattern to include, none is read. -/
theorem declaredBy_ok_iff : (∃ ps, f.declaredBy libs tree root allowJs = .ok ps) ↔
    f.included = [] ∨ ∀ p ∈ f.included ++ f.exclusions, libs.IsGlob p := by
  simp only [List.forall_mem_append, ← globs_ok_iff]
  unfold declaredBy
  cases none : f.included.isEmpty with
  | true => exact iff_of_true ⟨_, rfl⟩ (.inl (List.isEmpty_iff.mp none))
  | false =>
    have filled : f.included ≠ [] := List.isEmpty_eq_false_iff.mp none
    simp only [Bool.false_eq_true, if_false, chain_ok, filled, false_or]
    constructor
    · rintro ⟨ps, included, first, excluded, second, -⟩
      exact ⟨⟨included, first⟩, excluded, second⟩
    · rintro ⟨⟨included, first⟩, excluded, second⟩
      exact ⟨_, included, first, excluded, second, rfl⟩

/-- The files that are listed come first, then those that the patterns pick. -/
theorem declaredBy_eq (ok : f.declaredBy libs tree root allowJs = .ok ps) :
    ps = Path.distinct (f.listed root ++ f.found libs tree root allowJs) := by
  unfold declaredBy at ok
  cases none : f.included.isEmpty with
  | true =>
    have nothing (text : String) : f.picks libs text = false := by rw [picks, List.isEmpty_iff.mp none]; rfl
    simp only [none, if_true] at ok
    cases ok
    simp [nothing, listed, found]
  | false =>
    simp only [none, Bool.false_eq_true, if_false, chain_ok] at ok
    obtain ⟨included, first, excluded, second, whole⟩ := ok
    cases whole
    simp only [globs_takes first, globs_takes second]
    rfl

/-- A source below the root that the patterns pick, by the names that lead to it. -/
structure Picked (libs : Libraries) (f : ProjectFile) (tree : FileTree) (root : Path) (allowJs : Bool)
    (place names : List String) : Prop where
  inside : names ≠ []
  file : place ++ names ∈ tree.files.map Prod.fst
  shown : FileTree.Shown root names
  source : isSource allowJs (root.descend names) = true
  picked : f.picks libs ("/".intercalate names) = true

section Placed

variable {place names : List String} {p : Path}

theorem mem_found (walks : libs.Walks) (named : tree.Named) (here : tree.locate? root = some place) :
    p ∈ f.found libs tree root allowJs ↔ ∃ names, f.Picked libs tree root allowJs place names ∧ p = root.descend names := by
  have stripped {names : List String} (inside : names ≠ []) (file : place ++ names ∈ tree.files.map Prod.fst) :
      (root.descend names).stripBase? root = some ⟨"/".intercalate names⟩ :=
    Path.stripBase?_descend (named.below file) inside (FileTree.filled_of_locate? here)
  rw [found, List.mem_filter, FileTree.mem_unhidden, Bool.and_eq_true]
  constructor
  · rintro ⟨⟨names, visited, shown, rfl⟩, source, picked⟩
    obtain ⟨inside, file⟩ := (walks here names).mp visited
    rw [stripped inside file] at picked
    exact ⟨names, ⟨inside, file, shown, source, picked⟩, rfl⟩
  · rintro ⟨names, h, rfl⟩
    refine ⟨⟨names, (walks here names).mpr ⟨h.inside, h.file⟩, h.shown, rfl⟩, h.source, ?_⟩
    rw [stripped h.inside h.file]
    exact h.picked

theorem listed_or_picked (walks : libs.Walks) (named : tree.Named) (ok : f.declaredBy libs tree root allowJs = .ok ps)
    (here : tree.locate? root = some place) (member : p ∈ ps) :
    p ∈ f.listed root ∨ ∃ names, f.Picked libs tree root allowJs place names ∧ p = root.descend names := by
  rw [declaredBy_eq ok] at member
  exact (List.mem_append.mp (Path.mem_of_mem_distinct member)).imp_right (mem_found walks named here).mp

theorem Picked.declared (h : f.Picked libs tree root allowJs place names) (walks : libs.Walks) (named : tree.Named)
    (ok : f.declaredBy libs tree root allowJs = .ok ps) (here : tree.locate? root = some place) :
    ∃ p ∈ ps, p.same (root.descend names) = true ∧ ps.filter (·.same (root.descend names)) = [p] := by
  have found : root.descend names ∈ f.found libs tree root allowJs :=
    (mem_found walks named here).mpr ⟨names, h, rfl⟩
  have present : (root.descend names).isIn ps = true := by
    rw [declaredBy_eq ok, Path.isIn_distinct, Path.isIn, List.any_eq_true]
    exact ⟨_, List.mem_append_right _ found, by simp [Path.same]⟩
  obtain ⟨p, member, same⟩ := List.any_eq_true.mp present
  have apart : Path.Distinct ps := declaredBy_eq ok ▸ Path.distinct_distinct _
  exact ⟨p, member, same, apart.filter_same member same⟩

/-- What lies under a directory that is excluded as a whole is not declared unless it is listed. -/
theorem excluded_directory_undeclared {entry : String} {more : List String} (reads : libs.ReadsGlobs) (walks : libs.Walks)
    (named : tree.Named) (directory : DirectoryEntry entry names) (bare : ¬Dotted names) (excluded : entry ∈ f.exclusions)
    (ok : f.declaredBy libs tree root allowJs = .ok ps) (here : tree.locate? root = some place) (inside : more ≠ [])
    (member : p ∈ ps) (below : tree.locate? p = some (place ++ (names ++ more))) : p ∈ f.listed root := by
  rcases listed_or_picked walks named ok here member with listed | ⟨own, h, rfl⟩
  · exact listed
  · have same := FileTree.locate?_descend (named.below h.file) here h.file
    rw [below, Option.some.injEq, List.append_cancel_left_eq] at same
    have taken : libs.takes entry ("/".intercalate own) = true := same ▸ (directory.takes_below reads inside).mpr bare
    have unpicked := h.picked
    rw [picks, Bool.and_eq_true, Bool.not_eq_true', List.any_eq_false] at unpicked
    exact absurd taken (unpicked.2 entry excluded)

theorem picked_of_included {entry : String} {more : List String} (reads : libs.ReadsGlobs)
    (directory : DirectoryEntry entry names) (bare : ¬Dotted names) (included : entry ∈ f.included) (inside : more ≠ [])
    (file : place ++ (names ++ more) ∈ tree.files.map Prod.fst) (shown : FileTree.Shown root (names ++ more))
    (source : isSource allowJs (root.descend (names ++ more)) = true)
    (kept : ∀ pattern ∈ f.exclusions, libs.takes pattern ("/".intercalate (names ++ more)) = false) :
    f.Picked libs tree root allowJs place (names ++ more) := by
  refine ⟨by simp [inside], file, shown, source, ?_⟩
  rw [picks, Bool.and_eq_true, Bool.not_eq_true', List.any_eq_true, List.any_eq_false]
  exact ⟨⟨entry, included, (directory.takes_below reads inside).mpr bare⟩, fun pattern member => by simp [kept pattern member]⟩

/-- Under a root in normal form, two declared paths that lead to one file are one path. -/
theorem same_of_located (walks : libs.Walks) (named : tree.Named) (ok : f.declaredBy libs tree root allowJs = .ok ps)
    (here : tree.locate? root = some place) (normal : root.normalize = root) (member : p ∈ ps)
    (file : place ++ names ∈ tree.files.map Prod.fst) (found : tree.locate? p = some (place ++ names)) :
    p.same (root.descend names) = true := by
  rcases listed_or_picked walks named ok here member with listed | ⟨own, h, rfl⟩
  · obtain ⟨file', -, rfl⟩ := List.mem_map.mp listed
    have absolute := FileTree.absolute_of_locate? here
    obtain ⟨ns, nameable, resolved⟩ := Path.normalize_rooted (Path.isAbsolute_join absolute ⟨file'⟩)
    obtain ⟨rs, nameable', rfl⟩ := Path.rooted_of_normal absolute normal
    obtain rfl := FileTree.locate?_rooted nameable' here
    rw [resolved] at found ⊢
    obtain rfl := FileTree.locate?_rooted nameable found
    rw [Path.same_iff, Path.rooted_components nameable,
      Path.descend_components (named.below file) (FileTree.filled_of_locate? here), Path.rooted_components nameable',
      List.map_append, List.cons_append]
  · have same := FileTree.locate?_descend (named.below h.file) here h.file
    rw [found, Option.some.injEq, List.append_cancel_left_eq] at same
    simp [Path.same, same]

theorem isIn_declared (walks : libs.Walks) (named : tree.Named) (ok : f.declaredBy libs tree root allowJs = .ok ps)
    (here : tree.locate? root = some place) (file : place ++ names ∈ tree.files.map Prod.fst) :
    (root.descend names).isIn ps = true ↔
      (root.descend names).isIn (f.listed root) = true ∨ f.Picked libs tree root allowJs place names := by
  have filled := FileTree.filled_of_locate? here
  rw [declaredBy_eq ok, Path.isIn_distinct, Path.isIn_append, Bool.or_eq_true]
  refine or_congr_right ?_
  rw [Path.isIn, List.any_eq_true]
  constructor
  · rintro ⟨p, member, same⟩
    obtain ⟨own, h, rfl⟩ := (mem_found walks named here).mp member
    rw [Path.same_iff, Path.descend_components (named.below h.file) filled,
      Path.descend_components (named.below file) filled, List.append_cancel_left_eq] at same
    exact List.map_injective_iff.mpr (fun _ _ => Component.name.inj) same ▸ h
  · exact fun h => ⟨_, (mem_found walks named here).mpr ⟨names, h, rfl⟩, by simp [Path.same]⟩

end Placed

section Without

variable {entry text : String}

def without (f : ProjectFile) (entry : String) : ProjectFile :=
  { f with
    inclusions := f.inclusions.map (·.filter (· ≠ entry))
    exclusions := f.exclusions.filter (· ≠ entry) }

theorem any_without (untaken : libs.takes entry text = false) (patterns : List String) :
    (patterns.filter (· ≠ entry)).any (libs.takes · text) = patterns.any (libs.takes · text) := by
  rw [List.any_filter, Bool.eq_iff_iff, List.any_eq_true, List.any_eq_true]
  refine exists_congr fun pattern => and_congr_right fun _ => ?_
  rw [Bool.and_eq_true, and_iff_right_iff_imp]
  rintro taken
  refine decide_eq_true fun same => ?_
  rw [same, untaken] at taken
  cases taken

theorem picks_without (untaken : libs.takes entry text = false) : (f.without entry).picks libs text = f.picks libs text := by
  have included : (f.without entry).included.any (libs.takes · text) = f.included.any (libs.takes · text) := by
    unfold included without
    cases f.inclusions with
    | none => rfl
    | some patterns => exact any_without untaken patterns
  rw [picks, picks, included]
  exact congrArg (fun taken => _ && !taken) (any_without untaken f.exclusions)

theorem picked_without {place names : List String} (untaken : libs.takes entry ("/".intercalate names) = false) :
    (f.without entry).Picked libs tree root allowJs place names ↔ f.Picked libs tree root allowJs place names := by
  constructor
  · exact fun h => ⟨h.inside, h.file, h.shown, h.source, (picks_without untaken).symm.trans h.picked⟩
  · exact fun h => ⟨h.inside, h.file, h.shown, h.source, (picks_without untaken).trans h.picked⟩

end Without

/-- A directory without a dot in its name is taken as a whole: where it is excluded, no file below it is declared that
is not listed, and where it is included, every source below it is declared once that is neither excluded nor hidden. A
directory with a dot in its name is taken for a file, and then the files below it are declared as without it. -/
theorem directories_declared_whole (reads : libs.ReadsGlobs) (walks : libs.Walks) (f : ProjectFile) (named : tree.Named)
    {entry : String} {names place : List String} (directory : DirectoryEntry entry names)
    (here : tree.locate? root = some place) (allowJs : Bool) :
    ((∃ ps, f.declaredBy libs tree root allowJs = .ok ps) ↔
        f.included = [] ∨ ∀ p ∈ f.included ++ f.exclusions, libs.IsGlob p) ∧
      libs.IsGlob entry ∧
      ∀ ps, f.declaredBy libs tree root allowJs = .ok ps → ∀ more, more ≠ [] →
        (¬Dotted names →
          (entry ∈ f.exclusions → ∀ p ∈ ps, tree.locate? p = some (place ++ (names ++ more)) → p ∈ f.listed root) ∧
          (entry ∈ f.included → place ++ (names ++ more) ∈ tree.files.map Prod.fst →
            FileTree.Shown root (names ++ more) → isSource allowJs (root.descend (names ++ more)) = true →
            (∀ pattern ∈ f.exclusions, libs.takes pattern ("/".intercalate (names ++ more)) = false) →
            ∃ p, ps.filter (·.same (root.descend (names ++ more))) = [p] ∧
              (root.normalize = root → ps.filter (tree.locate? · = some (place ++ (names ++ more))) = [p]))) ∧
        (Dotted names → place ++ (names ++ more) ∈ tree.files.map Prod.fst →
          ∀ qs, (f.without entry).declaredBy libs tree root allowJs = .ok qs →
            (root.descend (names ++ more)).isIn ps = (root.descend (names ++ more)).isIn qs) := by
  refine ⟨declaredBy_ok_iff, directory.isGlob reads, fun ps ok more inside => ⟨fun bare => ⟨?_, ?_⟩, ?_⟩⟩
  · intro excluded p member below
    exact excluded_directory_undeclared reads walks named directory bare excluded ok here inside member below
  · intro included file shown source kept
    have h := picked_of_included reads directory bare included inside file shown source kept
    obtain ⟨p, member, same, single⟩ := h.declared walks named ok here
    refine ⟨p, single, fun normal => ?_⟩
    have located : tree.locate? (root.descend (names ++ more)) = some (place ++ (names ++ more)) :=
      FileTree.locate?_descend (named.below file) here file
    rw [← single]
    refine List.filter_congr fun q listed => ?_
    rw [Bool.eq_iff_iff, decide_eq_true_iff]
    exact ⟨same_of_located walks named ok here normal listed file, fun same => (tree.locate?_congr same).trans located⟩
  · intro dotted file qs ok'
    have untaken : libs.takes entry ("/".intercalate (names ++ more)) = false :=
      Bool.eq_false_iff.mpr fun taken => (directory.takes_below reads inside).mp taken dotted
    rw [Bool.eq_iff_iff, isIn_declared walks named ok here file, isIn_declared walks named ok' here file,
      picked_without untaken]
    rfl

/-- One directory is included and another below it excluded. -/
theorem directories_declared_whole_nested :
    let f : ProjectFile := ⟨.defaults, none, some ["./src/"], ["src/generated"]⟩
    let tree : FileTree := ⟨[(["ws", "src", "a.ts"], .text ""), (["ws", "src", "generated", "b.ts"], .text "")], []⟩
    tree.Named ∧ tree.locate? ⟨"/ws"⟩ = some ["ws"] ∧ f.declared tree ⟨"/ws"⟩ false = .ok [⟨"/ws/src/a.ts"⟩] ∧
      (∃ p, [⟨"/ws/src/a.ts"⟩].filter (tree.locate? · = some ["ws", "src", "a.ts"]) = [p]) ∧
      ∀ p ∈ [⟨"/ws/src/a.ts"⟩], tree.locate? p = some ["ws", "src", "generated", "b.ts"] → p ∈ f.listed ⟨"/ws"⟩ := by
  intro f tree
  have named : tree.Named := by decide +kernel
  have here : tree.locate? ⟨"/ws"⟩ = some ["ws"] := by decide +kernel
  have ok : f.declared tree ⟨"/ws"⟩ false = .ok [⟨"/ws/src/a.ts"⟩] := by decide +kernel
  have source : DirectoryEntry "./src/" ["src"] := ⟨by decide, by decide +kernel, by decide +kernel, 1, 1, by decide +kernel⟩
  have generated : DirectoryEntry "src/generated" ["src", "generated"] :=
    ⟨by decide, by decide +kernel, by decide +kernel, 0, 0, by decide +kernel⟩
  have whole {entry : String} {names : List String} (directory : DirectoryEntry entry names) :=
    directories_declared_whole Libraries.standard_readsGlobs Libraries.standard_walks f named directory here false
  have both := (whole source).2.2 _ ok ["a.ts"] (by decide)
  have apart := (whole generated).2.2 _ ok ["b.ts"] (by decide)
  have normal : (⟨"/ws"⟩ : Path).normalize = ⟨"/ws"⟩ := by decide +kernel
  have shown : FileTree.Shown ⟨"/ws"⟩ ["src", "a.ts"] := ⟨by decide +kernel, by decide +kernel⟩
  obtain ⟨p, -, single⟩ := (both.1 (by decide +kernel)).2 (by decide) (by decide +kernel) shown (by decide +kernel)
    (by decide +kernel)
  exact ⟨named, here, ok, ⟨p, single normal⟩, (apart.1 (by decide +kernel)).1 (by decide)⟩

theorem hidden_directory_not_excluded : DirectoryEntry ".svelte-kit" [".svelte-kit"] ∧
    declared ⟨.defaults, none, none, [".svelte-kit"]⟩ ⟨[(["ws", ".svelte-kit", "a.ts"], .text "")], []⟩ ⟨"/ws"⟩ false =
      .ok [⟨"/ws/.svelte-kit/a.ts"⟩] :=
  ⟨⟨by decide, by decide +kernel, by decide +kernel, 0, 0, by decide +kernel⟩, by decide +kernel⟩

theorem versioned_directory_not_included : DirectoryEntry "v1.2" ["v1.2"] ∧
    declared ⟨.defaults, none, some ["v1.2"], []⟩ ⟨[(["ws", "v1.2", "a.ts"], .text "")], []⟩ ⟨"/ws"⟩ false = .ok [] :=
  ⟨⟨by decide, by decide +kernel, by decide +kernel, 0, 0, by decide +kernel⟩, by decide +kernel⟩

end Config.ProjectFile
end SvelteLens
