import SvelteLens.Config.Discovery
import SvelteLens.Proofs.FileTree
import SvelteLens.Proofs.Path.Ascent
import SvelteLens.Proofs.Text.Cuts

/-! Which configuration governs a file. The search goes up from the file's directory and stops at a root; the root is
picked by the length of its text. Said without the walk: of the directories above the file that lie inside every root
around it, the lowest one that has a configuration decides. -/
namespace SvelteLens.Config

open SvelteLens.Path (Below Siblings Unspelled startsWith_iff same_iff rooted)

/-- The configuration file of a directory. The one for typed scripts comes first. -/
inductive ConfigOf (isFile : Path → Bool) (d : Path) : Path → Prop where
  | typed : isFile (d.join ⟨"tsconfig.json"⟩) = true → ConfigOf isFile d (d.join ⟨"tsconfig.json"⟩)
  | untyped : isFile (d.join ⟨"tsconfig.json"⟩) = false → isFile (d.join ⟨"jsconfig.json"⟩) = true →
      ConfigOf isFile d (d.join ⟨"jsconfig.json"⟩)

/-- A directory that may govern a file: it is above the file and inside every root around the file, and so inside the
innermost one. Directories are read off the spelling, where `..` is a component like any other. -/
structure InReach (roots : List Path) (file d : Path) : Prop where
  above : d ∈ file.parents
  inside : ∀ root ∈ roots, file.startsWith root = true → d.startsWith root = true

/-- The scope of a file: the configuration of the lowest directory in reach that has one, or the inferred scope. -/
inductive Governs (isFile : Path → Bool) (roots : List Path) (file : Path) : ScopeId → Prop where
  | nearest : InReach roots file d → ConfigOf isFile d p →
      (∀ e q, InReach roots file e → ConfigOf isFile e q → d.startsWith e = true) → Governs isFile roots file ⟨some p⟩
  | inferred : (∀ e q, InReach roots file e → ¬ConfigOf isFile e q) → Governs isFile roots file .inferred

/-- A workspace root as the client gives it: absolute, without dots to resolve, and not the file itself. -/
structure RootFor (file root : Path) : Prop where
  absolute : root.isAbsolute = true
  normal : root.normalize = root
  apart : root.same file = false

instance (file root : Path) : Decidable (RootFor file root) :=
  decidable_of_iff (root.isAbsolute = true ∧ root.normalize = root ∧ root.same file = false)
    ⟨fun h => ⟨h.1, h.2.1, h.2.2⟩, fun h => ⟨h.absolute, h.normal, h.apart⟩⟩

variable {isFile : Path → Bool} {roots : List Path} {file other d e p root best : Path} {id : ScopeId}

def configIn? (isFile : Path → Bool) (d : Path) : Option Path := (configNames.map fun name => d.join ⟨name⟩).find? isFile

theorem configIn?_eq_some : configIn? isFile d = some p ↔ ConfigOf isFile d p := by
  have names : configIn? isFile d = [d.join ⟨"tsconfig.json"⟩, d.join ⟨"jsconfig.json"⟩].find? isFile := rfl
  rw [names, List.find?_cons, List.find?_cons, List.find?_nil]
  constructor
  · intro found
    cases typed : isFile (d.join ⟨"tsconfig.json"⟩) with
    | true =>
      rw [typed] at found
      cases found
      exact .typed typed
    | false =>
      rw [typed] at found
      cases untyped : isFile (d.join ⟨"jsconfig.json"⟩) with
      | true =>
        rw [untyped] at found
        cases found
        exact .untyped typed untyped
      | false =>
        rw [untyped] at found
        cases found
  · intro config
    cases config with
    | typed typed => rw [typed]
    | untyped typed untyped => rw [typed, untyped]

theorem configIn?_eq_none : configIn? isFile d = none ↔ ∀ p, ¬ConfigOf isFile d p := by
  simp only [← configIn?_eq_some, Option.eq_none_iff_forall_ne_some, ne_eq]

theorem findConfig_eq (isFile : Path → Bool) (roots : List Path) (file : Path) :
    findConfig isFile roots file = ⟨(searched roots file).findSome? (configIn? isFile)⟩ := by
  unfold findConfig
  rw [List.find?_flatMap]
  rfl

section Root

/-- Of two roots the one with the longer text; of equally long ones the later. -/
def keepLonger (best : Option Path) (root : Path) : Option Path :=
  match best with
  | some b => if b.text.utf8ByteSize ≤ root.text.utf8ByteSize then some root else best
  | none => some root

/-- What is kept of the roots that were read: the one with the longest text. -/
structure Longest (roots : List Path) (best : Option Path) : Prop where
  longest : ∀ b ∈ best, b ∈ roots ∧ ∀ root ∈ roots, root.text.utf8ByteSize ≤ b.text.utf8ByteSize
  none : best = none → roots = []

theorem Longest.step {best : Option Path} (h : Longest roots best) (root : Path) :
    Longest (roots ++ [root]) (keepLonger best root) := by
  cases best with
  | none =>
    rw [h.none rfl]
    exact ⟨fun b same => by cases same; simp, nofun⟩
  | some b =>
    obtain ⟨member, longest⟩ := h.longest b rfl
    rw [keepLonger]
    split
    · next longer =>
      refine ⟨fun c same => ?_, nofun⟩
      cases same
      refine ⟨by simp, fun other inside => ?_⟩
      rcases List.mem_append.mp inside with old | new
      · exact Nat.le_trans (longest other old) longer
      · rw [List.mem_singleton.mp new]
    · next longer =>
      refine ⟨fun c same => ?_, nofun⟩
      cases same
      refine ⟨List.mem_append_left _ member, fun other inside => ?_⟩
      rcases List.mem_append.mp inside with old | new
      · exact longest other old
      · rw [List.mem_singleton.mp new]
        omega

theorem Longest.steps {best : Option Path} (h : Longest roots best) (more : List Path) :
    Longest (roots ++ more) (more.foldl keepLonger best) := by
  induction more generalizing roots best with
  | nil => simpa using h
  | cons root more ih => simpa using ih (h.step root)

theorem innermostRoot?_longest (roots : List Path) (file : Path) :
    Longest (roots.filter file.startsWith) (innermostRoot? roots file) := by
  have start : Longest [] none := ⟨fun b found => absurd found (Option.not_mem_none b), fun _ => rfl⟩
  exact start.steps (roots.filter file.startsWith)

/-- Of two roots around one file, the one with the longer text lies inside the other. -/
theorem RootFor.inside (h : RootFor file root) (k : RootFor file best) (around : file.startsWith root = true)
    (around' : file.startsWith best = true) (longer : root.text.utf8ByteSize ≤ best.text.utf8ByteSize) :
    best.startsWith root = true := by
  obtain ⟨names, nameable, rfl⟩ := Path.rooted_of_normal h.absolute h.normal
  obtain ⟨names', nameable', rfl⟩ := Path.rooted_of_normal k.absolute k.normal
  have whole := Path.rooted_components nameable
  have whole' := Path.rooted_components nameable'
  rw [startsWith_iff] at around around' ⊢
  rcases List.prefix_or_prefix_of_prefix around around' with below | above
  · exact below
  · -- the longer text is then the text of the outer root, so both are one
    rw [whole, whole', List.cons_prefix_cons] at above
    obtain ⟨more, split⟩ := above.2
    obtain ⟨front, back, rfl, named, -⟩ := List.append_eq_map_iff.mp split
    obtain rfl : names' = front := (List.map_injective_iff.mpr fun _ _ => Component.name.inj) named.symm
    obtain ⟨rest, text⟩ := Path.rooted_prefix names' back
    have sizes : (rooted names').text.utf8ByteSize + Text.width rest = (rooted (names' ++ back)).text.utf8ByteSize := by
      rw [← Text.width_toList, ← Text.width_toList, ← text, Text.width_append]
    have none : rest = [] := Text.width_eq_zero (by omega)
    rw [none, List.append_nil] at text
    have same : rooted names' = rooted (names' ++ back) := congrArg Path.mk (String.toList_inj.mp text)
    exact same ▸ List.prefix_refl _

/-- The root at which the search stops lies inside every root around the file. -/
theorem innermostRoot?_inside (valid : ∀ root ∈ roots, RootFor file root) (found : innermostRoot? roots file = some best) :
    best ∈ roots ∧ file.startsWith best = true ∧
      ∀ root ∈ roots, file.startsWith root = true → best.startsWith root = true := by
  obtain ⟨member, longer⟩ := (innermostRoot?_longest roots file).longest best found
  obtain ⟨listed, around⟩ := List.mem_filter.mp member
  refine ⟨listed, around, fun root inside around' => ?_⟩
  exact (valid root inside).inside (valid best listed) around' around (longer root (List.mem_filter.mpr ⟨inside, around'⟩))

end Root

section Search

theorem mem_upTo {ds : List Path} (ordered : ds.Pairwise Below) (stops : ∃ e ∈ ds, e.same best = true) :
    d ∈ upTo (some best) ds ↔ d ∈ ds ∧ d.startsWith best = true := by
  induction ds with
  | nil => simp [upTo]
  | cons first rest ih =>
    obtain ⟨below, ordered⟩ := List.pairwise_cons.mp ordered
    rw [upTo, Option.any_some]
    cases last : first.same best with
    | true =>
      have own : first.components = best.components := same_iff.mp last
      rw [if_pos rfl, List.mem_singleton]
      constructor
      · rintro rfl
        exact ⟨List.mem_cons_self, startsWith_iff.mpr (own ▸ List.prefix_refl _)⟩
      · rintro ⟨member, inside⟩
        rcases List.mem_cons.mp member with rfl | later
        · rfl
        · have shorter := (below d later).2
          have longer := (startsWith_iff.mp inside).length_le
          rw [← own] at longer
          omega
    | false =>
      have later : ∃ e ∈ rest, e.same best = true := by
        obtain ⟨e, member, same⟩ := stops
        rcases List.mem_cons.mp member with rfl | later
        · rw [last] at same
          cases same
        · exact ⟨e, later, same⟩
      rw [if_neg Bool.false_ne_true, List.mem_cons, ih ordered later, List.mem_cons]
      constructor
      · rintro (rfl | ⟨member, inside⟩)
        · obtain ⟨e, member, same⟩ := later
          exact ⟨.inl rfl, startsWith_iff.mpr (same_iff.mp same ▸ (below e member).1)⟩
        · exact ⟨.inr member, inside⟩
      · rintro ⟨rfl | member, inside⟩
        · exact .inl rfl
        · exact .inr ⟨member, inside⟩

theorem upTo_none (ds : List Path) : upTo none ds = ds := by
  induction ds with
  | nil => rfl
  | cons d rest ih => rw [upTo, Option.any_none, if_neg Bool.false_ne_true, ih]

theorem upTo_sublist (boundary : Option Path) (ds : List Path) : (upTo boundary ds).Sublist ds := by
  induction ds with
  | nil => exact .slnil
  | cons d rest ih =>
    rw [upTo]
    split
    · exact (List.nil_sublist rest).cons_cons d
    · exact ih.cons_cons d

theorem parents_filled (absolute : file.isAbsolute = true) :
    file.parents.takeWhile (fun d => !d.text.isEmpty) = file.parents := by
  refine List.takeWhile_eq_self_iff.mpr fun d member => ?_
  obtain ⟨-, -, filled⟩ := (Path.exists_parent_iff absolute).mp ⟨d, member, rfl⟩
  have spelled := mt Path.components_eq_nil.mpr filled
  simpa using spelled

theorem searched_ordered (roots : List Path) (file : Path) : (searched roots file).Pairwise Below :=
  file.parents_ordered.sublist ((upTo_sublist _ _).trans (List.takeWhile_sublist _))

theorem mem_searched (absolute : file.isAbsolute = true) (valid : ∀ root ∈ roots, RootFor file root) :
    d ∈ searched roots file ↔ InReach roots file d := by
  rw [searched, parents_filled absolute]
  cases found : innermostRoot? roots file with
  | none =>
    rw [upTo_none]
    have empty := (innermostRoot?_longest roots file).none found
    refine ⟨fun above => ⟨above, fun root listed around => ?_⟩, InReach.above⟩
    exact absurd (List.mem_filter.mpr ⟨listed, around⟩) (by simp [empty])
  | some best =>
    obtain ⟨listed, around, inner⟩ := innermostRoot?_inside valid found
    have stops : ∃ e ∈ file.parents, e.same best = true := by
      have leads := startsWith_iff.mp around
      have filled : best.components ≠ [] := fun none => by
        have first := Path.head?_components (valid best listed).absolute
        rw [none] at first
        cases first
      have shorter : best.components.length < file.components.length := by
        refine Nat.lt_of_le_of_ne leads.length_le fun same => ?_
        have apart := (valid best listed).apart
        rw [← Bool.not_eq_true, same_iff] at apart
        exact apart (leads.eq_of_length same)
      obtain ⟨e, member, same⟩ := (Path.exists_parent_iff absolute).mpr ⟨leads, shorter, filled⟩
      exact ⟨e, member, same_iff.mpr same⟩
    rw [mem_upTo file.parents_ordered stops]
    constructor
    · rintro ⟨above, inside⟩
      refine ⟨above, fun root listed around => startsWith_iff.mpr ?_⟩
      exact (startsWith_iff.mp (inner root listed around)).trans (startsWith_iff.mp inside)
    · exact fun reach => ⟨reach.above, reach.inside best listed around⟩

end Search

theorem governs_findConfig (absolute : file.isAbsolute = true) (valid : ∀ root ∈ roots, RootFor file root) :
    Governs isFile roots file (findConfig isFile roots file) := by
  rw [findConfig_eq]
  cases found : (searched roots file).findSome? (configIn? isFile) with
  | none =>
    refine .inferred fun e q reach => ?_
    have member := (mem_searched absolute valid).mpr reach
    exact configIn?_eq_none.mp (List.findSome?_eq_none_iff.mp found e member) q
  | some p =>
    obtain ⟨before, d, behind, whole, config, passed⟩ := List.findSome?_eq_some_iff.mp found
    have listed : d ∈ searched roots file := by simp [whole]
    refine .nearest ((mem_searched absolute valid).mp listed) (configIn?_eq_some.mp config) fun e q reach has => ?_
    have member := (mem_searched absolute valid).mpr reach
    have ordered := searched_ordered roots file
    rw [whole] at member ordered
    rcases List.mem_append.mp member with early | late
    · exact absurd has (configIn?_eq_none.mp (passed e early) q)
    · rcases List.mem_cons.mp late with rfl | later
      · exact startsWith_iff.mpr (List.prefix_refl _)
      · exact startsWith_iff.mpr (List.rel_of_pairwise_cons (List.pairwise_append.mp ordered).2.1 later).1

theorem ConfigOf.unique {q : Path} (h : ConfigOf isFile d p) (k : ConfigOf isFile d q) : p = q :=
  Option.some.inj ((configIn?_eq_some.mpr h).symm.trans (configIn?_eq_some.mpr k))

theorem Governs.unique {id' : ScopeId} (h : Governs isFile roots file id) (k : Governs isFile roots file id') : id = id' := by
  cases h with
  | @nearest d p reach config nearest =>
    cases k with
    | @nearest e q reach' config' nearest' =>
      have upper := startsWith_iff.mp (nearest e q reach' config')
      have lower := startsWith_iff.mp (nearest' d p reach config)
      obtain rfl : d = e := Path.parents_inj reach.above reach'.above (lower.eq_of_length_le upper.length_le)
      rw [config.unique config']
    | inferred none => exact absurd config (none d p reach)
  | inferred none =>
    cases k with
    | @nearest e q reach config => exact absurd config (none e q reach)
    | inferred => rfl

theorem InReach.sibling (h : InReach roots file d) (siblings : Siblings file other) (absolute : file.isAbsolute = true)
    (absolute' : other.isAbsolute = true) (apart : ∀ root ∈ roots, root.same other = false) :
    ∃ e, e.same d = true ∧ InReach roots other e := by
  obtain ⟨e, above, same⟩ := siblings.parent absolute absolute' h.above
  refine ⟨e, same, above, fun root listed around => ?_⟩
  have inside := h.inside root listed (siblings.symm.startsWith absolute' absolute (apart root listed) around)
  rw [startsWith_iff] at inside ⊢
  exact same_iff.mp same ▸ inside

theorem ConfigOf.respelled (h : ConfigOf isFile d p) (unspelled : Unspelled isFile) (same : e.same d = true) :
    ∃ q, q.same p = true ∧ ConfigOf isFile e q := by
  cases h with
  | typed typed => exact ⟨_, Path.join_congr same _, .typed (unspelled e d _ same ▸ typed)⟩
  | untyped typed untyped =>
    exact ⟨_, Path.join_congr same _, .untyped (unspelled e d _ same ▸ typed) (unspelled e d _ same ▸ untyped)⟩

theorem Governs.sibling (h : Governs isFile roots file id) (siblings : Siblings file other) (unspelled : Unspelled isFile)
    (absolute : file.isAbsolute = true) (absolute' : other.isAbsolute = true)
    (apart : ∀ root ∈ roots, root.same file = false) (apart' : ∀ root ∈ roots, root.same other = false) :
    ∃ id', id.same id' = true ∧ Governs isFile roots other id' := by
  -- a configuration in reach of the other file is one in reach of this file, in another spelling
  have back (e q : Path) (reach : InReach roots other e) (config : ConfigOf isFile e q) :
      ∃ e' q', e'.same e = true ∧ InReach roots file e' ∧ ConfigOf isFile e' q' := by
    obtain ⟨e', same, reach'⟩ := reach.sibling siblings.symm absolute' absolute apart
    obtain ⟨q', -, config'⟩ := config.respelled unspelled same
    exact ⟨e', q', same, reach', config'⟩
  cases h with
  | @nearest d p reach config nearest =>
    obtain ⟨d', same, reach'⟩ := reach.sibling siblings absolute absolute' apart'
    obtain ⟨p', alike, config'⟩ := config.respelled unspelled same
    refine ⟨⟨some p'⟩, (Path.same_comm p p').trans alike, .nearest reach' config' fun e q inReach has => ?_⟩
    obtain ⟨e', q', own, inReach', has'⟩ := back e q inReach has
    have below := startsWith_iff.mp (nearest e' q' inReach' has')
    rw [startsWith_iff, same_iff.mp same, ← same_iff.mp own]
    exact below
  | inferred none =>
    refine ⟨.inferred, rfl, .inferred fun e q reach has => ?_⟩
    obtain ⟨e', q', -, reach', has'⟩ := back e q reach has
    exact none e' q' reach' has'

/-- The nearest configuration inside the workspace governs a file: the scope that is found is the one that governs,
and all files of a directory have the same one. -/
theorem nearest_configuration_governs (absolute : file.isAbsolute = true) (valid : ∀ root ∈ roots, RootFor file root) :
    (∀ id, findConfig isFile roots file = id ↔ Governs isFile roots file id) ∧
      ∀ other, other.isAbsolute = true → (∀ root ∈ roots, RootFor other root) → Siblings file other → Unspelled isFile →
        (findConfig isFile roots file).same (findConfig isFile roots other) = true := by
  have governs : Governs isFile roots file (findConfig isFile roots file) := governs_findConfig absolute valid
  refine ⟨fun id => ⟨fun found => found ▸ governs, governs.unique⟩, fun other absolute' valid' siblings unspelled => ?_⟩
  obtain ⟨id, same, governs'⟩ := governs.sibling siblings unspelled absolute absolute'
    (fun root listed => (valid root listed).apart) fun root listed => (valid' root listed).apart
  rw [(governs_findConfig absolute' valid').unique governs']
  exact same

/-- A workspace with a configuration at its top and one in a package, and another root whose name goes on where the
name of the package ends. -/
def sampleWorkspace : FileTree :=
  ⟨[(["tsconfig.json"], .text "\x7b\x7d"), (["ws", "tsconfig.json"], .text "\x7b\x7d"),
    (["ws", "ui", "jsconfig.json"], .text "\x7b\x7d"), (["ws", "ui", "src", "App.svelte"], .text "")], []⟩

theorem nearest_configuration_governs_nested :
    Governs sampleWorkspace.isFile [⟨"/ws/ui"⟩, ⟨"/ws"⟩, ⟨"/ws/uix"⟩] ⟨"/ws/ui/src/App.svelte"⟩
        ⟨some ⟨"/ws/ui/jsconfig.json"⟩⟩ ∧
      (findConfig sampleWorkspace.isFile [⟨"/ws/ui"⟩, ⟨"/ws"⟩, ⟨"/ws/uix"⟩] ⟨"/ws/ui/src/App.svelte"⟩).same
        (findConfig sampleWorkspace.isFile [⟨"/ws/ui"⟩, ⟨"/ws"⟩, ⟨"/ws/uix"⟩] ⟨"/ws/./ui//src/x.ts"⟩) = true := by
  have governs := @nearest_configuration_governs sampleWorkspace.isFile [⟨"/ws/ui"⟩, ⟨"/ws"⟩, ⟨"/ws/uix"⟩]
    ⟨"/ws/ui/src/App.svelte"⟩ (by decide +kernel) (by decide +kernel)
  refine ⟨(governs.1 _).mp (by decide +kernel), governs.2 _ (by decide +kernel) (by decide +kernel) ?_ sampleWorkspace.unspelled⟩
  exact ⟨⟨"/ws/ui/src"⟩, by decide +kernel, ⟨"/ws/./ui//src"⟩, by decide +kernel, by decide +kernel⟩

end SvelteLens.Config
