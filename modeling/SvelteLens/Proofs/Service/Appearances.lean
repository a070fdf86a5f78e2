import SvelteLens.Proofs.Path.Names
import SvelteLens.Proofs.Service.Listing
import SvelteLens.Proofs.Service.Operations

/-! What becomes of a failed import when a file appears. The kept failure is dropped when the names
of the file and of the specifier agree up to their first dots, and then the import is searched for
again. On the ways that keep the specifier's last name the names do agree; on the others, as through
an alias or a manifest, they need not, and then the import goes on failing. -/
namespace SvelteLens.Service

namespace Resolution

open Config
open SvelteLens.Path (Nameable lastWord endsIn_lastWord lastWord_whole)

variable {specifier : String} {p t candidate : Path} {allowJs : Bool}

theorem stem_append (name rest : List Char) : stem (name ++ '.' :: rest) = stem name := by
  rw [stem, List.takeWhile_append]
  split
  · next whole =>
    have own : name.takeWhile (· ≠ '.') = name := (List.takeWhile_prefix _).eq_of_length whole
    rw [List.takeWhile_cons, if_neg (by simp), List.append_nil, stem, own]
  · rfl

theorem stem_whole {name : List Char} (undotted : '.' ∉ name) : stem name = name :=
  List.takeWhile_eq_self_iff.mpr fun c member => by
    simpa using fun same : c = '.' => undotted (same ▸ member)

theorem nameable_of_stem {name : List Char} (named : stem name ≠ []) (whole : '/' ∉ name) : Nameable name where
  filled := by
    rintro rfl
    exact named rfl
  whole := whole
  notHere := by
    rintro rfl
    exact named rfl
  notUp := by
    rintro rfl
    exact named rfl

theorem mayName_of_nameless (nameless : stem (lastWord specifier.toList) = []) (p : Path) :
    mayName specifier p = true := by
  change (((stem (lastWord specifier.toList)).isEmpty || _) || _) = true
  rw [nameless]
  rfl

theorem mayName_of_fileName {name : String} (file : p.fileName? = some name)
    (same : stem name.toList = stem (lastWord specifier.toList)) : mayName specifier p = true := by
  change ((_ || stem (p.fileName?.getD "").toList == stem (lastWord specifier.toList)) || _) = true
  rw [file, Option.getD_some, same, beq_self_eq_true, Bool.or_true, Bool.true_or]

theorem mayName_of_index {above : Path} {name directory : String} (file : p.fileName? = some name)
    (index : stem name.toList = "index".toList) (parent : p.parent? = some above)
    (named : above.fileName? = some directory) (same : directory.toList = stem (lastWord specifier.toList)) :
    mayName specifier p = true := by
  change (_ || (stem (p.fileName?.getD "").toList == "index".toList &&
    (p.parent?.bind Path.fileName?).any (·.toList == stem (lastWord specifier.toList)))) = true
  rw [file, Option.getD_some, index, parent, Option.bind_some, named, Option.any_some, same]
  simp

theorem mayName_of_lastWord (alike : stem (lastWord t.text.toList) = stem (lastWord specifier.toList))
    (same : p.same t = true) : mayName specifier p = true := by
  by_cases named : stem (lastWord specifier.toList) = []
  · exact mayName_of_nameless named p
  · have nameable : Nameable (lastWord t.text.toList) := nameable_of_stem (alike ▸ named) (lastWord_whole _)
    have file := Path.fileName?_of_endsIn (endsIn_lastWord t.text.toList) nameable
    exact mayName_of_fileName ((Path.fileName?_congr same).trans file) (by simpa using alike)

/-- Endings are put behind a name, and they are no names of their own. -/
theorem endings_dotted (allowJs : Bool) : ∀ ending ∈ endings allowJs ++ compiledEndings,
    '/' ∉ ending.toList ∧ ending.toList = '.' :: ending.toList.tail := by
  cases allowJs <;> decide

theorem lastWord_extended (base : String) {ending : String} (known : ending ∈ endings allowJs ++ compiledEndings) :
    lastWord (base ++ ending).toList = lastWord base.toList ++ ending.toList := by
  rw [String.toList_append]
  exact Path.lastWord_append _ (endings_dotted allowJs ending known).1

theorem stem_extended (base : String) {ending : String} (known : ending ∈ endings allowJs ++ compiledEndings) :
    stem (lastWord (base ++ ending).toList) = stem (lastWord base.toList) := by
  rw [lastWord_extended base known, (endings_dotted allowJs ending known).2, stem_append]

theorem mem_withEndings {base : String} : t ∈ withEndings allowJs base ↔ ∃ ending ∈ endings allowJs, t = ⟨base ++ ending⟩ := by
  simp [withEndings, eq_comm]

/-- The index of a directory is told by the name of the directory, when no dot cuts that short. -/
theorem mayName_of_indexed (bears : lastWord candidate.text.toList = lastWord specifier.toList)
    (undotted : '.' ∉ lastWord specifier.toList) (listed : t ∈ withEndings allowJs (candidate.join ⟨"index"⟩).text)
    (same : p.same t = true) : mayName specifier p = true := by
  by_cases named : stem (lastWord specifier.toList) = []
  · exact mayName_of_nameless named p
  · obtain ⟨ending, known, rfl⟩ := mem_withEndings.mp listed
    have known : ending ∈ endings allowJs ++ compiledEndings := List.mem_append_left _ known
    have nameable : Nameable (lastWord candidate.text.toList) := nameable_of_stem (bears ▸ named) (lastWord_whole _)
    have filled : candidate.text ≠ "" := fun empty => nameable.filled (by rw [empty]; rfl)
    have stem' : stem ("index" ++ ending).toList = "index".toList := by
      rw [String.toList_append, (endings_dotted allowJs ending known).2, stem_append]
      decide
    have index : Nameable ("index" ++ ending).toList :=
      nameable_of_stem (by rw [stem']; decide) (by simpa using (endings_dotted allowJs ending known).1)
    have text : Path.mk ((candidate.join ⟨"index"⟩).text ++ ending) =
        ⟨String.ofList (candidate.lead ++ ("index" ++ ending).toList)⟩ := by
      rw [Path.join_eq, if_neg (by decide)]
      exact congrArg Path.mk (String.toList_inj.mp (by simp))
    have below : p.components = candidate.components ++ [.name ("index" ++ ending)] := by
      rw [Path.same_iff.mp same, text, Path.components_lead filled, index.inner, String.ofList_toList]
    obtain ⟨front, whole⟩ := Path.components_of_endsIn (endsIn_lastWord candidate.text.toList) nameable
    obtain ⟨above, parent, components⟩ := Path.parent?_of_components below (by simp [whole])
    refine mayName_of_index (Path.fileName?_of_components below) stem' parent
      (Path.fileName?_of_components (components.trans whole)) ?_
    rw [String.toList_ofList, bears, stem_whole undotted]

/-- Whatever is spelled under a candidate that bears the specifier's name is told by that name. An
index is told when no dot cuts the name short. -/
theorem mayName_of_spelling (bears : lastWord candidate.text.toList = lastWord specifier.toList)
    (spelled : t ∈ spellings allowJs candidate) (same : p.same t = true)
    (undotted : t ∈ withEndings allowJs (candidate.join ⟨"index"⟩).text → '.' ∉ lastWord specifier.toList) :
    mayName specifier p = true := by
  obtain ((itself | compiled) | named) | index := by simpa only [spellings, List.mem_append] using spelled
  · have itself : t = candidate := by
      split at itself
      · exact List.mem_singleton.mp itself
      · cases itself
    exact mayName_of_lastWord (by rw [itself, bears]) same
  · obtain ⟨script, found, listed⟩ := List.mem_flatMap.mp compiled
    obtain ⟨ending, known, rfl⟩ := mem_withEndings.mp listed
    obtain ⟨other, compiled, ends⟩ := compiledFrom_eq_some.mp (Option.mem_toList.mp found)
    refine mayName_of_lastWord ?_ same
    have compiled : other ∈ endings allowJs ++ compiledEndings := List.mem_append_right _ compiled
    rw [stem_extended script (List.mem_append_left _ known), ← bears, ends, stem_extended script compiled]
  · obtain ⟨ending, known, rfl⟩ := mem_withEndings.mp named
    refine mayName_of_lastWord ?_ same
    rw [stem_extended _ (List.mem_append_left _ known), bears]
  · exact mayName_of_indexed bears (undotted index) index same

/-- The ways from a specifier to a candidate that keep its last name: by its place, against the base
directory, into a package, and to the directory of a package. -/
inductive Direct (scope : Scope) (specifier : String) (directory : Path) : Path → Prop where
  | placed (placed : Relative specifier ∨ (Path.mk specifier).isAbsolute = true) :
      Direct scope specifier directory (directory.join ⟨specifier⟩).normalize
  | based {base : Path} (given : scope.settings.baseUrl = some base) :
      Direct scope specifier directory (base.join ⟨specifier⟩).normalize
  | part {package typings part : String} (wants : Wants specifier package typings (some part)) (found : Path) :
      Direct scope specifier directory (found.join ⟨part⟩)
  | package {package typings : String} (wants : Wants specifier package typings none) (modules : Path) :
      Direct scope specifier directory (modules.join ⟨package⟩)

theorem Direct.bears {scope : Scope} {directory route : Path} (direct : Direct scope specifier directory route)
    (named : stem (lastWord specifier.toList) ≠ []) :
    lastWord route.text.toList = lastWord specifier.toList := by
  have whole := lastWord_whole specifier.toList
  have own := endsIn_lastWord specifier.toList
  have resolved (base : Path) : lastWord (base.join ⟨specifier⟩).normalize.text.toList = lastWord specifier.toList :=
    (Path.endsIn_normalize (Path.endsIn_join base own) (nameable_of_stem named whole)).lastWord_eq whole
  cases direct with
  | placed => exact resolved directory
  | @based base => exact resolved base
  | @part package typings part wants found =>
    have split : lastWord specifier.toList = lastWord part.toList := by
      cases wants with
      | part names filled =>
        have edge : Path.Separates (package.toList ++ ['/']) := .inr ⟨_, rfl⟩
        have ends := (endsIn_lastWord part.toList).append edge
        exact Path.EndsIn.lastWord_eq (by simpa using ends) (lastWord_whole _)
    have ends := Path.endsIn_join (p := ⟨part⟩) found (endsIn_lastWord part.toList)
    rw [split]
    exact ends.lastWord_eq (lastWord_whole _)
  | @package package typings wants modules =>
    cases wants with
    | entry names => exact (Path.endsIn_join (p := ⟨specifier⟩) modules own).lastWord_eq whole
    | closed names =>
      have closed : Path.EndsIn (package ++ "/").toList [] :=
        ⟨(package ++ "/").toList, by simp, .inr ⟨package.toList, by simp⟩⟩
      have nameless : lastWord (package ++ "/").toList = [] := closed.lastWord_eq (by simp)
      rw [nameless] at named
      exact absurd rfl named

end Resolution

namespace Overlay

variable {env : Surroundings} {o m : Overlay} {p directory : Path} {specifier : String}

theorem cached?_eq_some {r : Resolved} (kept : o.cached? specifier directory = some r) :
    r ∈ o.resolutions ∧ r.specifier = specifier ∧ r.directory.same directory = true := by
  have asked := List.find?_some kept
  exact ⟨List.mem_of_find?_eq_some kept, by simpa using asked⟩

/-- Each import from a directory has one kept answer at most. -/
def Unambiguous (o : Overlay) : Prop :=
  ∀ r ∈ o.resolutions, ∀ s ∈ o.resolutions, r.specifier = s.specifier → r.directory.same s.directory = true → r = s

theorem Unambiguous.sublist (unambiguous : o.Unambiguous) (fewer : m.resolutions ⊆ o.resolutions) : m.Unambiguous :=
  fun r hr s hs => unambiguous r (fewer hr) s (fewer hs)

theorem Look.unambiguous (look : Look env o m) (unambiguous : o.Unambiguous) : m.Unambiguous := by
  cases look with
  | built => exact unambiguous
  | @resolved specifier directory target missed visible =>
    have other (s : Resolved) (kept : s ∈ o.resolutions) (named : s.specifier = specifier)
        (same : s.directory.same directory = true) : False := by
      simpa [named, same] using List.find?_eq_none.mp missed s kept
    intro r hr s hs named same
    rcases List.mem_cons.mp hr with rfl | hr <;> rcases List.mem_cons.mp hs with rfl | hs
    · rfl
    · exact (other s hs named.symm (by rw [Path.same_comm]; exact same)).elim
    · exact (other r hr named same).elim
    · exact unambiguous r hr s hs named same

/-- A kept failure is dropped when the path could be what the specifier names, and else it stays. -/
theorem Unambiguous.cached?_invalidateUnresolved (unambiguous : o.Unambiguous) {r : Resolved}
    (kept : o.cached? specifier directory = some r) (missing : r.target = none) (p : Path) :
    (o.invalidateUnresolved p).cached? specifier directory =
      if Resolution.mayName specifier p then none else some r := by
  obtain ⟨member, named, there⟩ := cached?_eq_some kept
  have stays : (r.target.isSome || !Resolution.mayName r.specifier p) = !Resolution.mayName specifier p := by
    rw [missing, named]
    rfl
  split
  · next drops =>
    rw [drops] at stays
    refine Option.eq_none_iff_forall_ne_some.mpr fun s found => ?_
    obtain ⟨left, named', there'⟩ := cached?_eq_some found
    obtain ⟨also, held⟩ := List.mem_filter.mp left
    have same : s.directory.same r.directory = true := by rw [Path.same_trans there', Path.same_comm]; exact there
    rw [unambiguous s also r member (named'.trans named.symm) same, stays] at held
    cases held
  · next keeps =>
    obtain ⟨asked, before, after, split, passed⟩ := List.find?_eq_some_iff_append.mp kept
    rw [Bool.not_eq_true] at keeps
    rw [keeps, Bool.not_false] at stays
    rw [cached?, invalidateUnresolved, split, List.filter_append, List.filter_cons, if_pos stays]
    exact List.find?_eq_some_iff_append.mpr ⟨asked, _, _, rfl, fun s early => passed s (List.mem_filter.mp early).1⟩

end Overlay

namespace Container

variable {env : Surroundings} {c after : Container} {s : Snapshot} {p : Path}

theorem Quiet.unambiguous (quiet : Quiet env c after) (unambiguous : c.overlay.Unambiguous) :
    after.overlay.Unambiguous := by
  cases quiet with
  | looked look => exact look.unambiguous unambiguous
  | called => exact unambiguous
  | forgot => exact unambiguous.sublist (List.filter_subset_self _)
  | retried => exact unambiguous.sublist (List.filter_subset_self _)

theorem Quiets.unambiguous (quiets : Quiets env c after) (unambiguous : c.overlay.Unambiguous) :
    after.overlay.Unambiguous := by
  induction quiets with
  | refl => exact unambiguous
  | tail _ quiet ih => exact quiet.unambiguous ih

theorem unambiguous_store (s : Snapshot) (unambiguous : c.overlay.Unambiguous) : (c.store s).overlay.Unambiguous := by
  unfold store
  split
  · split <;> exact unambiguous
  · exact unambiguous.sublist (List.filter_subset_self _)

/-- What one call preserves: no import has two kept answers. -/
theorem applied_unambiguous (call : Call) (unambiguous : c.overlay.Unambiguous) :
    (c.applied call).overlay.Unambiguous := by
  have effect := c.applied_effect call
  generalize c.applied call = after at effect
  generalize (call.operation.action call.surroundings c).1 = answer at effect
  cases effect with
  | refused => exact unambiguous
  | unread => exact unambiguous.sublist (List.filter_subset_self _)
  | quiet unrefused changes => exact Quiets.unambiguous changes unambiguous
  | stored unrefused live cause built changes => exact Quiets.unambiguous changes (unambiguous_store _ unambiguous)
  | restored => exact unambiguous.sublist (List.filter_subset_self _)
  | deleted => exact unambiguous.sublist (List.filter_subset_self _)
  | disposed =>
    unfold dispose
    split <;> exact unambiguous

theorem run_unambiguous (calls : List Call) (unambiguous : c.overlay.Unambiguous) :
    (c.run calls).overlay.Unambiguous := by
  induction calls generalizing c with
  | nil => exact unambiguous
  | cons call rest ih => exact ih (applied_unambiguous call unambiguous)

/-- A call that reports a path as new: it is created on the disk, or an editor opens it and it had no
snapshot. -/
inductive Reports (c : Container) (p : Path) (call : Call) : Prop where
  | created (created : call.operation = .fileChanged p .created)
  | opened {file : SourceFile} {s : Snapshot} (opened : call.operation = .openDocument file) (path : file.path = p)
      (first : c.snapshot? p = none) (built : call.surroundings.build c.overlay.clock file .editor = .ok s)

theorem applied_openDocument {file : SourceFile} (live : c.disposed = false) (first : c.snapshot? file.path = none)
    (built : env.build c.overlay.clock file .editor = .ok s) :
    c.applied ⟨env, .openDocument file⟩ = c.store s := by
  have stores : Action.Ends (fun _ after => after = c.store s) (install env file .editor) c := by
    refine .get_bind ?_
    rw [built]
    exact .modify_bind (.pure rfl)
  have ends : Action.Ends (fun _ after => after = c.store s) (openDocument env file) c := by
    refine requireLive_passed live (.get_bind ?_)
    rw [first]
    exact stores
  exact ends.bind (P := fun _ after => after = c.store s) (fun _ _ stored => stored) fun _ _ stored => .pure stored

/-- A report drops the failures that the path might mend, and touches the snapshots alone otherwise. -/
theorem Reports.applied {call : Call} (reports : Reports c p call) (live : c.disposed = false) :
    ∃ snapshots clock, (c.applied call).overlay =
      ({ c.overlay with snapshots := snapshots, clock := clock } : Overlay).invalidateUnresolved p := by
  obtain ⟨env, operation⟩ := call
  cases reports with
  | created created =>
    dsimp only at created
    subst created
    have restored : Action.Ends (fun _ after => after = c.restore p) (fileChanged env p .created) c :=
      requireLive_passed live rfl
    have after : c.applied ⟨env, .fileChanged p .created⟩ = c.restore p := restored
    rw [after]
    exact ⟨_, _, rfl⟩
  | @opened file s opened path first built =>
    dsimp only at opened
    subst opened path
    obtain ⟨-, path, -⟩ := Surroundings.build_ok built
    rw [applied_openDocument live first built, store, path, first]
    exact ⟨_, _, rfl⟩

/-- In every reachable service, for an import whose failure is kept and a path that is then reported as
new. If the names of both agree up to their first dots, the import leads where a fresh search leads, on
whatever disk; otherwise it goes on failing, also where the path would be found. The names agree for
every path that is spelled under a candidate with the specifier's last name: for an import by place or
against the base directory, for one into a package and for the directory of a package itself. Only the
index of a directory with a dot in its name is missed there. -/
theorem missed_import_after_report {scope : Config.Scope} (calls : List Call) {specifier : String} {importer p : Path}
    {call : Call} (live : ((Container.ofScope scope).run calls).disposed = false)
    (missed : ∃ r, ((Container.ofScope scope).run calls).overlay.cached? specifier (importer.parent?.getD ⟨""⟩) = some r ∧
      r.target = none)
    (reports : ((Container.ofScope scope).run calls).Reports p call) (env : Surroundings) :
    let directory := importer.parent?.getD ⟨""⟩
    let o := (((Container.ofScope scope).run calls).applied call).overlay
    ((Overlay.resolveModule env specifier importer o).1 =
      if Resolution.mayName specifier p then (Overlay.resolveUncached env specifier directory o).1 else .ok none) ∧
    ∀ route, Resolution.Direct o.scope specifier directory route →
      ∀ t ∈ Resolution.spellings o.scope.settings.allowJs route, p.same t = true →
        (t ∈ Resolution.withEndings o.scope.settings.allowJs (route.join ⟨"index"⟩).text →
          '.' ∉ Path.lastWord specifier.toList) →
        (Overlay.resolveModule env specifier importer o).1 = (Overlay.resolveUncached env specifier directory o).1 := by
  intro directory o
  obtain ⟨r, kept, missing⟩ := missed
  obtain ⟨snapshots, clock, after⟩ := reports.applied live
  have start : (Container.ofScope scope).overlay.Unambiguous := nofun
  have unambiguous : Overlay.Unambiguous
      { ((Container.ofScope scope).run calls).overlay with snapshots := snapshots, clock := clock } :=
    run_unambiguous calls start
  have cached : o.cached? specifier directory = if Resolution.mayName specifier p then none else some r := by
    change Overlay.cached? (Container.overlay _) _ _ = _
    rw [after]
    exact unambiguous.cached?_invalidateUnresolved kept missing p
  have answer : (Overlay.resolveModule env specifier importer o).1 =
      if Resolution.mayName specifier p then (Overlay.resolveUncached env specifier directory o).1 else .ok none := by
    have leads := (Overlay.resolveModule_leads env specifier importer o).1
    rw [leads, Overlay.leads, cached]
    cases Resolution.mayName specifier p with
    | true => rfl
    | false => exact congrArg Except.ok missing
  refine ⟨answer, fun route direct t spelled same undotted => ?_⟩
  have named : Resolution.mayName specifier p = true := by
    by_cases nameless : Resolution.stem (Path.lastWord specifier.toList) = []
    · exact Resolution.mayName_of_nameless nameless p
    · exact Resolution.mayName_of_spelling (direct.bears nameless) spelled same undotted
  rw [answer, named, if_pos rfl]

def grownSurroundings : Surroundings where
  markup := .ofText fun _ => .error (.refused "no markup")
  script _ _ := none
  files := Path.Table.ofEntries [(⟨"/a.ts"⟩, .text "export {};"), (⟨"/lib/main.ts"⟩, .text "export {};")]

/-- A script in a directory appears after an import of the directory's script by place failed. -/
theorem missed_import_after_report_placed :
    let calls : List Call := [⟨sampleSurroundings, .probe (.resolveModule "./lib/main" ⟨"/a.ts"⟩)⟩]
    let c := (Container.ofScope sampleScope).run calls
    let call : Call := ⟨grownSurroundings, .fileChanged ⟨"/lib/main.ts"⟩ .created⟩
    c.disposed = false ∧ c.overlay.cached? "./lib/main" ⟨"/"⟩ = some ⟨"./lib/main", ⟨"/"⟩, none⟩ ∧
      c.Reports ⟨"/lib/main.ts"⟩ call ∧
      (Overlay.resolveModule grownSurroundings "./lib/main" ⟨"/a.ts"⟩ (c.applied call).overlay).1 =
        .ok (some ⟨"/lib/main.ts"⟩) := by
  intro calls c call
  have live : c.disposed = false := by decide +kernel
  have kept : c.overlay.cached? "./lib/main" ⟨"/"⟩ = some ⟨"./lib/main", ⟨"/"⟩, none⟩ := by decide +kernel
  have reports : c.Reports ⟨"/lib/main.ts"⟩ call := .created rfl
  have fresh : (Overlay.resolveUncached grownSurroundings "./lib/main" ⟨"/"⟩ (c.applied call).overlay).1.toOption =
      some (some ⟨"/lib/main.ts"⟩) := by decide +kernel
  have directory : (Path.parent? ⟨"/a.ts"⟩).getD ⟨""⟩ = ⟨"/"⟩ := by decide +kernel
  obtain ⟨-, direct⟩ := missed_import_after_report calls live ⟨_, directory ▸ kept, rfl⟩ reports grownSurroundings
  have answer := direct (Path.join ⟨"/"⟩ ⟨"./lib/main"⟩).normalize
    (directory ▸ .placed (.inl (.below "lib/main"))) ⟨"/lib/main.ts"⟩ (by decide +kernel) (by decide +kernel)
    (by decide +kernel)
  rw [directory] at answer
  exact ⟨live, kept, reports, answer.trans (ok_of_toOption fresh)⟩

/-- A project that gives a directory's script another name. -/
def aliasedScope : Config.Scope :=
  { sampleScope with settings := { Config.Settings.inferred with aliases := [("@lib", ["lib/main"])] } }

/-- The same script under its other name: a fresh search finds it, and the import goes on failing. -/
theorem aliased_import_goes_on_failing :
    let c := (Container.ofScope aliasedScope).run [⟨sampleSurroundings, .probe (.resolveModule "@lib" ⟨"/a.ts"⟩)⟩]
    let o := (c.applied ⟨grownSurroundings, .fileChanged ⟨"/lib/main.ts"⟩ .created⟩).overlay
    (Overlay.resolveUncached grownSurroundings "@lib" ⟨"/"⟩ o).1.toOption = some (some ⟨"/lib/main.ts"⟩) ∧
      (Overlay.resolveModule grownSurroundings "@lib" ⟨"/a.ts"⟩ o).1.toOption = some none := by
  decide +kernel

end Container

end SvelteLens.Service
