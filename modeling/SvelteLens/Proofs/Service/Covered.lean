import SvelteLens.Proofs.Service.Answers

/-! Two disks. The overlay does not ask the disk for a path that has a snapshot or is deleted, so no
answer depends on what the disk holds there. The manifests of packages are the exception: the search for
an import reads them from the disk, whatever covers them. -/
namespace SvelteLens

/-- Two disks that hold the same at every path but one. -/
def Files.SameBut (p : Path) (files disk : Files) : Prop := ∀ q, p.same q = false → files.get? q = disk.get? q

theorem Files.sameBut_erase (files : Files) (p : Path) : SameBut p files (files.erase p) := by
  intro q other
  rw [Path.Table.get?_erase, other]
  rfl

namespace Service

/-- Two chains run alike when their first actions do, and when they go on alike from there. -/
theorem Action.bind_alike {σ α β : Type} {s : σ} {x y : Action σ α} {f g : α → Action σ β} (first : x s = y s)
    (next : ∀ a m, x s = (.ok a, m) → f a m = g a m) : (x >>= f) s = (y >>= g) s := by
  cases run : x s with
  | mk answer m =>
    have run' : y s = (answer, m) := first.symm.trans run
    cases answer with
    | ok a => rw [bind_ok run, bind_ok run', next a m run]
    | error failure => rw [bind_error run, bind_error run']

def Surroundings.onDisk (env : Surroundings) (disk : Files) : Surroundings := { env with files := disk }

variable {env : Surroundings} {disk : Files} {p q : Path}

theorem Surroundings.open?_onDisk (same : Files.SameBut p env.files disk) (other : p.same q = false) :
    env.open? q = (env.onDisk disk).open? q := by
  change (env.files.read? q).map _ = (disk.read? q).map _
  rw [Files.read?, Files.read?, same q other]

theorem Surroundings.manifest?_onDisk (same : Files.SameBut p env.files disk) (other : p.same q = false) :
    env.manifest? q = (env.onDisk disk).manifest? q := by
  change (env.files.read? q).bind env.manifests.read? = (disk.read? q).bind env.manifests.read?
  rw [Files.read?, Files.read?, same q other]

namespace Resolution

def manifests (specifier : String) (directory : Path) : List Path :=
  match splitPackage? specifier with
  | some (package, none) =>
    directory.ancestors.flatMap fun above =>
      let modules := above.join ⟨"node_modules"⟩
      [modules.join ⟨package⟩, (modules.join ⟨"@types"⟩).join ⟨typesName package⟩].map (·.join ⟨"package.json"⟩)
  | _ => []

/-- The search for an import does not tell two disks apart at a path: the path is not a manifest that it
reads, or both disks hold the same manifest there. -/
def Overlooks (env : Surroundings) (disk : Files) (p : Path) (specifier : String) (directory : Path) : Prop :=
  p.isIn (manifests specifier directory) = true → env.manifest? p = (env.onDisk disk).manifest? p

theorem entryCandidates_alike {package : Path} (same : Files.SameBut p env.files disk)
    (overlooked : p.same (package.join ⟨"package.json"⟩) = true → env.manifest? p = (env.onDisk disk).manifest? p) :
    entryCandidates env package = entryCandidates (env.onDisk disk) package := by
  have read : env.manifest? (package.join ⟨"package.json"⟩) = (env.onDisk disk).manifest? (package.join ⟨"package.json"⟩) := by
    cases here : p.same (package.join ⟨"package.json"⟩) with
    | true => rw [← Surroundings.manifest?_congr here, ← Surroundings.manifest?_congr here, overlooked here]
    | false => exact Surroundings.manifest?_onDisk same here
  rw [entryCandidates, entryCandidates, read]

theorem packageCandidates_alike {specifier : String} {directory : Path} (same : Files.SameBut p env.files disk)
    (overlooked : Overlooks env disk p specifier directory) :
    packageCandidates env specifier directory = packageCandidates (env.onDisk disk) specifier directory := by
  unfold packageCandidates
  cases split : splitPackage? specifier with
  | none => rfl
  | some parts =>
    obtain ⟨package, _ | subpath⟩ := parts
    · refine List.flatMap_congr fun above listed => List.flatMap_congr fun found member => ?_
      refine entryCandidates_alike same fun here => overlooked ?_
      have read : found.join ⟨"package.json"⟩ ∈ manifests specifier directory := by
        rw [manifests, split]
        exact List.mem_flatMap.mpr ⟨above, listed, List.mem_map_of_mem member⟩
      exact List.any_eq_true.mpr ⟨_, read, by rw [Path.same_comm]; exact here⟩
    · rfl

theorem paths_alike {scope : Config.Scope} {specifier : String} {directory : Path}
    (same : Files.SameBut p env.files disk) (overlooked : Overlooks env disk p specifier directory) :
    paths scope env specifier directory = paths scope (env.onDisk disk) specifier directory := by
  rw [paths, paths, candidates, candidates, packageCandidates_alike same overlooked]

end Resolution

namespace Overlay

variable {o m : Overlay}

/-- The overlay does not ask the disk for a path that has a snapshot or is deleted. -/
def Covers (o : Overlay) (p : Path) : Prop :=
  (∃ s, o.snapshots.get? p = some s) ∨ o.snapshots.isDeleted p = true

theorem Covers.demands (covers : o.Covers p) (demands : Demands env o m) : m.Covers p := by
  rcases covers with ⟨s, held⟩ | deleted
  · exact .inl ⟨s, demands.keeps held⟩
  · exact .inr ((demands.agrees.deleted p).symm.trans deleted)

theorem Covers.isDeleted (covers : o.Covers p) (same : p.same q = true) (absent : o.snapshots.get? q = none) :
    o.snapshots.isDeleted q = true := by
  rcases covers with ⟨s, held⟩ | deleted
  · rw [SnapshotTable.get?_congr same, absent] at held
    cases held
  · exact (SnapshotTable.isDeleted_congr same _).symm.trans deleted

theorem snapshot_none (run : snapshot env q o = (.ok none, m)) : m = o ∧ o.snapshots.get? q = none := by
  rw [snapshot_run] at run
  cases held : o.snapshots.get? q with
  | some s =>
    rw [held] at run
    cases run
  | none =>
    rw [held] at run
    obtain ⟨given, kept⟩ := Prod.ext_iff.mp run
    simp only at given kept
    rw [given] at kept
    exact ⟨kept.symm, rfl⟩

section Disks

variable (covers : o.Covers p) (same : Files.SameBut p env.files disk)

include covers same in
theorem snapshot_onDisk (q : Path) : snapshot env q o = snapshot (env.onDisk disk) q o := by
  rw [snapshot_run, snapshot_run]
  cases absent : o.snapshots.get? q with
  | some s => rfl
  | none =>
    have demanded : o.demand env q = o.demand (env.onDisk disk) q := by
      unfold demand
      cases here : p.same q with
      | true => simp [covers.isDeleted here absent]
      | false =>
        rw [Surroundings.open?_onDisk same here]
        rfl
    dsimp only
    rw [demanded]

include covers same in
/-- The disk is asked for a path only when it holds the same there as the other disk. -/
theorem readsDisk_onDisk {α : Type} (read : Option Content → α) (q : Path) (fallback : α)
    (absent : o.snapshots.get? q = none) :
    (if o.readsDisk q then read (env.files.get? q) else fallback) =
      if o.readsDisk q then read (disk.get? q) else fallback := by
  cases here : p.same q with
  | true => simp [readsDisk, covers.isDeleted here absent]
  | false => rw [same q here]

include covers same in
theorem fileExists_onDisk (q : Path) : fileExists env q o = fileExists (env.onDisk disk) q o := by
  unfold fileExists
  split
  · rfl
  · refine Action.bind_alike (snapshot_onDisk covers same q) fun found m run => ?_
    cases found with
    | some s => rfl
    | none =>
      obtain ⟨rfl, absent⟩ := snapshot_none run
      have asked := readsDisk_onDisk covers same Option.isSome q false absent
      have there (table : Files) : table.isFile q = (table.get? q).isSome := Path.Table.contains_eq_isSome table q
      refine congrArg (fun found => (Except.ok found, m)) ?_
      change (m.readsDisk q && env.files.isFile q) = (m.readsDisk q && disk.isFile q)
      rw [there, there]
      cases reads : m.readsDisk q with
      | false => rfl
      | true => simpa [reads] using asked

include covers same in
theorem shownText_onDisk (q : Path) : shownText env q o = shownText (env.onDisk disk) q o := by
  unfold shownText
  cases Ambient.text? q with
  | some text => rfl
  | none =>
    refine Action.bind_alike (snapshot_onDisk covers same q) fun found m run => ?_
    cases found with
    | some s => rfl
    | none =>
      obtain ⟨rfl, absent⟩ := snapshot_none run
      have asked := readsDisk_onDisk covers same (·.bind Content.text?) q none absent
      exact congrArg (fun text => (Except.ok text, m)) asked

include covers same in
theorem scriptKind_onDisk (q : Path) : scriptKind env q o = scriptKind (env.onDisk disk) q o :=
  Action.bind_alike (snapshot_onDisk covers same q) fun _ _ _ => rfl

include covers same in
theorem scriptVersion_onDisk (q : Path) : scriptVersion env q o = scriptVersion (env.onDisk disk) q o :=
  Action.bind_alike (snapshot_onDisk covers same q) fun _ _ _ => rfl

include same in
theorem firstExisting_onDisk (paths : List Path) (covers : o.Covers p) :
    firstExisting env paths o = firstExisting (env.onDisk disk) paths o := by
  induction paths generalizing o with
  | nil => rfl
  | cons q rest ih =>
    refine Action.bind_alike (fileExists_onDisk covers same q) fun found m run => ?_
    have demands : Demands env o m := (fileExists_demands env q o).of_run run
    cases found with
    | true => rfl
    | false => exact ih (covers.demands demands)

include covers same in
theorem resolveModule_onDisk {specifier : String} {importer : Path}
    (overlooked : Resolution.Overlooks env disk p specifier (importer.parent?.getD ⟨""⟩)) :
    resolveModule env specifier importer o = resolveModule (env.onDisk disk) specifier importer o := by
  have search : resolveUncached env specifier (importer.parent?.getD ⟨""⟩) o =
      resolveUncached (env.onDisk disk) specifier (importer.parent?.getD ⟨""⟩) o := by
    rw [resolveUncached_eq, resolveUncached_eq, Resolution.paths_alike same overlooked]
    exact firstExisting_onDisk same _ covers
  unfold resolveModule
  refine Action.bind_alike rfl fun _ m run => ?_
  cases run
  cases o.cached? specifier (importer.parent?.getD ⟨""⟩) with
  | some r => rfl
  | none => exact Action.bind_alike search fun _ _ _ => rfl

end Disks

/-- One question is answered alike over both disks, and leaves the same overlay. -/
theorem action_onDisk (covers : o.Covers p) (same : Files.SameBut p env.files disk) {probe : Probe}
    (overlooked : ∀ specifier importer, probe = .resolveModule specifier importer →
      Resolution.Overlooks env disk p specifier (importer.parent?.getD ⟨""⟩)) :
    probe.action env o = probe.action (env.onDisk disk) o := by
  cases probe with
  | snapshot q => exact Action.bind_alike (snapshot_onDisk covers same q) fun _ _ _ => rfl
  | fileExists q => exact Action.bind_alike (fileExists_onDisk covers same q) fun _ _ _ => rfl
  | shownText q => exact Action.bind_alike (shownText_onDisk covers same q) fun _ _ _ => rfl
  | scriptKind q => exact Action.bind_alike (scriptKind_onDisk covers same q) fun _ _ _ => rfl
  | scriptVersion q => exact Action.bind_alike (scriptVersion_onDisk covers same q) fun _ _ _ => rfl
  | resolveModule specifier importer =>
    exact Action.bind_alike (resolveModule_onDisk covers same (overlooked specifier importer rfl)) fun _ _ _ => rfl

theorem Covers.asked (covers : o.Covers p) (probe : Probe) : (o.asked env probe).Covers p := by
  have steady := asked_steady env o probe
  rcases covers with ⟨s, held⟩ | deleted
  · exact .inl ⟨s, steady.keeps p s held⟩
  · exact .inr ((steady.agrees.deleted p).symm.trans deleted)

theorem asked_all_onDisk (covers : o.Covers p) (same : Files.SameBut p env.files disk) {probes : List Probe}
    (overlooked : ∀ specifier importer, .resolveModule specifier importer ∈ probes →
      Resolution.Overlooks env disk p specifier (importer.parent?.getD ⟨""⟩)) :
    probes.foldl (asked env) o = probes.foldl (asked (env.onDisk disk)) o := by
  induction probes generalizing o with
  | nil => rfl
  | cons probe rest ih =>
    have once : o.asked env probe = o.asked (env.onDisk disk) probe := by
      rw [asked, asked, action_onDisk covers same fun specifier importer here =>
        overlooked specifier importer (here ▸ List.mem_cons_self)]
    rw [List.foldl_cons, List.foldl_cons, ← once]
    exact ih (covers.asked probe) fun specifier importer later =>
      overlooked specifier importer (List.mem_cons_of_mem _ later)

/-- Over two disks that differ at most at one path, which has a snapshot or is deleted: every question
about every path has the same answer and leaves the same overlay. So has every import, whatever is kept of
earlier ones, unless its search reads the manifest of a package at that path and the disks hold different
manifests there; and so has every course of such questions. -/
theorem covered_unseen (env : Surroundings) (disk : Files) (o : Overlay) (p : Path) (covers : o.Covers p)
    (same : Files.SameBut p env.files disk) :
    let other := env.onDisk disk
    (∀ q, fileExists env q o = fileExists other q o ∧ shownText env q o = shownText other q o ∧
      scriptKind env q o = scriptKind other q o ∧ scriptVersion env q o = scriptVersion other q o ∧
      snapshot env q o = snapshot other q o) ∧
    (∀ specifier importer, Resolution.Overlooks env disk p specifier (importer.parent?.getD ⟨""⟩) →
      resolveModule env specifier importer o = resolveModule other specifier importer o) ∧
    ∀ probes : List Probe, (∀ specifier importer, .resolveModule specifier importer ∈ probes →
        Resolution.Overlooks env disk p specifier (importer.parent?.getD ⟨""⟩)) →
      probes.foldl (asked env) o = probes.foldl (asked other) o :=
  ⟨fun q => ⟨fileExists_onDisk covers same q, shownText_onDisk covers same q, scriptKind_onDisk covers same q,
      scriptVersion_onDisk covers same q, snapshot_onDisk covers same q⟩,
    fun _ _ overlooked => resolveModule_onDisk covers same overlooked,
    fun _ overlooked => asked_all_onDisk covers same overlooked⟩

/-- A disk with a package, whose manifest is the only thing that names its entry. -/
def packageDisk : Surroundings where
  markup := .ofText fun _ => .error (.refused "no markup")
  script _ _ := none
  files := Path.Table.ofEntries [(⟨"/node_modules/pkg/package.json"⟩, .text "\x7b\"main\":\"main\"\x7d"),
    (⟨"/node_modules/pkg/main.ts"⟩, .text "export \x7b\x7d;")]

/-- The manifest of a package is deleted. Whether the disk still has it makes no difference to the text
that is shown for it, nor to an import that names a file of the package. -/
theorem covered_unseen_deleted :
    let manifest : Path := ⟨"/node_modules/pkg/package.json"⟩
    let o := ((Container.ofScope sampleScope).delete manifest).overlay
    let disk := packageDisk.files.erase manifest
    let other := packageDisk.onDisk disk
    (o.Covers manifest ∧ Files.SameBut manifest packageDisk.files disk ∧
      Resolution.Overlooks packageDisk disk manifest "pkg/main" ⟨"/"⟩) ∧
    shownText packageDisk manifest o = shownText other manifest o ∧
      resolveModule packageDisk "pkg/main" ⟨"/a.ts"⟩ o = resolveModule other "pkg/main" ⟨"/a.ts"⟩ o ∧
      (resolveModule packageDisk "pkg/main" ⟨"/a.ts"⟩ o).1 = .ok (some ⟨"/node_modules/pkg/main.ts"⟩) := by
  intro manifest o disk other
  have covers : o.Covers manifest := .inr (by decide +kernel)
  have same : Files.SameBut manifest packageDisk.files disk := Files.sameBut_erase _ _
  have overlooked : Resolution.Overlooks packageDisk disk manifest "pkg/main" ⟨"/"⟩ := by
    have unread : manifest.isIn (Resolution.manifests "pkg/main" ⟨"/"⟩) = false := by decide +kernel
    intro read
    cases unread.symm.trans read
  obtain ⟨shown, imported, -⟩ := covered_unseen packageDisk disk o manifest covers same
  exact ⟨⟨covers, same, overlooked⟩, (shown manifest).2.1, imported "pkg/main" ⟨"/a.ts"⟩ overlooked, by decide +kernel⟩

/-- The search for the package itself still reads the deleted manifest, as long as the disk has it. -/
theorem deleted_manifest_read :
    let manifest : Path := ⟨"/node_modules/pkg/package.json"⟩
    let o := ((Container.ofScope sampleScope).delete manifest).overlay
    let other := packageDisk.onDisk (packageDisk.files.erase manifest)
    o.snapshots.isDeleted manifest = true ∧ (shownText packageDisk manifest o).1 = .ok none ∧
      (resolveModule packageDisk "pkg" ⟨"/a.ts"⟩ o).1 = .ok (some ⟨"/node_modules/pkg/main.ts"⟩) ∧
      (resolveModule other "pkg" ⟨"/a.ts"⟩ o).1 = .ok none := by
  decide +kernel

end Overlay
end Service
end SvelteLens
