import SvelteLens.Markup.Scan
import SvelteLens.Proofs.Basics
import SvelteLens.Proofs.Service.Demand
import SvelteLens.Proofs.Service.Operations

/-! What the engine is told does not depend on what it asked before. A question may give components
their snapshots and keep the answer to an import, but a snapshot is the one that would be built at any
other time, and a kept answer is the one that would be found again. -/
namespace SvelteLens.Service.Overlay

open List (Forall₂)
open SvelteLens.Service.Action (Ends)
open Relation (ReflTransGen)

variable {env : Surroundings} {o m n : Overlay} {p q : Path} {s : Snapshot}

/-- Two overlays that show every path alike, under each of its spellings. -/
structure Agrees (env : Surroundings) (o m : Overlay) : Prop where
  scope : o.scope = m.scope
  deleted : ∀ p, o.snapshots.isDeleted p = m.snapshots.isDeleted p
  offers : ∀ p q, p.same q = true → AlikeAnswers (o.offer env p) (m.offer env q)

theorem Agrees.symm (agrees : Agrees env o m) : Agrees env m o where
  scope := agrees.scope.symm
  deleted p := (agrees.deleted p).symm
  offers p q same := by
    rw [Path.same_comm] at same
    exact (agrees.offers q p same).symm (optionRel_symm fun _ _ alike => alike.symm)

theorem Agrees.trans (first : Agrees env o m) (second : Agrees env m n) : Agrees env o n where
  scope := first.scope.trans second.scope
  deleted p := (first.deleted p).trans (second.deleted p)
  offers p q same := (first.offers p q same).trans (optionRel_trans fun _ _ _ here there => here.trans there)
    (second.offers q q (Path.same_iff.mpr rfl))

/-- What is built on demand does not depend on when it is demanded. -/
theorem demand_alike (same : p.same q = true) (deleted : o.snapshots.isDeleted p = m.snapshots.isDeleted q) :
    AlikeAnswers (o.demand env p) (m.demand env q) := by
  rw [demand, demand, Path.isComponent_congr same, deleted]
  split
  · exact .ok .none
  · rw [Surroundings.open?, Surroundings.open?, Files.read?_congr same]
    cases env.files.read? q with
    | none => exact .ok .none
    | some text => exact env.attempted_build same ..

theorem Agrees.refl (env : Surroundings) (o : Overlay) : Agrees env o o where
  scope := rfl
  deleted _ := rfl
  offers p q same := by
    rw [offer, offer, SnapshotTable.get?_congr same]
    split
    · exact .ok (.some (.refl _))
    · exact demand_alike same (SnapshotTable.isDeleted_congr same _)

inductive Met (env : Surroundings) : Overlay → Overlay → Prop where
  | built {o : Overlay} {s : Snapshot} (absent : o.snapshots.get? s.path = none)
      (demanded : o.demand env s.path = .ok (some s)) : Met env o (o.keep (.ok (some s)))

theorem Met.get? (met : Met env o m) : ∃ s, o.snapshots.get? s.path = none ∧ o.demand env s.path = .ok (some s) ∧
    ∀ q, m.snapshots.get? q = if s.path.same q then some s else o.snapshots.get? q := by
  cases met with
  | @built s absent demanded =>
    have shown := (demand_eq_some.mp demanded).2.1
    exact ⟨s, absent, demanded, SnapshotTable.get?_insertIfAbsent absent shown⟩

theorem Met.isDeleted (met : Met env o m) (p : Path) : m.snapshots.isDeleted p = o.snapshots.isDeleted p := by
  cases met
  exact SnapshotTable.isDeleted_insertIfAbsent ..

theorem Met.agrees (met : Met env o m) : Agrees env o m where
  scope := by
    cases met
    rfl
  deleted p := (met.isDeleted p).symm
  offers p q same := by
    obtain ⟨s, absent, demanded, get?⟩ := met.get?
    have deleted : o.snapshots.isDeleted p = m.snapshots.isDeleted q := by
      rw [met.isDeleted, SnapshotTable.isDeleted_congr same]
    rw [offer, offer, get?, SnapshotTable.get?_congr same]
    cases named : s.path.same q with
    | true =>
      -- the path has the snapshot now that it would have been given before
      have alike : p.same s.path = true := by rw [Path.same_trans same, Path.same_comm]; exact named
      have built : AlikeAnswers (o.demand env p) (.ok (some s)) :=
        demanded ▸ demand_alike alike (SnapshotTable.isDeleted_congr alike _)
      rw [← SnapshotTable.get?_congr named, absent, if_pos rfl]
      exact built
    | false =>
      rw [if_neg Bool.false_ne_true]
      split
      · exact .ok (.some (.refl _))
      · exact demand_alike same deleted

abbrev Demands (env : Surroundings) : Overlay → Overlay → Prop := ReflTransGen (Met env)

theorem Demands.agrees (demands : Demands env o m) : Agrees env o m := by
  induction demands with
  | refl => exact .refl env o
  | tail _ met ih => exact ih.trans met.agrees

/-- A snapshot outlasts every demand. -/
theorem Demands.keeps (demands : Demands env o m) (held : o.snapshots.get? p = some s) :
    m.snapshots.get? p = some s := by
  induction demands with
  | refl => exact held
  | tail _ met ih =>
    obtain ⟨t, absent, -, get?⟩ := met.get?
    rw [get?]
    split
    · next same =>
      rw [SnapshotTable.get?_congr same, ih] at absent
      cases absent
    · exact ih

theorem Demands.resolutions (demands : Demands env o m) : m.resolutions = o.resolutions := by
  induction demands with
  | refl => rfl
  | tail _ met ih =>
    cases met
    exact ih

theorem demands_bind {α β : Type} {x : Action Overlay α} {f : α → Action Overlay β}
    (first : Ends (fun _ after => Demands env o after) x o)
    (next : ∀ a m, Ends (fun _ after => Demands env m after) (f a) m) :
    Ends (fun _ after => Demands env o after) (x >>= f) o :=
  first.bind (fun _ _ demands => demands) fun a m demands => (next a m).imp fun _ _ later => demands.trans later

theorem snapshot_demands (env : Surroundings) (p : Path) (o : Overlay) :
    Ends (fun _ after => Demands env o after) (snapshot env p) o := by
  unfold Ends
  rw [snapshot_run]
  split
  · exact .refl
  · next absent =>
    generalize given : o.demand env p = answer
    cases answer with
    | error => exact .refl
    | ok found =>
      cases found with
      | none => exact .refl
      | some s =>
        obtain ⟨-, -, file, opened, built⟩ := demand_eq_some.mp given
        have path : s.path = p := (Surroundings.build_ok built).2.1.trans (Surroundings.open?_path opened)
        subst path
        exact .single (.built absent given)

theorem fileExists_demands (env : Surroundings) (p : Path) (o : Overlay) :
    Ends (fun _ after => Demands env o after) (fileExists env p) o := by
  unfold fileExists
  split
  · exact .pure .refl
  · refine demands_bind (snapshot_demands env p o) fun found m => ?_
    split
    · exact .pure .refl
    · exact .get_bind (.pure .refl)

theorem shownText_demands (env : Surroundings) (p : Path) (o : Overlay) :
    Ends (fun _ after => Demands env o after) (shownText env p) o := by
  unfold shownText
  split
  · exact .pure .refl
  · refine demands_bind (snapshot_demands env p o) fun found m => ?_
    split
    · exact .pure .refl
    · exact .get_bind (.pure .refl)

theorem scriptKind_demands (env : Surroundings) (p : Path) (o : Overlay) :
    Ends (fun _ after => Demands env o after) (scriptKind env p) o := by
  refine demands_bind (snapshot_demands env p o) fun found m => ?_
  split <;> exact .pure .refl

theorem scriptVersion_demands (env : Surroundings) (p : Path) (o : Overlay) :
    Ends (fun _ after => Demands env o after) (scriptVersion env p) o :=
  demands_bind (snapshot_demands env p o) fun _ _ => .pure .refl

theorem firstExisting_demands (env : Surroundings) (paths : List Path) (o : Overlay) :
    Ends (fun _ after => Demands env o after) (firstExisting env paths) o := by
  induction paths generalizing o with
  | nil => exact .pure .refl
  | cons p rest ih =>
    refine demands_bind (fileExists_demands env p o) fun there m => ?_
    split
    · exact .pure .refl
    · exact ih m

namespace Agrees

variable (agrees : Agrees env o m)

include agrees in
theorem readsDisk (same : p.same q = true) : o.readsDisk p = m.readsDisk q := by
  rw [Overlay.readsDisk, Overlay.readsDisk, agrees.deleted, SnapshotTable.isDeleted_congr same,
    Path.isComponent_congr same]

include agrees in
theorem fileExists (same : p.same q = true) : (fileExists env p o).1 = (fileExists env q m).1 := by
  cases bundled : Ambient.text? p with
  | some text =>
    have here : (Ambient.text? p).isSome = true := by rw [bundled]; rfl
    have there : (Ambient.text? q).isSome = true := Ambient.text?_congr same ▸ here
    rw [Overlay.fileExists, Overlay.fileExists, if_pos here, if_pos there]
    rfl
  | none =>
    rw [fileExists_answer bundled, fileExists_answer ((Ambient.text?_congr same).symm.trans bundled)]
    refine Answers.eq ((agrees.offers p q same).map fun found found' alike => ?_)
    rw [agrees.readsDisk same, Files.isFile_congr same]
    cases alike <;> rfl

include agrees in
theorem shownText (same : p.same q = true) : (shownText env p o).1 = (shownText env q m).1 := by
  cases bundled : Ambient.text? p with
  | some text =>
    have there : Ambient.text? q = some text := (Ambient.text?_congr same).symm.trans bundled
    unfold Overlay.shownText
    rw [bundled, there]
    rfl
  | none =>
    rw [shownText_answer bundled, shownText_answer ((Ambient.text?_congr same).symm.trans bundled)]
    refine Answers.eq ((agrees.offers p q same).map fun found found' alike => ?_)
    rw [agrees.readsDisk same, Files.read?_congr same]
    cases alike with
    | none => rfl
    | some alike => simp only [Option.map_some, alike.projected]

include agrees in
theorem scriptKind (same : p.same q = true) : (scriptKind env p o).1 = (scriptKind env q m).1 := by
  rw [scriptKind_answer, scriptKind_answer]
  refine Answers.eq ((agrees.offers p q same).map fun found found' alike => ?_)
  rw [Path.isComponent_congr same, ScriptKind.ofPath_congr same]
  cases alike with
  | none => rfl
  | some alike => exact alike.kind

include agrees in
theorem scriptVersion (same : p.same q = true) : (scriptVersion env p o).1 = (scriptVersion env q m).1 := by
  rw [scriptVersion_answer, scriptVersion_answer]
  refine Answers.eq ((agrees.offers p q same).map fun found found' alike => ?_)
  cases alike with
  | none => rfl
  | some alike => exact congrArg some alike.version

end Agrees

abbrev SameAnswers : Except Failure (Option Path) → Except Failure (Option Path) → Prop :=
  Answers (Option.Rel (·.same · = true))

/-- The search for an import finds the same file wherever it is known to exist. -/
theorem Agrees.firstExisting {paths others : List Path} (agrees : Agrees env o m)
    (alike : Forall₂ (·.same · = true) paths others) :
    SameAnswers (firstExisting env paths o).1 (firstExisting env others m).1 := by
  induction alike generalizing o m with
  | nil => exact .ok .none
  | @cons p q rest rest' same _ ih =>
    have there := agrees.fileExists same
    have left := fileExists_demands env p o
    have right := fileExists_demands env q m
    unfold Ends at left right
    cases here : Overlay.fileExists env p o with
    | mk answer after =>
      cases here' : Overlay.fileExists env q m with
      | mk answer' after' =>
        rw [here, here'] at there
        rw [here] at left
        rw [here'] at right
        obtain rfl : answer = answer' := there
        rw [Overlay.firstExisting, Overlay.firstExisting]
        cases answer with
        | error failure =>
          rw [Action.bind_error here, Action.bind_error here']
          exact .error failure
        | ok exists' =>
          rw [Action.bind_ok here, Action.bind_ok here']
          cases exists' with
          | true => exact .ok (.some same)
          | false => exact ih ((left.agrees.symm.trans agrees).trans right.agrees)

theorem cached?_congr (same : p.same q = true) (o : Overlay) (specifier : String) :
    o.cached? specifier p = o.cached? specifier q := by
  refine congrArg o.resolutions.find? (funext fun r => ?_)
  rw [Path.same_comm r.directory, Path.same_trans same, Path.same_comm]

/-- What an import from a directory leads to: to the answer that is kept, or else to the first path
that exists. -/
def leads (env : Surroundings) (o : Overlay) (specifier : String) (directory : Path) :
    Except Failure (Option Path) :=
  match o.cached? specifier directory with
  | some r => .ok r.target
  | none => (resolveUncached env specifier directory o).1

theorem resolveUncached_demands (env : Surroundings) (specifier : String) (directory : Path) (o : Overlay) :
    Ends (fun _ after => Demands env o after) (resolveUncached env specifier directory) o := by
  unfold Ends
  rw [resolveUncached_eq]
  exact firstExisting_demands env _ o

theorem Agrees.leads (agrees : Agrees env o m) (same : p.same q = true) (specifier : String)
    (cached : o.cached? specifier q = m.cached? specifier q) :
    SameAnswers (o.leads env specifier p) (m.leads env specifier q) := by
  rw [Overlay.leads, Overlay.leads, cached?_congr same, cached]
  split
  · exact .ok (optionRel_refl (fun _ => Path.same_iff.mpr rfl) _)
  · rw [resolveUncached_eq, resolveUncached_eq, agrees.scope]
    exact agrees.firstExisting (Resolution.paths_congr m.scope env specifier same)

/-- What no question changes: every answer, and every snapshot that there is. -/
structure Steady (env : Surroundings) (o m : Overlay) : Prop where
  agrees : Agrees env o m
  keeps : ∀ p s, o.snapshots.get? p = some s → m.snapshots.get? p = some s
  leads : ∀ specifier p q, p.same q = true → SameAnswers (o.leads env specifier p) (m.leads env specifier q)

theorem Steady.trans (first : Steady env o m) (second : Steady env m n) : Steady env o n where
  agrees := first.agrees.trans second.agrees
  keeps p s held := second.keeps p s (first.keeps p s held)
  leads specifier p q same :=
    (first.leads specifier p q same).trans
      (optionRel_trans fun _ _ _ here there => (Path.same_trans here _).trans there)
      (second.leads specifier q q (Path.same_iff.mpr rfl))

theorem Demands.steady (demands : Demands env o m) : Steady env o m where
  agrees := demands.agrees
  keeps _ _ := demands.keeps
  leads specifier p q same := by
    refine demands.agrees.leads same specifier ?_
    rw [cached?, cached?, demands.resolutions]

theorem Steady.refl (env : Surroundings) (o : Overlay) : Steady env o o := Demands.steady .refl

/-- An answer that was found is kept, and is the one that every spelling of the directory leads to. -/
theorem steady_kept {specifier : String} {directory : Path} {target : Option Path} (demands : Demands env o m)
    (missed : o.cached? specifier directory = none)
    (found : (resolveUncached env specifier directory o).1 = .ok target) :
    Steady env o { m with resolutions := ⟨specifier, directory, target⟩ :: m.resolutions } where
  agrees := ⟨demands.agrees.scope, demands.agrees.deleted, demands.agrees.offers⟩
  keeps _ _ := demands.keeps
  leads other p q same := by
    have agrees : Agrees env o { m with resolutions := ⟨specifier, directory, target⟩ :: m.resolutions } :=
      ⟨demands.agrees.scope, demands.agrees.deleted, demands.agrees.offers⟩
    cases hit : specifier == other && directory.same q with
    | true =>
      obtain ⟨named, there⟩ := Bool.and_eq_true_iff.mp hit
      obtain rfl := beq_iff_eq.mp named
      have alike : p.same directory = true := by rw [Path.same_trans same, Path.same_comm]; exact there
      -- nothing was kept for this import before, so it led to where the search leads
      have own : SameAnswers (o.leads env specifier p) (o.leads env specifier directory) :=
        (Agrees.refl env o).leads alike specifier rfl
      have before : o.leads env specifier directory = .ok target := by
        rw [Overlay.leads, missed]
        exact found
      rw [before] at own
      have after : Overlay.leads env { m with resolutions := ⟨specifier, directory, target⟩ :: m.resolutions }
          specifier q = .ok target := by
        rw [Overlay.leads, cached?, List.find?_cons, hit]
      rw [after]
      exact own
    | false =>
      refine agrees.leads same other ?_
      rw [cached?, cached?, List.find?_cons, hit, demands.resolutions]

theorem resolveModule_leads (env : Surroundings) (specifier : String) (importer : Path) (o : Overlay) :
    Ends (fun answer after => answer = o.leads env specifier (importer.parent?.getD ⟨""⟩) ∧ Steady env o after)
      (resolveModule env specifier importer) o := by
  unfold resolveModule
  refine .get_bind ?_
  unfold leads
  generalize importer.parent?.getD ⟨""⟩ = directory
  split
  · next r kept =>
    rw [kept]
    exact .pure ⟨rfl, .refl env o⟩
  · next missed =>
    rw [missed]
    have search : Ends (fun answer after => answer = (resolveUncached env specifier directory o).1 ∧
        Demands env o after) (resolveUncached env specifier directory) o :=
      ⟨rfl, resolveUncached_demands env specifier directory o⟩
    refine search.bind (fun failure m ⟨failed, demands⟩ => ?_) fun target m ⟨found, demands⟩ => ?_
    · exact ⟨failed, demands.steady⟩
    · exact .modify_bind (.pure ⟨found, steady_kept demands missed found.symm⟩)

def asked (env : Surroundings) (o : Overlay) (probe : Probe) : Overlay := (probe.action env o).2

/-- What one question changes of the answers: nothing. -/
theorem asked_steady (env : Surroundings) (o : Overlay) (probe : Probe) : Steady env o (o.asked env probe) := by
  have discard {α : Type} {x : Action Overlay α} (ends : Ends (fun _ after => Steady env o after) x o) :
      Ends (fun _ after => Steady env o after) (x >>= fun _ => pure ()) o :=
    ends.bind (fun _ _ steady => steady) fun _ _ steady => .pure steady
  have demanded {α : Type} {x : Action Overlay α} (ends : Ends (fun _ after => Demands env o after) x o) :
      Ends (fun _ after => Steady env o after) (x >>= fun _ => pure ()) o :=
    discard (ends.imp fun _ _ demands => demands.steady)
  cases probe with
  | snapshot p => exact demanded (snapshot_demands env p o)
  | fileExists p => exact demanded (fileExists_demands env p o)
  | shownText p => exact demanded (shownText_demands env p o)
  | scriptKind p => exact demanded (scriptKind_demands env p o)
  | scriptVersion p => exact demanded (scriptVersion_demands env p o)
  | resolveModule specifier importer =>
    exact discard ((resolveModule_leads env specifier importer o).imp fun _ _ h => h.2)

theorem asked_all_steady (env : Surroundings) (o : Overlay) (probes : List Probe) :
    Steady env o (probes.foldl (asked env) o) := by
  induction probes generalizing o with
  | nil => exact .refl env o
  | cons probe rest ih => exact (asked_steady env o probe).trans (ih _)

/-- A file exists exactly when it can be read. -/
theorem exists_iff_shown (honest : ∀ p, env.files.isFile p = (env.files.read? p).isSome)
    (unbundled : Ambient.text? p = none) :
    (fileExists env p o).1 = (shownText env p o).1.map Option.isSome := by
  rw [fileExists_answer unbundled, shownText_answer unbundled]
  cases o.offer env p with
  | error failure => rfl
  | ok found =>
    refine congrArg Except.ok ?_
    cases found with
    | some s => rfl
    | none =>
      rw [honest]
      cases o.readsDisk p <;> rfl

/-- All queries speak of the snapshot that a path has or can be given. -/
theorem Gives.answers (gives : Gives env o p s) (unbundled : Ambient.text? p = none) :
    (snapshot env p o).1 = .ok (some s) ∧ (shownText env p o).1 = .ok (some s.projected) ∧
      (scriptKind env p o).1 = .ok s.kind ∧ (scriptVersion env p o).1 = .ok (some s.version) := by
  have offered := gives_iff.mp gives
  rw [snapshot_answer, shownText_answer unbundled, scriptKind_answer, scriptVersion_answer, offered]
  exact ⟨rfl, rfl, rfl, rfl⟩

theorem shownText_of_not_gives (unbundled : Ambient.text? p = none) (component : p.isComponent = true)
    (unbuildable : ∀ s, ¬Gives env o p s) :
    (shownText env p o).1 = .ok none ∨ ∃ file message, env.open? p = some file ∧
      env.build o.clock file .disk = .error (.fault message) ∧ (shownText env p o).1 = .error (.fault message) := by
  have unread : o.readsDisk p = false := by rw [Overlay.readsDisk, component]; simp
  rw [shownText_answer unbundled, unread]
  cases offered : o.offer env p with
  | ok found =>
    cases found with
    | none => exact .inl rfl
    | some s => exact absurd (gives_iff.mpr offered) (unbuildable s)
  | error failure =>
    obtain ⟨file, message, opened, fault, rfl⟩ := offer_eq_error offered
    exact .inr ⟨file, message, opened, fault, rfl⟩

/-- On a disk whose files can be read, in any overlay. A path other than the ambient files exists exactly
when its text is shown. If it has a snapshot or can be given one, the text, the kind and the version are
those of the snapshot; a component that can be given none is not shown, unless the parsers break off on
it. Whatever is asked, in any order, leaves every answer about every path what it was: no snapshot is
replaced, one that was built meanwhile is the one that would have been built, and imports lead where they
led. -/
theorem answers_steady (env : Surroundings) (honest : ∀ p, env.files.isFile p = (env.files.read? p).isSome)
    (o : Overlay) :
    (∀ p, Ambient.text? p = none →
      (fileExists env p o).1 = (shownText env p o).1.map Option.isSome ∧
      (∀ s, Gives env o p s → (snapshot env p o).1 = .ok (some s) ∧ (shownText env p o).1 = .ok (some s.projected) ∧
        (scriptKind env p o).1 = .ok s.kind ∧ (scriptVersion env p o).1 = .ok (some s.version)) ∧
      (p.isComponent = true → (∀ s, ¬Gives env o p s) →
        (shownText env p o).1 = .ok none ∨ ∃ file message, env.open? p = some file ∧
          env.build o.clock file .disk = .error (.fault message) ∧
          (shownText env p o).1 = .error (.fault message))) ∧
    ∀ probes : List Probe, let m := probes.foldl (asked env) o
      (∀ p, (fileExists env p m).1 = (fileExists env p o).1 ∧ (shownText env p m).1 = (shownText env p o).1 ∧
        (scriptKind env p m).1 = (scriptKind env p o).1 ∧ (scriptVersion env p m).1 = (scriptVersion env p o).1 ∧
        AlikeAnswers (snapshot env p o).1 (snapshot env p m).1) ∧
      (∀ p s, o.snapshots.get? p = some s → m.snapshots.get? p = some s) ∧
      ∀ specifier importer,
        SameAnswers (resolveModule env specifier importer o).1 (resolveModule env specifier importer m).1 := by
  refine ⟨fun p unbundled => ⟨exists_iff_shown honest unbundled, fun s gives => gives.answers unbundled,
    shownText_of_not_gives unbundled⟩, fun probes => ?_⟩
  have steady := asked_all_steady env o probes
  have agrees := steady.agrees
  refine ⟨fun p => ?_, steady.keeps, fun specifier importer => ?_⟩
  · have same : p.same p = true := Path.same_iff.mpr rfl
    refine ⟨(agrees.fileExists same).symm, (agrees.shownText same).symm, (agrees.scriptKind same).symm,
      (agrees.scriptVersion same).symm, ?_⟩
    rw [snapshot_answer, snapshot_answer]
    exact agrees.offers p p same
  · have here := (resolveModule_leads env specifier importer o).1
    have there := (resolveModule_leads env specifier importer (probes.foldl (asked env) o)).1
    rw [here, there]
    exact steady.leads specifier _ _ (Path.same_iff.mpr rfl)

/-- A disk with a script, a component and a component that the scanner refuses. -/
def sampleDisk : Surroundings where
  markup := .ofText fun text => match Markup.scan text with
    | .ok doc => .ok doc
    | .error _ => .error (.refused "no markup")
  script _ _ := none
  files := Path.Table.ofEntries [(⟨"/a.ts"⟩, .text "export {};"), (⟨"/Good.svelte"⟩, .text "hi"),
    (⟨"/Bad.svelte"⟩, .text "</p>")]

theorem sampleDisk_honest (p : Path) : sampleDisk.files.isFile p = (sampleDisk.files.read? p).isSome := by
  have entries : sampleDisk.files.entries =
      [(⟨"/a.ts"⟩, .text "export {};"), (⟨"/Good.svelte"⟩, .text "hi"), (⟨"/Bad.svelte"⟩, .text "</p>")] := by
    decide +kernel
  rw [Files.isFile, Files.read?, Path.Table.contains_eq_isSome, Path.Table.get?, entries]
  simp only [List.find?_cons, List.find?_nil]
  split
  · rfl
  · split
    · rfl
    · split <;> rfl

/-- One component is read through an import and under another name, the other one is not shown. -/
theorem answers_steady_sample :
    (∀ p, sampleDisk.files.isFile p = (sampleDisk.files.read? p).isSome) ∧
    let o := Overlay.ofScope sampleScope
    let good : Path := ⟨"/Good.svelte"⟩
    let bad : Path := ⟨"/Bad.svelte"⟩
    let questions := [Probe.resolveModule "./Good.svelte" ⟨"/a.ts"⟩, .shownText bad, .fileExists ⟨"/./Good.svelte"⟩]
    let m := questions.foldl (asked sampleDisk) o
    ∃ s, Gives sampleDisk o good s ∧ (shownText sampleDisk good o).1 = .ok (some s.projected) ∧
      (shownText sampleDisk good m).1 = .ok (some s.projected) ∧
      (shownText sampleDisk bad m).1 = .ok none := by
  refine ⟨sampleDisk_honest, ?_⟩
  intro o good bad questions m
  obtain ⟨shows, later⟩ := answers_steady sampleDisk sampleDisk_honest o
  have fresh (p : Path) : o.snapshots.get? p = none := rfl
  have unbundled : Ambient.text? good = none ∧ Ambient.text? bad = none := by decide +kernel
  have opened : sampleDisk.open? good = some ⟨good, "hi", 0⟩ := by decide +kernel
  have built : (sampleDisk.build 0 ⟨good, "hi", 0⟩ .disk).toOption.isSome = true := by decide +kernel
  obtain ⟨s, found⟩ := Option.isSome_iff_exists.mp built
  have gives : Gives sampleDisk o good s :=
    .built (fresh good) (by decide +kernel) rfl opened (ok_of_toOption found)
  obtain ⟨-, shown, -, -⟩ := (shows good unbundled.1).2.1 s gives
  have opened : sampleDisk.open? bad = some ⟨bad, "</p>", 0⟩ := by decide +kernel
  have refused : sampleDisk.build 0 ⟨bad, "</p>", 0⟩ .disk = .error (.error (.unparsable bad "no markup")) := by
    decide +kernel
  have unbuildable (t : Snapshot) : ¬Gives sampleDisk o bad t := by
    rintro (held | ⟨-, -, -, other, built⟩)
    · cases (fresh bad).symm.trans held
    · cases opened.symm.trans other
      cases refused.symm.trans built
  have hidden : (shownText sampleDisk bad o).1 = .ok none := by
    refine ((shows bad unbundled.2).2.2 (by decide +kernel) unbuildable).resolve_right ?_
    rintro ⟨file, message, other, fault, -⟩
    cases opened.symm.trans other
    cases refused.symm.trans fault
  obtain ⟨same, -, -⟩ := later questions
  exact ⟨s, gives, shown, (same good).2.1.trans shown, (same bad).2.1.trans hidden⟩

end SvelteLens.Service.Overlay
