import Mathlib.Logic.Relation
import SvelteLens.Proofs.Path.Spelling
import SvelteLens.Proofs.Service.Actions
import SvelteLens.Proofs.Service.Search
import SvelteLens.Proofs.Service.Tables

/-! What the engine can do to an overlay by looking at files. A component that has no snapshot and
is not deleted may be built, and the answers to imports are kept; nothing else changes, and no
error comes back. -/
namespace SvelteLens.Service

open SvelteLens.Service.Action (Ends)
open Relation (ReflTransGen)

/-- Whatever is served from memory has the name of one of the ambient files, in their directory. -/
theorem Ambient.components_of_text? {p : Path} {text : String} (served : Ambient.text? p = some text) :
    ∃ name, p.components = directory.components ++ [.name name] ∧ files.lookup name = some text ∧
      (name = "svelte-shims.d.ts" ∨ name = "svelte-jsx.d.ts") := by
  obtain ⟨name, stripped, listed⟩ := Option.bind_eq_some_iff.mp served
  have known : name.text = "svelte-shims.d.ts" ∨ name.text = "svelte-jsx.d.ts" := by
    by_cases first : name.text = "svelte-shims.d.ts"
    · exact .inl first
    · by_cases second : name.text = "svelte-jsx.d.ts"
      · exact .inr second
      · simp [files, List.lookup_cons, beq_eq_false_iff_ne.mpr first, beq_eq_false_iff_ne.mpr second] at listed
  have plain : name.text ≠ "" ∧ '/' ∉ name.text.toList := by
    rcases known with known | known <;> rw [known] <;> decide
  obtain ⟨c, whole, spelled⟩ := Path.components_of_stripBase? stripped plain.1 plain.2
  have named : c = .name name.text := by
    cases c with
    | name text => exact congrArg Component.name spelled
    | root => exact absurd (spelled ▸ plain.2) (by decide)
    | here => rcases known with known | known <;> exact absurd (spelled.trans known) (by decide)
    | up => rcases known with known | known <;> exact absurd (spelled.trans known) (by decide)
  exact ⟨name.text, named ▸ whole, listed, known⟩

theorem Ambient.same_of_text? {p : Path} {text : String} (served : Ambient.text? p = some text) :
    ∃ file ∈ Ambient.paths, p.same file = true := by
  obtain ⟨name, whole, -, known⟩ := components_of_text? served
  refine ⟨directory.join ⟨name⟩, ?_, ?_⟩
  · rcases known with known | known <;> simp [paths, files, known]
  · rw [Path.same_iff, whole]
    rcases known with known | known <;> rw [known] <;> rfl

theorem Ambient.text?_congr {p q : Path} (same : p.same q = true) : Ambient.text? p = Ambient.text? q := by
  have served {p q : Path} {text : String} (same : p.same q = true) (served : Ambient.text? p = some text) :
      Ambient.text? q = some text := by
    obtain ⟨name, whole, listed, -⟩ := components_of_text? served
    rw [Path.same_iff.mp same] at whole
    rw [text?, Path.stripBase?_of_components whole]
    exact listed
  cases here : Ambient.text? p with
  | some text => exact (served same here).symm
  | none =>
    cases there : Ambient.text? q with
    | none => rfl
    | some text =>
      rw [Path.same_comm] at same
      cases here.symm.trans (served same there)

section Building

variable {env : Surroundings} {stamp : Nat} {file : SourceFile} {provenance : Provenance} {s : Snapshot}

/-- A snapshot is of the path, the version and the origin it was built for. -/
theorem Surroundings.build_ok (built : env.build stamp file provenance = .ok s) :
    s.stamp = stamp ∧ s.path = file.path ∧ s.version = file.version ∧ s.provenance = provenance := by
  unfold Surroundings.build at built
  split at built
  · split at built
    · cases built
    · cases built
    · split at built <;> cases built
      exact ⟨rfl, rfl, rfl, rfl⟩
  · cases built
    exact ⟨rfl, rfl, rfl, rfl⟩

theorem Surroundings.open?_path {p : Path} (opened : env.open? p = some file) : file.path = p := by
  obtain ⟨text, -, rfl⟩ := Option.map_eq_some_iff.mp opened
  rfl

end Building

namespace Overlay

variable {env : Surroundings} {o after : Overlay} {p : Path}

/-- A path that the engine may be told of: an ambient file, a file with a snapshot, or one that was
not deleted. -/
def Visible (o : Overlay) (p : Path) : Prop :=
  (Ambient.text? p).isSome ∨ (o.snapshots.get? p).isSome ∨ o.snapshots.isDeleted p = false

inductive Look (env : Surroundings) : Overlay → Overlay → Prop where
  | built {o : Overlay} {s : Snapshot} {file : SourceFile} (opened : env.open? s.path = some file)
      (absent : o.snapshots.get? s.path = none) (shown : o.snapshots.isDeleted s.path = false)
      (built : env.build o.clock file .disk = .ok s) :
      Look env o { o with snapshots := o.snapshots.insertIfAbsent s, clock := o.clock + 1 }
  | resolved {o : Overlay} {specifier : String} {directory : Path} {target : Option Path}
      (missed : o.cached? specifier directory = none) (visible : ∀ t, target = some t → o.Visible t) :
      Look env o { o with resolutions := ⟨specifier, directory, target⟩ :: o.resolutions }

theorem Look.keeps {s : Snapshot} (look : Look env o after) (held : o.snapshots.get? p = some s) :
    after.snapshots.get? p = some s := by
  cases look with
  | @built made file opened absent shown built =>
    simp only [SnapshotTable.get?_insertIfAbsent absent shown]
    split
    · next same =>
      rw [SnapshotTable.get?_congr same, held] at absent
      cases absent
    · exact held
  | resolved => exact held

theorem Look.isDeleted (look : Look env o after) : after.snapshots.isDeleted p = o.snapshots.isDeleted p := by
  cases look with
  | built => exact SnapshotTable.isDeleted_insertIfAbsent ..
  | resolved => rfl

theorem Look.absent (look : Look env o after) (deleted : o.snapshots.isDeleted p = true)
    (missing : o.snapshots.get? p = none) : after.snapshots.get? p = none := by
  cases look with
  | @built made file opened absent shown built =>
    simp only [SnapshotTable.get?_insertIfAbsent absent shown]
    split
    · next same =>
      rw [SnapshotTable.isDeleted_congr same, deleted] at shown
      cases shown
    · exact missing
  | resolved => exact missing

abbrev Looks (env : Surroundings) : Overlay → Overlay → Prop := ReflTransGen (Look env)

structure Looked {α : Type} (env : Surroundings) (o : Overlay) (answer : Except Failure α) (after : Overlay) :
    Prop where
  looks : Looks env o after
  unrefused : ¬Refused answer

theorem not_refused_ok {α : Type} (a : α) : ¬Refused (.ok a : Except Failure α) := by
  rintro ⟨e, h⟩
  cases h

theorem not_refused_fault {α : Type} (message : Option String) : ¬Refused (.error (.fault message) : Except Failure α) := by
  rintro ⟨e, h⟩
  cases h

theorem Looked.failed {α β : Type} {failure : Failure} (h : Looked env o (.error failure : Except Failure α) after) :
    Looked env o (.error failure : Except Failure β) after := by
  refine ⟨h.looks, ?_⟩
  rintro ⟨e, same⟩
  cases same
  exact h.unrefused ⟨e, rfl⟩

theorem Looked.stay {α : Type} (a : α) : Looked env o (.ok a) o := ⟨.refl, not_refused_ok a⟩

theorem looked_bind {α β : Type} {x : Action Overlay α} {f : α → Action Overlay β}
    (first : Ends (Looked env o) x o) (next : ∀ a m, Ends (Looked env m) (f a) m) :
    Ends (Looked env o) (x >>= f) o :=
  first.bind (fun _ _ looked => looked.failed)
    fun a m looked => (next a m).imp fun _ _ rest => ⟨looked.looks.trans rest.looks, rest.unrefused⟩

/-- What a request for a snapshot gives: the current one, if there is one now. -/
theorem snapshot_ends (env : Surroundings) (p : Path) (o : Overlay) :
    Ends (fun answer after => Looked env o answer after ∧ ∀ found, answer = .ok found →
      found = after.snapshots.get? p) (snapshot env p) o := by
  unfold snapshot
  refine .get_bind ?_
  split
  · next s held =>
    refine .pure ⟨.stay _, ?_⟩
    rintro _ ⟨⟩
    exact held.symm
  · next absent =>
    have stays : Looked env o (.ok (none : Option Snapshot)) o ∧
        ∀ found, Except.ok (ε := Failure) none = .ok found → found = o.snapshots.get? p := by
      refine ⟨.stay _, ?_⟩
      rintro _ ⟨⟩
      cases held : o.snapshots.get? p with
      | none => rfl
      | some s => exact absurd held (absent s)
    split
    · exact .pure stays
    · next onDemand =>
      have shown : o.snapshots.isDeleted p = false := by
        rw [Bool.or_eq_true, not_or] at onDemand
        simpa using onDemand.2
      split
      · next file opened =>
        split
        · next s built =>
          have path : s.path = p := (Surroundings.build_ok built).2.1.trans (Surroundings.open?_path opened)
          subst path
          have none : o.snapshots.get? s.path = none := (stays.2 none rfl).symm
          refine .set_bind (.pure ⟨⟨.single (.built opened none shown built), not_refused_ok _⟩, ?_⟩)
          rintro _ ⟨⟩
          simp [SnapshotTable.get?_insertIfAbsent none shown, Path.same]
        · exact .pure stays
        · refine .throw ⟨⟨.refl, not_refused_fault _⟩, ?_⟩
          rintro _ ⟨⟩
      · exact .pure stays

theorem snapshot_resolutions (env : Surroundings) (p : Path) (o : Overlay) :
    Ends (fun _ after => after.resolutions = o.resolutions) (snapshot env p) o := by
  unfold snapshot
  refine .get_bind ?_
  split
  · exact .pure rfl
  · split
    · exact .pure rfl
    · split
      · split
        · exact .set_bind (.pure rfl)
        · exact .pure rfl
        · exact .throw rfl
      · exact .pure rfl

theorem snapshot_looked (env : Surroundings) (p : Path) (o : Overlay) : Ends (Looked env o) (snapshot env p) o :=
  (snapshot_ends env p o).imp fun _ _ h => h.1

theorem fileExists_ends (env : Surroundings) (p : Path) (o : Overlay) :
    Ends (fun answer after => Looked env o answer after ∧ (answer = .ok true → after.Visible p))
      (fileExists env p) o := by
  unfold fileExists
  split
  · next served => exact .pure ⟨.stay _, fun _ => .inl served⟩
  · refine (snapshot_ends env p o).bind ?_ fun found m ⟨looked, current⟩ => ?_
    · rintro failure m ⟨looked, -⟩
      exact ⟨looked.failed, nofun⟩
    · have current := current found rfl
      split
      · next there => exact .pure ⟨⟨looked.looks, not_refused_ok _⟩, fun _ => .inr (.inl (current ▸ there))⟩
      · refine .get_bind (.pure ⟨⟨looked.looks, not_refused_ok _⟩, fun onDisk => .inr (.inr ?_)⟩)
        have reads : (m.readsDisk p && env.files.isFile p) = true := Except.ok.inj onDisk
        simp only [readsDisk, Bool.and_eq_true, Bool.not_eq_true'] at reads
        exact reads.1.1

theorem fileExists_resolutions (env : Surroundings) (p : Path) (o : Overlay) :
    Ends (fun _ after => after.resolutions = o.resolutions) (fileExists env p) o := by
  unfold fileExists
  split
  · exact .pure rfl
  · refine (snapshot_resolutions env p o).bind (fun _ _ kept => kept) fun found m kept => ?_
    split
    · exact .pure kept
    · exact .get_bind (.pure kept)

theorem shownText_looked (env : Surroundings) (p : Path) (o : Overlay) : Ends (Looked env o) (shownText env p) o := by
  unfold shownText
  split
  · exact .pure (.stay _)
  · refine looked_bind (snapshot_looked env p o) fun found m => ?_
    split
    · exact .pure (.stay _)
    · exact .get_bind (.pure (.stay _))

theorem scriptKind_looked (env : Surroundings) (p : Path) (o : Overlay) : Ends (Looked env o) (scriptKind env p) o := by
  unfold scriptKind
  refine looked_bind (snapshot_looked env p o) fun found m => ?_
  split <;> exact .pure (.stay _)

theorem scriptVersion_looked (env : Surroundings) (p : Path) (o : Overlay) :
    Ends (Looked env o) (scriptVersion env p) o :=
  looked_bind (snapshot_looked env p o) fun _ _ => .pure (.stay _)

theorem firstExisting_ends (env : Surroundings) (paths : List Path) (o : Overlay) :
    Ends (fun answer after => Looked env o answer after ∧ ∀ t, answer = .ok (some t) → after.Visible t)
      (firstExisting env paths) o := by
  induction paths generalizing o with
  | nil => exact .pure ⟨.stay _, nofun⟩
  | cons p rest ih =>
    refine (fileExists_ends env p o).bind ?_ fun there m ⟨looked, visible⟩ => ?_
    · rintro failure m ⟨looked, -⟩
      exact ⟨looked.failed, nofun⟩
    · split
      · next found =>
        refine .pure ⟨⟨looked.looks, not_refused_ok _⟩, ?_⟩
        rintro _ ⟨⟩
        exact visible (congrArg _ found)
      · exact (ih m).imp fun _ _ ⟨later, shown⟩ => ⟨⟨looked.looks.trans later.looks, later.unrefused⟩, shown⟩

theorem firstExisting_resolutions (env : Surroundings) (paths : List Path) (o : Overlay) :
    Ends (fun _ after => after.resolutions = o.resolutions) (firstExisting env paths) o := by
  induction paths generalizing o with
  | nil => exact .pure rfl
  | cons p rest ih =>
    refine (fileExists_resolutions env p o).bind (fun _ _ kept => kept) fun there m kept => ?_
    split
    · exact .pure kept
    · exact (ih m).imp fun _ _ later => later.trans kept

theorem resolveUncached_ends (env : Surroundings) (specifier : String) (directory : Path) (o : Overlay) :
    Ends (fun answer after => (Looked env o answer after ∧ after.resolutions = o.resolutions) ∧
        ∀ t, answer = .ok (some t) → after.Visible t)
      (resolveUncached env specifier directory) o := by
  unfold Ends
  rw [resolveUncached_eq]
  obtain ⟨looked, visible⟩ := firstExisting_ends env (Resolution.paths o.scope env specifier directory) o
  exact ⟨⟨looked, firstExisting_resolutions env _ o⟩, visible⟩

theorem resolveModule_ends (env : Surroundings) (specifier : String) (importer : Path) (o : Overlay) :
    Ends (fun answer after => Looked env o answer after ∧
        ∀ t, answer = .ok (some t) → ∃ r ∈ after.resolutions, r.target = some t)
      (resolveModule env specifier importer) o := by
  unfold resolveModule
  refine .get_bind ?_
  split
  · next r kept => exact .pure ⟨.stay _, fun t same => ⟨r, List.mem_of_find?_eq_some kept, Except.ok.inj same⟩⟩
  · next unkept =>
    refine (resolveUncached_ends env specifier _ o).bind ?_ fun target m ⟨⟨looked, kept⟩, visible⟩ => ?_
    · rintro failure m ⟨⟨looked, -⟩, -⟩
      exact ⟨looked.failed, nofun⟩
    · have missed : m.cached? specifier (importer.parent?.getD ⟨""⟩) = none := by
        rw [cached?, kept]
        exact Option.eq_none_iff_forall_ne_some.mpr unkept
      have look : Look env m { m with resolutions := ⟨specifier, importer.parent?.getD ⟨""⟩, target⟩ :: m.resolutions } :=
        .resolved missed fun t same => visible t (congrArg _ same)
      refine .modify_bind (.pure ⟨⟨looked.looks.tail look, not_refused_ok _⟩, fun t same => ?_⟩)
      exact ⟨_, List.mem_cons_self, Except.ok.inj same⟩

end Overlay

end SvelteLens.Service
