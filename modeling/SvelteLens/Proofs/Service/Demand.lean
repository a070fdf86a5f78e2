import SvelteLens.Proofs.Path.Joining
import SvelteLens.Proofs.Service.Looks
import SvelteLens.Proofs.Service.Specifiers

/-! What the overlay shows of a path. Every query comes down to one question: which snapshot the
path has or is given on demand. The queries are read off that answer, and off what the disk has when
there is no snapshot; so they agree with each other, whatever the path is. -/
namespace SvelteLens

namespace Path

theorem isComponent_congr {p q : Path} (same : p.same q = true) : p.isComponent = q.isComponent := by
  rw [isComponent, isComponent, extension?_congr same]

theorem componentName_congr {p q : Path} (same : p.same q = true) : p.componentName = q.componentName := by
  rw [componentName, componentName, fileStem?, fileStem?, fileName?_congr same]

end Path

theorem ScriptKind.ofPath_congr {p q : Path} (same : p.same q = true) : ofPath p = ofPath q := by
  rw [ofPath, ofPath, Path.fileName?_congr same, Path.extension?_congr same]

theorem Projection.ofComponent_congr {p q : Path} (same : p.same q = true) (reader : Script.Reader) (source : String)
    (doc : Markup.Document) : ofComponent reader source doc (some p) = ofComponent reader source doc (some q) := by
  have named : edited reader source doc (some p) = edited reader source doc (some q) := by
    simp only [edited, Option.elim_some, Path.componentName_congr same]
  rw [ofComponent, ofComponent, named]

namespace Service

open SvelteLens.Service.Action (Ends)

/-- Two snapshots of one text: they differ at most in their stamps and in how their path is spelled. -/
structure Snapshot.Alike (s t : Snapshot) : Prop where
  path : s.path.same t.path = true
  content : s = { t with stamp := s.stamp, path := s.path }

namespace Snapshot

variable {s t u : Snapshot}

theorem Alike.refl (s : Snapshot) : Alike s s := ⟨Path.same_iff.mpr rfl, rfl⟩

theorem Alike.symm (alike : Alike s t) : Alike t s where
  path := by rw [Path.same_comm]; exact alike.path
  content := by rw [alike.content]

theorem Alike.trans (first : Alike s t) (second : Alike t u) : Alike s u where
  path := by rw [Path.same_trans first.path]; exact second.path
  content := by
    have content := first.content
    rw [second.content] at content
    exact content

theorem Alike.version (alike : Alike s t) : s.version = t.version := by rw [alike.content]

theorem Alike.kind (alike : Alike s t) : s.kind = t.kind := by rw [alike.content]

theorem Alike.projected (alike : Alike s t) : s.projected = t.projected := by rw [alike.content]

end Snapshot

/-- Two answers that agree: related values, or one and the same failure. -/
inductive Answers {α β : Type} (R : α → β → Prop) : Except Failure α → Except Failure β → Prop where
  | ok {a : α} {b : β} (related : R a b) : Answers R (.ok a) (.ok b)
  | error (failure : Failure) : Answers R (.error failure) (.error failure)

namespace Answers

variable {α β γ δ : Type} {R : α → α → Prop} {x y z : Except Failure α}

theorem symm (symmetric : ∀ a b, R a b → R b a) (agree : Answers R x y) : Answers R y x := by
  cases agree with
  | ok related => exact .ok (symmetric _ _ related)
  | error failure => exact .error failure

theorem trans (transitive : ∀ a b c, R a b → R b c → R a c) (first : Answers R x y) (second : Answers R y z) :
    Answers R x z := by
  cases first with
  | ok related =>
    cases second with
    | ok later => exact .ok (transitive _ _ _ related later)
  | error failure => exact second

theorem map {S : γ → δ → Prop} {x : Except Failure α} {y : Except Failure β} {R : α → β → Prop} {f : α → γ} {g : β → δ}
    (agree : Answers R x y) (related : ∀ a b, R a b → S (f a) (g b)) : Answers S (x.map f) (y.map g) := by
  cases agree with
  | ok here => exact .ok (related _ _ here)
  | error failure => exact .error failure

theorem eq (agree : Answers (· = ·) x y) : x = y := by
  cases agree with
  | ok same => rw [same]
  | error failure => rfl

end Answers

section Optional

variable {α : Type} {R : α → α → Prop}

theorem optionRel_refl (reflexive : ∀ a, R a a) (x : Option α) : Option.Rel R x x := by
  cases x with
  | none => exact .none
  | some a => exact .some (reflexive a)

theorem optionRel_symm (symmetric : ∀ a b, R a b → R b a) (x y : Option α) (related : Option.Rel R x y) :
    Option.Rel R y x := by
  cases related with
  | none => exact .none
  | some related => exact .some (symmetric _ _ related)

theorem optionRel_trans (transitive : ∀ a b c, R a b → R b c → R a c) (x y z : Option α) (first : Option.Rel R x y)
    (second : Option.Rel R y z) : Option.Rel R x z := by
  cases first with
  | none => exact second
  | some related =>
    cases second with
    | some later => exact .some (transitive _ _ _ related later)

end Optional

/-- What a query makes of an attempt to build a snapshot: when it is refused, there is none. -/
def attempted : Except Failure Snapshot → Except Failure (Option Snapshot)
  | .ok s => .ok (some s)
  | .error (.error _) => .ok none
  | .error (.fault message) => .error (.fault message)

abbrev AlikeAnswers : Except Failure (Option Snapshot) → Except Failure (Option Snapshot) → Prop :=
  Answers (Option.Rel Snapshot.Alike)

/-- What is built depends neither on the stamp nor on the spelling of the path. -/
theorem Surroundings.attempted_build {p q : Path} (same : p.same q = true) (env : Surroundings) (stamp stamp' : Nat)
    (text : String) (version : Int) (provenance : Provenance) :
    AlikeAnswers (attempted (env.build stamp ⟨p, text, version⟩ provenance))
      (attempted (env.build stamp' ⟨q, text, version⟩ provenance)) := by
  unfold Surroundings.build
  dsimp only
  rw [Path.isComponent_congr same]
  cases q.isComponent with
  | false =>
    refine .ok (.some ⟨same, ?_⟩)
    simp only [Snapshot.ofScript, ScriptKind.ofPath_congr same]
  | true =>
    rw [if_pos rfl, if_pos rfl]
    rw [env.markup.respelled same]
    cases env.markup.parse q text with
    | error failure =>
      cases failure with
      | refused message => exact .ok .none
      | fault message => exact .error (.fault message)
    | ok doc =>
      dsimp only
      rw [Projection.ofComponent_congr same]
      cases Projection.ofComponent env.script text doc (some q) with
      | ok projection => exact .ok (.some ⟨same, rfl⟩)
      | error e =>
        cases e with
        | fault => exact .error (.fault none)
        | _ => exact .ok .none

namespace Overlay

variable {env : Surroundings} {o : Overlay} {p q : Path} {s : Snapshot}

def demand (env : Surroundings) (o : Overlay) (p : Path) : Except Failure (Option Snapshot) :=
  if !p.isComponent || o.snapshots.isDeleted p then .ok none
  else (env.open? p).elim (.ok none) fun file => attempted (env.build o.clock file .disk)

def keep (o : Overlay) : Except Failure (Option Snapshot) → Overlay
  | .ok (some s) => { o with snapshots := o.snapshots.insertIfAbsent s, clock := o.clock + 1 }
  | _ => o

theorem snapshot_run (env : Surroundings) (p : Path) (o : Overlay) :
    snapshot env p o = match o.snapshots.get? p with
      | some s => (.ok (some s), o)
      | none => (o.demand env p, o.keep (o.demand env p)) := by
  have ends : Ends (fun answer after => (answer, after) = match o.snapshots.get? p with
      | some s => (.ok (some s), o)
      | none => (o.demand env p, o.keep (o.demand env p))) (snapshot env p) o := by
    unfold snapshot
    refine .get_bind ?_
    split
    · next s held =>
      rw [held]
      exact .pure rfl
    · next absent =>
      rw [absent]
      dsimp only
      unfold demand
      split
      · exact .pure rfl
      · split
        · next file opened =>
          rw [opened, Option.elim_some]
          split
          · next s built =>
            rw [built]
            exact .set_bind (.pure rfl)
          · next e refused =>
            rw [refused]
            exact .pure rfl
          · next message fault =>
            rw [fault]
            exact .throw rfl
        · next unopened =>
          have closed : env.open? p = Option.none := by
            cases opened : env.open? p with
            | none => rfl
            | some file => exact absurd opened (unopened file)
          rw [closed]
          exact .pure rfl
  exact ends

def offer (env : Surroundings) (o : Overlay) (p : Path) : Except Failure (Option Snapshot) :=
  match o.snapshots.get? p with
  | some s => .ok (some s)
  | none => o.demand env p

theorem snapshot_answer (env : Surroundings) (p : Path) (o : Overlay) : (snapshot env p o).1 = o.offer env p := by
  rw [snapshot_run, offer]
  split <;> rfl

theorem snapshot_offers (env : Surroundings) (p : Path) (o : Overlay) :
    Ends (fun answer after => answer = o.offer env p ∧ ∀ q, after.snapshots.isDeleted q = o.snapshots.isDeleted q)
      (snapshot env p) o := by
  refine ⟨snapshot_answer env p o, fun q => ?_⟩
  rw [snapshot_run]
  split
  · rfl
  · unfold keep
    split
    · exact SnapshotTable.isDeleted_insertIfAbsent ..
    · rfl

/-- A path has a snapshot, or it can be given one: it is a component, it is not deleted, and its file
can be read and built. -/
inductive Gives (env : Surroundings) (o : Overlay) (p : Path) (s : Snapshot) : Prop where
  | held (held : o.snapshots.get? p = some s)
  | built {file : SourceFile} (absent : o.snapshots.get? p = none) (component : p.isComponent = true)
      (shown : o.snapshots.isDeleted p = false) (opened : env.open? p = some file)
      (built : env.build o.clock file .disk = .ok s)

theorem demand_eq_some : o.demand env p = .ok (some s) ↔ p.isComponent = true ∧ o.snapshots.isDeleted p = false ∧
    ∃ file, env.open? p = some file ∧ env.build o.clock file .disk = .ok s := by
  unfold demand
  constructor
  · intro given
    split at given
    · cases given
    · next onDemand =>
      rw [Bool.or_eq_true, not_or] at onDemand
      refine ⟨by simpa using onDemand.1, by simpa using onDemand.2, ?_⟩
      cases opened : env.open? p with
      | none =>
        rw [opened] at given
        cases given
      | some file =>
        rw [opened, Option.elim_some] at given
        refine ⟨file, rfl, ?_⟩
        unfold attempted at given
        split at given <;> cases given
        assumption
  · rintro ⟨component, shown, file, opened, built⟩
    rw [component, shown, opened]
    simp [built, attempted]

theorem gives_iff : Gives env o p s ↔ o.offer env p = .ok (some s) := by
  unfold offer
  constructor
  · rintro (held | ⟨absent, component, shown, opened, built⟩)
    · rw [held]
    · rw [absent]
      exact demand_eq_some.mpr ⟨component, shown, _, opened, built⟩
  · intro given
    cases held : o.snapshots.get? p with
    | some t =>
      rw [held] at given
      cases given
      exact .held held
    | none =>
      rw [held] at given
      obtain ⟨component, shown, file, opened, built⟩ := demand_eq_some.mp given
      exact .built held component shown opened built

/-- A request for a snapshot breaks off where the parsers do. -/
theorem offer_eq_error {failure : Failure} (failed : o.offer env p = .error failure) : ∃ file message,
    env.open? p = some file ∧ env.build o.clock file .disk = .error (.fault message) ∧ failure = .fault message := by
  unfold offer at failed
  split at failed
  · cases failed
  · unfold demand at failed
    split at failed
    · cases failed
    · cases opened : env.open? p with
      | none =>
        rw [opened] at failed
        cases failed
      | some file =>
        rw [opened, Option.elim_some] at failed
        unfold attempted at failed
        split at failed <;> cases failed
        next message fault => exact ⟨file, message, rfl, fault, rfl⟩

theorem snapshot_bind_answer {α : Type} {f : Option Snapshot → Action Overlay α} {g : Option Snapshot → α}
    (next : ∀ found m, (∀ q, m.readsDisk q = o.readsDisk q) → (f found m).1 = .ok (g found)) :
    ((snapshot env p >>= f) o).1 = (o.offer env p).map g := by
  have ends : Ends (fun answer _ => answer = (o.offer env p).map g) (snapshot env p >>= f) o := by
    refine (snapshot_offers env p o).bind ?_ fun found m ⟨given, shown⟩ => ?_
    · rintro failure m ⟨given, -⟩
      rw [← given]
      rfl
    · have reads (q : Path) : m.readsDisk q = o.readsDisk q := by rw [readsDisk, readsDisk, shown]
      rw [← given]
      exact next found m reads
  exact ends

theorem fileExists_answer (unbundled : Ambient.text? p = none) : (fileExists env p o).1 =
    (o.offer env p).map fun found => found.isSome || (o.readsDisk p && env.files.isFile p) := by
  have plain : ¬(Ambient.text? p).isSome = true := by simp [unbundled]
  rw [fileExists, if_neg plain]
  refine snapshot_bind_answer fun found m reads => ?_
  cases found with
  | some s => rfl
  | none =>
    rw [← reads]
    rfl

theorem shownText_answer (unbundled : Ambient.text? p = none) : (shownText env p o).1 =
    (o.offer env p).map fun found =>
      (found.map (·.projected)).or (if o.readsDisk p then env.files.read? p else none) := by
  unfold shownText
  rw [unbundled]
  refine snapshot_bind_answer fun found m reads => ?_
  cases found with
  | some s => rfl
  | none =>
    rw [← reads]
    rfl

theorem scriptKind_answer (env : Surroundings) (p : Path) (o : Overlay) : (scriptKind env p o).1 =
    (o.offer env p).map fun found =>
      found.elim (if p.isComponent then ScriptKind.ofComponent false else ScriptKind.ofPath p) (·.kind) := by
  refine snapshot_bind_answer fun found m _ => ?_
  cases found with
  | some s => rfl
  | none => rfl

theorem scriptVersion_answer (env : Surroundings) (p : Path) (o : Overlay) : (scriptVersion env p o).1 =
    (o.offer env p).map fun found => found.map (·.version) :=
  snapshot_bind_answer fun _ _ _ => rfl

end Overlay
end Service
end SvelteLens
