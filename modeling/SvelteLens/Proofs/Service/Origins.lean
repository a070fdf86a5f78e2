import SvelteLens.Proofs.Edit.Bounds
import SvelteLens.Proofs.Projection.Trace
import SvelteLens.Proofs.Service.Identity
import SvelteLens.Proofs.Text.Lines

/-! Where the snapshots of a service come from. Each was built from the text of its file, and from the disk
only as version 0. So its map answers inside that text, and its lines are the lines of that text. -/
namespace SvelteLens

open Edit

theorem Projection.footer_ne_empty (name : String) (declarations : List Script.Declaration) :
    footer name declarations ≠ "" := by
  intro empty
  unfold footer at empty
  exact absurd (String.append_eq_empty_iff.mp empty).2 (by decide)

/-- The map of a projection answers inside the component, and not at all at the end: the footer stands there. -/
theorem Projection.ofComponent_map {reader : Script.Reader} {source : String} {doc : Markup.Document} {path : Option Path}
    {p : Projection} (h : ofComponent reader source doc path = .ok p) :
    p.map.Sound ∧ p.map.Closed ∧ p.map.sourceLength = Text.width source.toList := by
  obtain ⟨⟨b, declarations, degraded⟩, made, h⟩ := chain_ok.mp h
  cases h
  obtain ⟨accepts, -⟩ := edited_ok made
  generalize path.elim "Component" Path.componentName = name at accepts
  obtain ⟨valid, records, original⟩ := accepts.keeps (Buffer.Consistent.ofSource _) (Buffer.Records.ofSource _)
  have length : b.length = Text.width source.toList := by
    rw [Buffer.length, original]
    rfl
  refine ⟨valid.sound, valid.closed .after ?_ (footer_ne_empty name declarations), length⟩
  rw [records.texts, length]
  let closing : Insertion := ⟨Text.width source.toList, .after, footer name declarations⟩
  refine List.mem_map.mpr ⟨closing, List.mem_filter.mpr ⟨?_, by simp [closing]⟩, rfl⟩
  exact List.mem_filterMap.mpr ⟨.insertAfter _ _, by simp, rfl⟩

namespace Service

namespace Snapshot

/-- A snapshot that was built, from the disk only as version 0. -/
structure Built (s : Snapshot) : Prop where
  build : ∃ (env : Surroundings) (stamp : Nat) (file : SourceFile), env.build stamp file s.provenance = .ok s
  version : s.provenance = .disk → s.version = 0

/-- The map and the lines of a snapshot are those of its own text. -/
structure Coherent (s : Snapshot) : Prop where
  lines : s.sourceLines = LineIndex.ofText s.source
  sound : s.map.Sound
  length : s.map.sourceLength = s.source.utf8ByteSize
  closed : s.path.isComponent = true → s.map.Closed

theorem Built.coherent {s : Snapshot} (built : s.Built) : s.Coherent := by
  obtain ⟨env, stamp, file, built⟩ := built.build
  generalize s.provenance = provenance at built
  unfold Surroundings.build at built
  split at built
  · next component =>
    split at built
    · cases built
    · cases built
    · split at built
      · cases built
      · cases built
      · next projected =>
        cases built
        obtain ⟨sound, closed, length⟩ := Projection.ofComponent_map projected
        exact ⟨rfl, sound, length.trans (Text.width_toList _), fun _ => closed⟩
  · next plain =>
    cases built
    exact ⟨rfl, PositionMap.sound_identity _, Text.width_toList _, fun component => absurd component plain⟩

end Snapshot

namespace Container

variable {env : Surroundings} {c after : Container} {operation : Operation}

/-- Every current snapshot is of its path and was built. -/
def Sourced (c : Container) : Prop := ∀ p s, c.snapshot? p = some s → s.path.same p = true ∧ s.Built

theorem ofScope_sourced (scope : Config.Scope) : Sourced (ofScope scope) := nofun

theorem Fewer.sourced (fewer : Fewer c after) (sourced : Sourced c) : Sourced after :=
  fun p s now => sourced p s (fewer.snapshots p s now)

theorem Added.sourced {s : Snapshot} (added : Added c after s) (built : s.Built) (sourced : Sourced c) :
    Sourced after := by
  intro p t now
  rw [added.snapshots] at now
  split at now
  · next same =>
    cases now
    exact ⟨same, built⟩
  · exact sourced p t now

theorem Quiet.sourced (quiet : Quiet env c after) (sourced : Sourced c) : Sourced after := by
  cases quiet with
  | looked look =>
    cases look with
    | @built s file opened absent shown built =>
      obtain ⟨stamp, -, version, origin⟩ := Surroundings.build_ok built
      obtain ⟨text, -, rfl⟩ := Option.map_eq_some_iff.mp opened
      have made : s.Built := ⟨⟨env, _, _, origin ▸ built⟩, fun _ => version⟩
      exact Added.sourced ⟨stamp, rfl, SnapshotTable.get?_insertIfAbsent absent shown⟩ made sourced
    | resolved => exact sourced
  | called => exact sourced
  | forgot => exact sourced
  | retried => exact sourced

theorem Quiets.sourced (quiets : Quiets env c after) (sourced : Sourced c) : Sourced after := by
  induction quiets with
  | refl => exact sourced
  | tail _ quiet ih => exact quiet.sourced ih

/-- What an editor sends may have any version; what is read from the disk has version 0. -/
theorem Operation.Stores.version {s : Snapshot} (cause : operation.Stores c s) (origin : s.provenance = .disk) :
    s.version = 0 := by
  cases cause with
  | asked asks absent origin version => exact version
  | edited path version edited => cases origin.symm.trans edited
  | reread path found before origin version => exact version

/-- What one operation preserves: whatever it stores was built. -/
theorem effect_sourced {α : Type} {answer : Except Failure α} (effect : Effect env c operation answer after)
    (sourced : Sourced c) : Sourced after := by
  cases effect with
  | refused => exact sourced
  | unread => exact sourced
  | quiet unrefused changes => exact changes.sourced sourced
  | stored unrefused live cause built changes =>
    have stored := store_added (Surroundings.build_ok built).1
    exact changes.sourced (stored.sourced ⟨⟨env, _, _, built⟩, cause.version⟩ sourced)
  | restored => exact sourced
  | deleted => exact (delete_fewer _ c).sourced sourced
  | disposed => exact (dispose_fewer c).sourced sourced

theorem run_sourced (sourced : Sourced c) (calls : List Call) : Sourced (c.run calls) := by
  induction calls generalizing c with
  | nil => exact sourced
  | cons call rest ih => exact ih (effect_sourced (c.applied_effect call) sourced)

end Container
end Service
end SvelteLens
