import SvelteLens.Proofs.Edit.Acceptance
import SvelteLens.Proofs.Edit.EventLoop
import SvelteLens.Proofs.Edit.RoundTrip

/-! Ranges of the source that no command touches. Such a range is shown in one piece: kept text is only cut where
something is inserted or replaced, so one segment holds the whole range. -/
namespace SvelteLens.Edit

open Text (width)

variable {offset : Nat} {cs : List Char} {rs : List Replacement} {anchors : List Anchor} {ps : List Piece}

/-- A kept run goes on to the next insertion, the next replacement or the end. -/
theorem Laid.copied_stop (laid : Laid offset cs rs anchors ps) {start : Nat} {run : List Char}
    (member : .copied start run ∈ chunks ps) :
    start + width run = offset + width cs ∨ (∃ a ∈ anchors, a.offset = start + width run) ∨
      ∃ r ∈ rs, r.span.start = start + width run := by
  induction laid generalizing start run with
  | done => cases member
  | anchored _ _ ih =>
    rw [chunks_ofAnchor] at member
    rcases List.mem_append.mp member with made | later
    · obtain ⟨_, _, impossible⟩ := List.mem_map.mp made
      cases impossible
    · exact (ih later).imp_right fun found => found.imp_left fun ⟨a, listed, same⟩ => ⟨a, List.mem_cons_of_mem _ listed, same⟩
  | replaced _ _ _ _ ih =>
    have later := (List.mem_cons.mp member).resolve_left nofun
    rw [Text.width_append, ← Nat.add_assoc]
    exact (ih later).imp_right fun found => found.imp_right fun ⟨r, listed, same⟩ => ⟨r, List.mem_cons_of_mem _ listed, same⟩
  | @kept anchors offset rs cs ps c behindAnchors behindEdits rest ih =>
    rw [Text.width_cons, ← Nat.add_assoc]
    cases starts : startsKept ps with
    | false =>
      have alone : chunks (.kept offset c :: ps) = .copied offset [c] :: chunks ps := by simp [chunks, starts]
      rw [alone] at member
      rcases List.mem_cons.mp member with here | later
      · cases here
        rw [Text.width_cons, Text.width_nil, Nat.add_zero]
        rcases rest.event starts with rfl | ⟨a, _, rfl, same⟩ | ⟨r, _, rfl, same⟩
        · exact .inl (by simp)
        · exact .inr (.inl ⟨a, List.mem_cons_self, same⟩)
        · exact .inr (.inr ⟨r, List.mem_cons_self, same⟩)
      · exact ih later
    | true =>
      obtain ⟨d, more, rfl⟩ := rest.head_kept starts
      obtain ⟨tail, later, found⟩ := chunks_kept (offset + c.utf8Size) d more
      have joined : chunks (.kept offset c :: .kept (offset + c.utf8Size) d :: more) =
          .copied offset (c :: d :: tail) :: later := by rw [chunks, starts, found]
      rw [joined] at member
      rcases List.mem_cons.mp member with here | member
      · cases here
        rw [Text.width_cons, ← Nat.add_assoc]
        exact ih (by rw [found]; exact List.mem_cons_self)
      · exact ih (by rw [found]; exact List.mem_cons_of_mem _ member)

/-- Commands that replace no byte of a range and insert nothing strictly inside it. -/
structure Spares (calls : List Command) (span : Span) : Prop where
  replaced : ∀ r ∈ edits calls, r.span.Apart span
  inserted : ∀ i ∈ insertions calls, (Span.empty i.offset).Apart span

namespace Spares

variable {calls more : List Command} {span : Span}

theorem append (h : Spares calls span) (k : Spares more span) : Spares (calls ++ more) span where
  replaced r member := by
    rw [edits, List.filterMap_append] at member
    exact (List.mem_append.mp member).elim (h.replaced r) (k.replaced r)
  inserted i member := by
    rw [insertions, List.filterMap_append] at member
    exact (List.mem_append.mp member).elim (h.inserted i) (k.inserted i)

theorem of_reach (apart : ∀ c ∈ calls, c.reach.Apart span) : Spares calls span where
  replaced r member := by
    obtain ⟨c, listed, edit⟩ := List.mem_filterMap.mp member
    rw [Buffer.edit?_reach edit]
    exact apart c listed
  inserted i member := by
    obtain ⟨c, listed, insertion⟩ := List.mem_filterMap.mp member
    rw [Buffer.insertion?_reach insertion]
    exact apart c listed

end Spares

namespace Buffer

variable {b final : Buffer} {span : Span}

theorem Leaves.apply_apart {c : Command} (leaves : b.Leaves span) (replaced : ∀ r, c.edit? = some r → r.span.Apart span)
    (inserted : ∀ i, c.insertion? = some i → (Span.empty i.offset).Apart span) (made : b.apply c = .ok final) :
    final.Leaves span := by
  rcases apply_cases made with ⟨r, edit, _, _, rfl⟩ | ⟨i, _, insertion, _, rfl⟩ | ⟨_, _, rfl⟩
  · refine ⟨fun old member => ?_, leaves.inserted⟩
    rcases mem_addReplacement.mp member with rfl | member
    · exact replaced _ edit
    · exact leaves.replaced old member
  · refine ⟨leaves.replaced, fun a member => ?_⟩
    rcases mem_changeAnchor (Anchor.add_offset i) member with same | member
    · rw [same]
      exact inserted i insertion
    · exact leaves.inserted a member
  · exact leaves

theorem Accepts.leaves {calls : List Command} (accepts : Accepts b calls final) (leaves : b.Leaves span)
    (spares : Spares calls span) : final.Leaves span := by
  induction accepts with
  | nil => exact leaves
  | cons made _ ih =>
    refine ih (leaves.apply_apart (fun r edit => spares.replaced r ?_) (fun i insertion => spares.inserted i ?_) made)
      ⟨fun r member => spares.replaced r ?_, fun i member => spares.inserted i ?_⟩
    · exact List.mem_filterMap.mpr ⟨_, List.mem_cons_self, edit⟩
    · exact List.mem_filterMap.mpr ⟨_, List.mem_cons_self, insertion⟩
    · obtain ⟨d, listed, edit⟩ := List.mem_filterMap.mp member
      exact List.mem_filterMap.mpr ⟨d, List.mem_cons_of_mem _ listed, edit⟩
    · obtain ⟨d, listed, insertion⟩ := List.mem_filterMap.mp member
      exact List.mem_filterMap.mpr ⟨d, List.mem_cons_of_mem _ listed, insertion⟩

/-- A range that is left alone lies in one kept run. -/
theorem Leaves.run (leaves : b.Leaves span) (valid : b.Consistent) (filled : span.start < span.stop)
    (inside : span.stop ≤ b.length) : ∃ before start run after, Keeps b span.start before start run after ∧
      span.stop ≤ start + width run := by
  have kept : ∀ r ∈ b.replacements, r.span.contains span.start = false := by
    intro r member
    rw [← Bool.not_eq_true]
    intro holds
    exact (leaves.replaced r member).not_both holds (Span.contains_iff.mpr ⟨Nat.le_refl _, filled⟩)
  obtain ⟨before, start, run, after, keeps⟩ := valid.keeps (Nat.lt_of_lt_of_le filled inside) kept
  refine ⟨before, start, run, after, keeps, ?_⟩
  have lower := keeps.lower
  have upper := keeps.upper
  have chunk : Block.copied start run ∈ chunks b.pieces := by
    have put : Block.copied start run ∈ b.blocks := by rw [keeps.blocks]; simp
    exact ((mem_foldr_push rfl).mp put).1
  rcases valid.laid.copied_stop chunk with ends | ⟨a, listed, same⟩ | ⟨r, listed, same⟩
  · have length : b.length = width b.source.toList := rfl
    omega
  · have apart : a.offset ≤ span.start ∨ span.stop ≤ a.offset := leaves.inserted a listed
    omega
  · have proper := (valid.proper r listed).1
    have apart : r.span.stop ≤ span.start ∨ span.stop ≤ r.span.start := leaves.replaced r listed
    omega

end Buffer
end SvelteLens.Edit
