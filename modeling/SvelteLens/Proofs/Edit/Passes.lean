import SvelteLens.Proofs.Edit.Acceptance
import SvelteLens.Proofs.Edit.Stretches

/-! One pass over a text from left to right. Commands that are made in the order of their offsets, and that append
text only, can be read like a script for a writer: copy up to here, write this instead, skip that, put this in. On a
fresh buffer all of them are accepted, and the rendering is what the writer writes. -/
namespace SvelteLens.Edit

open Text (width bytes)

/-- Commands that are made in one pass over a run of text, which starts at an offset, and what is written. -/
inductive Pass : (offset : Nat) → List Command → (run out : List Char) → Prop where
  | done : Pass offset [] [] []
  | keep : Pass (offset + c.utf8Size) calls run out → Pass offset calls (c :: run) (c :: out)
  | overwrite : old ≠ [] → Pass (offset + width old) calls run out →
      Pass offset (.overwrite ⟨offset, offset + width old⟩ text :: calls) (old ++ run) (text.toList ++ out)
  | remove : Pass (offset + width old) calls run out →
      Pass offset (.remove ⟨offset, offset + width old⟩ :: calls) (old ++ run) out
  | insertAfter : Pass offset calls run out →
      Pass offset (.insertAfter offset text :: calls) run (text.toList ++ out)

section Calls

variable {call : Command} {calls : List Command} {r : Replacement}

theorem insertedAt_cons (silent : call.insertion? = none) : insertedAt (call :: calls) = insertedAt calls := by
  funext i
  simp [insertedAt, inserted, insertions, silent]

theorem editAt?_cons_none (nothing : call.edit? = none) : editAt? (call :: calls) = editAt? calls := by
  funext i
  simp [editAt?, edits, nothing]

theorem editAt?_cons (replaces : call.edit? = some r) (i : Nat) :
    editAt? (call :: calls) i = if r.span.start = i then some r else editAt? calls i := by
  simp only [editAt?, edits, List.filterMap_cons, replaces, List.find?_cons]
  split <;> simp_all

end Calls

namespace Pass

variable {offset : Nat} {calls more : List Command} {run rest out out' old front back : List Char}

section Steps

theorem kept (run : List Char) : Pass offset [] run run := by
  induction run generalizing offset with
  | nil => exact .done
  | cons c run ih => exact .keep ih

theorem overwritten {start stop : Nat} (filled : old ≠ []) (first : start = offset) (last : stop = offset + width old)
    (text : String) : Pass offset [.overwrite ⟨start, stop⟩ text] old text.toList := by
  subst first last
  have step : Pass start [.overwrite ⟨start, start + width old⟩ text] (old ++ []) (text.toList ++ []) :=
    .overwrite filled .done
  rwa [List.append_nil, List.append_nil] at step

theorem removed {start stop : Nat} (first : start = offset) (last : stop = offset + width old) :
    Pass offset [.remove ⟨start, stop⟩] old [] := by
  subst first last
  have step : Pass start [.remove ⟨start, start + width old⟩] (old ++ []) [] := .remove .done
  rwa [List.append_nil] at step

theorem appended {start : Nat} (here : start = offset) (text : String) :
    Pass offset [.insertAfter start text] [] text.toList := by
  subst here
  have step : Pass start [.insertAfter start text] [] (text.toList ++ []) := .insertAfter .done
  rwa [List.append_nil] at step

theorem append (h : Pass offset calls run out) (k : Pass (offset + width run) more rest out') :
    Pass offset (calls ++ more) (run ++ rest) (out ++ out') := by
  induction h with
  | done => exact k
  | keep _ ih =>
    rw [Text.width_cons, ← Nat.add_assoc] at k
    exact .keep (ih k)
  | overwrite filled _ ih =>
    rw [Text.width_append, ← Nat.add_assoc] at k
    rw [List.append_assoc, List.append_assoc]
    exact .overwrite filled (ih k)
  | remove _ ih =>
    rw [Text.width_append, ← Nat.add_assoc] at k
    rw [List.append_assoc]
    exact .remove (ih k)
  | insertAfter _ ih =>
    rw [List.append_assoc]
    exact .insertAfter (ih k)

theorem framed (h : Pass (width front) calls run out) (back : List Char) :
    Pass 0 calls (front ++ (run ++ back)) (front ++ (out ++ back)) := by
  have around := (kept front : Pass 0 [] front front).append ((Nat.zero_add (width front)).symm ▸ h.append (kept back))
  rwa [List.append_nil] at around

end Steps

section Acceptance

theorem inside (h : Pass offset calls run out) :
    ∀ c ∈ calls, offset ≤ c.reach.start ∧ c.reach.stop ≤ offset + width run := by
  induction h with
  | done => exact nofun
  | keep _ ih =>
    intro c member
    have := ih c member
    rw [Text.width_cons]
    omega
  | overwrite _ _ ih | remove _ ih =>
    rw [Text.width_append]
    rintro c (_ | ⟨_, member⟩)
    · exact ⟨Nat.le_refl _, Nat.add_le_add_left (Nat.le_add_right _ _) _⟩
    · have := ih c member
      omega
  | insertAfter _ ih =>
    rintro c (_ | ⟨_, member⟩)
    · exact ⟨Nat.le_refl _, Nat.le_add_right _ _⟩
    · exact ih c member

theorem ascending (h : Pass offset calls run out) : calls.Pairwise fun c d => c.reach.stop ≤ d.reach.start := by
  induction h with
  | done => exact .nil
  | keep _ ih => exact ih
  | overwrite _ tail ih | remove tail ih | insertAfter tail ih =>
    exact List.pairwise_cons.mpr ⟨fun d member => (tail.inside d member).1, ih⟩

theorem boundaries (front run back : List Char) :
    Text.isBoundary (front ++ (run ++ back)) (width front) = true ∧
      Text.isBoundary (front ++ (run ++ back)) (width front + width run) = true :=
  ⟨Text.isBoundary_iff.mpr ⟨front, run ++ back, rfl, rfl⟩,
    Text.isBoundary_iff.mpr ⟨front ++ run, back, (List.append_assoc _ _ _).symm, Text.width_append _ _⟩⟩

theorem valid (h : Pass offset calls run out) (at' : offset = width front) :
    ∀ c ∈ calls, c.Valid (front ++ (run ++ back)) := by
  induction h generalizing front with
  | done => exact nofun
  | @keep _ _ _ _ c _ ih =>
    have tail := @ih (front ++ [c]) (by simp [at'])
    rwa [List.append_assoc, List.singleton_append] at tail
  | @overwrite old offset _ run _ text filled _ ih =>
    have tail := @ih (front ++ old) (by simp [at'])
    obtain ⟨start, stop⟩ := boundaries front old (run ++ back)
    have longer := Text.width_pos filled
    rw [List.append_assoc] at tail ⊢
    rintro c (_ | ⟨_, member⟩)
    · subst at'
      exact .overwrite start stop (Nat.lt_add_of_pos_right longer) text
    · exact tail c member
  | @remove offset old _ run _ _ ih =>
    have tail := @ih (front ++ old) (by simp [at'])
    obtain ⟨start, stop⟩ := boundaries front old (run ++ back)
    rw [List.append_assoc] at tail ⊢
    rintro c (_ | ⟨_, member⟩)
    · subst at'
      exact .remove start stop (Nat.le_add_right _ _)
    · exact tail c member
  | @insertAfter _ _ run _ text _ ih =>
    rintro c (_ | ⟨_, member⟩)
    · subst at'
      exact .insertAfter (boundaries front run back).1 text
    · exact ih at' c member

end Acceptance

section Rendering

theorem edits_behind (h : Pass offset calls run out) : ∀ r ∈ edits calls, offset ≤ r.span.start := by
  intro r member
  obtain ⟨c, listed, asks⟩ := List.mem_filterMap.mp member
  rw [Buffer.edit?_reach asks]
  exact (h.inside c listed).1

theorem insertions_behind (h : Pass offset calls run out) : ∀ i ∈ insertions calls, offset ≤ i.offset := by
  intro i member
  obtain ⟨c, listed, asks⟩ := List.mem_filterMap.mp member
  have reach := congrArg Span.start (Buffer.insertion?_reach asks)
  exact Nat.le_trans (h.inside c listed).1 (Nat.le_of_eq reach.symm)

theorem quiet (h : Pass offset calls run out) {i : Nat} (before : i < offset) :
    insertedAt calls i = [] ∧ editAt? calls i = none :=
  ⟨insertedAt_nil fun j member => Nat.ne_of_gt (Nat.lt_of_lt_of_le before (h.insertions_behind j member)),
    editAt?_none fun r member => Nat.ne_of_gt (Nat.lt_of_lt_of_le before (h.edits_behind r member))⟩

theorem reads_replaced (tail : Pass (offset + width old) calls run out) {call : Command} {text : String}
    (replaces : call.edit? = some ⟨⟨offset, offset + width old⟩, text⟩) (silent : call.insertion? = none)
    (filled : old ≠ []) {front : List UInt8} (at' : offset = front.length)
    (rest : written (insertedAt calls) (editAt? calls) (front ++ bytes old ++ bytes run) (offset + width old) = bytes out) :
    written (insertedAt (call :: calls)) (editAt? (call :: calls)) (front ++ bytes (old ++ run)) offset =
      bytes text.toList ++ bytes out := by
  have longer := Text.width_pos filled
  have here : editAt? (call :: calls) offset = some ⟨⟨offset, offset + width old⟩, text⟩ := by
    rw [editAt?_cons replaces, if_pos rfl]
  have next : nextStop (editAt? (call :: calls)) offset = offset + width old := by
    rw [nextStop, here]
    simp only [Option.elim]
    omega
  have later : written (insertedAt calls) (editAt? (call :: calls)) (front ++ bytes (old ++ run)) (offset + width old) =
      written (insertedAt calls) (editAt? calls) (front ++ bytes (old ++ run)) (offset + width old) := by
    refine written_congr (fun j _ => rfl) fun j lower => ?_
    rw [editAt?_cons replaces, if_neg (by simp only; omega)]
  have inner : offset < (front ++ bytes (old ++ run)).length := by
    simp only [List.length_append, Text.length_bytes, Text.width_append]
    omega
  rw [insertedAt_cons silent, written_eq, next, standing, here, if_pos inner, later,
    (tail.quiet (Nat.lt_add_of_pos_right longer)).1, Text.bytes_append, ← List.append_assoc front, rest]
  rfl

/-- A pass writes what the rendering of its commands reads. The induction is on the pass; `front` holds the bytes
in front of it. -/
theorem reads (h : Pass offset calls run out) (front : List UInt8) (at' : offset = front.length) :
    written (insertedAt calls) (editAt? calls) (front ++ bytes run) offset = bytes out := by
  induction h generalizing front with
  | done =>
    have nothing : editAt? [] offset = none := rfl
    rw [written_eq, if_neg (by simp [at']), standing, at', Text.bytes_nil, List.append_nil]
    simp [editAt?, insertedAt, inserted, insertions, edits]
  | @keep offset calls run out c tail ih =>
    have size := String.length_utf8EncodeChar c
    have rest := ih (front ++ String.utf8EncodeChar c) (by simp [at'])
    have plain := written_plain (insertedAt calls) (editAt? calls) front (String.utf8EncodeChar c) (bytes run) at'
      fun j _ upper => tail.quiet (by omega)
    rw [List.append_assoc] at rest
    rw [Text.bytes_cons, plain, size, rest, Text.bytes_cons]
  | @overwrite old offset calls run out text filled tail ih =>
    rw [Text.bytes_append text.toList]
    exact tail.reads_replaced rfl rfl filled at' (ih _ (by simp [at']))
  | @remove offset old calls run out tail ih =>
    by_cases empty : old = []
    · subst empty
      have nothing : (Command.remove ⟨offset, offset + width []⟩).edit? = none := by simp [Command.edit?, Span.isEmpty]
      rw [insertedAt_cons rfl, editAt?_cons_none nothing, List.nil_append]
      exact ih front at'
    · have longer := Text.width_pos empty
      have removes : (Command.remove ⟨offset, offset + width old⟩).edit? = some ⟨⟨offset, offset + width old⟩, ""⟩ := by
        simp only [Command.edit?, Span.isEmpty, beq_iff_eq, ite_eq_right_iff]
        omega
      exact tail.reads_replaced removes rfl empty at' (ih _ (by simp [at']))
  | @insertAfter offset calls run out text tail ih =>
    have here : insertedAt (.insertAfter offset text :: calls) offset = bytes text.toList ++ insertedAt calls offset := by
      simp [insertedAt, inserted, insertions, Command.insertion?]
    have rest := ih front at'
    rw [written_eq] at rest
    rw [written_eq, here, editAt?_cons_none rfl, List.append_assoc, Text.bytes_append, ← rest]
    congr 3
    split
    · have forward := lt_nextStop (editAt? calls) offset
      refine written_congr (fun j lower => ?_) fun j _ => rfl
      rw [← List.singleton_append, insertedAt_append_right]
      intro i member
      obtain rfl := List.mem_singleton.mp member
      simp only
      omega
    · rfl

/-- The commands of a pass over a whole text are accepted, and the rendering is what the pass writes. -/
theorem accepts {source : String} (h : Pass 0 calls source.toList out) :
    ∃ b, Buffer.Accepts (Buffer.ofSource source) calls b ∧ b.render.text = String.ofList out := by
  have valid : ∀ c ∈ calls, c.Valid (Buffer.ofSource source).source.toList := by
    have keeps : ∀ c ∈ calls, c.Valid ([] ++ (source.toList ++ [])) := h.valid rfl
    rwa [List.nil_append, List.append_nil] at keeps
  obtain ⟨b, made⟩ := Buffer.accepts_of_apart valid (fun c _ => Buffer.ofSource_leaves source c.reach) (h.ascending.imp .inl)
  obtain ⟨consistent, records, same⟩ := made.keeps (Buffer.Consistent.ofSource source) (Buffer.Records.ofSource source)
  refine ⟨b, made, Text.eq_of_bytes ?_⟩
  have whole := h.reads [] rfl
  rw [consistent.written records, reference, same, String.toList_ofList]
  exact whole

end Rendering
end Pass

namespace Plan

variable {ν : Type} {offset : Nat} {plan more : Plan ν} {run rest out out' old : List Char}

/-- A plan that goes over a run of text in one pass and writes something for it. -/
structure Writes (offset : Nat) (plan : Plan ν) (run out : List Char) : Prop where
  faultless : Step.fault ∉ plan
  pass : Pass offset plan.commands run out

namespace Writes

theorem kept (run : List Char) : Writes offset ([] : Plan ν) run run := ⟨nofun, .kept run⟩

theorem overwritten {start stop : Nat} (filled : old ≠ []) (first : start = offset) (last : stop = offset + width old)
    (text : String) : Writes offset ([.edit (.overwrite ⟨start, stop⟩ text)] : Plan ν) old text.toList :=
  ⟨by simp, .overwritten filled first last text⟩

theorem removed {start stop : Nat} (first : start = offset) (last : stop = offset + width old) :
    Writes offset ([.edit (.remove ⟨start, stop⟩)] : Plan ν) old [] :=
  ⟨by simp, .removed first last⟩

theorem appended {start : Nat} (here : start = offset) (text : String) :
    Writes offset ([.edit (.insertAfter start text)] : Plan ν) [] text.toList :=
  ⟨by simp, .appended here text⟩

theorem moved {offset' : Nat} (same : offset' = offset) (h : Writes offset plan run out) :
    Writes offset' plan run out := same ▸ h

theorem keep (kept : List Char) (h : Writes (offset + width kept) plan run out) :
    Writes offset plan (kept ++ run) (kept ++ out) := ⟨h.faultless, (Pass.kept kept).append h.pass⟩

theorem note (h : Writes offset plan run out) (value : ν) : Writes offset (.note value :: plan) run out :=
  ⟨by simpa using h.faultless, h.pass⟩

theorem append (h : Writes offset plan run out) (k : Writes (offset + width run) more rest out') :
    Writes offset (plan ++ more) (run ++ rest) (out ++ out') := by
  refine ⟨by simpa using ⟨h.faultless, k.faultless⟩, ?_⟩
  rw [commands_append]
  exact h.pass.append k.pass

/-- The plan goes through, and it changes just the run. -/
theorem run_through {source : String} {front run back out : List Char} (h : Writes (width front) plan run out)
    (whole : source.toList = front ++ (run ++ back)) : ∃ b, plan.run (Buffer.ofSource source) = ⟨b, plan.notes, none⟩ ∧
      b.render.text = String.ofList (front ++ (out ++ back)) := by
  have pass := h.pass.framed back
  rw [← whole] at pass
  obtain ⟨b, made, text⟩ := pass.accepts
  exact ⟨b, run_of_accepts h.faultless made, text⟩

end Writes
end Plan
end SvelteLens.Edit
