import Mathlib.Data.List.Induction
import SvelteLens.Edit.Render
import SvelteLens.Proofs.Edit.Exactness

/-! The order of calls. Whether calls are all accepted depends on each of them and on every two of
them, whatever their order. When they are, the buffer that they end in depends on the order only of the
texts that are inserted on one side of one boundary. -/
namespace SvelteLens.Edit

namespace Command

/-- Two calls that leave each other what they occupy. -/
def Compatible (c d : Command) : Prop := ∀ s t, c.footprint? = some s → d.footprint? = some t → s.Apart t

theorem Compatible.symm {c d : Command} (h : c.Compatible d) : d.Compatible c :=
  fun s t first second => (h t s second first).symm

/-- A command occupies the range that it replaces or the boundary that it inserts at. -/
theorem footprint?_eq_some {c : Command} {span : Span} : c.footprint? = some span ↔
    (∃ r, c.edit? = some r ∧ r.span = span) ∨ ∃ i, c.insertion? = some i ∧ Span.empty i.offset = span := by
  cases c with
  | overwrite => simp [footprint?, edit?, insertion?]
  | remove span =>
    unfold footprint? edit? insertion?
    split <;> simp
  | insertBefore => simp [footprint?, edit?, insertion?]
  | insertAfter => simp [footprint?, edit?, insertion?]

/-- What earlier calls occupy is apart from a range when their replacements and insertions are. -/
theorem occupied_apart_iff {calls : List Command} {span : Span} :
    (∀ c ∈ calls, ∀ s, c.footprint? = some s → s.Apart span) ↔
      (∀ r ∈ edits calls, r.span.Apart span) ∧ ∀ i ∈ insertions calls, (Span.empty i.offset).Apart span := by
  simp only [footprint?_eq_some, edits, insertions, List.mem_filterMap]
  constructor
  · intro apart
    refine ⟨?_, ?_⟩
    · rintro r ⟨c, member, edit⟩
      exact apart c member r.span (.inl ⟨r, edit, rfl⟩)
    · rintro i ⟨c, member, insertion⟩
      exact apart c member _ (.inr ⟨i, insertion, rfl⟩)
  · rintro ⟨replaced, inserted⟩ c member s (⟨r, edit, rfl⟩ | ⟨i, insertion, rfl⟩)
    · exact replaced r ⟨c, member, edit⟩
    · exact inserted i ⟨c, member, insertion⟩

end Command

namespace Buffer

variable {b b' middle final : Buffer} {c : Command} {xs ys : List Command} {source : String}

/-- After accepted calls, the next one is accepted when it is valid and compatible with each of them. -/
theorem Accepts.next_iff (run : Accepts (ofSource source) xs middle) : (∃ next, middle.apply c = .ok next) ↔
    c.Valid source.toList ∧ ∀ x ∈ xs, x.Compatible c := by
  obtain ⟨valid, records, same⟩ := run.keeps (Consistent.ofSource source) (Records.ofSource source)
  rw [List.nil_append] at records
  have filled := run.filled (filled_ofSource source)
  have same : middle.source = source := same
  rw [valid.accepted_iff, same]
  refine and_congr_right' ?_
  constructor
  · intro leaves x member s t first second
    have apart := (records.leaves_iff filled).mp (leaves t second)
    exact Command.occupied_apart_iff.mpr apart x member s first
  · intro compatible t second
    refine (records.leaves_iff filled).mpr (Command.occupied_apart_iff.mp ?_)
    exact fun x member s first => compatible x member s t first second

/-- Calls are all accepted when each is valid and every two are compatible. The induction is on the
calls from the last one on: it meets the records of all others. -/
theorem accepts_iff (source : String) (calls : List Command) : (∃ final, Accepts (ofSource source) calls final) ↔
    (∀ c ∈ calls, c.Valid source.toList) ∧ calls.Pairwise Command.Compatible := by
  induction calls using List.reverseRecOn with
  | nil => exact ⟨fun _ => ⟨nofun, .nil⟩, fun _ => ⟨_, .nil⟩⟩
  | append_singleton xs c ih =>
    have split : (∃ final, Accepts (ofSource source) (xs ++ [c]) final) ↔
        ∃ middle, Accepts (ofSource source) xs middle ∧ ∃ final, middle.apply c = .ok final := by
      constructor
      · rintro ⟨final, run⟩
        obtain ⟨middle, first, last⟩ := run.split
        cases last with
        | cons made _ => exact ⟨middle, first, _, made⟩
      · rintro ⟨middle, first, final, made⟩
        exact ⟨final, first.append (.cons made .nil)⟩
    have members : (∀ x ∈ xs ++ [c], x.Valid source.toList) ↔
        (∀ x ∈ xs, x.Valid source.toList) ∧ c.Valid source.toList := by
      simp only [List.forall_mem_append, List.forall_mem_singleton]
    have pairs : (xs ++ [c]).Pairwise Command.Compatible ↔
        xs.Pairwise Command.Compatible ∧ ∀ x ∈ xs, x.Compatible c := by
      simp [List.pairwise_append]
    rw [split, members, pairs]
    constructor
    · rintro ⟨middle, first, last⟩
      obtain ⟨valid, compatible⟩ := ih.mp ⟨middle, first⟩
      obtain ⟨keeps, apart⟩ := first.next_iff.mp last
      exact ⟨⟨valid, keeps⟩, compatible, apart⟩
    · rintro ⟨⟨valid, keeps⟩, compatible, apart⟩
      obtain ⟨middle, first⟩ := ih.mpr ⟨valid, compatible⟩
      exact ⟨middle, first, first.next_iff.mpr ⟨keeps, apart⟩⟩

theorem find?_own {anchors : List Anchor} (ascending : anchors.Pairwise fun a c => a.offset < c.offset) {a : Anchor}
    (member : a ∈ anchors) : anchors.find? (·.offset = a.offset) = some a := by
  obtain ⟨first, found⟩ : ∃ first, anchors.find? (·.offset = a.offset) = some first := by
    rw [← Option.isSome_iff_exists, List.find?_isSome]
    exact ⟨a, member, by simp⟩
  have here : first.offset = a.offset := by simpa using List.find?_some found
  rcases related_of_pairwise ascending (List.mem_of_find?_eq_some found) member with rfl | before | behind
  · exact found
  · omega
  · omega

/-- An anchor of one table is in every other table that holds the same texts. -/
theorem mem_of_texts {anchors others : List Anchor} (ascending : anchors.Pairwise fun a c => a.offset < c.offset)
    (texts : ∀ side offset, textsAt anchors side offset = textsAt others side offset) {a : Anchor} (member : a ∈ anchors)
    (filled : ∃ side, a.texts side ≠ []) : a ∈ others := by
  have own (side : Side) : a.texts side = textsAt others side a.offset := by
    rw [← texts, textsAt, find?_own ascending member, Option.elim_some]
  obtain ⟨side, some⟩ := filled
  rw [own] at some
  obtain ⟨other, found⟩ : ∃ other, others.find? (·.offset = a.offset) = Option.some other := by
    cases found : others.find? (·.offset = a.offset) with
    | none => exact absurd (by rw [textsAt, found]; rfl) some
    | some other => exact ⟨other, rfl⟩
  have after := own .after
  have before := own .before
  simp only [textsAt, found, Option.elim_some, Anchor.texts] at after before
  have here : other.offset = a.offset := by simpa using List.find?_some found
  have same : a = other := by
    cases a
    cases other
    simp_all
  exact same ▸ List.mem_of_find?_eq_some found

/-- A table of anchors is determined by the texts that it holds. -/
theorem anchors_eq (valid : b.Consistent) (valid' : b'.Consistent) (filled : Filled b) (filled' : Filled b')
    (texts : ∀ side offset, textsAt b.anchors side offset = textsAt b'.anchors side offset) : b.anchors = b'.anchors := by
  have distinct {anchors : List Anchor} (ascending : anchors.Pairwise fun a c => a.offset < c.offset) : anchors.Nodup :=
    ascending.imp fun lt same => Nat.ne_of_lt lt (congrArg Anchor.offset same)
  refine List.Perm.eq_of_pairwise (fun a c _ _ before after => absurd before (Nat.lt_asymm after)) valid.ascending
    valid'.ascending ?_
  refine (List.perm_ext_iff_of_nodup (distinct valid.ascending) (distinct valid'.ascending)).mpr fun a => ⟨?_, ?_⟩
  · exact fun member => mem_of_texts valid.ascending texts member (filled a member)
  · exact fun member => mem_of_texts valid'.ascending (fun side offset => (texts side offset).symm) member (filled' a member)

/-- A table of replacements is determined by what it holds, as disjoint ranges have one order. -/
theorem replacements_eq (valid : b.Consistent) (valid' : b'.Consistent) (perm : b.replacements.Perm b'.replacements) :
    b.replacements = b'.replacements := by
  refine List.Perm.eq_of_pairwise (fun r s member member' before after => ?_) valid.ordered valid'.ordered perm
  have := valid.proper r member
  have := valid'.proper s member'
  omega

/-- Calls in another order end in the same buffer when each boundary and side gets its texts in the
same order. -/
theorem Accepts.reordered (run : Accepts (ofSource source) xs final) (run' : Accepts (ofSource source) ys b')
    (reordered : xs.Perm ys) (texts : ∀ side offset, inserted side offset xs = inserted side offset ys) : final = b' := by
  obtain ⟨valid, records, same⟩ := run.keeps (Consistent.ofSource source) (Records.ofSource source)
  obtain ⟨valid', records', same'⟩ := run'.keeps (Consistent.ofSource source) (Records.ofSource source)
  rw [List.nil_append] at records records'
  have replacements := replacements_eq valid valid'
    (records.edits.trans ((reordered.filterMap Command.edit?).trans records'.edits.symm))
  have anchors := anchors_eq valid valid' (run.filled (filled_ofSource source)) (run'.filled (filled_ofSource source))
    fun side offset => by rw [records.texts, records'.texts, texts]
  have source := same.trans same'.symm
  cases final
  cases b'
  simp_all

/-- For calls on a fresh buffer and any reordering of them: either all are accepted in both orders, or
in neither. If they are, and the texts that are inserted on one side of one boundary keep their order,
both orders give the same text and the same position map. -/
theorem order_independent (source : String) (reordered : xs.Perm ys) :
    ((∃ final, Accepts (ofSource source) xs final) ↔ ∃ final, Accepts (ofSource source) ys final) ∧
    ∀ final, Accepts (ofSource source) xs final →
      (∀ side offset, inserted side offset xs = inserted side offset ys) →
      ∃ final', Accepts (ofSource source) ys final' ∧ final'.render.text = final.render.text ∧
        final'.render.map = final.render.map := by
  have order : (∃ final, Accepts (ofSource source) xs final) ↔ ∃ final, Accepts (ofSource source) ys final := by
    rw [accepts_iff, accepts_iff, reordered.pairwise_iff Command.Compatible.symm]
    simp only [reordered.mem_iff]
  refine ⟨order, fun final run texts => ?_⟩
  obtain ⟨final', run'⟩ := order.mp ⟨final, run⟩
  have same := run.reordered run' reordered texts
  exact ⟨final', run', by rw [same], by rw [same]⟩

/-- Two texts at one boundary keep their order, while a range that touches them and one that was removed
come before them instead of after them. -/
theorem order_independent_touching :
    let xs := [Command.insertAfter 3 "(", .overwrite ⟨3, 5⟩ "x", .insertAfter 3 "[", .remove ⟨0, 2⟩]
    let ys := [Command.remove ⟨0, 2⟩, .insertAfter 3 "(", .insertAfter 3 "[", .overwrite ⟨3, 5⟩ "x"]
    xs.Perm ys ∧ (∀ side offset, inserted side offset xs = inserted side offset ys) ∧
      ∃ final final', Accepts (ofSource "abcdef") xs final ∧ Accepts (ofSource "abcdef") ys final' ∧
        final'.render.text = final.render.text ∧ final'.render.map = final.render.map := by
  intro xs ys
  have reordered : xs.Perm ys := by decide +kernel
  have texts : ∀ side offset, inserted side offset xs = inserted side offset ys := fun _ _ => rfl
  have run : Accepts (ofSource "abcdef") xs ((ofSource "abcdef").attempt xs) := by
    have all : (ofSource "abcdef").accepted xs = xs := by decide +kernel
    exact all ▸ accepts_accepted (ofSource "abcdef") xs
  obtain ⟨final', run', text, map⟩ := (order_independent "abcdef" reordered).2 _ run texts
  exact ⟨reordered, texts, _, final', run, run', text, map⟩

end Buffer
end SvelteLens.Edit
