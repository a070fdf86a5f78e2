import SvelteLens.Service.SnapshotTable

/-! What the operations on a snapshot table leave of it. A path is looked up by its components, so
every answer about a path holds for each of its spellings. -/
namespace SvelteLens

namespace Path

theorem isIn_congr {p q : Path} (h : p.same q = true) (paths : List Path) : p.isIn paths = q.isIn paths := by
  apply congrArg paths.any
  funext r
  rw [same_comm r, same_comm r, same_trans h]

@[simp] theorem isIn_append (p : Path) (before after : List Path) :
    p.isIn (before ++ after) = (p.isIn before || p.isIn after) := List.any_append

theorem isIn_filter (p : Path) (paths : List Path) (keep : Path → Bool)
    (agrees : ∀ q, q.same p = true → keep q = keep p) : p.isIn (paths.filter keep) = (p.isIn paths && keep p) := by
  rw [Bool.eq_iff_iff, Bool.and_eq_true]
  simp only [isIn, List.any_eq_true, List.mem_filter]
  constructor
  · rintro ⟨q, ⟨member, kept⟩, same⟩
    exact ⟨⟨q, member, same⟩, agrees q same ▸ kept⟩
  · rintro ⟨⟨q, member, same⟩, kept⟩
    exact ⟨q, ⟨member, (agrees q same).trans kept⟩, same⟩

theorem isIn_distinct (p : Path) (paths : List Path) : p.isIn (distinct paths) = p.isIn paths := by
  induction paths with
  | nil => rfl
  | cons q rest ih =>
    have filtered := isIn_filter p (distinct rest) (fun r => !q.same r) fun r same => by
      rw [same_comm q r, same_trans same, same_comm]
    rw [ih] at filtered
    simp only [isIn, distinct, List.any_cons] at filtered ⊢
    rw [filtered]
    cases q.same p <;> simp

namespace Table

variable {α : Type}

theorem get?_congr {p q : Path} (h : p.same q = true) (t : Table α) : t.get? p = t.get? q := by
  rw [get?, get?, same_keys h]

end Table
end Path

namespace Service.SnapshotTable

variable {t : SnapshotTable} {s : Snapshot} {p q : Path}

theorem get?_congr (h : p.same q = true) (t : SnapshotTable) : t.get? p = t.get? q := Path.Table.get?_congr h _

theorem isDeleted_congr (h : p.same q = true) (t : SnapshotTable) : t.isDeleted p = t.isDeleted q :=
  Path.isIn_congr h _

@[simp] theorem get?_set (t : SnapshotTable) (s : Snapshot) (q : Path) :
    (t.set s).get? q = if s.path.same q then some s else t.get? q := Path.Table.get?_insert ..

@[simp] theorem get?_delete (t : SnapshotTable) (p q : Path) :
    (t.delete p).get? q = if p.same q then none else t.get? q := Path.Table.get?_erase ..

theorem contains_eq_isSome (t : SnapshotTable) (p : Path) : t.contains p = (t.get? p).isSome :=
  Path.Table.contains_eq_isSome ..

theorem get?_insertIfAbsent (absent : t.get? s.path = none) (shown : t.isDeleted s.path = false) (q : Path) :
    (t.insertIfAbsent s).get? q = if s.path.same q then some s else t.get? q := by
  have free : ¬(t.isDeleted s.path || t.contains s.path) = true := by simp [contains_eq_isSome, absent, shown]
  rw [insertIfAbsent, if_neg free]
  exact Path.Table.get?_insert ..

@[simp] theorem isDeleted_restore (t : SnapshotTable) (p q : Path) :
    (t.restore p).isDeleted q = (t.isDeleted q && !p.same q) := by
  have filtered := Path.isIn_filter q t.deleted (fun r => !r.same p) fun r same => by
    rw [Path.same_trans same]
  rw [Path.same_comm p]
  exact filtered

@[simp] theorem isDeleted_set (t : SnapshotTable) (s : Snapshot) (q : Path) :
    (t.set s).isDeleted q = (t.isDeleted q && !s.path.same q) := isDeleted_restore ..

@[simp] theorem isDeleted_insertIfAbsent (t : SnapshotTable) (s : Snapshot) (q : Path) :
    (t.insertIfAbsent s).isDeleted q = t.isDeleted q := by
  unfold insertIfAbsent
  split <;> rfl

@[simp] theorem isDeleted_delete (t : SnapshotTable) (p q : Path) :
    (t.delete p).isDeleted q = (p.same q || t.isDeleted q) := by
  change q.isIn (if t.isDeleted p then t.deleted else p :: t.deleted) = _
  by_cases already : t.isDeleted p = true
  · rw [if_pos already]
    cases same : p.same q with
    | false => rfl
    | true =>
      rw [isDeleted_congr same] at already
      exact already
  · rw [if_neg already]
    rfl

theorem isIn_projectFiles (t : SnapshotTable) (p : Path) :
    p.isIn t.projectFiles = (p.isIn t.declared && !t.isDeleted p) :=
  Path.isIn_filter p t.declared _ fun _ same => by rw [isDeleted_congr same]

theorem isIn_files (t : SnapshotTable) (p : Path) :
    p.isIn t.files = (p.isIn t.projectFiles || (t.get? p).isSome) := by
  rw [files, Path.isIn_distinct, Path.isIn_append, ← contains_eq_isSome]
  rfl

end Service.SnapshotTable
end SvelteLens
