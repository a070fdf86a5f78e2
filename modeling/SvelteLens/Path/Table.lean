import SvelteLens.Path

/-! Tables keyed by paths. Two spellings of one path are one key. Keys keep the order in which
they came in and the spelling they had then, so replacing a value moves nothing, while erasing
a key and adding it again puts it last. -/
namespace SvelteLens.Path

def isIn (p : Path) (paths : List Path) : Bool := paths.any (·.same p)

def distinct : List Path → List Path
  | [] => []
  | p :: rest => p :: (distinct rest).filter (!p.same ·)

theorem same_iff {p q : Path} : p.same q = true ↔ p.components = q.components := by simp [same]

theorem same_comm (p q : Path) : p.same q = q.same p := by
  rw [Bool.eq_iff_iff, same_iff, same_iff]
  exact eq_comm

theorem same_trans {p q : Path} (h : p.same q = true) (r : Path) : p.same r = q.same r := by
  rw [Bool.eq_iff_iff, same_iff, same_iff, same_iff.1 h]

def Distinct (paths : List Path) : Prop := paths.Pairwise fun p q => p.same q = false

theorem distinct_distinct (paths : List Path) : Distinct (distinct paths) := by
  induction paths with
  | nil => exact .nil
  | cons p rest ih =>
    refine .cons (fun q hq => ?_) (ih.filter _)
    simpa using (List.mem_filter.1 hq).2

structure Table (α : Type) where
  entries : List (Path × α)
  distinct : Distinct (entries.map Prod.fst)
  deriving DecidableEq

namespace Table

def empty : Table α := ⟨[], .nil⟩

instance : Inhabited (Table α) := ⟨empty⟩

instance [Repr α] : Repr (Table α) := ⟨fun t n => reprPrec t.entries n⟩

def keys (t : Table α) : List Path := t.entries.map Prod.fst

def get? (t : Table α) (p : Path) : Option α := (t.entries.find? (·.1.same p)).map Prod.snd

def contains (t : Table α) (p : Path) : Bool := p.isIn t.keys

def size (t : Table α) : Nat := t.entries.length

/-- Puts a value in the place of the one that is there, or last. -/
def insert (t : Table α) (p : Path) (value : α) : Table α :=
  if h : t.contains p then
    ⟨t.entries.map fun e => if e.1.same p then (e.1, value) else e, by
      have keys : (t.entries.map fun e => if e.1.same p then (e.1, value) else e).map Prod.fst =
          t.entries.map Prod.fst := by
        rw [List.map_map]
        apply List.map_congr_left
        intro e _
        simp only [Function.comp]
        split <;> rfl
      rw [keys]
      exact t.distinct⟩
  else
    ⟨t.entries ++ [(p, value)], by
      rw [List.map_append]
      refine List.pairwise_append.2 ⟨t.distinct, by simp, ?_⟩
      intro q hq r hr
      obtain rfl : r = p := by simpa using hr
      cases same : q.same r with
      | false => rfl
      | true => exact absurd (List.any_eq_true.2 ⟨q, hq, same⟩) h⟩

def erase (t : Table α) (p : Path) : Table α :=
  ⟨t.entries.filter fun e => !e.1.same p, t.distinct.sublist (List.filter_sublist.map _)⟩

/-- A table of the given entries; a later entry replaces an earlier one. -/
def ofEntries (entries : List (Path × α)) : Table α :=
  entries.foldl (fun t e => t.insert e.1 e.2) empty

theorem same_keys {p q : Path} (h : p.same q = true) :
    (fun e : Path × α => e.1.same p) = fun e => e.1.same q := by
  funext e
  rw [same_comm e.1, same_trans h, same_comm]

theorem contains_eq_isSome (t : Table α) (p : Path) : t.contains p = (t.get? p).isSome := by
  simp only [contains, keys, isIn, get?, Option.isSome_map, List.any_map]
  induction t.entries with
  | nil => rfl
  | cons e rest ih =>
    rw [List.any_cons, ih, List.find?_cons]
    cases same : e.1.same p <;> simp [same]

theorem get?_insert (t : Table α) (p q : Path) (value : α) :
    (t.insert p value).get? q = if p.same q then some value else t.get? q := by
  unfold insert
  split
  · next present =>
    let change : Path × α → Path × α := fun e => if e.1.same p then (e.1, value) else e
    have keeps : ((·.1.same q) ∘ change) = (·.1.same q) := by
      funext e
      simp only [Function.comp, change]
      split <;> rfl
    simp only [get?, List.find?_map]
    change ((t.entries.find? ((·.1.same q) ∘ change)).map change).map Prod.snd = _
    rw [keeps]
    cases found : t.entries.find? (·.1.same q) with
    | none =>
      have absent : p.same q = false := by
        cases same : p.same q with
        | false => rfl
        | true =>
          rw [contains_eq_isSome] at present
          simp [get?, same_keys same, found] at present
      simp [absent]
    | some e =>
      have atQ : e.1.same q = true := by simpa using List.find?_some found
      have atP : e.1.same p = p.same q := by rw [same_trans atQ, same_comm]
      simp only [Option.map_some, change, atP]
      split <;> rfl
  · next absent =>
    simp only [get?, List.find?_append]
    cases same : p.same q with
    | false => simp [same]
    | true =>
      rw [contains_eq_isSome] at absent
      have none : t.entries.find? (·.1.same q) = none := by simpa [get?, same_keys same] using absent
      simp [none, same]

theorem get?_erase (t : Table α) (p q : Path) :
    (t.erase p).get? q = if p.same q then none else t.get? q := by
  simp only [get?, erase, List.find?_filter]
  cases same : p.same q with
  | true =>
    have none : t.entries.find? (fun e => (!e.1.same p) && e.1.same q) = none := by
      rw [List.find?_eq_none]
      intro e _
      rw [same_comm e.1, same_trans same, same_comm]
      simp
    simp [none]
  | false =>
    have kept : (fun e : Path × α => (!e.1.same p) && e.1.same q) = fun e => e.1.same q := by
      funext e
      cases atQ : e.1.same q with
      | false => simp
      | true => simp [same_trans atQ, same_comm q, same]
    simp [kept]

end Table
end SvelteLens.Path
