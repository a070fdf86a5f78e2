import SvelteLens.Proofs.Service.Tables

/-! A snapshot table against the history of its changes. For each path alone, a history says whether the
path is deleted, has a snapshot, or neither, and since when it has one. The table answers from that, and
lists its files in that order. Histories are read backwards: the last change comes first. -/
namespace SvelteLens

namespace Path

theorem isIn_of_mem {p : Path} {paths : List Path} (member : p ∈ paths) : p.isIn paths = true :=
  List.any_eq_true.mpr ⟨p, member, same_iff.mpr rfl⟩

theorem Distinct.filter {paths : List Path} (apart : Distinct paths) (keep : Path → Bool) : Distinct (paths.filter keep) :=
  List.Pairwise.filter keep apart

theorem distinct_of_distinct {paths : List Path} (apart : Distinct paths) : distinct paths = paths := by
  induction apart with
  | nil => rfl
  | @cons p rest apart _ ih =>
    have kept : rest.filter (!p.same ·) = rest := List.filter_eq_self.mpr fun q member => by simp [apart q member]
    rw [distinct, ih, kept]

/-- What stands in two lists is listed in the place that it has in the first one. -/
theorem distinct_append {first second : List Path} (one : Distinct first) (two : Distinct second) :
    distinct (first ++ second) = first ++ second.filter (!·.isIn first) := by
  induction one with
  | nil =>
    have whole : second.filter (!·.isIn []) = second := List.filter_eq_self.mpr fun _ _ => rfl
    rw [List.nil_append, whole, distinct_of_distinct two, List.nil_append]
  | @cons p rest apart _ ih =>
    have kept : rest.filter (!p.same ·) = rest := List.filter_eq_self.mpr fun q member => by simp [apart q member]
    have others : (fun q : Path => !p.same q && !q.isIn rest) = fun q => !q.isIn (p :: rest) := by
      funext q
      simp [isIn]
    rw [List.cons_append, distinct, ih, List.filter_append, kept, List.filter_filter, others, List.cons_append]

namespace Table

variable {α : Type} {t : Table α} {p : Path} {value : α}

theorem keys_distinct (t : Table α) : Distinct t.keys := t.distinct

theorem keys_insert_present (present : t.contains p = true) : (t.insert p value).keys = t.keys := by
  rw [insert, dif_pos present, keys, keys, List.map_map]
  apply List.map_congr_left
  intro e _
  simp only [Function.comp]
  split <;> rfl

theorem keys_insert_absent (absent : t.contains p = false) : (t.insert p value).keys = t.keys ++ [p] := by
  rw [insert, dif_neg (by simp [absent]), keys, List.map_append]
  rfl

theorem keys_erase (t : Table α) (p : Path) : (t.erase p).keys = t.keys.filter (!·.same p) := by
  rw [erase, keys, keys, List.filter_map]
  rfl

end Table
end Path

namespace Service.SnapshotTable

variable {t : SnapshotTable} {s : Snapshot} {p q : Path}

/-- No path is listed as deleted that has a snapshot, and none is declared twice. -/
structure Orderly (t : SnapshotTable) : Prop where
  declared : Path.Distinct t.declared
  shown : ∀ p, (t.get? p).isSome = true → t.isDeleted p = false

theorem isIn_keys (t : SnapshotTable) (p : Path) : p.isIn t.snapshots.keys = (t.get? p).isSome :=
  Path.Table.contains_eq_isSome ..

theorem get?_of_key (member : p ∈ t.snapshots.keys) : (t.get? p).isSome = true :=
  isIn_keys t p ▸ Path.isIn_of_mem member

/-- The undeclared files, in the order of their snapshots. -/
def adHoc (t : SnapshotTable) : List Path := t.snapshots.keys.filter (!·.isIn t.declared)

theorem files_eq (orderly : Orderly t) : t.files = t.projectFiles ++ t.adHoc := by
  have visible : Path.Distinct t.projectFiles := orderly.declared.filter _
  rw [files, Path.distinct_append visible t.snapshots.keys_distinct, adHoc]
  refine congrArg (t.projectFiles ++ ·) (List.filter_congr fun p member => ?_)
  rw [isIn_projectFiles, orderly.shown p (get?_of_key member)]
  simp

theorem files_distinct (t : SnapshotTable) : Path.Distinct t.files := Path.distinct_distinct _

theorem isIn_adHoc (t : SnapshotTable) (p : Path) : p.isIn t.adHoc = ((t.get? p).isSome && !p.isIn t.declared) := by
  rw [adHoc, Path.isIn_filter p _ _ fun q same => by rw [Path.isIn_congr same], isIn_keys]

theorem files_set_present (orderly : Orderly t) (present : (t.get? s.path).isSome = true) : (t.set s).files = t.files := by
  have keys : (t.set s).snapshots.keys = t.snapshots.keys :=
    Path.Table.keys_insert_present ((contains_eq_isSome t s.path).trans present)
  have visible : (t.set s).projectFiles = t.projectFiles := by
    refine List.filter_congr fun p _ => ?_
    rw [isDeleted_set]
    cases same : s.path.same p with
    | false => simp
    | true =>
      rw [← isDeleted_congr same, orderly.shown _ present]
      rfl
  rw [files, files, keys, visible]

/-- How one path stands: without a snapshot, deleted, or with a snapshot, and how many changes there were
when it got its place. -/
inductive Status where
  | absent
  | deleted
  | present (since : Nat) (s : Snapshot)

namespace Status

def snapshot? : Status → Option Snapshot
  | .present _ s => some s
  | _ => none

def since? : Status → Option Nat
  | .present since _ => some since
  | _ => none

def isDeleted : Status → Bool
  | .deleted => true
  | _ => false

/-- What one more change makes of a path, after as many changes as there were. -/
def next (p : Path) (changes : Nat) (status : Status) : Change → Status
  | .set s => if s.path.same p then .present (status.since?.getD changes) s else status
  | .insertIfAbsent s => match status with
    | .absent => if s.path.same p then .present changes s else .absent
    | other => other
  | .delete q => if q.same p then .deleted else status
  | .restore q => match status with
    | .deleted => if q.same p then .absent else .deleted
    | other => other
  | .clear => .absent

end Status

def status (p : Path) : List Change → Status
  | [] => .absent
  | change :: earlier => (status p earlier).next p earlier.length change

/-- What a history predicts to come back from one more change. -/
def predicted (history : List Change) : Change → Answer
  | .set s => .snapshot (status s.path history).snapshot?
  | .insertIfAbsent s => .snapshot <| match status s.path history with
    | .absent => some s
    | .deleted => none
    | .present _ held => some held
  | .delete p => .snapshot (status p history).snapshot?
  | .restore p => .lifted (status p history).isDeleted
  | .clear => .done

/-- A change stores a snapshot for a path. One that is offered is only taken if the path had none and was
not deleted. -/
inductive Change.Stores (p : Path) (before : Status) : Change → Snapshot → Prop where
  | set {s : Snapshot} (same : s.path.same p = true) : Stores p before (.set s) s
  | insertIfAbsent {s : Snapshot} (same : s.path.same p = true) (absent : before = .absent) :
      Stores p before (.insertIfAbsent s) s

inductive Change.Evicts (p : Path) : Change → Prop where
  | delete {q : Path} (same : q.same p = true) : Evicts p (.delete q)
  | clear : Evicts p .clear

/-- The snapshot that was last stored for a path, and not taken away since. -/
inductive LastStored (p : Path) : List Change → Snapshot → Prop where
  | now {earlier : List Change} {change : Change} {s : Snapshot} (stores : change.Stores p (status p earlier) s) :
      LastStored p (change :: earlier) s
  | before {earlier : List Change} {change : Change} {s : Snapshot} (last : LastStored p earlier s)
      (kept : ¬change.Evicts p) (current : ∀ other, ¬change.Stores p (status p earlier) other) :
      LastStored p (change :: earlier) s

/-- After how many changes a path got a snapshot when it had none, and it had one ever since. -/
inductive Began (p : Path) : List Change → Nat → Prop where
  | now {earlier : List Change} {change : Change} {s : Snapshot} (absent : ∀ held, ¬LastStored p earlier held)
      (stores : change.Stores p (status p earlier) s) : Began p (change :: earlier) earlier.length
  | before {earlier : List Change} {change : Change} {since : Nat} (began : Began p earlier since)
      (kept : ¬change.Evicts p) : Began p (change :: earlier) since

section Standing

variable {before : Status} {changes since : Nat} {change : Change} {history : List Change}

theorem Change.Stores.unique {one other : Snapshot} (stores : change.Stores p before one)
    (again : change.Stores p before other) : one = other := by
  cases stores <;> cases again <;> rfl

theorem Change.Stores.kept {s : Snapshot} (stores : change.Stores p before s) : ¬change.Evicts p := by
  cases stores <;> nofun

theorem Status.next_stores (stores : change.Stores p before s) :
    before.next p changes change = .present (before.since?.getD changes) s := by
  cases stores with
  | set same => rw [next, if_pos same]
  | insertIfAbsent same absent =>
    rw [absent, next]
    exact if_pos same

theorem Status.next_evicts (evicts : change.Evicts p) : (before.next p changes change).snapshot? = none := by
  cases evicts with
  | delete same =>
    rw [next, if_pos same]
    rfl
  | clear => rfl

theorem Status.next_other (current : ∀ s, ¬change.Stores p before s) (kept : ¬change.Evicts p) :
    before.next p changes change = before ∨ before = .deleted ∧ before.next p changes change = .absent := by
  cases change with
  | set s =>
    refine .inl (if_neg fun same => ?_)
    exact current s (.set same)
  | insertIfAbsent s =>
    cases before with
    | absent =>
      refine .inl (if_neg fun same => ?_)
      exact current s (.insertIfAbsent same rfl)
    | deleted => exact .inl rfl
    | present => exact .inl rfl
  | delete q =>
    refine .inl (if_neg fun same => ?_)
    exact kept (.delete same)
  | restore q =>
    cases before with
    | deleted =>
      by_cases same : q.same p = true
      · exact .inr ⟨rfl, if_pos same⟩
      · exact .inl (if_neg same)
    | absent => exact .inl rfl
    | present => exact .inl rfl
  | clear => exact absurd .clear kept

theorem Status.isSome_since? (status : Status) : status.since?.isSome = status.snapshot?.isSome := by
  cases status <;> rfl

/-- The snapshot of a path is the one that was last stored for it. -/
theorem snapshot?_status (history : List Change) (s : Snapshot) :
    (status p history).snapshot? = some s ↔ LastStored p history s := by
  induction history generalizing s with
  | nil => exact ⟨nofun, nofun⟩
  | cons change earlier ih =>
    rw [status]
    by_cases evicts : change.Evicts p
    · rw [Status.next_evicts evicts]
      refine ⟨nofun, fun last => ?_⟩
      cases last with
      | now stores => exact absurd evicts stores.kept
      | before _ kept => exact absurd evicts kept
    by_cases stored : ∃ t, change.Stores p (status p earlier) t
    · obtain ⟨t, stores⟩ := stored
      rw [Status.next_stores stores]
      constructor
      · rintro ⟨⟩
        exact .now stores
      · rintro (again | ⟨_, _, current⟩)
        · rw [stores.unique again]
          rfl
        · exact absurd stores (current t)
    · have current : ∀ t, ¬change.Stores p (status p earlier) t := not_exists.mp stored
      have same : ((status p earlier).next p earlier.length change).snapshot? = (status p earlier).snapshot? := by
        rcases Status.next_other current evicts with same | ⟨deleted, absent⟩
        · rw [same]
        · rw [absent, deleted]
          rfl
      rw [same, ih]
      constructor
      · exact fun last => .before last evicts current
      · rintro (stores | ⟨last, _, _⟩)
        · exact absurd stores (current s)
        · exact last

theorem not_lastStored (absent : (status p history).snapshot? = none) (s : Snapshot) : ¬LastStored p history s := by
  rw [← snapshot?_status, absent]
  exact nofun

theorem since?_status (history : List Change) (since : Nat) :
    (status p history).since? = some since ↔ Began p history since := by
  induction history generalizing since with
  | nil => exact ⟨nofun, nofun⟩
  | cons change earlier ih =>
    rw [status]
    by_cases evicts : change.Evicts p
    · have none : ((status p earlier).next p earlier.length change).since? = none := by
        rw [← Option.not_isSome_iff_eq_none, Status.isSome_since?, Status.next_evicts evicts]
        exact nofun
      rw [none]
      refine ⟨nofun, fun began => ?_⟩
      cases began with
      | now _ stores => exact absurd evicts stores.kept
      | before _ kept => exact absurd evicts kept
    by_cases stored : ∃ t, change.Stores p (status p earlier) t
    · obtain ⟨t, stores⟩ := stored
      rw [Status.next_stores stores]
      cases place : (status p earlier).since? with
      | none =>
        have absent : (status p earlier).snapshot? = none := by
          rw [← Option.not_isSome_iff_eq_none, ← Status.isSome_since?, place]
          exact nofun
        constructor
        · rintro ⟨⟩
          exact .now (not_lastStored absent) stores
        · rintro (⟨_, _⟩ | ⟨began, _⟩)
          · rfl
          · cases place.symm.trans ((ih since).mpr began)
      | some first =>
        constructor
        · rintro ⟨⟩
          exact .before ((ih first).mp place) stores.kept
        · rintro (⟨absent, _⟩ | ⟨began, _⟩)
          · have present : (status p earlier).snapshot?.isSome = true := by
              rw [← Status.isSome_since?, place]
              rfl
            obtain ⟨held, found⟩ := Option.isSome_iff_exists.mp present
            exact absurd ((snapshot?_status earlier held).mp found) (absent held)
          · exact place.symm.trans ((ih since).mpr began)
    · have current : ∀ t, ¬change.Stores p (status p earlier) t := not_exists.mp stored
      have same : ((status p earlier).next p earlier.length change).since? = (status p earlier).since? := by
        rcases Status.next_other current evicts with same | ⟨deleted, absent⟩
        · rw [same]
        · rw [absent, deleted]
          rfl
      rw [same, ih]
      constructor
      · exact fun began => .before began evicts
      · rintro (⟨_, stores⟩ | ⟨began, _⟩)
        · exact absurd stores (current _)
        · exact began

theorem Began.lt (began : Began p history since) : since < history.length := by
  induction began with
  | now => exact Nat.lt_succ_self _
  | before _ _ ih => exact Nat.lt_succ_of_lt ih

end Standing

def changed (declared : List Path) : List Change → SnapshotTable
  | [] => ofDeclared declared
  | change :: earlier => (changed declared earlier).applied change

/-- What a table has of each path is what its history says. -/
structure Reflects (history : List Change) (t : SnapshotTable) : Prop where
  get? : ∀ p, t.get? p = (status p history).snapshot?
  isDeleted : ∀ p, t.isDeleted p = (status p history).isDeleted
  places : t.snapshots.keys.Pairwise fun p q => ∀ i j, Began p history i → Began q history j → i < j

namespace Reflects

variable {history : List Change} {change : Change}

/-- A snapshot that is offered is taken if its path has none and is not deleted. -/
theorem get?_offered (t : SnapshotTable) (s : Snapshot) (q : Path) : (t.insertIfAbsent s).get? q =
    if s.path.same q && !t.isDeleted q && (t.get? q).isNone then some s else t.get? q := by
  by_cases free : t.get? s.path = none ∧ t.isDeleted s.path = false
  · rw [get?_insertIfAbsent free.1 free.2]
    cases same : s.path.same q with
    | true => simp [← get?_congr same, ← isDeleted_congr same, free]
    | false => simp
  · have refused : t.insertIfAbsent s = t := by
      refine if_pos ?_
      rw [contains_eq_isSome]
      cases held : t.get? s.path <;> simp_all
    rw [refused]
    cases same : s.path.same q with
    | true =>
      rw [← get?_congr same, ← isDeleted_congr same]
      cases held : t.get? s.path <;> simp_all
    | false => simp

theorem get?_applied (reflects : Reflects history t) (change : Change) (p : Path) :
    (t.applied change).get? p = (status p (change :: history)).snapshot? := by
  have held := reflects.get? p
  have deleted := reflects.isDeleted p
  rw [status]
  cases change with
  | set s =>
    rw [applied, get?_set, held, Status.next]
    split <;> rfl
  | insertIfAbsent s =>
    rw [applied, get?_offered, held, deleted]
    cases same : s.path.same p <;> cases status p history <;>
      simp [Status.next, Status.snapshot?, Status.isDeleted, same]
  | delete q =>
    rw [applied, get?_delete, held, Status.next]
    split <;> rfl
  | restore q =>
    change t.get? p = _
    rw [held]
    cases same : q.same p <;> cases status p history <;>
      simp [Status.next, Status.snapshot?, same]
  | clear => rfl

theorem isDeleted_applied (reflects : Reflects history t) (change : Change) (p : Path) :
    (t.applied change).isDeleted p = (status p (change :: history)).isDeleted := by
  have deleted := reflects.isDeleted p
  rw [status]
  cases change with
  | set s =>
    rw [applied, isDeleted_set, deleted, Status.next]
    cases s.path.same p
    · simp
    · simp [Status.isDeleted]
  | insertIfAbsent s =>
    rw [applied, isDeleted_insertIfAbsent, deleted]
    cases same : s.path.same p <;> cases status p history <;>
      simp [Status.next, Status.isDeleted, same]
  | delete q =>
    rw [applied, isDeleted_delete, deleted, Status.next]
    cases q.same p <;> rfl
  | restore q =>
    rw [applied, isDeleted_restore, deleted]
    cases same : q.same p <;> cases status p history <;>
      simp [Status.next, Status.isDeleted, same]
  | clear => rfl

theorem present (reflects : Reflects history t) (held : (t.get? p).isSome = true) : ∃ s, LastStored p history s := by
  rw [reflects.get?] at held
  exact (Option.isSome_iff_exists.mp held).imp fun s found => (snapshot?_status history s).mp found

theorem place_kept {since : Nat} (present : ∃ s, LastStored p history s) (began : Began p (change :: history) since) :
    Began p history since := by
  cases began with
  | now absent stores =>
    obtain ⟨s, held⟩ := present
    exact absurd held (absent s)
  | before began kept => exact began

/-- A path without a snapshot gets its place with the change that stores one. -/
theorem place_new {since : Nat} (absent : (status p history).snapshot? = none) (began : Began p (change :: history) since) :
    since = history.length := by
  cases began with
  | now => rfl
  | before began kept =>
    have placed := (since?_status history since).mpr began
    have none : (status p history).since?.isSome = false := by rw [Status.isSome_since?, absent]; rfl
    rw [placed] at none
    cases none

/-- Files that had a place keep their order. -/
theorem places_kept (reflects : Reflects history t) (change : Change) {keys : List Path}
    (sublist : keys.Sublist t.snapshots.keys) :
    keys.Pairwise fun p q => ∀ i j, Began p (change :: history) i → Began q (change :: history) j → i < j := by
  refine (reflects.places.sublist sublist).imp_of_mem fun {p q} first second ordered i j began later => ?_
  have had {p : Path} (member : p ∈ keys) : ∃ s, LastStored p history s :=
    reflects.present (get?_of_key (sublist.subset member))
  exact ordered i j (place_kept (had first) began) (place_kept (had second) later)

/-- A file that gets a place comes last. -/
theorem places_added (reflects : Reflects history t) (change : Change) (absent : t.get? p = none) :
    (t.snapshots.keys ++ [p]).Pairwise fun p q =>
      ∀ i j, Began p (change :: history) i → Began q (change :: history) j → i < j := by
  refine List.pairwise_append.mpr ⟨reflects.places_kept change (.refl _), List.pairwise_singleton .., ?_⟩
  intro q member r last i j began later
  obtain rfl := List.mem_singleton.mp last
  have before := (place_kept (reflects.present (get?_of_key member)) began).lt
  rw [place_new ((reflects.get? r).symm.trans absent) later]
  exact before

theorem places_stored (reflects : Reflects history t) (change : Change) (s : Snapshot) :
    (t.snapshots.insert s.path s).keys.Pairwise fun p q =>
      ∀ i j, Began p (change :: history) i → Began q (change :: history) j → i < j := by
  cases present : t.contains s.path with
  | true =>
    rw [Path.Table.keys_insert_present present]
    exact reflects.places_kept change (.refl _)
  | false =>
    rw [Path.Table.keys_insert_absent present]
    rw [contains_eq_isSome, Option.isSome_eq_false_iff, Option.isNone_iff_eq_none] at present
    exact reflects.places_added change present

theorem applied (reflects : Reflects history t) (change : Change) : Reflects (change :: history) (t.applied change) where
  get? := reflects.get?_applied change
  isDeleted := reflects.isDeleted_applied change
  places := by
    cases change with
    | set s => exact reflects.places_stored _ s
    | insertIfAbsent s =>
      rw [SnapshotTable.applied, SnapshotTable.insertIfAbsent]
      split
      · exact reflects.places_kept _ (.refl _)
      · exact reflects.places_stored _ s
    | delete q =>
      have keys : (t.delete q).snapshots.keys = t.snapshots.keys.filter (!·.same q) := Path.Table.keys_erase ..
      rw [SnapshotTable.applied, keys]
      exact reflects.places_kept _ List.filter_sublist
    | restore q => exact reflects.places_kept _ (.refl _)
    | clear => exact .nil

theorem orderly (reflects : Reflects history t) (declared : Path.Distinct t.declared) : Orderly t where
  declared := declared
  shown p held := by
    rw [reflects.get?] at held
    rw [reflects.isDeleted]
    cases standing : status p history with
    | deleted =>
      rw [standing] at held
      cases held
    | _ => rfl

/-- Every change answers what the history predicts. -/
theorem answer_eq (reflects : Reflects history t) (change : Change) : t.answer change = predicted history change := by
  cases change with
  | set s => exact congrArg Answer.snapshot (reflects.get? _)
  | insertIfAbsent s =>
    rw [answer, predicted, get?_offered, reflects.get?, reflects.isDeleted]
    cases status s.path history <;> simp [Status.snapshot?, Status.isDeleted, Path.same]
  | delete p => exact congrArg Answer.snapshot (reflects.get? _)
  | restore p => exact congrArg Answer.lifted (reflects.isDeleted _)
  | clear => rfl

end Reflects

theorem declared_applied (declared : Path.Distinct t.declared) (change : Change) :
    (t.applied change).declared = t.declared := by
  cases change with
  | insertIfAbsent s =>
    rw [applied, insertIfAbsent]
    split <;> rfl
  | clear => exact Path.distinct_of_distinct declared
  | _ => rfl

theorem declared_changed (declared : List Path) (history : List Change) :
    (changed declared history).declared = Path.distinct declared := by
  induction history with
  | nil => rfl
  | cons change earlier ih =>
    have apart : Path.Distinct (changed declared earlier).declared := ih ▸ Path.distinct_distinct declared
    exact (declared_applied apart change).trans ih

theorem changed_reflects (declared : List Path) (history : List Change) : Reflects history (changed declared history) := by
  induction history with
  | nil => exact ⟨fun _ => rfl, fun _ => rfl, .nil⟩
  | cons change earlier ih => exact ih.applied change

/-- Deleting an undeclared file and storing a snapshot for it again moves it to the end. -/
theorem files_delete_set {history : List Change} (reflects : Reflects history t) (declared : Path.Distinct t.declared)
    (undeclared : s.path.isIn t.declared = false) :
    ((t.delete s.path).set s).files = t.files.filter (!·.same s.path) ++ [s.path] := by
  have again : Orderly ((t.delete s.path).set s) :=
    ((reflects.applied (.delete s.path)).applied (.set s)).orderly declared
  have apart : ∀ p ∈ t.declared, p.same s.path = false := by
    intro p member
    exact Bool.eq_false_iff.mpr fun same => Bool.eq_false_iff.mp undeclared (List.any_eq_true.mpr ⟨p, member, same⟩)
  have visible : ((t.delete s.path).set s).projectFiles = t.projectFiles := by
    refine List.filter_congr fun p member => ?_
    rw [isDeleted_set, isDeleted_delete, Path.same_comm, apart p member]
    simp
  have erased : (t.snapshots.erase s.path).contains s.path = false := by
    rw [Path.Table.contains_eq_isSome, Path.Table.get?_erase, if_pos (Path.same_iff.mpr rfl)]
    rfl
  have keys : ((t.delete s.path).set s).snapshots.keys = t.snapshots.keys.filter (!·.same s.path) ++ [s.path] := by
    rw [← Path.Table.keys_erase, ← Path.Table.keys_insert_absent erased]
    rfl
  have last : [s.path].filter (!·.isIn t.declared) = [s.path] := by simp [undeclared]
  have others : ((t.delete s.path).set s).adHoc = t.adHoc.filter (!·.same s.path) ++ [s.path] := by
    change List.filter (!·.isIn t.declared) ((t.delete s.path).set s).snapshots.keys = _
    rw [keys, List.filter_append, last, adHoc, List.filter_filter, List.filter_filter]
    simp only [Bool.and_comm]
  have kept : t.projectFiles.filter (!·.same s.path) = t.projectFiles := by
    refine List.filter_eq_self.mpr fun p member => ?_
    rw [apart p (List.mem_filter.mp member).1]
    rfl
  rw [files_eq again, files_eq (reflects.orderly declared), visible, others, List.filter_append, kept,
    List.append_assoc]

/-- A table refines its history, whatever files are declared and whatever was changed in which order. No
path is deleted and has a snapshot. The snapshot of a path is the one that was last stored for it, and
there is none if it was taken away since. The next change gives back what the history predicts. The files are,
without repetition, the declared ones that are not deleted, and then the others that have a snapshot, in the
order in which they got it. So a snapshot that is replaced keeps the place of its file, and one that is
deleted and stored again moves it to the end. -/
theorem table_refines_history (declared : List Path) (history : List Change) :
    let t := changed declared history
    (∀ p, (t.get? p).isSome = true → t.isDeleted p = false) ∧
    (∀ p s, t.get? p = some s ↔ LastStored p history s) ∧
    (∀ change, t.answer change = predicted history change) ∧
    (∃ others, t.files = (Path.distinct declared).filter (fun p => !(status p history).isDeleted) ++ others ∧
      (∀ p, p.isIn others = true ↔ p.isIn declared = false ∧ ∃ s, LastStored p history s) ∧
      others.Pairwise fun p q => ∃ i j, Began p history i ∧ Began q history j ∧ i < j) ∧
    Path.Distinct t.files ∧
    (∀ s, (t.get? s.path).isSome = true → (t.set s).files = t.files) ∧
    ∀ s, s.path.isIn declared = false →
      ((t.delete s.path).set s).files = t.files.filter (!·.same s.path) ++ [s.path] := by
  intro t
  have reflects : Reflects history t := changed_reflects declared history
  have listed : t.declared = Path.distinct declared := declared_changed declared history
  have apart : Path.Distinct t.declared := listed ▸ Path.distinct_distinct declared
  have orderly : Orderly t := reflects.orderly apart
  have held (p : Path) (s : Snapshot) : t.get? p = some s ↔ LastStored p history s := by
    rw [reflects.get?, snapshot?_status]
  refine ⟨orderly.shown, held, reflects.answer_eq, ⟨t.adHoc, ?_, fun p => ?_, ?_⟩, files_distinct t,
    fun s => files_set_present orderly, fun s undeclared => ?_⟩
  · rw [files_eq orderly, projectFiles, listed]
    refine congrArg (· ++ t.adHoc) (List.filter_congr fun p _ => ?_)
    rw [reflects.isDeleted]
  · rw [isIn_adHoc, listed, Path.isIn_distinct, Bool.and_eq_true, Bool.not_eq_true', Option.isSome_iff_exists, and_comm]
    simp only [held]
  · refine (reflects.places.filter _).imp_of_mem fun {p q} first second ordered => ?_
    have began {p : Path} (member : p ∈ t.adHoc) : ∃ i, Began p history i := by
      have present := get?_of_key (List.mem_filter.mp member).1
      rw [reflects.get?, ← Status.isSome_since?] at present
      exact (Option.isSome_iff_exists.mp present).imp fun i place => (since?_status history i).mp place
    obtain ⟨i, began_p⟩ := began first
    obtain ⟨j, began_q⟩ := began second
    exact ⟨i, j, began_p, began_q, ordered i j began_p began_q⟩
  · exact files_delete_set reflects apart (by rw [listed, Path.isIn_distinct]; exact undeclared)

end Service.SnapshotTable
end SvelteLens
