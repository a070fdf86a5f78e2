import SvelteLens.Proofs.Basics
import SvelteLens.Service.Registry

/-! The places of services. A scope is registered with a place of its own, and the service that is made
for the place stays there. Whatever happens to a registry, every service that was made is at one place,
and it is live exactly as long as a scope has that place. -/
namespace SvelteLens

theorem Config.ScopeId.same_iff {a b : ScopeId} :
    a.same b = true ↔ a.config.map Path.components = b.config.map Path.components := by
  obtain ⟨a⟩ := a
  obtain ⟨b⟩ := b
  cases a <;> cases b <;> simp [same, Path.same]

theorem Config.ScopeId.same_comm (a b : ScopeId) : a.same b = b.same a := by
  rw [Bool.eq_iff_iff, same_iff, same_iff]
  exact eq_comm

theorem Config.ScopeId.same_trans {a b : ScopeId} (same : a.same b = true) (c : ScopeId) : a.same c = b.same c := by
  rw [Bool.eq_iff_iff, same_iff, same_iff, same_iff.mp same]

namespace Service

open Config

theorem Container.dispose_disposed (c : Container) : c.dispose.disposed = true := by
  unfold dispose
  split
  · assumption
  · rfl

theorem Container.dispose_of_disposed {c : Container} (disposed : c.disposed = true) : c.dispose = c := if_pos disposed

namespace Registry

variable {r : Registry} {scope other : ScopeId} {place p q n : Nat} {c : Container}

def Vacant (r : Registry) (place : Nat) : Prop := r.places[place]? = some none

theorem made?_eq_some : r.made? place = some n ↔ r.places[place]? = some (some n) := Option.join_eq_some_iff

theorem Vacant.inside (vacant : r.Vacant place) : place < r.places.length := (List.getElem?_eq_some_iff.mp vacant).1

theorem made?_inside (made : r.made? place = some n) : place < r.places.length :=
  (List.getElem?_eq_some_iff.mp (made?_eq_some.mp made)).1

theorem Vacant.unmade (vacant : r.Vacant place) : r.made? place = none := by
  rw [made?, vacant]
  rfl

theorem made_or_vacant (inside : place < r.places.length) : (∃ n, r.made? place = some n) ∨ r.Vacant place := by
  cases what : r.places[place] with
  | none => exact .inr (List.getElem?_eq_some_iff.mpr ⟨inside, what⟩)
  | some n => exact .inl ⟨n, made?_eq_some.mpr (List.getElem?_eq_some_iff.mpr ⟨inside, what⟩)⟩

def register (r : Registry) (scope : ScopeId) : Registry :=
  { r with
    registered := r.registered ++ [(scope, r.places.length)]
    places := r.places ++ [none]
    loads := r.loads + 1 }

def put (r : Registry) (place : Nat) (c : Container) : Registry :=
  { r with
    containers := r.containers ++ [c]
    places := r.places.set place (some r.containers.length) }

theorem modifyContainer_put (r : Registry) (place : Nat) (c : Container) (f : Container → Container) :
    (r.put place c).modifyContainer r.containers.length f = r.put place (f c) := by
  simp only [modifyContainer, put, Registry.mk.injEq, true_and, and_true]
  simp [List.modify_eq_take_cons_drop]

theorem modifyContainer_dispose (disposed : ∀ c, r.containers[n]? = some c → c.disposed = true) :
    r.modifyContainer n Container.dispose = r := by
  have same : r.containers.modify n Container.dispose = r.containers := by
    refine List.ext_getElem? fun k => ?_
    rw [List.getElem?_modify]
    cases there : r.containers[k]? with
    | none => rfl
    | some c =>
      refine congrArg some ?_
      split
      · next own => exact Container.dispose_of_disposed (disposed c (own ▸ there))
      · rfl
  rw [modifyContainer, same]

theorem vacant_register : (r.register scope).Vacant p ↔ r.Vacant p ∨ p = r.places.length := by
  rw [Vacant, Vacant, register, List.getElem?_append]
  split
  · next inside =>
    refine ⟨.inl, fun vacant => vacant.resolve_right (Nat.ne_of_lt inside)⟩
  · next outside =>
    rw [List.getElem?_eq_none (Nat.not_lt.mp outside), List.getElem?_singleton]
    constructor
    · intro vacant
      split at vacant
      · next first => exact .inr (by omega)
      · cases vacant
    · rintro (vacant | rfl)
      · cases vacant
      · rw [Nat.sub_self, if_pos rfl]

@[simp] theorem made?_register (r : Registry) (scope : ScopeId) (p : Nat) : (r.register scope).made? p = r.made? p := by
  rw [made?, made?, register, List.getElem?_append]
  split
  · rfl
  · next outside =>
    rw [List.getElem?_eq_none (Nat.not_lt.mp outside), List.getElem?_singleton]
    split <;> rfl

theorem made?_put (inside : place < r.places.length) (c : Container) (p : Nat) :
    (r.put place c).made? p = if place = p then some r.containers.length else r.made? p := by
  rw [made?, made?, put, List.getElem?_set]
  split <;> rfl

theorem made?_of_put (made : (r.put place c).made? q = some n) :
    (q = place ∧ n = r.containers.length) ∨ r.made? q = some n := by
  rw [Registry.made?, put, List.getElem?_set] at made
  split at made
  · next here =>
    split at made
    · cases made
      exact .inl ⟨here.symm, rfl⟩
    · cases made
  · exact .inr made

theorem vacant_put (inside : place < r.places.length) : (r.put place c).Vacant p ↔ r.Vacant p ∧ place ≠ p := by
  rw [Vacant, Vacant, put, List.getElem?_set]
  split
  · next here => exact ⟨nofun, fun vacant => absurd here vacant.2⟩
  · next elsewhere => exact ⟨fun vacant => ⟨vacant, elsewhere⟩, And.left⟩

theorem place?_eq_none : r.place? scope = none ↔ ∀ e ∈ r.registered, e.1.same scope = false := by
  rw [place?, Option.map_eq_none_iff, List.find?_eq_none]
  simp only [Bool.not_eq_true]

theorem registered_of_place? (found : r.place? scope = some p) : ∃ e ∈ r.registered, e.1.same scope = true ∧ e.2 = p := by
  obtain ⟨e, first, rfl⟩ := Option.map_eq_some_iff.mp found
  have same : e.1.same scope = true := by simpa using List.find?_some first
  exact ⟨e, List.mem_of_find?_eq_some first, same, rfl⟩

theorem place?_congr (same : scope.same other = true) (r : Registry) : r.place? scope = r.place? other := by
  refine congrArg (fun keep => (r.registered.find? keep).map Prod.snd) (funext fun e => ?_)
  rw [ScopeId.same_comm e.1, ScopeId.same_trans same, ScopeId.same_comm]

theorem place?_register (found : r.place? scope = some p) (other : ScopeId) : (r.register other).place? scope = some p := by
  obtain ⟨e, first, rfl⟩ := Option.map_eq_some_iff.mp found
  rw [place?, register, List.find?_append, first]
  rfl

theorem existing?_eq_some : r.existing? scope = some n ↔ ∃ p, r.place? scope = some p ∧ r.made? p = some n :=
  Option.bind_eq_some_iff

theorem mem_live : (scope, n) ∈ r.live ↔ ∃ p, (scope, p) ∈ r.registered ∧ r.made? p = some n := by
  simp only [live, List.mem_filterMap, Option.map_eq_some_iff, Prod.exists, Prod.mk.injEq]
  constructor
  · rintro ⟨s, p, member, n, made, rfl, rfl⟩
    exact ⟨p, member, made⟩
  · rintro ⟨p, member, made⟩
    exact ⟨scope, p, member, n, made, rfl, rfl⟩

/-- No two names of a scope have places, no two scopes have one place, and no service is at two places. -/
structure Seated (r : Registry) : Prop where
  scopes : r.registered.Pairwise fun a b => a.1.same b.1 = false
  places : r.registered.Pairwise fun a b => a.2 ≠ b.2
  inside : ∀ e ∈ r.registered, e.2 < r.places.length
  known : ∀ p n, r.made? p = some n → n < r.containers.length
  once : ∀ p q n, r.made? p = some n → r.made? q = some n → p = q

namespace Seated

theorem ofRoots (roots : List Path) : Seated (ofRoots roots) := by
  have unmade (p n : Nat) : (Registry.ofRoots roots).made? p ≠ some n := nofun
  exact ⟨.nil, .nil, nofun, fun p n made => absurd made (unmade p n), fun p _ n made => absurd made (unmade p n)⟩

variable (seated : Seated r)

include seated in
theorem place?_of_registered {e : ScopeId × Nat} (member : e ∈ r.registered) (same : e.1.same scope = true) :
    r.place? scope = some e.2 := by
  cases found : r.place? scope with
  | none => rw [place?_eq_none.mp found e member] at same; cases same
  | some p =>
    obtain ⟨e', member', same', rfl⟩ := registered_of_place? found
    have alike : e.1.same e'.1 = true := by
      rw [ScopeId.same_trans same, ScopeId.same_comm]
      exact same'
    rcases related_of_pairwise seated.scopes member member' with rfl | apart | apart
    · rfl
    · rw [alike] at apart
      cases apart
    · rw [ScopeId.same_comm, alike] at apart
      cases apart

include seated in
theorem live_apart : r.live.Pairwise fun a b => a.1.same b.1 = false ∧ a.2 ≠ b.2 := by
  refine List.pairwise_filterMap.mpr ((seated.scopes.and seated.places).imp ?_)
  rintro ⟨scope, p⟩ ⟨scope', p'⟩ ⟨scopes, places⟩ a found a' found'
  obtain ⟨n, made, rfl⟩ := Option.map_eq_some_iff.mp found
  obtain ⟨n', made', rfl⟩ := Option.map_eq_some_iff.mp found'
  refine ⟨scopes, ?_⟩
  rintro rfl
  exact places (seated.once p p' n made made')

include seated in
theorem owner (found : r.place? scope = some p) :
    p < r.places.length ∧ ∀ e ∈ r.registered, e.2 = p → e.1.same scope = true := by
  obtain ⟨e, member, same, rfl⟩ := registered_of_place? found
  refine ⟨seated.inside e member, fun e' member' place => ?_⟩
  rcases related_of_pairwise seated.places member member' with rfl | apart | apart
  · exact same
  · exact absurd place.symm apart
  · exact absurd place apart

include seated in
/-- Two scopes have one service exactly when they are one. -/
theorem existing?_same {n' : Nat} (here : r.existing? scope = some n) (there : r.existing? other = some n') :
    scope.same other = true ↔ n = n' := by
  obtain ⟨p, found, made⟩ := existing?_eq_some.mp here
  obtain ⟨p', found', made'⟩ := existing?_eq_some.mp there
  constructor
  · intro same
    rw [existing?, place?_congr same] at here
    exact Option.some.inj (here.symm.trans there)
  · rintro rfl
    obtain rfl := seated.once p p' n made made'
    obtain ⟨e, member, same, place⟩ := registered_of_place? found'
    have own := (seated.owner found).2 e member place
    exact (ScopeId.same_trans own other).symm.trans same

include seated in
theorem register (free : r.place? scope = none) : Seated (r.register scope) where
  scopes := by
    refine List.pairwise_append.mpr ⟨seated.scopes, List.pairwise_singleton _ _, fun e member e' last => ?_⟩
    obtain rfl := List.mem_singleton.mp last
    exact place?_eq_none.mp free e member
  places := by
    refine List.pairwise_append.mpr ⟨seated.places, List.pairwise_singleton _ _, fun e member e' last => ?_⟩
    obtain rfl := List.mem_singleton.mp last
    exact Nat.ne_of_lt (seated.inside e member)
  inside e member := by
    have length : (r.register scope).places.length = r.places.length + 1 := List.length_append
    rw [length]
    rcases List.mem_append.mp member with old | last
    · exact Nat.lt_succ_of_lt (seated.inside e old)
    · obtain rfl := List.mem_singleton.mp last
      exact Nat.lt_succ_self _
  known p n made := seated.known p n (by rwa [made?_register] at made)
  once p q n here there := by
    rw [made?_register] at here there
    exact seated.once p q n here there

include seated in
theorem put (place : Nat) (c : Container) : Seated (r.put place c) where
  scopes := seated.scopes
  places := seated.places
  inside e member := by
    have length : (r.put place c).places.length = r.places.length := List.length_set
    rw [length]
    exact seated.inside e member
  known q n made := by
    have length : (r.put place c).containers.length = r.containers.length + 1 := List.length_append
    rw [length]
    rcases made?_of_put made with ⟨-, rfl⟩ | old
    · exact Nat.lt_succ_self _
    · exact Nat.lt_succ_of_lt (seated.known q n old)
  once q q' n here there := by
    rcases made?_of_put here with ⟨rfl, rfl⟩ | old <;> rcases made?_of_put there with ⟨rfl, same⟩ | old'
    · rfl
    · exact absurd (seated.known q' _ old') (Nat.lt_irrefl _)
    · exact absurd (same ▸ seated.known q n old) (Nat.lt_irrefl _)
    · exact seated.once q q' n old old'

end Seated

/-- What holds of every registry. No two names of a scope have places, and no two scopes have one place.
Every service is at one place, and it is live as long as a scope has that place. -/
structure Orderly (r : Registry) : Prop where
  scopes : r.registered.Pairwise fun a b => a.1.same b.1 = false
  places : r.registered.Pairwise fun a b => a.2 ≠ b.2
  inside : ∀ e ∈ r.registered, e.2 < r.places.length
  made : ∀ n, n < r.containers.length ↔ ∃ p, r.made? p = some n
  once : ∀ p q n, r.made? p = some n → r.made? q = some n → p = q
  alive : ∀ p n c, r.made? p = some n → r.containers[n]? = some c →
    (c.disposed = false ↔ ∃ e ∈ r.registered, e.2 = p)

theorem Orderly.seated (orderly : Orderly r) : Seated r where
  scopes := orderly.scopes
  places := orderly.places
  inside := orderly.inside
  known p n made := (orderly.made n).mpr ⟨p, made⟩
  once := orderly.once

namespace Orderly

theorem ofRoots (roots : List Path) : Orderly (ofRoots roots) := by
  have unmade (p n : Nat) : (Registry.ofRoots roots).made? p ≠ some n := nofun
  refine ⟨.nil, .nil, nofun, fun n => ⟨nofun, fun ⟨p, made⟩ => absurd made (unmade p n)⟩,
    fun p q n made => absurd made (unmade p n), fun p n c made => absurd made (unmade p n)⟩

variable (orderly : Orderly r)

include orderly in
theorem live : (∃ c, r.containers[n]? = some c ∧ c.disposed = false) ↔ ∃ scope, (scope, n) ∈ r.live := by
  constructor
  · rintro ⟨c, there, undisposed⟩
    obtain ⟨p, made⟩ := (orderly.made n).mp (List.getElem?_eq_some_iff.mp there).1
    obtain ⟨e, member, rfl⟩ := (orderly.alive p n c made there).mp undisposed
    exact ⟨e.1, mem_live.mpr ⟨e.2, member, made⟩⟩
  · rintro ⟨scope, member⟩
    obtain ⟨p, registered, made⟩ := mem_live.mp member
    have known := (orderly.made n).mpr ⟨p, made⟩
    have there := List.getElem?_eq_getElem known
    exact ⟨_, there, (orderly.alive p n _ made there).mpr ⟨_, registered, rfl⟩⟩

include orderly in
theorem register (free : r.place? scope = none) : Orderly (r.register scope) where
  scopes := (orderly.seated.register free).scopes
  places := (orderly.seated.register free).places
  inside := (orderly.seated.register free).inside
  made n := by
    simp only [made?_register]
    exact orderly.made n
  once := (orderly.seated.register free).once
  alive p n c here there := by
    rw [made?_register] at here
    have elsewhere : r.places.length ≠ p := Nat.ne_of_gt (made?_inside here)
    have same : (∃ e ∈ (r.register scope).registered, e.2 = p) ↔ ∃ e ∈ r.registered, e.2 = p := by
      simp only [Registry.register, List.mem_append, List.mem_singleton, or_and_right, exists_or, exists_eq_left,
        elsewhere, or_false]
    rw [same]
    exact orderly.alive p n c here there

include orderly in
/-- A service that comes to a vacant place is to be live as long as a scope has the place. -/
theorem put (vacant : r.Vacant place) (alive : c.disposed = false ↔ ∃ e ∈ r.registered, e.2 = place) :
    Orderly (r.put place c) where
  scopes := orderly.scopes
  places := orderly.places
  inside := (orderly.seated.put place c).inside
  made n := by
    have length : (r.put place c).containers.length = r.containers.length + 1 := List.length_append
    simp only [length, made?_put vacant.inside]
    constructor
    · intro known
      rcases Nat.lt_succ_iff_lt_or_eq.mp known with old | rfl
      · obtain ⟨p, made⟩ := (orderly.made n).mp old
        refine ⟨p, ?_⟩
        rw [if_neg, made]
        rintro rfl
        cases vacant.unmade.symm.trans made
      · exact ⟨place, if_pos rfl⟩
    · rintro ⟨p, made⟩
      split at made
      · cases made
        exact Nat.lt_succ_self _
      · exact Nat.lt_succ_of_lt ((orderly.made n).mpr ⟨p, made⟩)
  once := (orderly.seated.put place c).once
  alive p n d here there := by
    rw [made?_put vacant.inside] at here
    have there : (r.containers ++ [c])[n]? = some d := there
    split at here
    · next own =>
      subst own
      cases here
      rw [List.getElem?_concat_length] at there
      cases there
      exact alive
    · have known := (orderly.made n).mpr ⟨p, here⟩
      rw [List.getElem?_append_left known] at there
      exact orderly.alive p n d here there

end Orderly

structure Disposed (ns : List Nat) (r after : Registry) : Prop where
  registered : after.registered = r.registered
  places : after.places = r.places
  length : after.containers.length = r.containers.length
  containers : ∀ k, after.containers[k]? = r.containers[k]?.map fun c => if k ∈ ns then c.dispose else c

theorem disposed_each (entries : List (ScopeId × Nat)) (r : Registry) :
    Disposed (entries.map Prod.snd) r
      (entries.foldl (fun r (_, n) => r.modifyContainer n Container.dispose) r) := by
  induction entries generalizing r with
  | nil => exact ⟨rfl, rfl, rfl, fun k => by simp⟩
  | cons e rest ih =>
    obtain ⟨registered, places, length, containers⟩ := ih (r.modifyContainer e.2 Container.dispose)
    refine ⟨registered, places, length.trans (List.length_modify ..), fun k => ?_⟩
    rw [List.foldl_cons, containers, modifyContainer, List.getElem?_modify, Option.map_eq_map, Option.map_map]
    refine congrArg (fun f => Option.map f r.containers[k]?) (funext fun c => ?_)
    simp only [Function.comp_apply, List.map_cons, List.mem_cons]
    by_cases here : k = e.2
    · subst here
      by_cases later : e.2 ∈ rest.map Prod.snd
      · simp [later, Container.dispose_of_disposed (Container.dispose_disposed c)]
      · simp [later]
    · rw [if_neg (Ne.symm here)]
      simp only [here, false_or]

theorem disposeAll_disposed (r : Registry) :
    Disposed (r.live.map Prod.snd) { r with registered := [] } r.disposeAll := disposed_each ..

/-- After a clearance no service is live. -/
theorem Orderly.disposeAll (orderly : Orderly r) : Orderly r.disposeAll := by
  obtain ⟨registered, places, length, containers⟩ := r.disposeAll_disposed
  have made (p : Nat) : r.disposeAll.made? p = r.made? p := by rw [made?, places]; rfl
  refine ⟨registered ▸ .nil, registered ▸ .nil, registered ▸ nofun, ?_, ?_, ?_⟩
  · intro n
    simp only [length, made]
    exact orderly.made n
  · intro p q n here there
    rw [made] at here there
    exact orderly.once p q n here there
  · intro p n c here there
    rw [made] at here
    rw [containers] at there
    obtain ⟨before, known, rfl⟩ := Option.map_eq_some_iff.mp there
    rw [registered]
    refine ⟨fun undisposed => ?_, nofun⟩
    split at undisposed
    · rw [Container.dispose_disposed] at undisposed
      cases undisposed
    · next unlisted =>
      obtain ⟨scope, member⟩ := orderly.live.mp ⟨before, known, undisposed⟩
      exact absurd (List.mem_map_of_mem member) unlisted
end Registry
end Service
end SvelteLens
