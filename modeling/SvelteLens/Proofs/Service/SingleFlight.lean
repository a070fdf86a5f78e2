import Mathlib.Logic.Relation
import SvelteLens.Proofs.Service.Places

/-! Requests for services that come in while others are on their way, and clearances between them. Every
turn of a request is a few moves: its configuration is loaded and the service comes to its place, it takes
the service that its scope has, it waits at the place of its scope, or it gets a place for the scope.
Until the next clearance, no move takes a service from its scope, so all requests for one scope come to one
service. -/
namespace SvelteLens.Service

open Config
open Registry (Orderly)
open Relation (ReflTransGen)

/-- The registry with every request that was started so far. -/
structure Traffic where
  registry : Registry
  requests : List Request
  deriving DecidableEq, Repr, Inhabited

inductive Turn where
  | ask (discovery : Discovery) (path : Path)
  | resume (discovery : Discovery) (i : Nat)
  | disposeAll

namespace Traffic

def ofRoots (roots : List Path) : Traffic := ⟨Registry.ofRoots roots, []⟩

def after (t : Traffic) : Turn → Traffic
  | .ask discovery path =>
    let (registry, request) := t.registry.request discovery path
    ⟨registry, t.requests ++ [request]⟩
  | .resume discovery i =>
    match t.requests[i]? with
    | none => t
    | some request =>
      let (registry, progress) := Registry.resume discovery t.registry request
      ⟨registry, t.requests.set i { request with progress }⟩
  | .disposeAll => { t with registry := t.registry.disposeAll }

def run (t : Traffic) (turns : List Turn) : Traffic := turns.foldl after t

/-- A request is on its way to a place, and the place is its scope's if it is any scope's. -/
def Fits (r : Registry) (request : Request) : Prop :=
  ∀ p, request.progress = .loading p ∨ request.progress = .waiting p →
    p < r.places.length ∧ ∀ e ∈ r.registered, e.2 = p → e.1.same request.scope = true

def Loads (t : Traffic) (i place : Nat) : Prop :=
  ∃ request : Request, t.requests[i]? = some request ∧ request.progress = .loading place

/-- What holds between the requests and the places: a place is vacant as long as a request loads for it,
and no two requests load for one place. -/
structure Attended (t : Traffic) : Prop where
  fits : ∀ request ∈ t.requests, Fits t.registry request
  loaded : ∀ p, t.registry.Vacant p ↔ ∃ i, t.Loads i p
  lone : ∀ i j p, t.Loads i p → t.Loads j p → i = j

structure Sound (t : Traffic) : Prop where
  orderly : Orderly t.registry
  attended : Attended t

def Replaced (requests : List Request) (i : Nat) (request : Request) (after : List Request) : Prop :=
  ∀ j, after[j]? = if j = i then some request else requests[j]?

inductive Move (i : Nat) (t : Traffic) : Traffic → Prop where
  | made {request : Request} {place : Nat} {c : Container} {requests : List Request}
      (there : t.requests[i]? = some request) (loading : request.progress = .loading place)
      (vacant : t.registry.Vacant place) (alive : c.disposed = false ↔ ∃ e ∈ t.registry.registered, e.2 = place)
      (replaced : Replaced t.requests i { request with progress := .waiting place } requests) :
      Move i t ⟨t.registry.put place c, requests⟩
  | settled {request : Request} {n : Nat} {requests : List Request} (idle : ∀ p, ¬t.Loads i p)
      (found : t.registry.existing? request.scope = some n) (done : request.progress = .done n)
      (replaced : Replaced t.requests i request requests) : Move i t ⟨t.registry, requests⟩
  | waited {request : Request} {place : Nat} {requests : List Request} (idle : ∀ p, ¬t.Loads i p)
      (found : t.registry.place? request.scope = some place) (waiting : request.progress = .waiting place)
      (replaced : Replaced t.requests i request requests) : Move i t ⟨t.registry, requests⟩
  | entered {request : Request} {requests : List Request} (idle : ∀ p, ¬t.Loads i p)
      (free : t.registry.place? request.scope = none) (loading : request.progress = .loading t.registry.places.length)
      (replaced : Replaced t.requests i request requests) : Move i t ⟨t.registry.register request.scope, requests⟩

variable {t after : Traffic} {r registry : Registry} {i j p n : Nat} {scope : ScopeId} {request : Request}
  {requests : List Request}

theorem Fits.grow (fits : Fits r request) (places : r.places.length ≤ registry.places.length)
    (registered : ∀ e ∈ registry.registered, e ∈ r.registered ∨ r.places.length ≤ e.2) : Fits registry request := by
  intro p onWay
  obtain ⟨inside, own⟩ := fits p onWay
  refine ⟨Nat.lt_of_lt_of_le inside places, fun e member same => ?_⟩
  rcases registered e member with old | new
  · exact own e old same
  · omega

theorem fits_replaced (replaced : Replaced t.requests i request requests) (own : Fits registry request)
    (others : ∀ other ∈ t.requests, Fits registry other) : ∀ other ∈ requests, Fits registry other := by
  intro other member
  obtain ⟨j, there⟩ := List.mem_iff_getElem?.mp member
  rw [replaced] at there
  split at there
  · cases there
    exact own
  · exact others other (List.mem_iff_getElem?.mpr ⟨j, there⟩)

theorem loads_replaced (replaced : Replaced t.requests i request requests) :
    Loads ⟨registry, requests⟩ j p ↔ if j = i then request.progress = .loading p else t.Loads j p := by
  unfold Loads
  rw [replaced]
  split
  · simp
  · rfl

/-- A request that loads nothing before and after leaves all others to load what they did. -/
theorem loads_idle (replaced : Replaced t.requests i request requests) (idle : ∀ p, ¬t.Loads i p)
    (unloading : ∀ p, request.progress ≠ .loading p) : Loads ⟨registry, requests⟩ j p ↔ t.Loads j p := by
  rw [loads_replaced replaced]
  split
  · next own =>
    subst own
    exact ⟨fun loading => absurd loading (unloading p), fun loads => absurd loads (idle p)⟩
  · rfl

theorem Attended.idle (attended : Attended t) (replaced : Replaced t.requests i request requests)
    (idle : ∀ p, ¬t.Loads i p) (unloading : ∀ p, request.progress ≠ .loading p) (own : Fits t.registry request) :
    Attended ⟨t.registry, requests⟩ where
  fits := fits_replaced replaced own attended.fits
  loaded p := by
    simp only [loads_idle replaced idle unloading]
    exact attended.loaded p
  lone j k p here there :=
    attended.lone j k p ((loads_idle replaced idle unloading).mp here) ((loads_idle replaced idle unloading).mp there)

/-- What one move preserves. -/
theorem Move.sound (move : Move i t after) (sound : Sound t) : Sound after := by
  obtain ⟨orderly, attended⟩ := sound
  cases move with
  | @made request place c requests there loading vacant alive replaced =>
    refine ⟨orderly.put vacant alive, ?_⟩
    have length : (t.registry.put place c).places.length = t.registry.places.length := List.length_set
    have grow {other : Request} (fits : Fits t.registry other) : Fits (t.registry.put place c) other :=
      fits.grow (Nat.le_of_eq length.symm) fun e member => .inl member
    have own := attended.fits request (List.mem_iff_getElem?.mpr ⟨i, there⟩) place (.inl loading)
    have others {j p : Nat} : Loads ⟨t.registry.put place c, requests⟩ j p ↔ j ≠ i ∧ t.Loads j p := by
      rw [loads_replaced replaced]
      split
      · next own => exact ⟨nofun, fun loads => absurd own loads.1⟩
      · next other => exact ⟨fun loads => ⟨other, loads⟩, And.right⟩
    -- the place is not vacant any more, and the one request that loaded for it loads for none now
    have loads : t.Loads i place := ⟨request, there, loading⟩
    refine ⟨fits_replaced replaced (grow ?_) fun other member => grow (attended.fits other member), fun p => ?_, ?_⟩
    · rintro p (load | wait)
      · cases load
      · cases wait
        exact own
    · simp only [Registry.vacant_put vacant.inside, others, attended.loaded p]
      constructor
      · rintro ⟨⟨j, other⟩, apart⟩
        refine ⟨j, ?_, other⟩
        rintro rfl
        obtain ⟨same, load, loading'⟩ := other
        cases there.symm.trans load
        cases loading.symm.trans loading'
        exact apart rfl
      · rintro ⟨j, apart, other⟩
        refine ⟨⟨j, other⟩, ?_⟩
        rintro rfl
        exact apart (attended.lone j i place other loads)
    · intro j k p here there
      exact attended.lone j k p (others.mp here).2 (others.mp there).2
  | settled idle found done replaced =>
    refine ⟨orderly, attended.idle replaced idle (fun p => by rw [done]; nofun) ?_⟩
    rintro p (load | wait)
    · cases done.symm.trans load
    · cases done.symm.trans wait
  | @waited request place _ idle found waiting replaced =>
    refine ⟨orderly, attended.idle replaced idle (fun p => by rw [waiting]; nofun) ?_⟩
    rintro p (load | wait)
    · cases waiting.symm.trans load
    · cases waiting.symm.trans wait
      exact orderly.seated.owner found
  | @entered request requests idle free loading replaced =>
    refine ⟨orderly.register free, ?_⟩
    have longer : t.registry.places.length < (t.registry.register request.scope).places.length := by
      simp [Registry.register]
    have registered : ∀ e ∈ (t.registry.register request.scope).registered,
        e ∈ t.registry.registered ∨ e = (request.scope, t.registry.places.length) := by
      simp [Registry.register]
    have loads {j p : Nat} : Loads ⟨t.registry.register request.scope, requests⟩ j p ↔
        t.Loads j p ∨ (j = i ∧ p = t.registry.places.length) := by
      rw [loads_replaced replaced, loading]
      split
      · next own =>
        subst own
        simp [idle, eq_comm]
      · next other => simp [other]
    refine ⟨fits_replaced replaced ?_ fun other member => (attended.fits other member).grow (Nat.le_of_lt longer) ?_, ?_, ?_⟩
    · rintro p (load | wait)
      · cases loading.symm.trans load
        refine ⟨longer, fun e member same => ?_⟩
        rcases registered e member with old | rfl
        · exact absurd same (Nat.ne_of_lt (orderly.inside e old))
        · exact ScopeId.same_iff.mpr rfl
      · cases loading.symm.trans wait
    · intro e member
      rcases registered e member with old | rfl
      · exact .inl old
      · exact .inr (Nat.le_refl _)
    · intro p
      simp only [Registry.vacant_register, attended.loaded p, loads, exists_or, exists_eq_left]
    · intro j k p here there
      have old {j : Nat} (loads : t.Loads j t.registry.places.length) : False :=
        Nat.lt_irrefl _ ((attended.loaded _).mpr ⟨j, loads⟩).inside
      rcases loads.mp here with here | ⟨rfl, rfl⟩ <;> rcases loads.mp there with there | ⟨rfl, same⟩
      · exact attended.lone j k p here there
      · exact absurd (same ▸ here) old
      · exact absurd there old
      · rfl

theorem Move.existing? (move : Move i t after) (found : t.registry.existing? scope = some n) :
    after.registry.existing? scope = some n := by
  obtain ⟨p, place, made⟩ := Registry.existing?_eq_some.mp found
  cases move with
  | made there loading vacant alive replaced =>
    refine Registry.existing?_eq_some.mpr ⟨p, place, ?_⟩
    rw [Registry.made?_put vacant.inside, if_neg, made]
    rintro rfl
    cases vacant.unmade.symm.trans made
  | settled => exact found
  | waited => exact found
  | entered =>
    refine Registry.existing?_eq_some.mpr ⟨p, Registry.place?_register place _, ?_⟩
    rw [Registry.made?_register, made]

/-- A request that has its service after a move has just taken it from its scope, or had it before. -/
theorem Move.done (move : Move i t after) (there : after.requests[j]? = some request)
    (done : request.progress = .done n) :
    after.registry.existing? request.scope = some n ∨ t.requests[j]? = some request := by
  have earlier {other : Request} {requests : List Request} (replaced : Replaced t.requests i other requests)
      (there : requests[j]? = some request) : other = request ∨ t.requests[j]? = some request := by
    rw [replaced] at there
    split at there
    · exact .inl (Option.some.inj there)
    · exact .inr there
  cases move with
  | made _ _ _ _ replaced =>
    refine (earlier replaced there).imp_left ?_
    rintro rfl
    cases done
  | settled _ found settled replaced =>
    refine (earlier replaced there).imp_left ?_
    rintro rfl
    cases settled.symm.trans done
    exact found
  | waited _ _ waiting replaced =>
    refine (earlier replaced there).imp_left ?_
    rintro rfl
    cases waiting.symm.trans done
  | entered _ _ loading replaced =>
    refine (earlier replaced there).imp_left ?_
    rintro rfl
    cases loading.symm.trans done

abbrev Moves (i : Nat) : Traffic → Traffic → Prop := ReflTransGen (Move i)

theorem Moves.sound (moves : Moves i t after) (sound : Sound t) : Sound after := by
  induction moves with
  | refl => exact sound
  | tail _ move ih => exact move.sound ih

theorem Moves.existing? (moves : Moves i t after) (found : t.registry.existing? scope = some n) :
    after.registry.existing? scope = some n := by
  induction moves with
  | refl => exact found
  | tail _ move ih => exact move.existing? ih

theorem Moves.done (moves : Moves i t after) (there : after.requests[j]? = some request)
    (done : request.progress = .done n) :
    after.registry.existing? request.scope = some n ∨ t.requests[j]? = some request := by
  induction moves with
  | refl => exact .inr there
  | tail _ move ih =>
    rcases move.done there done with found | before
    · exact .inl found
    · exact (ih before).imp_left move.existing?

section Turns

variable {discovery : Discovery}

theorem replaced_set (there : t.requests[i]? = some request) (other : Request) :
    Replaced t.requests i other (t.requests.set i other) := by
  intro j
  have inside := (List.getElem?_eq_some_iff.mp there).1
  rw [List.getElem?_set]
  split
  · next own => rw [if_pos own.symm]
  · next other => rw [if_neg (Ne.symm other)]

theorem replaced_append (requests : List Request) (request : Request) :
    Replaced requests requests.length request (requests ++ [request]) := by
  intro j
  rw [List.getElem?_append]
  split
  · next inside => rw [if_neg (Nat.ne_of_lt inside)]
  · next outside =>
    have empty : requests[j]? = none := List.getElem?_eq_none (Nat.not_lt.mp outside)
    rw [List.getElem?_singleton, empty]
    by_cases last : j = requests.length
    · rw [if_pos last, if_pos (by omega)]
    · rw [if_neg last, if_neg (by omega)]

/-- A scope is asked for its service: the request takes it, or waits for it, or loads its configuration. -/
theorem enter_move {path : Path} (idle : ∀ p, ¬t.Loads i p)
    (replaced : Replaced t.requests i ⟨path, scope, (t.registry.enter scope).2⟩ requests) :
    Move i t ⟨(t.registry.enter scope).1, requests⟩ := by
  unfold Registry.enter at replaced ⊢
  cases place : t.registry.place? scope with
  | none =>
    rw [place] at replaced
    exact .entered idle place rfl replaced
  | some p =>
    rw [place] at replaced
    dsimp only at replaced ⊢
    cases made : t.registry.made? p with
    | none =>
      rw [made] at replaced
      exact .waited idle place rfl replaced
    | some n =>
      rw [made] at replaced
      exact .settled idle (Registry.existing?_eq_some.mpr ⟨p, place, made⟩) rfl replaced

/-- A request takes the service at its place, or starts over when its scope has lost the place. The service
is disposed by then, as no scope has its place. -/
theorem claim_move (sound : Sound t) (there : t.requests[i]? = some request) (waiting : request.progress = .waiting p)
    (made : t.registry.made? p = some n) {requests : List Request}
    (replaced : Replaced t.requests i { request with progress := (t.registry.claim request.scope p n).2 } requests) :
    Move i t ⟨(t.registry.claim request.scope p n).1, requests⟩ := by
  have idle : ∀ q, ¬t.Loads i q := by
    rintro q ⟨same, there', loading⟩
    cases there.symm.trans there'
    cases waiting.symm.trans loading
  unfold Registry.claim at replaced ⊢
  split
  · next place =>
    rw [if_pos place] at replaced
    refine .settled (n := n) idle ?_ rfl replaced
    exact Registry.existing?_eq_some.mpr ⟨p, place, made⟩
  · next lost =>
    have disposed : ∀ c, t.registry.containers[n]? = some c → c.disposed = true := by
      intro c known
      cases live : c.disposed with
      | true => rfl
      | false =>
        obtain ⟨e, member, rfl⟩ := (sound.orderly.alive p n c made known).mp live
        have fits := sound.attended.fits request (List.mem_iff_getElem?.mpr ⟨i, there⟩) e.2 (.inr waiting)
        exact absurd (sound.orderly.seated.place?_of_registered member (fits.2 e member rfl)) lost
    rw [if_neg lost] at replaced
    rw [Registry.modifyContainer_dispose disposed] at replaced ⊢
    exact enter_move idle replaced

/-- A service that has been made comes to its place, and is disposed at once when no scope has the place. -/
theorem resume_loading (discovery : Discovery) (r : Registry) (loading : request.progress = .loading p) :
    ∃ c : Container, (c.disposed = false ↔ r.place? request.scope = some p) ∧
      Registry.resume discovery r request = (r.put p c).claim request.scope p r.containers.length := by
  let fallback := fallbackRoot r.roots request.path
  let fresh := Container.ofScope ((discovery.load request.scope fallback).getD (Scope.fallback request.scope fallback))
  have resumed : Registry.resume discovery r request = (r.put p fresh).claim request.scope p r.containers.length := by
    simp only [Registry.resume, loading]
    rfl
  by_cases place : r.place? request.scope = some p
  · exact ⟨fresh, iff_of_true rfl place, resumed⟩
  · have disposed := fresh.dispose_disposed
    refine ⟨fresh.dispose, iff_of_false (by rw [disposed]; nofun) place, ?_⟩
    have lost (c : Container) : (r.put p c).claim request.scope p r.containers.length =
        (r.put p c.dispose).enter request.scope := by
      have place : ¬(r.put p c).place? request.scope = some p := place
      rw [Registry.claim, if_neg place, Registry.modifyContainer_put]
    rw [resumed, lost, lost, Container.dispose_of_disposed disposed]

theorem resume_moves (sound : Sound t) (there : t.requests[i]? = some request) (discovery : Discovery) :
    Moves i t ⟨(Registry.resume discovery t.registry request).1,
      t.requests.set i { request with progress := (Registry.resume discovery t.registry request).2 }⟩ := by
  have stay : t.requests.set i request = t.requests := by
    obtain ⟨inside, same⟩ := List.getElem?_eq_some_iff.mp there
    rw [← same, List.set_getElem_self]
  cases progress : request.progress with
  | done n =>
    have resumed : Registry.resume discovery t.registry request = (t.registry, request.progress) := by
      rw [Registry.resume, progress]
    rw [resumed, stay]
  | waiting p =>
    cases made : t.registry.made? p with
    | none =>
      have resumed : Registry.resume discovery t.registry request = (t.registry, request.progress) := by
        simp only [Registry.resume, progress, made]
      rw [resumed, stay]
    | some n =>
      have resumed : Registry.resume discovery t.registry request = t.registry.claim request.scope p n := by
        simp only [Registry.resume, progress, made]
      rw [resumed]
      exact .single (claim_move sound there progress made (replaced_set there _))
  | loading p =>
    -- two moves: the service comes to its place, and then the request is like one that waited for it
    obtain ⟨c, live, resumed⟩ := resume_loading discovery t.registry progress
    have vacant := (sound.attended.loaded p).mpr ⟨i, request, there, progress⟩
    have fits := (sound.attended.fits request (List.mem_iff_getElem?.mpr ⟨i, there⟩) p (.inl progress)).2
    have alive : c.disposed = false ↔ ∃ e ∈ t.registry.registered, e.2 = p := by
      rw [live]
      constructor
      · intro place
        obtain ⟨e, member, -, same⟩ := Registry.registered_of_place? place
        exact ⟨e, member, same⟩
      · rintro ⟨e, member, rfl⟩
        exact sound.orderly.seated.place?_of_registered member (fits e member rfl)
    let settled : Request := { request with progress := .waiting p }
    have first : Move i t ⟨t.registry.put p c, t.requests.set i settled⟩ :=
      .made there progress vacant alive (replaced_set there settled)
    have there' : (t.requests.set i settled)[i]? = some settled := by rw [replaced_set there settled i, if_pos rfl]
    have made : (t.registry.put p c).made? p = some t.registry.containers.length := by
      rw [Registry.made?_put vacant.inside, if_pos rfl]
    have second := claim_move (first.sound sound) there' rfl made (replaced_set there' _)
    rw [List.set_set] at second
    rw [resumed]
    exact .tail (.single first) second

theorem after_moves (sound : Sound t) {turn : Turn} (calm : turn ≠ .disposeAll) : ∃ i, Moves i t (t.after turn) := by
  cases turn with
  | ask discovery path =>
    have fresh : ∀ p, ¬t.Loads t.requests.length p := by
      rintro p ⟨request, there, -⟩
      exact absurd (List.getElem?_eq_some_iff.mp there).1 (Nat.lt_irrefl _)
    exact ⟨t.requests.length, .single (enter_move fresh (replaced_append _ _))⟩
  | resume discovery i =>
    refine ⟨i, ?_⟩
    unfold after
    dsimp only
    cases there : t.requests[i]? with
    | none => exact .refl
    | some request => exact resume_moves sound there discovery
  | disposeAll => exact absurd rfl calm

end Turns

theorem disposeAll_sound (sound : Sound t) : Sound (t.after .disposeAll) := by
  obtain ⟨registered, places, -, -⟩ := t.registry.disposeAll_disposed
  have empty (e : ScopeId × Nat) : e ∉ t.registry.disposeAll.registered := by rw [registered]; nofun
  have vacant (p : Nat) : t.registry.disposeAll.Vacant p ↔ t.registry.Vacant p := by
    rw [Registry.Vacant, places]
    rfl
  refine ⟨sound.orderly.disposeAll, fun request member p onWay => ⟨?_, fun e kept => absurd kept (empty e)⟩,
    fun p => (vacant p).trans (sound.attended.loaded p), sound.attended.lone⟩
  have inside := (sound.attended.fits request member p onWay).1
  change p < t.registry.disposeAll.places.length
  rw [places]
  exact inside

/-- What every turn preserves. -/
theorem after_sound (sound : Sound t) (turn : Turn) : Sound (t.after turn) := by
  by_cases clears : turn = .disposeAll
  · exact clears ▸ disposeAll_sound sound
  · obtain ⟨i, moves⟩ := after_moves sound clears
    exact moves.sound sound

theorem ofRoots_sound (roots : List Path) : Sound (ofRoots roots) where
  orderly := .ofRoots roots
  attended := by
    refine ⟨nofun, fun p => ⟨nofun, ?_⟩, ?_⟩
    · rintro ⟨i, request, there, -⟩
      cases there
    · rintro i j p ⟨request, there, -⟩
      cases there

theorem run_sound (sound : Sound t) (turns : List Turn) : Sound (t.run turns) := by
  induction turns generalizing t with
  | nil => exact sound
  | cons turn rest ih => exact ih (after_sound sound turn)

/-- Until the next clearance, a scope keeps its service. -/
theorem run_existing? (sound : Sound t) {turns : List Turn} (calm : ∀ turn ∈ turns, turn ≠ .disposeAll)
    (found : t.registry.existing? scope = some n) : (t.run turns).registry.existing? scope = some n := by
  induction turns generalizing t with
  | nil => exact found
  | cons turn rest ih =>
    obtain ⟨i, moves⟩ := after_moves sound (calm turn List.mem_cons_self)
    exact ih (after_sound sound turn) (fun later member => calm later (List.mem_cons_of_mem _ member))
      (moves.existing? found)

def Returns (t : Traffic) (turn : Turn) (scope : ScopeId) (n : Nat) : Prop :=
  ∃ (i : Nat) (request : Request), (t.after turn).requests[i]? = some request ∧ request.scope = scope ∧
    request.progress = .done n ∧ t.requests[i]? ≠ some request

/-- A service that a request gets is the one that its scope has. -/
theorem Returns.existing? {turn : Turn} (returns : t.Returns turn scope n) (sound : Sound t) :
    (t.after turn).registry.existing? scope = some n := by
  obtain ⟨i, request, there, rfl, done, new⟩ := returns
  by_cases clears : turn = .disposeAll
  · subst clears
    exact absurd there new
  · obtain ⟨j, moves⟩ := after_moves sound clears
    exact (moves.done there done).resolve_right new

/-- A request gets its service at one of the given turns. -/
def ReturnsIn (t : Traffic) (turns : List Turn) (scope : ScopeId) (n : Nat) : Prop :=
  ∃ before turn rest, turns = before ++ turn :: rest ∧ (t.run before).Returns turn scope n

theorem ReturnsIn.existing? {turns : List Turn} (returns : t.ReturnsIn turns scope n) (sound : Sound t)
    (calm : ∀ turn ∈ turns, turn ≠ .disposeAll) : (t.run turns).registry.existing? scope = some n := by
  obtain ⟨before, turn, rest, rfl, returns⟩ := returns
  have found := returns.existing? (run_sound sound before)
  have later : ∀ turn ∈ rest, turn ≠ .disposeAll := fun turn member =>
    calm turn (List.mem_append_right _ (List.mem_cons_of_mem _ member))
  have split : t.run (before ++ turn :: rest) = ((t.run before).after turn).run rest := List.foldl_append
  rw [split]
  exact run_existing? (after_sound (run_sound sound before) turn) later found

/-- However requests and clearances follow each other: between two clearances, all requests for one scope
that get a service get the same one, and those for different scopes get different ones. Whatever a request
gets is what is registered for its scope at that moment, and is not disposed. After every turn the services
that are not disposed are those that are registered, each once. A vacant place is one that exactly one
request loads for, so a request that waits for a place that has no service yet waits for that one. -/
theorem single_flight (roots : List Path) (before interval : List Turn)
    (calm : ∀ turn ∈ interval, turn ≠ .disposeAll) :
    let t := (ofRoots roots).run before
    (∀ scope other n n', t.ReturnsIn interval scope n → t.ReturnsIn interval other n' →
      (scope.same other = true ↔ n = n')) ∧
    (∀ turn scope n, t.Returns turn scope n → (t.after turn).registry.existing? scope = some n ∧
      ∃ c, (t.after turn).registry.containers[n]? = some c ∧ c.disposed = false) ∧
    (∀ n, (∃ c, t.registry.containers[n]? = some c ∧ c.disposed = false) ↔ ∃ scope, (scope, n) ∈ t.registry.live) ∧
    t.registry.live.Pairwise (fun a b => a.1.same b.1 = false ∧ a.2 ≠ b.2) ∧
    (∀ p, t.registry.Vacant p ↔ ∃ i, t.Loads i p) ∧ (∀ i j p, t.Loads i p → t.Loads j p → i = j) ∧
    ∀ request ∈ t.requests, ∀ p, request.progress = .waiting p →
      (∃ n, t.registry.made? p = some n) ∨ ∃ i, t.Loads i p := by
  intro t
  have sound : Sound t := run_sound (ofRoots_sound roots) before
  refine ⟨fun scope other n n' here there => ?_, fun turn scope n returns => ?_, fun n => sound.orderly.live,
    sound.orderly.seated.live_apart, sound.attended.loaded, sound.attended.lone, fun request member p waiting => ?_⟩
  · have orderly := (run_sound sound interval).orderly
    exact orderly.seated.existing?_same (here.existing? sound calm) (there.existing? sound calm)
  · have found := returns.existing? sound
    refine ⟨found, (after_sound sound turn).orderly.live.mpr ?_⟩
    obtain ⟨p, place, made⟩ := Registry.existing?_eq_some.mp found
    obtain ⟨e, registered, -, rfl⟩ := Registry.registered_of_place? place
    exact ⟨e.1, Registry.mem_live.mpr ⟨e.2, registered, made⟩⟩
  · have inside := (sound.attended.fits request member p (.inr waiting)).1
    exact (Registry.made_or_vacant inside).imp_right (sound.attended.loaded p).mp

/-- Every file is in the inferred project, and nothing is configured. -/
def sampleDiscovery : Discovery where
  findConfig _ _ := .inferred
  load _ _ := none

/-- All services are disposed while a request loads, and another request comes in. The service of the first
one is disposed when it has been made, and both requests get the service of the second. -/
theorem single_flight_cleared :
    let ask := Turn.ask sampleDiscovery ⟨"/a.ts"⟩
    let interval := [ask, .resume sampleDiscovery 0, .resume sampleDiscovery 1, .resume sampleDiscovery 0]
    let t := (ofRoots []).run [ask, .disposeAll]
    (∀ turn ∈ interval, turn ≠ .disposeAll) ∧ t.ReturnsIn interval .inferred 1 ∧
      (∀ n, t.ReturnsIn interval .inferred n → n = 1) ∧
      (t.run interval).requests.map (·.progress) = [.done 1, .done 1] ∧
      (t.run interval).registry.containers.map (·.disposed) = [true, false] := by
  intro ask interval t
  have calm : ∀ turn ∈ interval, turn ≠ .disposeAll := by
    simp only [interval, ask, List.mem_cons, List.not_mem_nil, or_false]
    rintro turn (rfl | rfl | rfl | rfl) <;> nofun
  have returned : t.ReturnsIn interval .inferred 1 :=
    ⟨[ask, .resume sampleDiscovery 0], .resume sampleDiscovery 1, [.resume sampleDiscovery 0], rfl,
      1, ⟨⟨"/a.ts"⟩, .inferred, .done 1⟩, by decide +kernel, rfl, rfl, by decide +kernel⟩
  obtain ⟨one, -⟩ := single_flight [] [ask, .disposeAll] interval calm
  refine ⟨calm, returned, fun n other => ?_, by decide +kernel, by decide +kernel⟩
  exact (one .inferred .inferred n 1 other returned).mp rfl

end Traffic
end SvelteLens.Service
