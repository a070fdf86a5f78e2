import SvelteLens.Proofs.Service.Operations
import SvelteLens.Proofs.Service.Places

/-! Calls of the registry stay with the services they are for. An editor's buffer and a deletion reach the
one service of the scope that governs the path, and no other service changes. A change on the disk reaches
every service that a scope has, each on its own, so the order in which they are told does not matter. -/
namespace SvelteLens.Service

open Config
open SvelteLens.Service.Action (Ends)

namespace Registry

/-- What can happen to a registry. Whoever was given a service may also work on it directly. -/
inductive Event where
  | request (discovery : Discovery) (path : Path)
  | resume (discovery : Discovery) (request : Request)
  | openDocument (discovery : Discovery) (env : Surroundings) (file : SourceFile)
  | delete (discovery : Discovery) (p : Path)
  | fileChanged (env : Surroundings) (p : Path) (change : FileChange)
  | operate (env : Surroundings) (n : Nat) (operation : Container.Operation)
  | disposeAll

def after (r : Registry) : Event → Registry
  | .request discovery path => (r.request discovery path).1
  | .resume discovery request => (resume discovery r request).1
  | .openDocument discovery env file => (openDocument discovery env file r).2
  | .delete discovery p => (r.delete discovery p).1
  | .fileChanged env p change => (fileChanged env p change r).2
  | .operate env n operation => (onContainer n (operation.action env) r).2
  | .disposeAll => r.disposeAll

def history (r : Registry) (events : List Event) : Registry := events.foldl after r

/-- What a call leaves that makes no service and clears nothing. -/
structure Kept (r after : Registry) : Prop where
  roots : after.roots = r.roots
  registered : after.registered = r.registered
  places : after.places = r.places
  loads : after.loads = r.loads
  length : after.containers.length = r.containers.length

variable {r s : Registry} {scope other : ScopeId} {place n k : Nat} {c : Container} {env : Surroundings}
  {p : Path} {change : FileChange} {order : List Nat} {discovery : Discovery} {file : SourceFile} {α : Type}

theorem Kept.refl (r : Registry) : Kept r r := ⟨rfl, rfl, rfl, rfl, rfl⟩

theorem Kept.trans {t : Registry} (first : Kept r s) (second : Kept s t) : Kept r t :=
  ⟨second.roots.trans first.roots, second.registered.trans first.registered, second.places.trans first.places,
    second.loads.trans first.loads, second.length.trans first.length⟩

theorem Kept.place? (kept : Kept r s) (scope : ScopeId) : s.place? scope = r.place? scope := by
  rw [Registry.place?, Registry.place?, kept.registered]

theorem Kept.made? (kept : Kept r s) (place : Nat) : s.made? place = r.made? place := by
  rw [Registry.made?, Registry.made?, kept.places]

theorem Kept.existing? (kept : Kept r s) (scope : ScopeId) : s.existing? scope = r.existing? scope := by
  rw [Registry.existing?, Registry.existing?, kept.place?]
  exact congrArg _ (funext kept.made?)

theorem Kept.live (kept : Kept r s) : s.live = r.live := by
  rw [Registry.live, Registry.live, kept.registered]
  refine congrArg (fun f => r.registered.filterMap f) (funext fun e => ?_)
  exact congrArg (Option.map fun n => (e.1, n)) (kept.made? e.2)

theorem Seated.kept (seated : Seated r) (kept : Kept r s) : Seated s where
  scopes := kept.registered ▸ seated.scopes
  places := kept.registered ▸ seated.places
  inside := by
    rw [kept.registered, kept.places]
    exact seated.inside
  known place n made := by
    rw [kept.made?] at made
    rw [kept.length]
    exact seated.known place n made
  once place other n here there := by
    rw [kept.made?] at here there
    exact seated.once place other n here there

theorem modifyContainer_kept (r : Registry) (n : Nat) (f : Container → Container) : Kept r (r.modifyContainer n f) :=
  ⟨rfl, rfl, rfl, rfl, List.length_modify ..⟩

theorem onContainer_kept (n : Nat) (action : Action Container α) (r : Registry) : Kept r (onContainer n action r).2 := by
  unfold onContainer
  split
  · exact .refl r
  · exact ⟨rfl, rfl, rfl, rfl, List.length_set⟩

theorem delete_kept (discovery : Discovery) (r : Registry) (p : Path) : Kept r (r.delete discovery p).1 := by
  unfold delete
  split
  · exact .refl r
  · exact modifyContainer_kept _ _ _

/-- A registry whose services are those of another one, each as it is there, is the other one. -/
theorem Kept.eq {t : Registry} (first : Kept r s) (second : Kept r t)
    (same : ∀ k : Nat, s.containers[k]? = t.containers[k]?) : s = t := by
  obtain ⟨roots, registered, places, containers, loads⟩ := s
  obtain ⟨roots', registered', places', containers', loads'⟩ := t
  obtain rfl : containers = containers' := List.ext_getElem? same
  obtain rfl : roots = roots' := first.roots.trans second.roots.symm
  obtain rfl : registered = registered' := first.registered.trans second.registered.symm
  obtain rfl : places = places' := first.places.trans second.places.symm
  obtain rfl : loads = loads' := first.loads.trans second.loads.symm
  rfl

theorem onContainer_some {action : Action Container α} (there : r.containers[n]? = some c) :
    onContainer n action r = ((action c).1.map some, { r with containers := r.containers.set n (action c).2 }) := by
  simp only [onContainer, there]
  rfl

theorem onContainer_containers (action : Action Container α) (there : r.containers[n]? = some c) (k : Nat) :
    (onContainer n action r).2.containers[k]? = if k = n then some (action c).2 else r.containers[k]? := by
  have inside := (List.getElem?_eq_some_iff.mp there).1
  rw [onContainer_some there, List.getElem?_set]
  by_cases here : n = k
  · subst here
    rw [if_pos rfl, if_pos inside, if_pos rfl]
  · rw [if_neg here, if_neg (Ne.symm here)]

section Telling

variable {rest : List Nat} {message : Option String}

/-- The answer of a service on its own is a fault. -/
def BreaksOff (env : Surroundings) (p : Path) (change : FileChange) (c : Container) : Prop :=
  ∃ message, (Container.fileChanged env p change c).1 = .error (.fault message)

theorem tellEach_cons (env : Surroundings) (p : Path) (change : FileChange) (n : Nat) (rest : List Nat) (r : Registry) :
    tellEach env p change (n :: rest) r =
      (match (onContainer n (Container.fileChanged env p change) r).1 with
        | .error (.fault message) => throw (.fault message)
        | _ => tellEach env p change rest : Action Registry Unit)
      (onContainer n (Container.fileChanged env p change) r).2 := rfl

theorem tellEach_fault (there : r.containers[n]? = some c)
    (fault : (Container.fileChanged env p change c).1 = .error (.fault message)) :
    tellEach env p change (n :: rest) r =
      (.error (.fault message), (onContainer n (Container.fileChanged env p change) r).2) := by
  rw [tellEach_cons, onContainer_some there, fault]
  rfl

/-- A service that answers, if only with an error, lets the others be told. -/
theorem tellEach_next (there : r.containers[n]? = some c) (answers : ¬BreaksOff env p change c) :
    tellEach env p change (n :: rest) r =
      tellEach env p change rest (onContainer n (Container.fileChanged env p change) r).2 := by
  rw [tellEach_cons, onContainer_some there]
  cases answer : (Container.fileChanged env p change c).1 with
  | ok => rfl
  | error failure =>
    cases failure with
    | error => rfl
    | fault message => exact absurd ⟨message, answer⟩ answers

/-- Services that were told of a change: each is as the change leaves it on its own, and no other changed. -/
structure Told (env : Surroundings) (p : Path) (change : FileChange) (told : List Nat) (r after : Registry) : Prop where
  kept : Kept r after
  containers : ∀ k, after.containers[k]? =
    if k ∈ told then r.containers[k]?.map fun c => (Container.fileChanged env p change c).2 else r.containers[k]?

theorem Told.nil (env : Surroundings) (p : Path) (change : FileChange) (r : Registry) : Told env p change [] r r :=
  ⟨.refl r, fun _ => rfl⟩

/-- One service more. It was not told before, so it is told what it would be told alone. -/
theorem Told.cons (there : r.containers[n]? = some c) (fresh : n ∉ order)
    (told : Told env p change order (onContainer n (Container.fileChanged env p change) r).2 s) :
    Told env p change (n :: order) r s where
  kept := (onContainer_kept n _ r).trans told.kept
  containers k := by
    rw [told.containers, onContainer_containers _ there]
    by_cases here : k = n
    · subst here
      rw [if_neg fresh, if_pos rfl, if_pos List.mem_cons_self, there]
      rfl
    · simp only [List.mem_cons, here, false_or, if_false]

/-- A round ends when all were told, or at the first service that breaks off. -/
theorem tellEach_told (env : Surroundings) (p : Path) (change : FileChange)
    (known : ∀ n ∈ order, n < r.containers.length) (nodup : order.Nodup) :
    (tellEach env p change order r).1 = .ok () ∧ Told env p change order r (tellEach env p change order r).2 ∨
    ∃ told n rest c message, order = told ++ n :: rest ∧ r.containers[n]? = some c ∧
      (Container.fileChanged env p change c).1 = .error (.fault message) ∧
      (tellEach env p change order r).1 = .error (.fault message) ∧
      Told env p change (told ++ [n]) r (tellEach env p change order r).2 := by
  induction order generalizing r with
  | nil => exact .inl ⟨rfl, .nil env p change r⟩
  | cons n rest ih =>
    obtain ⟨c, there⟩ : ∃ c, r.containers[n]? = some c := ⟨_, List.getElem?_eq_getElem (known n List.mem_cons_self)⟩
    obtain ⟨fresh, nodup⟩ := List.nodup_cons.mp nodup
    by_cases breaks : BreaksOff env p change c
    · obtain ⟨message, fault⟩ := breaks
      refine .inr ⟨[], n, rest, c, message, rfl, there, fault, ?_, ?_⟩
      · rw [tellEach_fault there fault]
      · rw [tellEach_fault there fault]
        exact .cons there List.not_mem_nil (.nil env p change _)
    · have kept := onContainer_kept n (Container.fileChanged env p change) r
      rw [tellEach_next there breaks]
      rcases ih (fun m member => kept.length ▸ known m (List.mem_cons_of_mem n member)) nodup with
        ⟨answer, told⟩ | ⟨told, m, rest, d, message, rfl, there', fault, answer, after⟩
      · exact .inl ⟨answer, .cons there fresh told⟩
      · have apart : m ≠ n := fun same => fresh (same ▸ List.mem_append_right told List.mem_cons_self)
        have earlier : n ∉ told ++ [m] := fun member =>
          fresh ((List.mem_append.mp member).elim (List.mem_append_left _) fun last =>
            absurd (List.mem_singleton.mp last).symm apart)
        rw [onContainer_containers _ there, if_neg apart] at there'
        exact .inr ⟨n :: told, m, rest, d, message, rfl, there', fault, answer, .cons there earlier after⟩

/-- A service breaks off only where the text of a component that has changed can be neither built nor refused. -/
theorem breaksOff_build (breaks : BreaksOff env p change c) :
    ∃ file stamp message, env.open? p = some file ∧ env.build stamp file .disk = .error (.fault message) := by
  obtain ⟨message, fault⟩ := breaks
  have ends : Ends (fun answer _ => ∀ message, answer = .error (.fault message) →
      ∃ file stamp message, env.open? p = some file ∧ env.build stamp file .disk = .error (.fault message))
      (Container.fileChanged env p change) c := by
    refine Container.requireLive_bind nofun fun _ => ?_
    cases change with
    | created => exact nofun
    | deleted => exact nofun
    | changed =>
      refine .modify_bind (.get_bind ?_)
      dsimp only
      split
      · refine Ends.bind (Q := fun answer _ => ∀ message, answer = .error (.fault message) →
          ∃ file stamp message, env.open? p = some file ∧ env.build stamp file .disk = .error (.fault message)) ?_ ?_
          fun _ _ _ => .modify_bind (.pure nofun)
        · unfold Container.installFromDisk
          split
          · next file opened =>
            refine .get_bind ?_
            split
            · exact .modify_bind (.pure nofun)
            · next failure built =>
              rintro message same
              cases same
              exact ⟨file, _, message, opened, built⟩
          · exact .throw nofun
        · rintro failure _ broken message same
          cases same
          exact broken message rfl
      · exact .modify_bind (.pure nofun)
  exact ends message fault

end Telling

section Serving

theorem serviceFor_existing (found : r.existing? (discovery.findConfig r.roots p) = some n) :
    serviceFor discovery r p = (r, some n) := by
  obtain ⟨place, registered, made⟩ := existing?_eq_some.mp found
  have enters : r.enter (discovery.findConfig r.roots p) = (r, .done n) := by simp only [enter, registered, made]
  simp only [serviceFor, request, enters, run, resume]

theorem serviceFor_waits (registered : r.place? (discovery.findConfig r.roots p) = some place)
    (unmade : r.made? place = none) : serviceFor discovery r p = (r, none) := by
  have enters : r.enter (discovery.findConfig r.roots p) = (r, .waiting place) := by
    simp only [enter, registered, unmade]
  simp only [serviceFor, request, enters, run, resume, unmade]

def fresh (discovery : Discovery) (r : Registry) (p : Path) : Container :=
  let scope := discovery.findConfig r.roots p
  let fallback := fallbackRoot r.roots p
  .ofScope ((discovery.load scope fallback).getD (Scope.fallback scope fallback))

theorem place?_register_self (free : r.place? scope = none) :
    (r.register scope).place? scope = some r.places.length := by
  have none : r.registered.find? (·.1.same scope) = none := Option.map_eq_none_iff.mp free
  have same : scope.same scope = true := ScopeId.same_iff.mpr rfl
  rw [place?, register, List.find?_append, none, Option.none_or, List.find?_singleton, if_pos same]
  rfl

theorem serviceFor_new (free : r.place? (discovery.findConfig r.roots p) = none) :
    serviceFor discovery r p =
      ((r.register (discovery.findConfig r.roots p)).put r.places.length (fresh discovery r p),
        some r.containers.length) := by
  have enters : r.enter (discovery.findConfig r.roots p) =
      (r.register (discovery.findConfig r.roots p), .loading r.places.length) := by
    simp only [enter, free]
    rfl
  have makes : make discovery (r.register (discovery.findConfig r.roots p)) p (discovery.findConfig r.roots p)
      r.places.length =
      ((r.register (discovery.findConfig r.roots p)).put r.places.length (fresh discovery r p), r.containers.length) := rfl
  have claims : claim ((r.register (discovery.findConfig r.roots p)).put r.places.length (fresh discovery r p))
      (discovery.findConfig r.roots p) r.places.length r.containers.length = (_, .done r.containers.length) :=
    if_pos (place?_register_self free)
  simp only [serviceFor, request, enters, run, resume, makes, claims]

theorem openDocument_waits (waits : serviceFor discovery r file.path = (s, none)) :
    openDocument discovery env file r = (.ok none, s) := by
  unfold openDocument
  rw [Action.bind_ok (x := get) (m := r) (a := r) rfl, waits]
  rfl

theorem openDocument_served (served : serviceFor discovery r file.path = (s, some n)) :
    openDocument discovery env file r =
      ((onContainer n (Container.openDocument env file) s).1.map (·.map fun snapshot => (n, snapshot)),
        (onContainer n (Container.openDocument env file) s).2) := by
  unfold openDocument
  rw [Action.bind_ok (x := get) (m := r) (a := r) rfl, served]
  refine (Action.bind_ok (x := set s) (m := s) (a := ⟨⟩) rfl).trans ?_
  cases told : onContainer n (Container.openDocument env file) s with
  | mk answer t =>
    cases answer with
    | ok snapshot => exact Action.bind_ok told
    | error failure => exact Action.bind_error told

end Serving

theorem enter_seated (seated : Seated r) (scope : ScopeId) : Seated (r.enter scope).1 := by
  unfold enter
  split
  · split <;> exact seated
  · next free => exact seated.register free

theorem claim_seated (seated : Seated r) (scope : ScopeId) (place n : Nat) : Seated (r.claim scope place n).1 := by
  unfold claim
  split
  · exact seated
  · exact enter_seated (seated.kept (modifyContainer_kept r n _)) scope

theorem resume_seated (seated : Seated r) (discovery : Discovery) (request : Request) :
    Seated (resume discovery r request).1 := by
  unfold resume
  split
  · exact claim_seated (seated.put _ _) _ _ _
  · split
    · exact claim_seated seated _ _ _
    · exact seated
  · exact seated

theorem run_seated (seated : Seated r) (discovery : Discovery) (request : Request) :
    Seated (run discovery r request).1 := by
  have first := resume_seated seated discovery request
  unfold run
  dsimp only
  split
  · exact resume_seated first discovery _
  · exact first

theorem serviceFor_seated (seated : Seated r) (discovery : Discovery) (p : Path) :
    Seated (serviceFor discovery r p).1 := by
  have served := run_seated (enter_seated seated (discovery.findConfig r.roots p)) discovery (r.request discovery p).2
  unfold serviceFor
  dsimp only
  split <;> exact served

theorem openDocument_seated (seated : Seated r) (discovery : Discovery) (env : Surroundings) (file : SourceFile) :
    Seated (openDocument discovery env file r).2 := by
  have served := serviceFor_seated seated discovery file.path
  cases found : serviceFor discovery r file.path with
  | mk s service =>
    rw [found] at served
    cases service with
    | none =>
      rw [openDocument_waits found]
      exact served
    | some n =>
      rw [openDocument_served found]
      exact served.kept (onContainer_kept n _ s)

theorem tellEach_kept (env : Surroundings) (p : Path) (change : FileChange) (order : List Nat) (r : Registry) :
    Kept r (tellEach env p change order r).2 := by
  induction order generalizing r with
  | nil => exact .refl r
  | cons n rest ih =>
    have first := onContainer_kept n (Container.fileChanged env p change) r
    rw [tellEach_cons]
    generalize onContainer n (Container.fileChanged env p change) r = answered at first ⊢
    obtain ⟨answer, s⟩ := answered
    cases answer with
    | ok => exact first.trans (ih s)
    | error failure =>
      cases failure with
      | error => exact first.trans (ih s)
      | fault => exact first

theorem Seated.disposeAll (seated : Seated r) : Seated r.disposeAll := by
  obtain ⟨registered, places, length, -⟩ := r.disposeAll_disposed
  have made (place : Nat) : r.disposeAll.made? place = r.made? place := by rw [made?, places]; rfl
  refine ⟨registered ▸ .nil, registered ▸ .nil, registered ▸ List.forall_mem_nil _, fun place n here => ?_,
    fun place place' n here there => ?_⟩
  · rw [made] at here
    rw [length]
    exact seated.known place n here
  · rw [made] at here there
    exact seated.once place place' n here there

/-- What every event preserves. -/
theorem after_seated (seated : Seated r) (event : Event) : Seated (r.after event) := by
  cases event with
  | request discovery path => exact enter_seated seated _
  | resume discovery request => exact resume_seated seated discovery request
  | openDocument discovery env file => exact openDocument_seated seated discovery env file
  | delete discovery p => exact seated.kept (delete_kept discovery r p)
  | fileChanged env p change => exact seated.kept (tellEach_kept env p change _ r)
  | operate env n operation => exact seated.kept (onContainer_kept n _ r)
  | disposeAll => exact seated.disposeAll

/-- What every history preserves. -/
theorem history_seated (seated : Seated r) (events : List Event) : Seated (r.history events) := by
  induction events generalizing r with
  | nil => exact seated
  | cons event rest ih => exact ih (after_seated seated event)

structure ActsOn (n : Nat) (f : Container → Container) (r after : Registry) : Prop where
  kept : Kept r after
  containers : ∀ k, after.containers[k]? = if k = n then r.containers[k]?.map f else r.containers[k]?

/-- The service of the scope that governs a path, in the registry that has it: the one that the scope has, or a
new one behind all others. -/
inductive Served (discovery : Discovery) (r : Registry) (p : Path) : Nat → Registry → Prop where
  | existing {n : Nat} (found : r.existing? (discovery.findConfig r.roots p) = some n) : Served discovery r p n r
  | new (free : r.place? (discovery.findConfig r.roots p) = none) :
      Served discovery r p r.containers.length
        ((r.register (discovery.findConfig r.roots p)).put r.places.length (fresh discovery r p))

theorem Served.serviceFor {base : Registry} (served : Served discovery r p n base) :
    serviceFor discovery r p = (base, some n) := by
  cases served with
  | existing found => exact serviceFor_existing found
  | new free => exact serviceFor_new free

theorem Served.roots {base : Registry} (served : Served discovery r p n base) : base.roots = r.roots := by
  cases served <;> rfl

theorem Served.existing? {base : Registry} (served : Served discovery r p n base) :
    base.existing? (discovery.findConfig r.roots p) = some n := by
  cases served with
  | existing found => exact found
  | new free =>
    have inside : r.places.length < (r.register (discovery.findConfig r.roots p)).places.length := by
      simp only [register, List.length_append, List.length_singleton, Nat.lt_succ_self]
    refine existing?_eq_some.mpr ⟨r.places.length, place?_register_self free, ?_⟩
    rw [made?_put inside, if_pos rfl]
    rfl

theorem Served.containers {base : Registry} (served : Served discovery r p n base) (before : k < r.containers.length) :
    base.containers[k]? = r.containers[k]? := by
  cases served with
  | existing => rfl
  | new => exact List.getElem?_append_left before

theorem Served.seated {base : Registry} (served : Served discovery r p n base) (seated : Seated r) : Seated base := by
  cases served with
  | existing => exact seated
  | new free => exact (seated.register free).put _ _

theorem Seated.there (seated : Seated r) (found : r.existing? scope = some n) : ∃ c, r.containers[n]? = some c := by
  obtain ⟨place, -, made⟩ := existing?_eq_some.mp found
  exact ⟨_, List.getElem?_eq_getElem (seated.known place n made)⟩

theorem served_or_waits (discovery : Discovery) (r : Registry) (p : Path) :
    (∃ place, r.place? (discovery.findConfig r.roots p) = some place ∧ r.made? place = none) ∨
    ∃ n base, Served discovery r p n base := by
  cases registered : r.place? (discovery.findConfig r.roots p) with
  | none => exact .inr ⟨_, _, .new registered⟩
  | some place =>
    cases made : r.made? place with
    | none => exact .inl ⟨place, rfl, made⟩
    | some n => exact .inr ⟨n, r, .existing (existing?_eq_some.mpr ⟨place, registered, made⟩)⟩

theorem onContainer_actsOn (action : Action Container α) (there : r.containers[n]? = some c) :
    ActsOn n (fun c => (action c).2) r (onContainer n action r).2 where
  kept := onContainer_kept n action r
  containers k := by
    rw [onContainer_containers action there]
    split
    · next here => rw [here, there]; rfl
    · rfl

theorem modifyContainer_actsOn (n : Nat) (f : Container → Container) (r : Registry) :
    ActsOn n f r (r.modifyContainer n f) where
  kept := modifyContainer_kept r n f
  containers k := by
    rw [modifyContainer, List.getElem?_modify]
    by_cases here : n = k
    · rw [if_pos here.symm]
      exact congrArg (fun f => Option.map f r.containers[k]?) (funext fun c => if_pos here)
    · rw [if_neg (Ne.symm here)]
      exact (congrArg (fun f => Option.map f r.containers[k]?) (funext fun c => if_neg here)).trans Option.map_id'

theorem delete_existing (found : r.existing? (discovery.findConfig r.roots p) = some n) :
    r.delete discovery p =
      (r.modifyContainer n (Container.delete p), (r.containers[n]?).any (·.snapshot? p |>.isSome)) := by
  simp only [delete, found]

theorem openDocument_confined (seated : Seated r) {base : Registry} (served : Served discovery r file.path n base)
    (env : Surroundings) :
    ∃ c, base.containers[n]? = some c ∧
      (openDocument discovery env file r).1 = (Container.openDocument env file c).1.map (fun s => some (n, s)) ∧
      ActsOn n (fun c => (Container.openDocument env file c).2) base (openDocument discovery env file r).2 := by
  obtain ⟨c, there⟩ := (served.seated seated).there served.existing?
  refine ⟨c, there, ?_, ?_⟩
  · rw [openDocument_served served.serviceFor, onContainer_some there]
    cases (Container.openDocument env file c).1 <;> rfl
  · rw [openDocument_served served.serviceFor]
    exact onContainer_actsOn _ there

theorem Seated.live_numbers (seated : Seated r) :
    (r.live.map Prod.snd).Nodup ∧ ∀ n ∈ r.live.map Prod.snd, n < r.containers.length := by
  refine ⟨List.pairwise_map.mpr (seated.live_apart.imp And.right), fun n member => ?_⟩
  obtain ⟨⟨scope, n⟩, listed, rfl⟩ := List.mem_map.mp member
  obtain ⟨place, -, made⟩ := mem_live.mp listed
  exact seated.known place n made

/-- The order in which services are told does not show. -/
theorem Told.unordered {order' : List Nat} {t : Registry} (first : Told env p change order r s)
    (second : Told env p change order' r t) (perm : order.Perm order') : s = t := by
  refine first.kept.eq second.kept fun k => ?_
  rw [first.containers, second.containers]
  simp only [perm.mem_iff]

theorem tellEach_each (seated : Seated r) (env : Surroundings) (p : Path) (change : FileChange)
    (perm : order.Perm (r.live.map Prod.snd)) (k : Nat) :
    (tellEach env p change order r).2.containers[k]? = r.containers[k]? ∨
    (tellEach env p change order r).2.containers[k]? =
      r.containers[k]?.map fun c => (Container.fileChanged env p change c).2 := by
  obtain ⟨nodup, known⟩ := seated.live_numbers
  have ended {told : List Nat} (told : Told env p change told r (tellEach env p change order r).2) :
      (tellEach env p change order r).2.containers[k]? = r.containers[k]? ∨
      (tellEach env p change order r).2.containers[k]? =
        r.containers[k]?.map fun c => (Container.fileChanged env p change c).2 := by
    rw [told.containers]
    split
    · exact .inr rfl
    · exact .inl rfl
  rcases tellEach_told env p change (fun n member => known n (perm.mem_iff.mp member))
      (perm.nodup_iff.mpr nodup) with ⟨-, told⟩ | ⟨_, _, _, _, _, -, -, -, -, told⟩
  · exact ended told
  · exact ended told

theorem tellEach_all (seated : Seated r)
    (answer : ∀ e ∈ r.live, ∀ c, r.containers[e.2]? = some c → ¬BreaksOff env p change c)
    (perm : order.Perm (r.live.map Prod.snd)) :
    (tellEach env p change order r).1 = .ok () ∧ Told env p change order r (tellEach env p change order r).2 := by
  obtain ⟨nodup, known⟩ := seated.live_numbers
  rcases tellEach_told env p change (fun n member => known n (perm.mem_iff.mp member))
      (perm.nodup_iff.mpr nodup) with all | ⟨told, n, rest, c, message, rfl, there, fault, -⟩
  · exact all
  · have member : n ∈ r.live.map Prod.snd := perm.mem_iff.mp (List.mem_append_right told List.mem_cons_self)
    obtain ⟨e, listed, rfl⟩ := List.mem_map.mp member
    exact absurd ⟨message, fault⟩ (answer e listed c there)

/-- Calls of a registry reach the services that they are for. No two scopes have one service. A buffer is handed
to the service of the scope that governs its path, which is made if there is none, and waited for if it is on its
way; a deletion of any path of this scope acts on the same service; and all other services stay as they are. A
deletion makes no service, and neither does a change on the disk. It reaches every service that a scope has, as if
that was the only one, whatever the others answer and in whichever order they are told. -/
theorem calls_confined (roots : List Path) (events : List Event) (discovery : Discovery) (env : Surroundings) :
    let r := (ofRoots roots).history events
    (∀ scope other n, r.existing? scope = some n → r.existing? other = some n → scope.same other = true) ∧
    (∀ file,
      (∃ place, r.place? (discovery.findConfig r.roots file.path) = some place ∧ r.made? place = none ∧
        openDocument discovery env file r = (.ok none, r)) ∨
      ∃ n base c, Served discovery r file.path n base ∧ base.containers[n]? = some c ∧
        (∀ k < r.containers.length, base.containers[k]? = r.containers[k]?) ∧
        (openDocument discovery env file r).1 = (Container.openDocument env file c).1.map (fun s => some (n, s)) ∧
        ActsOn n (fun c => (Container.openDocument env file c).2) base (openDocument discovery env file r).2 ∧
        ∀ p, (discovery.findConfig r.roots p).same (discovery.findConfig r.roots file.path) = true →
          ActsOn n (Container.delete p) (openDocument discovery env file r).2
            ((openDocument discovery env file r).2.delete discovery p).1) ∧
    (∀ p, Kept r (r.delete discovery p).1 ∧
      match r.existing? (discovery.findConfig r.roots p) with
      | none => r.delete discovery p = (r, false)
      | some n => ∃ c, r.containers[n]? = some c ∧ (r.delete discovery p).2 = (c.snapshot? p).isSome ∧
          ActsOn n (Container.delete p) r (r.delete discovery p).1) ∧
    ∀ p change, Kept r (fileChanged env p change r).2 ∧
      (∀ k : Nat, (fileChanged env p change r).2.containers[k]? = r.containers[k]? ∨
        (fileChanged env p change r).2.containers[k]? =
          r.containers[k]?.map fun c => (Container.fileChanged env p change c).2) ∧
      ((∀ e ∈ r.live, ∀ c, r.containers[e.2]? = some c → ¬BreaksOff env p change c) →
        (fileChanged env p change r).1 = .ok () ∧
        Told env p change (r.live.map Prod.snd) r (fileChanged env p change r).2 ∧
        ∀ order, order.Perm (r.live.map Prod.snd) → tellEach env p change order r = fileChanged env p change r) := by
  intro r
  have seated : Seated r := history_seated (.ofRoots roots) events
  refine ⟨fun scope other n here there => (seated.existing?_same here there).mpr rfl, fun file => ?_, fun p => ?_,
    fun p change => ?_⟩
  · rcases served_or_waits discovery r file.path with ⟨place, registered, unmade⟩ | ⟨n, base, served⟩
    · exact .inl ⟨place, registered, unmade, openDocument_waits (serviceFor_waits registered unmade)⟩
    · obtain ⟨c, there, answer, acts⟩ := openDocument_confined seated served env
      refine .inr ⟨n, base, c, served, there, fun k => served.containers, answer, acts, fun p same => ?_⟩
      have roots : (openDocument discovery env file r).2.roots = r.roots := acts.kept.roots.trans served.roots
      have found : (openDocument discovery env file r).2.existing?
          (discovery.findConfig (openDocument discovery env file r).2.roots p) = some n := by
        rw [roots, Registry.existing?, place?_congr same]
        exact (acts.kept.existing? _).trans served.existing?
      rw [delete_existing found]
      exact modifyContainer_actsOn _ _ _
  · refine ⟨delete_kept discovery r p, ?_⟩
    split
    · next none => simp only [delete, none]
    · next n found =>
      obtain ⟨c, there⟩ := seated.there found
      rw [delete_existing found, there]
      exact ⟨c, rfl, rfl, modifyContainer_actsOn _ _ _⟩
  · refine ⟨tellEach_kept env p change _ r, tellEach_each seated env p change (.refl _), fun answer => ?_⟩
    obtain ⟨ok, told⟩ := tellEach_all seated answer (.refl _)
    refine ⟨ok, told, fun order perm => Prod.ext ?_ ?_⟩
    · exact (tellEach_all seated answer perm).1.trans ok.symm
    · exact (tellEach_all seated answer perm).2.unordered told perm

def sampleDirectories : Discovery where
  findConfig _ p := ⟨p.parent?⟩
  load _ _ := none

/-- A script changes on the disk that one of two services holds. The other one has been disposed and answers with
an error. Whichever is told first, the script is read again. -/
theorem calls_confined_refused :
    let script : Path := ⟨"/a.ts"⟩
    let opens (p : Path) : Event := .openDocument sampleDirectories sampleSurroundings ⟨p, "let x;", 1⟩
    let events : List Event := [opens ⟨"/one/b.ts"⟩, opens ⟨"/two/c.ts"⟩,
      .operate sampleSurroundings 0 (.openPath script), .operate sampleSurroundings 1 .dispose]
    let r := (ofRoots []).history events
    r.live.map Prod.snd = [0, 1] ∧ r.containers.map (·.disposed) = [false, true] ∧
      (∀ e ∈ r.live, ∀ c, r.containers[e.2]? = some c → ¬BreaksOff sampleSurroundings script .changed c) ∧
      (fileChanged sampleSurroundings script .changed r).1 = .ok () ∧
      tellEach sampleSurroundings script .changed [1, 0] r = fileChanged sampleSurroundings script .changed r ∧
      (fileChanged sampleSurroundings script .changed r).2.containers ≠ r.containers := by
  intro script opens events r
  have live : r.live.map Prod.snd = [0, 1] := by decide +kernel
  have answer : ∀ e ∈ r.live, ∀ c, r.containers[e.2]? = some c → ¬BreaksOff sampleSurroundings script .changed c := by
    intro e _ c _ breaks
    obtain ⟨file, stamp, message, opened, fault⟩ := breaksOff_build breaks
    have read : sampleSurroundings.open? script = some ⟨script, "export \x7b\x7d;", 0⟩ := by decide +kernel
    cases opened.symm.trans read
    have script : script.isComponent = false := by decide +kernel
    simp only [Surroundings.build, script] at fault
    cases fault
  obtain ⟨-, -, told⟩ := (calls_confined [] events sampleDirectories sampleSurroundings).2.2.2 script .changed
  obtain ⟨ok, -, unordered⟩ := told answer
  exact ⟨live, by decide +kernel, answer, ok, unordered [1, 0] (live ▸ List.Perm.swap 0 1 []), by decide +kernel⟩

end Registry
end SvelteLens.Service
