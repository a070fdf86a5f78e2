import SvelteLens.Proofs.Service.Answers
import SvelteLens.Proofs.Service.Origins

/-! What the session reports comes back in coordinates of the source. The session may report any ranges of
the projected text; what is handed on lies in the text that the file was read as. -/
namespace SvelteLens.Service

open List (Forall₂)
open SvelteLens.Service.Action (Ends)

namespace Snapshot

variable {s : Snapshot} {p : Path} {d : Diagnostic}

/-- A diagnostic that is handed on: its start has a source position, and its image lies in the source. -/
def shows (s : Snapshot) (d : Diagnostic) : Bool :=
  (s.map.sourcePosition? d.span.start).isSome && (s.map.sourceSpan? d.span).any (·.stop ≤ s.source.utf8ByteSize)

structure Places (s : Snapshot) (p : Path) (d : Diagnostic) (placed : PlacedDiagnostic) : Prop where
  file : placed.file = p
  same : placed.diagnostic = { d with span := placed.diagnostic.span }
  image : s.map.sourceSpan? d.span = some placed.diagnostic.span
  begins : s.map.sourcePosition? d.span.start = some placed.diagnostic.span.start
  ordered : placed.diagnostic.span.start ≤ placed.diagnostic.span.stop
  inside : placed.diagnostic.span.stop ≤ s.source.utf8ByteSize
  start : placed.start = LineCol.of s.source placed.diagnostic.span.start
  stop : placed.stop = LineCol.of s.source placed.diagnostic.span.stop
  startBack : (LineIndex.ofText s.source).offset? placed.start = some placed.diagnostic.span.start
  stopBack : (LineIndex.ofText s.source).offset? placed.stop = some placed.diagnostic.span.stop

/-- Where a reported range lies in the source, if it is there at all. It may reach past the source only when
it reaches past the end of a projected text that was not made up. -/
structure Lands (s : Snapshot) (span : Span) : Prop where
  dropped : s.map.sourceSpan? span = none ↔ s.map.sourcePosition? span.start = none
  synthetic : s.map.isSynthetic span.start = true → s.map.sourceSpan? span = none
  begins : ∀ image, s.map.sourceSpan? span = some image → s.map.sourcePosition? span.start = some image.start
  ordered : ∀ image, s.map.sourceSpan? span = some image → image.start ≤ image.stop
  inside : s.map.Closed ∨ span.stop ≤ s.map.generatedLength →
    ∀ image, s.map.sourceSpan? span = some image → image.stop ≤ s.source.utf8ByteSize

structure Completes (s : Snapshot) (c placed : Completion) : Prop where
  label : placed.label = c.label
  replace : placed.replace = c.replace.bind s.map.sourceSpan?
  lands : ∀ range, c.replace = some range → s.Lands range

theorem Coherent.lands (coherent : s.Coherent) (span : Span) : s.Lands span where
  dropped := PositionMap.sourceSpan?_eq_none
  synthetic made := PositionMap.sourceSpan?_eq_none.mpr (coherent.sound.tiled.sourcePosition?_synthetic made)
  begins _ found := (PositionMap.sourceSpan?_eq_some found).1
  ordered _ found := (PositionMap.sourceSpan?_eq_some found).2
  inside short _ found := coherent.length ▸ coherent.sound.sourceSpan?_le found short

theorem Coherent.completes (coherent : s.Coherent) (c : Completion) : s.Completes c (s.placedCompletion c) :=
  ⟨rfl, rfl, fun range _ => coherent.lands range⟩

theorem Coherent.placed? (coherent : s.Coherent) (p : Path) (d : Diagnostic) :
    (s.shows d = false ∧ s.placed? p d = none) ∨
      ∃ placed, s.shows d = true ∧ s.placed? p d = some placed ∧ s.Places p d placed := by
  cases found : s.map.sourceSpan? d.span with
  | none =>
    refine .inl ⟨?_, ?_⟩
    · rw [shows, found, Option.any_none, Bool.and_false]
    · rw [Snapshot.placed?, sourceSpan?, found]
      rfl
  | some image =>
    obtain ⟨begins, ordered⟩ := PositionMap.sourceSpan?_eq_some found
    have shown : s.shows d = decide (image.stop ≤ s.source.utf8ByteSize) := by
      rw [shows, found, begins, Option.isSome_some, Bool.true_and, Option.any_some]
    by_cases inside : image.stop ≤ s.source.utf8ByteSize
    · have stop : image.stop ≤ Text.width s.source.toList := by rw [Text.width_toList]; exact inside
      have start := Nat.le_trans ordered stop
      refine .inr ⟨⟨p, { d with span := image }, .of s.source image.start, .of s.source image.stop⟩, ?_, ?_, ?_⟩
      · rw [shown, decide_eq_true inside]
      · simp only [Snapshot.placed?, sourceSpan?, found, coherent.lines, bind, Option.bind_some,
          (LineIndex.lineCol?_ofText s.source start).1, (LineIndex.lineCol?_ofText s.source stop).1]
        rfl
      · exact ⟨rfl, rfl, found, begins, ordered, inside, rfl, rfl, LineIndex.offset?_of _ start,
          LineIndex.offset?_of _ stop⟩
    · refine .inl ⟨by rw [shown, decide_eq_false inside], ?_⟩
      have past : s.sourceLines.lineCol? image.stop = none := by
        rw [coherent.lines, ← Option.not_isSome_iff_eq_none, LineIndex.lineCol?_isSome, Text.width_toList]
        exact inside
      rw [Snapshot.placed?, sourceSpan?, found]
      simp only [bind, Option.bind_some, past, Option.bind_none, Option.bind_fun_none]

/-- The diagnostics that are handed on, in the order in which they were reported. -/
theorem Coherent.placed_all (coherent : s.Coherent) (p : Path) (reported : List Diagnostic) :
    Forall₂ (s.Places p) (reported.filter s.shows) (reported.filterMap (s.placed? p)) := by
  induction reported with
  | nil => exact .nil
  | cons d rest ih =>
    rcases coherent.placed? p d with ⟨hidden, none⟩ | ⟨placed, shown, some, places⟩
    · rw [List.filter_cons_of_neg (by simp [hidden]), List.filterMap_cons_none none]
      exact ih
    · rw [List.filter_cons_of_pos shown, List.filterMap_cons_some some]
      exact .cons places ih

/-- An offset is found in the projected text exactly when it lies in the source. -/
theorem Coherent.projects (coherent : s.Coherent) {offset : Nat} :
    (∃ projected, s.map.generatedPosition? offset = some projected) ↔ offset ≤ s.source.utf8ByteSize := by
  rw [← Option.isSome_iff_exists, PositionMap.generatedPosition?_isSome, coherent.length]

theorem Coherent.projects_none (coherent : s.Coherent) {offset : Nat} (past : s.source.utf8ByteSize < offset) :
    s.map.generatedPosition? offset = none := by
  rw [← Option.not_isSome_iff_eq_none, Option.isSome_iff_exists, coherent.projects]
  exact Nat.not_le.mpr past

end Snapshot

namespace Overlay

variable {env : Surroundings} {o m : Overlay} {p : Path}

/-- A path that will not be given a snapshot any more: what can be built for it was built. -/
def Decided (env : Surroundings) (o : Overlay) (p : Path) : Prop := o.offer env p = .ok (o.snapshots.get? p)

/-- A component has no snapshot in the end exactly when it could be given none. -/
theorem Agrees.get?_eq_none (agrees : Agrees env o m) (decided : Decided env m p) :
    m.snapshots.get? p = none ↔ ∀ s, ¬Gives env o p s := by
  have offers := agrees.offers p p (Path.same_iff.mpr rfl)
  rw [decided] at offers
  simp only [gives_iff]
  generalize m.snapshots.get? p = found at offers
  generalize o.offer env p = offered at offers
  cases offers with
  | ok related =>
    cases related with
    | none => simp
    | some => simp

theorem decided_of_held {s : Snapshot} (held : o.snapshots.get? p = some s) : Decided env o p := by
  rw [Decided, offer, held]

/-- A path that can be given no snapshot has none, now and later. -/
theorem Agrees.decided (agrees : Agrees env o m) (offered : o.offer env p = .ok none) :
    m.snapshots.get? p = none ∧ Decided env m p := by
  have offers := agrees.offers p p (Path.same_iff.mpr rfl)
  rw [offered] at offers
  have none : m.offer env p = .ok none := by
    generalize m.offer env p = answer at offers
    cases offers with
    | ok related =>
      cases related
      rfl
  cases held : m.snapshots.get? p with
  | none => exact ⟨rfl, none.trans (congrArg Except.ok held.symm)⟩
  | some s =>
    rw [offer, held] at none
    cases none

theorem Demands.decided (demands : Demands env o m) (decided : Decided env o p) :
    Decided env m p ∧ m.snapshots.get? p = o.snapshots.get? p := by
  cases held : o.snapshots.get? p with
  | some s =>
    have kept := demands.keeps held
    exact ⟨decided_of_held kept, kept⟩
  | none =>
    obtain ⟨absent, decided⟩ := demands.agrees.decided (decided.trans (congrArg Except.ok held))
    exact ⟨decided, absent⟩

theorem snapshot_decides (env : Surroundings) (p : Path) (o : Overlay) :
    Ends (fun answer after => Demands env o after ∧ answer = o.offer env p ∧
      ∀ found, answer = .ok found → found = after.snapshots.get? p ∧ Decided env after p) (snapshot env p) o := by
  have demands : Demands env o (snapshot env p o).2 := snapshot_demands env p o
  have answer := snapshot_answer env p o
  refine ⟨demands, answer, fun found given => ?_⟩
  have current := (snapshot_ends env p o).2 found given
  refine ⟨current, ?_⟩
  cases found with
  | some s => exact decided_of_held current.symm
  | none => exact (demands.agrees.decided (answer.symm.trans given)).2

theorem Agrees.offer_error {failure : Failure} (agrees : Agrees env o m) (failed : m.offer env p = .error failure) :
    o.offer env p = .error failure := by
  have offers := agrees.offers p p (Path.same_iff.mpr rfl)
  rw [failed] at offers
  generalize o.offer env p = answer at offers
  cases offers
  rfl

/-- Where a location is in the source of its file. Without a snapshot it stays where it was reported. -/
def placed? (o : Overlay) (l : Location) : Option Location :=
  match o.snapshots.get? l.path with
  | some s => (s.map.sourceSpan? l.span).map fun span => { l with span }
  | none => some l

end Overlay

namespace Container

variable {env : Surroundings} {c m after : Container} {p : Path} {s : Snapshot}

/-- What a search for definitions comes to: every location is placed by the snapshot that its file has in
the end, and whether it has one is decided by then. -/
theorem placedLocations_ends (env : Surroundings) (locations : List Location) (o : Overlay) :
    Ends (fun answer after => Overlay.Demands env o after ∧
      (∀ failure, answer = .error failure → ∃ l ∈ locations, o.offer env l.path = .error failure) ∧
      ∀ items, answer = .ok items → items = locations.filterMap after.placed? ∧
        ∀ l ∈ locations, Overlay.Decided env after l.path) (placedLocations env locations) o := by
  induction locations generalizing o with
  | nil =>
    refine .pure ⟨.refl, nofun, ?_⟩
    rintro _ ⟨⟩
    exact ⟨rfl, nofun⟩
  | cons l rest ih =>
    refine (Overlay.snapshot_decides env l.path o).bind ?_ fun found m ⟨demands, offered, given⟩ => ?_
    · rintro failure m ⟨demands, offered, -⟩
      refine ⟨demands, ?_, nofun⟩
      rintro _ ⟨⟩
      exact ⟨l, List.mem_cons_self, offered.symm⟩
    · obtain ⟨current, decided⟩ := given found rfl
      refine (ih m).bind ?_ fun items after ⟨later, _, placed⟩ => ?_
      · rintro failure after ⟨later, failed, -⟩
        refine ⟨demands.trans later, ?_, nofun⟩
        rintro _ ⟨⟩
        obtain ⟨l, member, offered⟩ := failed failure rfl
        exact ⟨l, List.mem_cons_of_mem _ member, demands.agrees.offer_error offered⟩
      · obtain ⟨rfl, settled⟩ := placed items rfl
        obtain ⟨decided, same⟩ := later.decided decided
        refine .pure ⟨demands.trans later, nofun, ?_⟩
        rintro _ ⟨⟩
        refine ⟨?_, ?_⟩
        · rw [List.filterMap_cons, Overlay.placed?, same, ← current]
          cases found with
          | none => rfl
          | some s =>
            dsimp only [Snapshot.sourceSpan?]
            cases s.map.sourceSpan? l.span <;> rfl
        · intro other member
          rcases List.mem_cons.mp member with rfl | member
          · exact decided
          · exact settled other member

theorem opened_coherent (sourced : Sourced c) (opened : openPath env p c = (.ok s, m)) :
    m.snapshot? p = some s ∧ Sourced m ∧ s.Coherent ∧ (p.isComponent = true → s.map.Closed) := by
  have given := (openPath_opened env p c).of_run opened
  have effect : Effect env c (.openPath p) (.ok s) m := (updated_effect (openPath_ends rfl)).of_run opened
  have held := (given s rfl).held
  have sourced := effect_sourced effect sourced
  obtain ⟨named, built⟩ := sourced p s held
  refine ⟨held, sourced, built.coherent, fun component => built.coherent.closed ?_⟩
  rw [Path.isComponent_congr named]
  exact component

theorem openPath_failed {failure : Failure} (failed : openPath env p c = (.error failure, m)) : m = c := by
  have ends : Updated env c (.openPath p) (.error failure) m := (openPath_ends rfl).of_run failed
  cases ends
  rfl

theorem diagnostics_opened (opened : openPath env p c = (.ok s, m)) (report : Overlay → List Diagnostic) :
    diagnostics env report p c =
      (.ok ((report m.overlay).filterMap (s.placed? p)), m.withSession (·.call (.diagnostics p))) := by
  rw [diagnostics, Action.bind_ok opened]
  rfl

theorem completions_opened (opened : openPath env p c = (.ok s, m)) (report : Nat → List Completion) (offset : Nat) :
    completions env report p offset c = match s.map.generatedPosition? offset with
      | none => (.ok ⟨none, []⟩, m)
      | some projected => (.ok ⟨some projected, (report projected).map s.placedCompletion⟩,
          m.withSession (·.call (.completions p projected))) := by
  rw [completions, Action.bind_ok opened, Snapshot.projectedOffset?]
  cases s.map.generatedPosition? offset <;> rfl

theorem definition_opened (opened : openPath env p c = (.ok s, m)) (report : Nat → List Location) (offset : Nat) :
    definition env report p offset c = match s.map.generatedPosition? offset with
      | none => (.ok ⟨none, []⟩, m)
      | some projected =>
        ((placedLocations env (report projected) m.overlay).1.map (⟨some projected, ·⟩),
          { m.withSession (·.call (.definition p projected)) with
            overlay := (placedLocations env (report projected) m.overlay).2 }) := by
  rw [definition, Action.bind_ok opened, Snapshot.projectedOffset?]
  cases s.map.generatedPosition? offset with
  | none => rfl
  | some projected =>
    let asked := m.withSession (·.call (.definition p projected))
    let search := placedLocations env (report projected) m.overlay
    have searched : onOverlay (placedLocations env (report projected)) asked =
        (search.1, { asked with overlay := search.2 }) := rfl
    change (onOverlay (placedLocations env (report projected)) >>= fun items =>
      pure (⟨some projected, items⟩ : Reply Location)) asked = (search.1.map (⟨some projected, ·⟩), _)
    cases found : search.1 with
    | ok items =>
      rw [found] at searched
      exact (Action.bind_ok searched).trans rfl
    | error failure =>
      rw [found] at searched
      exact (Action.bind_error searched).trans rfl

/-- In every run of a new service, for a path that can be opened. Of the diagnostics that the session
reports, those are handed on that start at a position of the source and whose image lies in the source, in
the order of the report; each comes with its image, and with the lines and columns that lead back to it.
The session is asked for completions when the offset lies in the source, at the projected offset for it;
every completion is handed on, and its range is replaced by its image, or dropped when it starts at no
position of the source. No position is that of made-up text. -/
theorem reports_placed (scope : Config.Scope) (calls : List Call) (env : Surroundings) (p : Path) :
    let c := (ofScope scope).run calls
    (∀ failure m, openPath env p c = (.error failure, m) →
      (∀ report, diagnostics env report p c = (.error failure, c)) ∧
      ∀ report offset, completions env report p offset c = (.error failure, c)) ∧
    ∀ s m, openPath env p c = (.ok s, m) →
      m.snapshot? p = some s ∧
      (∀ report, ∃ items, diagnostics env report p c = (.ok items, m.withSession (·.call (.diagnostics p))) ∧
        Forall₂ (s.Places p) ((report m.overlay).filter s.shows) items) ∧
      (∀ report offset,
        (offset ≤ s.source.utf8ByteSize → ∃ projected items, s.map.generatedPosition? offset = some projected ∧
          completions env report p offset c =
            (.ok ⟨some projected, items⟩, m.withSession (·.call (.completions p projected))) ∧
          Forall₂ s.Completes (report projected) items) ∧
        (s.source.utf8ByteSize < offset → completions env report p offset c = (.ok ⟨none, []⟩, m))) ∧
      (∀ g, s.map.isSynthetic g = true → s.map.sourcePosition? g = none) ∧ (p.isComponent = true → s.map.Closed) := by
  intro c
  have sourced : Sourced c := run_sourced (ofScope_sourced scope) calls
  refine ⟨fun failure m failed => ?_, fun s m opened => ?_⟩
  · obtain rfl := openPath_failed failed
    exact ⟨fun report => Action.bind_error failed, fun report offset => Action.bind_error failed⟩
  obtain ⟨held, -, coherent, closed⟩ := opened_coherent sourced opened
  refine ⟨held, fun report => ⟨_, diagnostics_opened opened report, coherent.placed_all p _⟩,
    fun report offset => ⟨fun inside => ?_, fun past => ?_⟩,
    fun g => coherent.sound.tiled.sourcePosition?_synthetic, closed⟩
  · obtain ⟨projected, placed⟩ := coherent.projects.mpr inside
    refine ⟨projected, (report projected).map s.placedCompletion, placed, ?_, ?_⟩
    · rw [completions_opened opened, placed]
    · exact List.forall₂_map_right_iff.mpr (List.forall₂_same.mpr fun c _ => coherent.completes c)
  · rw [completions_opened opened, coherent.projects_none past]

/-- Of two diagnostics in a component one is about its markup, the other about the header of its projection. -/
theorem reports_placed_markup :
    let component : Path := ⟨"/Good.svelte"⟩
    let c := (ofScope sampleScope).run []
    let inMarkup : Diagnostic := ⟨⟨42, 44⟩, "markup", none, .warning⟩
    let report (_ : Overlay) : List Diagnostic := [⟨⟨0, 3⟩, "header", none, .error⟩, inMarkup]
    ∃ s m item, openPath Overlay.sampleDisk component c = (.ok s, m) ∧ s.map.isSynthetic 0 = true ∧
      diagnostics Overlay.sampleDisk report component c = (.ok [item], m.withSession (·.call (.diagnostics component))) ∧
      s.Places component inMarkup item ∧ item.diagnostic.span = ⟨0, 2⟩ := by
  intro component c inMarkup report
  have evaluated : (openPath Overlay.sampleDisk component c).1.toOption.map (fun s =>
      ((report c.overlay).filter s.shows, s.map.sourceSpan? ⟨42, 44⟩, s.map.isSynthetic 0)) =
      some ([inMarkup], some ⟨0, 2⟩, true) := by decide +kernel
  obtain ⟨s, found, values⟩ := Option.map_eq_some_iff.mp evaluated
  simp only [Prod.mk.injEq] at values
  obtain ⟨shown, image, synthetic⟩ := values
  have opened : openPath Overlay.sampleDisk component c = (.ok s, (openPath Overlay.sampleDisk component c).2) :=
    Prod.ext (ok_of_toOption found) rfl
  obtain ⟨-, diagnosed, -⟩ := (reports_placed sampleScope [] Overlay.sampleDisk component).2 s _ opened
  obtain ⟨items, ran, places⟩ := diagnosed report
  change Forall₂ (s.Places component) ((report c.overlay).filter s.shows) items at places
  rw [shown] at places
  cases places with
  | @cons _ item _ _ place rest =>
    cases rest
    exact ⟨s, _, item, opened, synthetic, ran, place, Option.some.inj (place.image.symm.trans image)⟩

/-- In every run of a new service, for a path that can be opened. The session is asked for definitions when
the offset lies in the source. Of the locations that it reports, each is placed by the snapshot that its
file has in the end: it comes back with its image, which in a component lies in the source, and is dropped
when it starts at no position of the source, as in made-up text. A component has no snapshot then exactly
when it can be given none, and its location comes back as it was reported. Nothing comes back when the
parsers break off on the file of a location. -/
theorem definitions_placed (scope : Config.Scope) (calls : List Call) (env : Surroundings) (p : Path) :
    let c := (ofScope scope).run calls
    (∀ failure m, openPath env p c = (.error failure, m) →
      ∀ report offset, definition env report p offset c = (.error failure, c)) ∧
    ∀ s m, openPath env p c = (.ok s, m) → ∀ report offset,
      (s.source.utf8ByteSize < offset → definition env report p offset c = (.ok ⟨none, []⟩, m)) ∧
      (offset ≤ s.source.utf8ByteSize → ∃ projected answer after, s.map.generatedPosition? offset = some projected ∧
        definition env report p offset c = (answer, after) ∧
        after.session = m.session.call (.definition p projected) ∧
        (∀ failure, answer = .error failure → ∃ l ∈ report projected, ∃ file message, env.open? l.path = some file ∧
          env.build m.overlay.clock file .disk = .error (.fault message) ∧ failure = .fault message) ∧
        ∀ reply, answer = .ok reply → reply.asked = some projected ∧
          reply.items = (report projected).filterMap after.overlay.placed? ∧
          ∀ l ∈ report projected, l.path.isComponent = true →
            (after.snapshot? l.path = none ↔ ∀ t, ¬Overlay.Gives env m.overlay l.path t) ∧
            ∀ t, after.snapshot? l.path = some t → t.Lands l.span ∧
              ∀ image, t.map.sourceSpan? l.span = some image → image.stop ≤ t.source.utf8ByteSize) := by
  intro c
  have sourced : Sourced c := run_sourced (ofScope_sourced scope) calls
  refine ⟨fun failure m failed => ?_, fun s m opened report offset => ?_⟩
  · obtain rfl := openPath_failed failed
    exact fun report offset => Action.bind_error failed
  obtain ⟨held, -, coherent, -⟩ := opened_coherent sourced opened
  refine ⟨fun past => ?_, fun inside => ?_⟩
  · rw [definition_opened opened, coherent.projects_none past]
  obtain ⟨projected, placed⟩ := coherent.projects.mpr inside
  have run := definition_opened opened report offset
  rw [placed] at run
  obtain ⟨demands, failed, found⟩ := placedLocations_ends env (report projected) m.overlay
  have effect : Ends (Effect env c (.definition report p offset)) (definition env report p offset) c :=
    definition_effect report p offset
  have sourced := effect_sourced effect sourced
  rw [run] at sourced
  refine ⟨projected, _, _, placed, run, rfl, fun failure broken => ?_, fun reply given => ?_⟩
  · obtain ⟨l, member, offered⟩ := failed failure (map_eq_error.mp broken)
    exact ⟨l, member, Overlay.offer_eq_error offered⟩
  · obtain ⟨items, answer, rfl⟩ := map_eq_ok.mp given
    obtain ⟨same, decided⟩ := found items answer
    refine ⟨rfl, same, fun l member component => ⟨demands.agrees.get?_eq_none (decided l member), fun t now => ?_⟩⟩
    obtain ⟨named, built⟩ := sourced l.path t now
    have closed := built.coherent.closed ((Path.isComponent_congr named).trans component)
    exact ⟨built.coherent.lands l.span, (built.coherent.lands l.span).inside (.inl closed)⟩

/-- Of two locations in a component one is in its markup, the other in the header of its projection. -/
theorem definitions_placed_markup :
    let component : Path := ⟨"/Good.svelte"⟩
    let c := (ofScope sampleScope).run []
    let report (_ : Nat) : List Location := [⟨component, ⟨0, 3⟩⟩, ⟨component, ⟨42, 44⟩⟩]
    ∃ s m t after, openPath Overlay.sampleDisk ⟨"/a.ts"⟩ c = (.ok s, m) ∧
      definition Overlay.sampleDisk report ⟨"/a.ts"⟩ 0 c = (.ok ⟨some 0, [⟨component, ⟨0, 2⟩⟩]⟩, after) ∧
      after.snapshot? component = some t ∧ t.map.isSynthetic 0 = true ∧ t.Lands ⟨42, 44⟩ := by
  intro component c report
  have opens : ((openPath Overlay.sampleDisk ⟨"/a.ts"⟩ c).1.toOption.map fun _ => ()) = some () := by decide +kernel
  have replied : (definition Overlay.sampleDisk report ⟨"/a.ts"⟩ 0 c).1 = .ok ⟨some 0, [⟨component, ⟨0, 2⟩⟩]⟩ := by
    decide +kernel
  have current : ((definition Overlay.sampleDisk report ⟨"/a.ts"⟩ 0 c).2.snapshot? component).map
      (·.map.isSynthetic 0) = some true := by decide +kernel
  obtain ⟨s, found, -⟩ := Option.map_eq_some_iff.mp opens
  obtain ⟨t, now, synthetic⟩ := Option.map_eq_some_iff.mp current
  have opened : openPath Overlay.sampleDisk ⟨"/a.ts"⟩ c = (.ok s, (openPath Overlay.sampleDisk ⟨"/a.ts"⟩ c).2) :=
    Prod.ext (ok_of_toOption found) rfl
  obtain ⟨projected, answer, after, -, run, -, -, placed⟩ :=
    ((definitions_placed sampleScope [] Overlay.sampleDisk ⟨"/a.ts"⟩).2 s _ opened report 0).2 (Nat.zero_le _)
  change definition Overlay.sampleDisk report ⟨"/a.ts"⟩ 0 c = (answer, after) at run
  rw [run] at replied now
  obtain ⟨-, -, lands⟩ := placed _ replied
  have inMarkup : (⟨component, ⟨42, 44⟩⟩ : Location) ∈ report projected := List.mem_cons_of_mem _ List.mem_cons_self
  exact ⟨s, _, t, after, opened, run.trans (congrArg (·, after) replied), now, synthetic,
    ((lands _ inMarkup (by decide)).2 t now).1⟩

/-- A component that cannot be parsed has no snapshot, so the range that is reported for it stands for
nothing in its text; yet the range comes back as it was reported, past the end of that text. -/
theorem unparsable_location_unplaced :
    let component : Path := ⟨"/Bad.svelte"⟩
    let c := (ofScope sampleScope).run []
    component.isComponent = true ∧ Overlay.sampleDisk.files.read? component = some "</p>" ∧
      Overlay.offer Overlay.sampleDisk c.overlay component = .ok none ∧
      ((definition Overlay.sampleDisk (fun _ => [⟨component, ⟨100, 105⟩⟩]) ⟨"/a.ts"⟩ 0 c).1 =
        .ok ⟨some 0, [⟨component, ⟨100, 105⟩⟩]⟩) := by
  decide +kernel

end Container

end SvelteLens.Service
