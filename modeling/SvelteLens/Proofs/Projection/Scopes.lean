import SvelteLens.Proofs.Markup.Nesting
import SvelteLens.Proofs.Projection.Parts
import SvelteLens.Proofs.Projection.Wrapping

/-! The commands of scopes among those for the content of a component. At the ends of the content of a tag only the
scopes of its own slot props insert, and everywhere else no scope does. -/
namespace SvelteLens.Projection

open Edit Markup
open Text (width bytes)

section Commands

variable {reader : Script.Reader} {source : String} {doc : Document} {zones : List Zone} {offset : Nat}

/-- The commands for the content apart from those of scopes. -/
def rewritings (reader : Script.Reader) (source : String) (doc : Document) : List Command :=
  adaptations reader source doc ++ (sites source doc).flatMap Directive.Site.rewriting

/-- The scopes that the slot props of a tag open, in source order. -/
def scopesOf (source : String) (placed : Placed) : List Directive.Scope :=
  placed.tag.directives.filterMap fun d => Directive.Site.scope? ⟨source, d, placed.tag, placed.enclosing⟩

def documentScopes (source : String) (doc : Document) : List Directive.Scope := doc.tags.flatMap (scopesOf source)

def scopeCommands (scopes : List Directive.Scope) : List Command := scopes.flatMap Directive.Scope.commands

theorem documentScopes_sites : documentScopes source doc = (sites source doc).filterMap Directive.Site.scope? := by
  simp only [documentScopes, sites, List.filterMap_flatMap, List.filterMap_map, Function.comp_def]
  rfl

theorem scope_edits (scope : Directive.Scope) : edits scope.commands = [] := by
  unfold Directive.Scope.commands
  split <;> rfl

theorem scopeCommands_offset {scopes : List Directive.Scope} {j : Insertion}
    (member : j ∈ insertions (scopeCommands scopes)) :
    ∃ scope ∈ scopes, j.offset = scope.content.start ∨ j.offset = scope.content.stop := by
  obtain ⟨c, made, insertion⟩ := List.mem_filterMap.mp member
  obtain ⟨scope, listed, made⟩ := List.mem_flatMap.mp made
  refine ⟨scope, listed, ?_⟩
  unfold Directive.Scope.commands at made
  split at made
  · rcases List.mem_pair.mp made with rfl | rfl
    · cases insertion
      exact .inl rfl
    · cases insertion
      exact .inl rfl
  · rcases List.mem_pair.mp made with rfl | rfl
    · cases insertion
      exact .inl rfl
    · cases insertion
      exact .inr rfl

theorem editAt?_rewritings : editAt? (rewritings reader source doc) = editAt? (contentCommands reader source doc) := by
  have same : edits (siteCommands source doc) = edits ((sites source doc).flatMap Directive.Site.rewriting) := by
    unfold siteCommands
    induction sites source doc with
    | nil => rfl
    | cons site rest ih =>
      have none : edits (site.scope?.toList.flatMap Directive.Scope.commands) = [] := by
        cases site.scope? with
        | none => rfl
        | some scope => simp [scope_edits]
      rw [List.flatMap_cons, List.flatMap_cons, edits_append, edits_append, ih, site.plan_commands, edits_append, none,
        List.append_nil]
  funext i
  rw [rewritings, contentCommands, editAt?_append, editAt?_append, editAt?, editAt?, editAt?, same]

theorem content_edit_cases (confined : Confined reader source doc) (zoned : Zoned source.toList doc zones) {r : Replacement}
    (member : r ∈ edits (contentCommands reader source doc)) :
    (∃ block ∈ doc.scripts, block.span.covers r.span = true) ∨ ∃ d, .directive d ∈ zones ∧ d.span.covers r.span = true := by
  have script {role : Script.Role} {known : List String} {block : Option ScriptBlock}
      (listed : ∀ b ∈ block, b ∈ doc.scripts) (member : r ∈ edits (adaptation reader source role known block)) :
      ∃ block ∈ doc.scripts, block.span.covers r.span = true := by
    cases block with
    | none => cases member
    | some block =>
      obtain ⟨c, made, edit⟩ := List.mem_filterMap.mp member
      have ordered := (zoned.script_holds (listed block rfl)).toOrdered
      obtain ⟨lower, upper⟩ := Span.covers_iff.mp (confined block (listed block rfl) role known c made)
      refine ⟨block, listed block rfl, ?_⟩
      rw [Buffer.edit?_reach edit]
      exact Span.covers_iff.mpr ⟨Nat.le_trans (Nat.le_of_lt ordered.opening) lower,
        Nat.le_trans upper (Nat.le_of_lt ordered.closing)⟩
  rw [contentCommands, adaptations, edits_append, edits_append] at member
  rcases List.mem_append.mp member with scripts | directives
  · rcases List.mem_append.mp scripts with shared | own
    · exact .inl (script (fun b found => List.mem_append_right _ (Option.mem_toList.mpr found)) shared)
    · exact .inl (script (fun b found => List.mem_append_left _ (Option.mem_toList.mpr found)) own)
  · obtain ⟨c, made, edit⟩ := List.mem_filterMap.mp directives
    obtain ⟨site, listed, made⟩ := List.mem_flatMap.mp made
    have directive := site_directive listed
    exact .inr ⟨_, zoned.directive_mem directive, Span.covers_iff.mpr
      (Directive.Site.plan_inside (zoned.directive_ordered directive) (List.mem_filterMap.mpr ⟨c, made, edit⟩))⟩

theorem content_edit_covered (confined : Confined reader source doc) (zoned : Zoned source.toList doc zones) {r : Replacement}
    (member : r ∈ edits (contentCommands reader source doc)) : ∃ z ∈ zones, z.span.covers r.span = true := by
  rcases content_edit_cases confined zoned member with ⟨block, listed, covers⟩ | ⟨d, zone, covers⟩
  · obtain ⟨shared, zone⟩ := zoned.script_mem listed
    exact ⟨_, zone, covers⟩
  · exact ⟨_, zone, covers⟩

theorem meets_of_clear (clear : Clear zones offset) (confined : Confined reader source doc)
    (zoned : Zoned source.toList doc zones) :
    Meets (editAt? (contentCommands reader source doc)) offset := by
  intro k r found
  obtain ⟨member, rfl⟩ := mem_of_editAt? found
  obtain ⟨z, zone, covers⟩ := content_edit_covered confined zoned member
  obtain ⟨lower, upper⟩ := Span.covers_iff.mp covers
  rcases clear.apart z zone with before | behind
  · exact .inr (Nat.le_trans upper before)
  · exact .inl (Nat.le_trans behind lower)

/-- Between the zones nothing but scopes is inserted. -/
theorem quiet_of_clear (clear : Clear zones offset) (confined : Confined reader source doc)
    (zoned : Zoned source.toList doc zones) :
    ∀ j ∈ insertions (rewritings reader source doc), j.offset ≠ offset := by
  intro j member same
  rw [rewritings, insertions_append] at member
  rcases List.mem_append.mp member with scripts | directives
  · obtain ⟨block, listed, lower, upper⟩ := adaptations_inside confined scripts
    have ordered := (zoned.script_holds listed).toOrdered
    have opens := ordered.opening
    have closes := ordered.closing
    obtain ⟨shared, zone⟩ := zoned.script_mem listed
    have apart : block.span.Apart (Span.empty offset) := clear.apart _ zone
    rcases apart with before | behind
    · have before : block.span.stop ≤ offset := before
      omega
    · have behind : offset ≤ block.span.start := behind
      omega
  · obtain ⟨c, made, insertion⟩ := List.mem_filterMap.mp directives
    obtain ⟨site, listed, made⟩ := List.mem_flatMap.mp made
    have directive := site_directive listed
    obtain ⟨lower, upper⟩ := Directive.Site.rewriting_inserts (zoned.directive_ordered directive)
      (List.mem_filterMap.mpr ⟨c, made, insertion⟩)
    have zone := zoned.directive_mem directive
    have ended := clear.ended _ zone
    have apart : site.directive.span.Apart (Span.empty offset) := clear.apart _ zone
    rcases apart with before | behind
    · have before : site.directive.span.stop ≤ offset := before
      omega
    · have behind : offset ≤ site.directive.span.start := behind
      omega

theorem scopeCommands_cons (site : Directive.Site) (rest : List Directive.Site) :
    scopeCommands ((site :: rest).filterMap Directive.Site.scope?) =
      site.scope?.toList.flatMap Directive.Scope.commands ++ scopeCommands (rest.filterMap Directive.Site.scope?) := by
  cases found : site.scope? <;> simp [scopeCommands, found]

/-- Where the rewriting of sites or else their scopes insert nothing, the two can be told apart. -/
theorem inserted_sites {side : Side} {list : List Directive.Site}
    (quiet : (∀ site ∈ list, inserted side offset site.rewriting = []) ∨
      inserted side offset (scopeCommands (list.filterMap Directive.Site.scope?)) = []) :
    inserted side offset (list.flatMap (·.plan.commands)) = inserted side offset (list.flatMap Directive.Site.rewriting) ++
      inserted side offset (scopeCommands (list.filterMap Directive.Site.scope?)) := by
  induction list with
  | nil => rfl
  | cons site rest ih =>
    rw [scopeCommands_cons, inserted_append] at quiet ⊢
    rw [List.flatMap_cons, List.flatMap_cons, inserted_append, inserted_append, site.plan_commands, inserted_append]
    rcases quiet with rewriting | scopes
    · have later (other : Directive.Site) (member : other ∈ rest) : inserted side offset other.rewriting = [] :=
        rewriting other (List.mem_cons_of_mem site member)
      have none : inserted side offset (rest.flatMap Directive.Site.rewriting) = [] := by
        rw [inserted_flatMap, List.flatMap_eq_nil_iff]
        exact later
      rw [ih (.inl later), rewriting site List.mem_cons_self, none]
      simp only [List.nil_append]
    · obtain ⟨here, later⟩ := List.append_eq_nil_iff.mp scopes
      rw [ih (.inr later), here, later]
      simp only [List.append_nil]

/-- At an offset either only scopes insert, for it is clear, or no scope does. -/
theorem insertedAt_content (confined : Confined reader source doc) (zoned : Zoned source.toList doc zones)
    (either : Clear zones offset ∨ ∀ j ∈ insertions (scopeCommands (documentScopes source doc)), j.offset ≠ offset) :
    insertedAt (contentCommands reader source doc) offset =
      insertedAt (rewritings reader source doc) offset ++
        insertedAt (scopeCommands (documentScopes source doc)) offset := by
  rcases either with clear | unscoped
  · have quiet := quiet_of_clear clear confined zoned
    have adapted (side : Side) : inserted side offset (adaptations reader source doc) = [] :=
      inserted_nil fun j member _ => quiet j (by
        rw [rewritings, insertions_append]
        exact List.mem_append_left _ member)
    have rewritten (side : Side) (site : Directive.Site) (listed : site ∈ sites source doc) :
        inserted side offset site.rewriting = [] :=
      inserted_nil fun j member _ => quiet j (by
        obtain ⟨c, made, insertion⟩ := List.mem_filterMap.mp member
        exact List.mem_filterMap.mpr ⟨c, List.mem_append_right _ (List.mem_flatMap.mpr ⟨site, listed, made⟩), insertion⟩)
    have whole (side : Side) : inserted side offset ((sites source doc).flatMap Directive.Site.rewriting) = [] := by
      rw [inserted_flatMap, List.flatMap_eq_nil_iff]
      exact rewritten side
    rw [insertedAt_nil quiet, List.nil_append, documentScopes_sites]
    simp only [contentCommands, siteCommands, insertedAt, inserted_append, adapted, inserted_sites (.inl (rewritten _)),
      whole, List.nil_append]
  · have none (side : Side) :
        inserted side offset (scopeCommands ((sites source doc).filterMap Directive.Site.scope?)) = [] := by
      rw [← documentScopes_sites]
      exact inserted_nil fun j member _ => unscoped j member
    rw [insertedAt_nil unscoped, List.append_nil]
    simp only [contentCommands, siteCommands, rewritings, insertedAt, inserted_append, inserted_sites (.inr (none _)), none,
      List.append_nil]

section Ends

variable {scopes : List Directive.Scope} {content : Span}

/-- All scopes around content that is not empty open where it starts and close where it stops. -/
theorem insertedAt_ends (same : ∀ scope ∈ scopes, scope.content = content) (order : content.start < content.stop) :
    insertedAt (scopeCommands scopes) content.start = scopes.flatMap (fun scope => bytes scope.opening.toList) ∧
      insertedAt (scopeCommands scopes) content.stop = scopes.flatMap fun _ => bytes Directive.scopeClosing.toList := by
  have made : scopeCommands scopes = scopes.flatMap fun scope =>
      [.insertBefore content.start scope.opening, .insertAfter content.stop Directive.scopeClosing] := by
    refine List.flatMap_congr fun scope member => ?_
    rw [Directive.Scope.commands, same scope member, if_neg (by simpa [Span.isEmpty] using Nat.ne_of_lt order)]
  have differ := Nat.ne_of_lt order
  rw [made, insertedAt, insertedAt]
  simp only [inserted_flatMap]
  constructor
  · simp [inserted, insertions, Command.insertion?, differ.symm, List.flatMap_assoc]
  · simp [inserted, insertions, Command.insertion?, differ, List.flatMap_assoc]

/-- Around empty content every scope closes before the next one opens. -/
theorem insertedAt_empty (same : ∀ scope ∈ scopes, scope.content = content) (empty : content.start = content.stop) :
    insertedAt (scopeCommands scopes) content.start =
      scopes.flatMap fun scope => bytes scope.opening.toList ++ bytes Directive.scopeClosing.toList := by
  have made : scopeCommands scopes = scopes.flatMap fun scope =>
      [.insertBefore content.start scope.opening, .insertBefore content.start Directive.scopeClosing] := by
    refine List.flatMap_congr fun scope member => ?_
    rw [Directive.Scope.commands, same scope member, if_pos (by simpa [Span.isEmpty] using empty)]
  rw [made, insertedAt]
  simp only [inserted_flatMap]
  simp [inserted, insertions, Command.insertion?, List.flatMap_assoc]

end Ends

end Commands

end SvelteLens.Projection
