import SvelteLens.Proofs.Projection.Attribution

/-! No user text is lost: markup, the expressions of directives and the statements of scripts are
copied, can be found from both sides, and keep their order. -/
namespace SvelteLens.Projection

open Edit Markup

variable {reader : Script.Reader} {source : String} {doc : Document} {zones : List Zone} {p : Projection} {b : Buffer}
  {o : Nat}

/-- The text that is the user's: markup, expressions of directives that have a typed projection, and
script content outside the ranges that are rewritten. -/
inductive Kept (reader : Script.Reader) (source : String) (doc : Document) (degraded : List Directive.Degraded)
    (o : Nat) : Prop where
  | markup : (∀ d ∈ doc.directives, d.span.contains o = false) →
      (∀ block ∈ doc.scripts, block.span.contains o = false) →
      (∀ style ∈ doc.styles, style.contains o = false) → Kept reader source doc degraded o
  | expression : d ∈ doc.directives → d.kind ≠ .slotProp → (∀ note ∈ degraded, note.span ≠ d.span) →
      v ∈ d.expression? → v.span.contains o = true → Kept reader source doc degraded o
  | script : block ∈ doc.scripts → block.content.contains o = true →
      (∀ span, RewrittenIn reader source doc block span → span.contains o = false) →
      Kept reader source doc degraded o

/-- Where a replacement lies: in a script block, where it takes away a tag or rewrites the content, on a
style block, or in a directive. -/
inductive Lies (reader : Script.Reader) (source : String) (doc : Document) (r : Replacement) : Prop where
  | block : block ∈ doc.scripts → block.span.covers r.span = true →
      r.span.Apart block.content ∨ RewrittenIn reader source doc block r.span → Lies reader source doc r
  | style : r.span ∈ doc.styles → Lies reader source doc r
  | directive : site ∈ sites source doc → site.directive.span.covers r.span = true → r ∈ site.plan.edits →
      Lies reader source doc r

/-- A rewritten range starts in the content of its block. It cannot run into the closing tag, which is
removed by another edit. -/
theorem RenderedFrom.rewritten_covered (made : RenderedFrom reader source doc p b) {block : ScriptBlock}
    {item : Script.Item} {names : List String} {length : Nat} {r : Replacement} (member : r ∈ b.replacements)
    (listed : block ∈ doc.scripts) (holds : block.Ordered) (stop : block.content.stop = block.content.start + length)
    (edit : Script.ItemEdit source block.content.start names item r) (placed : item.Placed length) :
    block.span.covers r.span = true := by
  have proper := (made.valid.proper r member).1
  obtain ⟨lower, upper, _⟩ := edit.reach placed proper
  have opening := holds.opening
  have closing := holds.closing
  rw [Span.covers_iff]
  refine ⟨by omega, ?_⟩
  rcases related_of_pairwise made.valid.ordered member (made.closings block listed holds) with same | before | after
  · exact Nat.le_of_eq (by rw [same])
  · simp only at before
    omega
  · simp only at after
    omega

theorem RenderedFrom.lies (made : RenderedFrom reader source doc p b) (placed : Reads reader source doc Script.Outline.Placed)
    (zoned : Zoned source.toList doc zones) {r : Replacement} (member : r ∈ b.replacements) :
    Lies reader source doc r := by
  cases made.causes r member with
  | opening listed =>
    have ordered := (zoned.script_holds listed).toOrdered
    have inside := Nat.le_trans ordered.content (Nat.le_of_lt ordered.closing)
    exact .block listed (Span.covers_iff.mpr ⟨Nat.le_refl _, inside⟩) (.inl (.inl (Nat.le_refl _)))
  | closing listed =>
    have ordered := (zoned.script_holds listed).toOrdered
    have inside := Nat.le_trans (Nat.le_of_lt ordered.opening) ordered.content
    exact .block listed (Span.covers_iff.mpr ⟨inside, Nat.le_refl _⟩) (.inl (.inr (Nat.le_refl _)))
  | script rewritten read item edit =>
    have listed : _ ∈ doc.scripts := List.mem_append_left _ (Option.mem_toList.mpr rewritten.1)
    have holds := zoned.script_holds listed
    obtain ⟨length, stop, inside⟩ := items_placed placed listed holds read item
    exact .block listed (made.rewritten_covered member listed holds.toOrdered stop edit inside) (.inr rewritten)
  | style listed => exact .style listed
  | directive listed edit =>
    have inside := Directive.Site.plan_inside (zoned.directive_ordered (site_directive listed)) edit
    exact .directive listed (Span.covers_iff.mpr inside) edit

section Outside

variable {r : Replacement}

theorem markup_outside (lies : Lies reader source doc r) (directives : ∀ d ∈ doc.directives, d.span.contains o = false)
    (scripts : ∀ block ∈ doc.scripts, block.span.contains o = false)
    (styles : ∀ style ∈ doc.styles, style.contains o = false) : r.span.contains o = false := by
  rw [← Bool.not_eq_true]
  intro inside
  cases lies with
  | block listed covers =>
    have inBlock := Span.contains_of_covers covers inside
    rw [scripts _ listed] at inBlock
    cases inBlock
  | style listed =>
    rw [styles _ listed] at inside
    cases inside
  | directive listed covers =>
    have inDirective := Span.contains_of_covers covers inside
    rw [directives _ (site_directive listed)] at inDirective
    cases inDirective

theorem expression_outside (zoned : Zoned source.toList doc zones) (lies : Lies reader source doc r)
    {d : Markup.Directive} {v : ExpressionValue} (listed : d ∈ doc.directives) (kind : d.kind ≠ .slotProp)
    (typed : ∀ note ∈ (sites source doc).flatMap (·.plan.notes), note.span ≠ d.span) (value : v ∈ d.expression?)
    (here : v.span.contains o = true) : r.span.contains o = false := by
  have ordered := zoned.directive_ordered listed
  have zone := zoned.directive_mem listed
  have inDirective := Span.contains_of_covers (ordered.covers_value value) here
  rw [← Bool.not_eq_true]
  intro inside
  cases lies with
  | block other covers =>
    obtain ⟨shared, script⟩ := zoned.script_mem other
    cases zoned.unique zone script inDirective (Span.contains_of_covers covers inside)
  | style other => cases zoned.unique zone (zoned.style_mem other) inDirective inside
  | directive site covers edit =>
    -- Both directives have the offset, so they are one.
    have other := zoned.directive_mem (site_directive site)
    cases zoned.unique zone other inDirective (Span.contains_of_covers covers inside)
    have apart := Directive.Site.plan_spares ordered kind
      (fun note member => typed note (List.mem_flatMap.mpr ⟨_, site, member⟩)) edit value
    exact apart.not_both inside here

theorem script_outside (zoned : Zoned source.toList doc zones) (lies : Lies reader source doc r)
    {block : ScriptBlock} (listed : block ∈ doc.scripts) (here : block.content.contains o = true)
    (untouched : ∀ span, RewrittenIn reader source doc block span → span.contains o = false) :
    r.span.contains o = false := by
  obtain ⟨shared, zone⟩ := zoned.script_mem listed
  have ordered := (zoned.script_holds listed).toOrdered
  have inBlock := Span.contains_of_covers ordered.covers_content here
  rw [← Bool.not_eq_true]
  intro inside
  cases lies with
  | block other covers reason =>
    obtain ⟨_, script⟩ := zoned.script_mem other
    cases zoned.unique zone script inBlock (Span.contains_of_covers covers inside)
    rcases reason with apart | rewritten
    · exact apart.not_both inside here
    · rw [untouched _ rewritten] at inside
      cases inside
  | style other => cases zoned.unique zone (zoned.style_mem other) inBlock inside
  | directive site covers =>
    have other := zoned.directive_mem (site_directive site)
    cases zoned.unique zone other inBlock (Span.contains_of_covers covers inside)

end Outside

theorem Kept.outside (kept : Kept reader source doc p.degraded o) (made : RenderedFrom reader source doc p b)
    (placed : Reads reader source doc Script.Outline.Placed) (zoned : Zoned source.toList doc zones) :
    ∀ r ∈ b.replacements, r.span.contains o = false := by
  intro r member
  have lies := made.lies placed zoned member
  cases kept with
  | markup directives scripts styles => exact markup_outside lies directives scripts styles
  | expression listed typed plain value here =>
    rw [made.degraded] at plain
    exact expression_outside zoned lies listed typed plain value here
  | script listed here untouched => exact script_outside zoned lies listed here untouched

/-- No user text is lost. Every byte that is to be kept is shown by a generated byte, which leads back to
it, and the generated bytes keep the order of the source. -/
theorem kept_bytes_shown {path : Option Path} (placed : Reads reader source doc Script.Outline.Placed)
    (scanned : scan source = .ok doc)
    (projected : ofComponent reader source doc path = .ok p) :
    (∀ o < source.utf8ByteSize, Kept reader source doc p.degraded o → ∃ g, p.map.Shows p.text source o g) ∧
    ∀ o o' g g', Kept reader source doc p.degraded o → Kept reader source doc p.degraded o' →
      o < o' → o' < source.utf8ByteSize → p.map.Shows p.text source o g → p.map.Shows p.text source o' g' → g < g' := by
  obtain ⟨zones, zoned⟩ := scan_zoned scanned
  obtain ⟨b, made⟩ := ofComponent_ok projected
  have length : b.length = source.utf8ByteSize := by rw [Buffer.length, made.original, Text.width_toList]
  constructor
  · intro o inside kept
    rw [← length] at inside
    have shown := made.valid.shows inside (kept.outside made placed zoned)
    rwa [← made.map, ← made.text, made.original] at shown
  · intro o o' g g' kept kept' before inside shows shows'
    rw [← length] at inside
    have forward := shows.forward
    have forward' := shows'.forward
    rw [made.map] at forward forward'
    exact made.valid.shows_ordered before inside (kept.outside made placed zoned) (kept'.outside made placed zoned)
      forward forward'

theorem kept_bytes_shown_sample : ∃ doc, scan sample = .ok doc ∧
    Reads Script.readOutline sample doc Script.Outline.Placed ∧ ∃ p, ofComponent Script.readOutline sample doc none = .ok p ∧
      (∀ o < sample.utf8ByteSize, Kept Script.readOutline sample doc p.degraded o → ∃ g, p.map.Shows p.text sample o g) ∧
      ∀ o o' g g', Kept Script.readOutline sample doc p.degraded o → Kept Script.readOutline sample doc p.degraded o' →
        o < o' → o' < sample.utf8ByteSize → p.map.Shows p.text sample o g → p.map.Shows p.text sample o' g' →
          g < g' := by
  obtain ⟨doc, scanned, placed, p, projected⟩ := sample_projects
  exact ⟨doc, scanned, placed, p, projected, kept_bytes_shown placed scanned projected⟩

def propSample : String := "<script>export let x;</script>"

def propOutline : Script.Outline := [.exported 0 (.variableList .mutable false [.name ⟨"x", 11⟩])]

/-- The blank behind `export` lies outside the keyword, and there is no reactive statement. It goes all
the same. -/
theorem blank_after_export_not_shown : ∃ doc, scan propSample = .ok doc ∧
    Reads Script.readOutline propSample doc Script.Outline.Placed ∧ ∃ p,
      ofComponent Script.readOutline propSample doc none = .ok p ∧
      (∃ block ∈ doc.scripts, block.content.contains 14 = true ∧
        outline? Script.readOutline propSample block = some propOutline ∧
        ∀ item ∈ propOutline, ∃ start declared, item = .exported start declared ∧
          (⟨block.content.start + start, block.content.start + start + 6⟩ : Span).contains 14 = false) ∧
      ∀ g, ¬p.map.Shows p.text propSample 14 g := by
  let block : ScriptBlock := ⟨⟨0, 30⟩, ⟨8, 21⟩, none⟩
  have runs : ((scan propSample).toOption.bind fun doc =>
      (edited Script.readOutline propSample doc none).toOption.filter fun (b, _) =>
        Reads Script.readOutline propSample doc Script.Outline.Placed ∧
          doc.instanceScript = some block ∧ b.render.map.generatedPosition? 14 = some 32 ∧
          (Text.bytes (b.blocks.flatMap Block.chars))[32]? ≠ (Text.bytes propSample.toList)[14]?).isSome = true := by
    decide +kernel
  obtain ⟨⟨b, declarations, degraded⟩, found⟩ := Option.isSome_iff_exists.mp runs
  obtain ⟨doc, scanned, found⟩ := Option.bind_eq_some_iff.mp found
  obtain ⟨made, found⟩ := Option.filter_eq_some_iff.mp found
  obtain ⟨placed, script, forward, byte⟩ := of_decide_eq_true found
  obtain ⟨p, projected, map, text⟩ : ∃ p, ofComponent Script.readOutline propSample doc none = .ok p ∧
      p.map = b.render.map ∧ p.text = b.render.text :=
    ⟨_, chain_ok.mpr ⟨_, ok_of_toOption made, rfl⟩, rfl, rfl⟩
  refine ⟨doc, ok_of_toOption scanned, placed, p, projected, ⟨block, ?_, rfl, by decide +kernel, ?_⟩, ?_⟩
  · exact List.mem_append_left _ (Option.mem_toList.mpr script)
  · intro item member
    obtain rfl := List.mem_singleton.mp member
    exact ⟨_, _, rfl, rfl⟩
  · intro g shows
    rw [map, text] at shows
    have position := shows.forward
    rw [forward, Option.some.injEq] at position
    have same := shows.byte
    rw [← position, Text.byteAt?_eq, Text.byteAt?_eq, Buffer.render_text] at same
    exact byte same

end SvelteLens.Projection
