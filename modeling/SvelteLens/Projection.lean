import SvelteLens.Directive.Rules
import SvelteLens.Edit.Render
import SvelteLens.Script.Adaptation

/-! The projection of a component: one script text that the checking engine can read, with a
position map back to the component. Scripts stay at module level without their tags, each
stretch of markup becomes a function that returns a fragment, styles are dropped, and a footer
exports a class that is typed by the component's props. -/
namespace SvelteLens

open Edit Markup

/-- The parts of the layout, in the order in which they are edited. -/
inductive Phase where
  | header
  | scriptTags
  | script
  | style
  | markup
  | footer
  deriving DecidableEq, Repr, Inhabited

def Phase.label : Phase → String
  | .header => "header"
  | .scriptTags => "script tags"
  | .script => "script"
  | .style => "style"
  | .markup => "markup"
  | .footer => "footer"

inductive ProjectionError where
  | directive (kind : DirectiveKind) (span : Span) (refusal : Refusal)
  | layout (phase : Phase) (refusal : Refusal)
  /-- The document asks for an edit that cannot be computed. -/
  | fault
  deriving DecidableEq, Repr, Inhabited

def ProjectionError.message? : ProjectionError → Option String
  | .directive kind span refusal =>
    some s!"{kind.label} directive at {span.render} produced an invalid edit: {refusal.message}"
  | .layout phase refusal => some s!"invalid edit while projecting {phase.label}: {refusal.message}"
  | .fault => none

namespace Projection

structure Declaration where
  name : String
  kind : Script.DeclarationKind
  source : Span
  /-- The identifier in the projected text, when it was copied as it is. -/
  generated : Option Span
  deriving DecidableEq, Repr, Inhabited

def header : String := "///<reference types=\"svelte\" />\n"
def markupOpening : String := ";() => (<>"
def markupClosing : String := "</>);"

def runPlan (b : Buffer) (plan : Plan ν) (error : Refusal → ProjectionError) :
    Except ProjectionError (Buffer × List ν) :=
  match plan.run b with
  | ⟨b, notes, none⟩ => .ok (b, notes)
  | ⟨_, _, some (.refused refusal)⟩ => .error (error refusal)
  | ⟨_, _, some .fault⟩ => .error .fault

def tagPlan (block : ScriptBlock) : Plan Empty :=
  [.edit (.remove ⟨block.span.start, block.content.start⟩),
    .edit (.remove ⟨block.content.stop, block.span.stop⟩)]

/-- What is picked out of a script block, when it can be read. -/
def outline? (reader : Script.Reader) (source : String) (block : ScriptBlock) : Option Script.Outline :=
  (reader block.isTypeScript ((block.content.slice? source).getD "")).map Script.Tree.outline

/-- The edits inside a script block. Content that cannot be read is left alone. -/
def scriptPlan (reader : Script.Reader) (source : String) (role : Script.Role) (known : List String)
    (block : ScriptBlock) : Plan Script.Declaration × List String :=
  match outline? reader source block with
  | some outline => Script.adaptationPlan role source block.content.start known outline
  | none => ([], known)

structure Scripts where
  buffer : Buffer
  known : List String
  declarations : List Script.Declaration

def addScript (reader : Script.Reader) (source : String) (s : Scripts) (role : Script.Role) :
    Option ScriptBlock → Except ProjectionError Scripts
  | none => .ok s
  | some block => do
    let (buffer, _) ← runPlan s.buffer (tagPlan block) (.layout .scriptTags)
    let (plan, known) := scriptPlan reader source role s.known block
    let (buffer, declarations) ← runPlan buffer plan (.layout .script)
    return ⟨buffer, known, s.declarations ++ declarations⟩

def inOrder (spans : List Span) : List Span := spans.mergeSort fun a b => a.order b != .gt

def blocks (doc : Document) : List Span := inOrder (doc.scripts.map (·.span) ++ doc.styles)

/-- Wraps the text between two offsets unless it is blank. -/
def wrapPlan (source : String) (start stop : Nat) : Plan Empty :=
  match Text.slice? source.toList start (max stop start) with
  | none => [.fault]
  | some region =>
    let (leading, body) := Text.trim region
    if body.isEmpty then []
    else
      [.edit (.insertBefore (start + leading) markupOpening),
        .edit (.insertAfter (start + leading + Text.width body) markupClosing)]

def markupPlan (source : String) : (start : Nat) → List Span → Plan Empty
  | start, [] => wrapPlan source start (Text.width source.toList)
  | start, block :: rest => wrapPlan source start block.start ++ markupPlan source block.stop rest

def stylePlan (styles : List Span) : Plan Empty := styles.map fun s => .edit (.remove s)

def sites (source : String) (doc : Document) : List Directive.Site :=
  doc.tags.flatMap fun placed => placed.tag.directives.map fun d => ⟨source, d, placed.tag, placed.enclosing⟩

def addSites : Buffer → List Directive.Site → Except ProjectionError (Buffer × List Directive.Degraded)
  | b, [] => .ok (b, [])
  | b, site :: rest => do
    let (b, notes) ← runPlan b site.plan (.directive site.directive.kind site.directive.span)
    let (b, more) ← addSites b rest
    return (b, notes ++ more)

def footer (componentName : String) (declarations : List Script.Declaration) : String :=
  let props := (declarations.filter (·.kind = .prop)).map fun d => d.name ++ ": " ++ d.name
  "\n;const __sveltets_1_render = \x7b props: \x7b" ++ ", ".intercalate props ++
    "\x7d, slots: \x7b\x7d, events: \x7b\x7d \x7d;\nexport default class " ++ componentName ++
    "__SvelteComponent_ extends __sveltets_1_createSvelte2TsxComponent(__sveltets_1_render) \x7b\n\x7d\n"

/-- Where a span ended up, when it lies in one exact segment. -/
def generatedSpan? (map : PositionMap) (source : Span) : Option Span := do
  let start ← map.generatedPosition? source.start
  let segment ← map.segmentAt? start
  let span : Span := ⟨start, start + (source.stop - source.start)⟩
  if segment.isExact && segment.generated.covers span then some span else none

end Projection

structure Projection where
  text : String
  map : PositionMap
  kind : ScriptKind
  /-- Top-level declarations in source order. -/
  declarations : List Projection.Declaration
  /-- Directives that were projected without type information. -/
  degraded : List Directive.Degraded
  deriving DecidableEq, Repr, Inhabited

namespace Projection

/-- The buffer with all edits made, the declarations in source order, and the degraded directives. -/
def edited (reader : Script.Reader) (source : String) (doc : Document) (path : Option Path) :
    Except ProjectionError (Buffer × List Script.Declaration × List Directive.Degraded) := do
  let layout (phase : Phase) (b : Buffer) (plan : Plan Empty) : Except ProjectionError Buffer :=
    (runPlan b plan (.layout phase)).map (·.1)
  let b ← layout .header (Buffer.ofSource source) [.edit (.insertBefore 0 header)]
  let scripts ← addScript reader source ⟨b, [], []⟩ .shared doc.moduleScript
  let scripts ← addScript reader source scripts .perInstance doc.instanceScript
  let declarations := scripts.declarations.mergeSort fun a b => a.span.start ≤ b.span.start
  let b ← layout .style scripts.buffer (stylePlan doc.styles)
  let b ← layout .markup b (markupPlan source 0 (blocks doc))
  let (b, degraded) ← addSites b (sites source doc)
  let name := path.elim "Component" Path.componentName
  let b ← layout .footer b
    [.edit (.insertAfter (Text.width source.toList) (footer name declarations))]
  return (b, declarations, degraded)

/-- Projects a component. The result depends on the text, the document and the path alone. -/
def ofComponent (reader : Script.Reader) (source : String) (doc : Document) (path : Option Path) :
    Except ProjectionError Projection := do
  let (b, declarations, degraded) ← edited reader source doc path
  let rendering := b.render
  return {
    text := rendering.text
    map := rendering.map
    kind := ScriptKind.ofComponent (doc.scripts.any ScriptBlock.isTypeScript)
    declarations := declarations.map fun d => ⟨d.name, d.kind, d.span, generatedSpan? rendering.map d.span⟩
    degraded }

end Projection
end SvelteLens
