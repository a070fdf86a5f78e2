import SvelteLens.Directive.Element
import SvelteLens.Edit.Plan
import SvelteLens.FileKind
import SvelteLens.Markup.Document

/-! One rule for each kind of directive. A rule turns a directive into a plan that replaces the
attribute in place, so that the engine sees an expression with the right types. A directive
that has no such expression is degraded: it is removed as a whole and a note says why. -/
namespace SvelteLens.Directive

open Edit Markup

structure Degraded where
  span : Span
  kind : DirectiveKind
  reason : String
  deriving DecidableEq, Repr, Inhabited

/-- A directive, the tag that carries it, the closest component around that tag, and the text. -/
structure Site where
  source : String
  directive : Markup.Directive
  tag : Tag
  enclosing : Option Tag
  deriving DecidableEq, Repr, Inhabited

abbrev Rule := Site → Plan Degraded

def overwrite (start stop : Nat) (text : String) : Plan Degraded := [.edit (.overwrite ⟨start, stop⟩ text)]
def remove (start stop : Nat) : Plan Degraded := [.edit (.remove ⟨start, stop⟩)]
def insertBefore (offset : Nat) (text : String) : Plan Degraded := [.edit (.insertBefore offset text)]
def insertAfter (offset : Nat) (text : String) : Plan Degraded := [.edit (.insertAfter offset text)]

namespace Site

def degrade (s : Site) (reason : String) : Plan Degraded :=
  remove s.directive.span.start s.directive.span.stop ++
    [.note ⟨s.directive.span, s.directive.kind, reason⟩]

/-- Continues with the end of the head, if that is still an offset. -/
def withHeadEnd (s : Site) (plan : Nat → Plan Degraded) : Plan Degraded :=
  if s.directive.headEnd < offsetBound then plan s.directive.headEnd else [.fault]

def removeModifiers (s : Site) : Plan Degraded := s.withHeadEnd (remove s.directive.nameSpan.stop)

def stripClosingQuote (s : Site) (value : ExpressionValue) : Plan Degraded :=
  match value.quote, s.directive.span.stop with
  | none, _ => []
  | some _, 0 => [.fault]
  | some _, last + 1 => remove last (last + 1)

/-- The offset of the last `quote` in the text between two offsets. -/
def lastQuote? (source : String) (quote : Char) (start stop : Nat) : Option Nat := do
  let between ← Text.slice? source.toList start stop
  let trailing := between.reverse.takeWhile (· ≠ quote)
  if trailing.length = between.length then none
  else some (start + Text.width (between.take (between.length - trailing.length - 1)))

/-- Removes the quote that opens a quoted expression. Blanks may stand around the equals sign. -/
def stripOpeningQuote (s : Site) (value : ExpressionValue) : Plan Degraded :=
  match value.quote with
  | none => []
  | some quote => s.withHeadEnd fun headEnd =>
    match lastQuote? s.source quote headEnd value.span.start with
    | some position => remove position (position + 1)
    | none => []

def className (s : Site) : String := if s.tag.isComponent then s.tag.name else elementClass s.tag.name

end Site

/-- Calls the named function with the element, wrapped so that the engine checks the call:
`name={expr}` gives `{...wrapper(name(token,extra(expr)))}`. -/
def invoke (wrapper extra : String) (s : Site) : Plan Degraded :=
  let d := s.directive
  let token := elementToken s.tag.name
  let head := overwrite d.span.start d.nameSpan.start ("\x7b..." ++ wrapper ++ "(")
  match d.value with
  | .text _ => s.degrade "expected an expression, found a text value"
  | .expression value =>
    head ++ overwrite d.nameSpan.stop value.span.start
        ("(" ++ token ++ "," ++ (if extra.isEmpty then "" else extra ++ ",") ++ "(") ++
      insertAfter value.span.stop ")))" ++ s.stripClosingQuote value
  | .shorthand =>
    head ++ s.removeModifiers ++
      insertAfter d.span.stop ("(" ++ token ++ (if extra.isEmpty then "" else "," ++ extra) ++ "))\x7d")

def action : Rule := fun s =>
  if s.tag.isComponent then s.degrade "actions can only be applied to DOM elements"
  else invoke "__sveltets_1_ensureAction" "" s

def transition : Rule := fun s =>
  if s.tag.isComponent then s.degrade "transitions can only be applied to DOM elements"
  else invoke "__sveltets_1_ensureTransition" "" s

def animation : Rule := fun s =>
  if s.tag.isComponent then s.degrade "animations can only be applied to DOM elements"
  else invoke "__sveltets_1_ensureAnimation" "__sveltets_1_AnimationMove" s

/-- `bind:this` checks that the variable can hold the element or the component. -/
def bindThis (s : Site) (value : ExpressionValue) : Plan Degraded :=
  overwrite s.directive.span.start value.span.start
      ("\x7b...__sveltets_1_ensureType(" ++ s.className ++ ", ") ++
    overwrite value.span.stop s.directive.span.stop ")\x7d"

/-- A property that can only be read is assigned to the variable. -/
def bindReadOnly (s : Site) : Plan Degraded :=
  let d := s.directive
  let head := "\x7b...__sveltets_1_empty("
  let read := "=__sveltets_1_instanceOf(" ++ elementClass s.tag.name ++ ")." ++ d.name ++ ")\x7d"
  match d.expression? with
  | some value =>
    overwrite d.span.start value.span.start head ++ overwrite value.span.stop d.span.stop read
  | none => overwrite d.span.start d.nameSpan.start head ++ insertAfter d.span.stop read

def bindProperty (s : Site) : Plan Degraded :=
  let d := s.directive
  remove d.span.start d.nameSpan.start ++
    match d.expression? with
    | some value => s.stripOpeningQuote value ++ s.stripClosingQuote value
    | none => insertAfter d.span.stop ("=\x7b" ++ d.name ++ "\x7d")

def binding : Rule := fun s =>
  let d := s.directive
  let plain : Plan Degraded :=
    if !s.tag.isComponent && readOnlyProperties.contains d.name then bindReadOnly s else bindProperty s
  match d.value with
  | .text _ => s.degrade "bindings need an expression"
  | .shorthand =>
    if !isPlainIdentifier d.name || d.name = "this" then
      s.degrade "shorthand binding needs an identifier name"
    else plain
  | .expression value => if d.name = "this" then bindThis s value else plain

/-- On an element the directive becomes an attribute; without a value the event bubbles. -/
def elementEvent (s : Site) : Plan Degraded :=
  let d := s.directive
  overwrite d.span.start d.nameSpan.start "on" ++ s.removeModifiers ++
    match d.expression? with
    | some value => s.stripOpeningQuote value ++ s.stripClosingQuote value
    | none => insertAfter d.span.stop "=\x7bundefined\x7d"

/-- Events of a component are checked against those that it declares. -/
def componentEvent (s : Site) : Plan Degraded :=
  let d := s.directive
  let target := "__sveltets_1_instanceOf(" ++ s.tag.name ++ "), '" ++ d.name ++ "'"
  match d.expression? with
  | some value =>
    overwrite d.span.start value.span.start ("\x7b...__sveltets_1_onComponentEvent(" ++ target ++ ", (") ++
      insertAfter value.span.stop "))" ++ s.stripClosingQuote value
  | none =>
    overwrite d.span.start d.span.stop ("\x7b...__sveltets_1_bubbleComponentEvent(" ++ target ++ ")\x7d")

def event : Rule := fun s =>
  match s.directive.value with
  | .text _ => s.degrade "event handlers need an expression"
  | _ => if s.tag.isComponent then componentEvent s else elementEvent s

/-- Wraps the expression, or the name that stands for it, in a type check. -/
def ensureValue (opening closing : String) (s : Site) : Plan Degraded :=
  let d := s.directive
  match d.expression? with
  | some value =>
    overwrite d.span.start value.span.start opening ++ insertAfter value.span.stop closing ++
      s.stripClosingQuote value
  | none =>
    if !isPlainIdentifier d.name then s.degrade "shorthand needs an identifier name"
    else
      overwrite d.span.start d.nameSpan.start opening ++ s.removeModifiers ++
        insertAfter d.span.stop (closing ++ "\x7d")

def classToggle : Rule := fun s =>
  if s.tag.isComponent then s.degrade "class directives can only be applied to DOM elements"
  else
    match s.directive.value with
    | .text _ => s.degrade "class directives need an expression"
    | _ => ensureValue "\x7b...__sveltets_1_ensureType(Boolean, !!(" "))" s

/-- A literal style has nothing to check and is dropped without a note. -/
def style : Rule := fun s =>
  if s.tag.isComponent then s.degrade "style directives can only be applied to DOM elements"
  else
    match s.directive.value with
    | .text _ => remove s.directive.span.start s.directive.span.stop
    | _ => ensureValue "\x7b...__sveltets_1_ensureType(String, Number, (" "))" s

def Site.slot? (s : Site) : Option (String × String) :=
  if s.tag.isComponent then some (s.tag.name, "default")
  else s.enclosing.map fun parent => (parent.name, (s.tag.textAttribute? "slot").getD "default")

def Site.pattern? (s : Site) : Option String :=
  match s.directive.value with
  | .shorthand => some s.directive.name
  | .expression value => some ((value.span.slice? s.source).getD value.expression)
  | .text _ => none

def scopeOpening (name pattern component slot : String) : String :=
  "\x7b() => \x7b let \x7b" ++ name ++ ": " ++ pattern ++
    "\x7d = __sveltets_1_slotProps(__sveltets_1_instanceOf(" ++ component ++ "), '" ++ slot ++
    "'); return <>"

def scopeClosing : String := "</>\x7d\x7d"

/-- The value of a slot is bound in a scope around the content of the tag. -/
def slotProp : Rule := fun s =>
  let d := s.directive
  match s.tag.content, s.slot?, s.pattern? with
  | none, _, _ => s.degrade "slot props need content to scope"
  | some _, none, _ => s.degrade "slot props outside of a component"
  | some _, some _, none => s.degrade "slot props need a binding pattern"
  | some content, some (component, slot), some pattern =>
    remove d.span.start d.span.stop ++
      insertBefore content.start (scopeOpening d.name pattern component slot) ++
      if content.isEmpty then insertBefore content.start scopeClosing
      else insertAfter content.stop scopeClosing

def ruleOf : DirectiveKind → Rule
  | .action => action
  | .binding => binding
  | .eventHandler => event
  | .transition => transition
  | .animation => animation
  | .classToggle => classToggle
  | .style => style
  | .slotProp => slotProp

def Site.plan (s : Site) : Plan Degraded := ruleOf s.directive.kind s

end SvelteLens.Directive
