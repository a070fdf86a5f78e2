import SvelteLens.Text.Span

/-! The markup tree of a component. Text, expression tags and control-flow blocks stay in place
and have no nodes. -/
namespace SvelteLens.Markup

structure ScriptBlock where
  /-- The whole block with its tags. -/
  span : Span
  content : Span
  /-- The `lang` attribute, or else the `type` attribute. -/
  lang : Option String
  deriving DecidableEq, Repr, Inhabited

def ScriptBlock.isTypeScript (b : ScriptBlock) : Bool :=
  b.lang == some "ts" || b.lang == some "typescript" || b.lang == some "text/typescript"

structure TextValue where
  span : Span
  value : String
  deriving DecidableEq, Repr, Inhabited

/-- A value in braces; the span leaves out braces and quotes. -/
structure ExpressionValue where
  span : Span
  expression : String
  quote : Option Char
  deriving DecidableEq, Repr, Inhabited

inductive AttributeValue where
  | present
  | text (value : TextValue)
  | expression (value : ExpressionValue)
  deriving DecidableEq, Repr, Inhabited

structure PlainAttribute where
  span : Span
  name : String
  value : AttributeValue
  deriving DecidableEq, Repr, Inhabited

inductive DirectiveKind where
  | action
  | binding
  | eventHandler
  | transition
  | animation
  | classToggle
  | style
  | slotProp
  deriving DecidableEq, Repr, Inhabited

/-- The kind that the word before the colon stands for. -/
def DirectiveKind.ofWord? : String → Option DirectiveKind
  | "use" => some .action
  | "bind" => some .binding
  | "on" => some .eventHandler
  | "transition" | "in" | "out" => some .transition
  | "animate" => some .animation
  | "class" => some .classToggle
  | "style" => some .style
  | "let" => some .slotProp
  | _ => none

def DirectiveKind.label : DirectiveKind → String
  | .action => "Action"
  | .binding => "Binding"
  | .eventHandler => "EventHandler"
  | .transition => "Transition"
  | .animation => "Animation"
  | .classToggle => "Class"
  | .style => "Style"
  | .slotProp => "Let"

inductive DirectiveValue where
  | shorthand
  | text (value : TextValue)
  | expression (value : ExpressionValue)
  deriving DecidableEq, Repr, Inhabited

/-- A directive such as `on:click|once=…`: a word, a name, modifiers and a value. -/
structure Directive where
  span : Span
  kind : DirectiveKind
  name : String
  nameSpan : Span
  modifiers : List String
  value : DirectiveValue
  deriving DecidableEq, Repr, Inhabited

namespace Directive

def headEnd (d : Directive) : Nat :=
  d.modifiers.foldl (fun stop m => stop + 1 + Text.width m.toList) d.nameSpan.stop

def expression? (d : Directive) : Option ExpressionValue :=
  match d.value with
  | .expression value => some value
  | _ => none

end Directive

inductive Attribute where
  | plain (value : PlainAttribute)
  | directive (value : Directive)
  deriving DecidableEq, Repr, Inhabited

def Attribute.directive? : Attribute → Option Directive
  | .directive d => some d
  | .plain _ => none

structure Tag where
  isComponent : Bool
  name : String
  /-- From the start tag through the end tag. -/
  span : Span
  /-- Between the tags; a self-closing tag has no content. -/
  content : Option Span
  attributes : List Attribute
  deriving DecidableEq, Repr, Inhabited

namespace Tag

def textAttribute? (tag : Tag) (name : String) : Option String :=
  tag.attributes.findSome? fun
    | .plain ⟨_, found, .text text⟩ => if found = name then some text.value else none
    | _ => none

def directives (tag : Tag) : List Directive := tag.attributes.filterMap Attribute.directive?

end Tag

inductive Node where
  | mk (tag : Tag) (children : List Node)
  deriving Repr, Inhabited

structure Document where
  instanceScript : Option ScriptBlock
  moduleScript : Option ScriptBlock
  styles : List Span
  nodes : List Node
  deriving Repr, Inhabited

/-- A tag together with the closest component around it. -/
structure Placed where
  tag : Tag
  enclosing : Option Tag
  deriving DecidableEq, Repr, Inhabited

mutual

/-- The tags of a node and of everything below it, in source order. -/
def Node.tags (enclosing : Option Tag) : Node → List Placed
  | .mk tag children => ⟨tag, enclosing⟩ :: Node.tagsOf (if tag.isComponent then some tag else enclosing) children

def Node.tagsOf (enclosing : Option Tag) : List Node → List Placed
  | [] => []
  | node :: rest => Node.tags enclosing node ++ Node.tagsOf enclosing rest

end

def Document.tags (doc : Document) : List Placed := Node.tagsOf none doc.nodes

/-- The retained script blocks: the one of the instance, then the one of the module. -/
def Document.scripts (doc : Document) : List ScriptBlock :=
  doc.instanceScript.toList ++ doc.moduleScript.toList

end SvelteLens.Markup
