import SvelteLens.Markup.Document
import SvelteLens.Text.CharClass

/-! A small scanner from component text to its markup tree. It knows tags, attributes,
directives, and script and style blocks; everything else is text. -/
namespace SvelteLens.Markup

inductive ScanError where
  | unterminatedComment
  | unterminatedEndTag
  | unbalancedEndTag
  | unterminatedBlock
  | unterminatedBraces
  | unclosedElement
  /-- The scanner would have to go on past the end of the text or inside a character. -/
  | cut
  /-- A `/` among attributes that is not part of `/>`. -/
  | stalled
  deriving DecidableEq, Repr, Inhabited

def ScanError.message? : ScanError → Option String
  | .unterminatedComment => some "unterminated comment"
  | .unterminatedEndTag => some "unterminated end tag"
  | .unbalancedEndTag => some "unbalanced end tag"
  | .unterminatedBlock => some "unterminated block"
  | .unterminatedBraces => some "unterminated braces in fixture"
  | .unclosedElement => some "unclosed element in fixture"
  | .cut => none
  | .stalled => none

/-- The text that is still to be scanned and its offset. -/
structure Cursor where
  offset : Nat
  rest : List Char
  deriving DecidableEq, Repr, Inhabited

namespace Cursor

def startsWith (c : Cursor) (mark : String) : Bool := mark.toList.isPrefixOf c.rest

def skip (c : Cursor) (n : Nat) : Cursor := ⟨c.offset + Text.width (c.rest.take n), c.rest.drop n⟩

def takeWhile (c : Cursor) (p : Char → Bool) : String × Cursor :=
  let taken := c.rest.takeWhile p
  (String.ofList taken, ⟨c.offset + Text.width taken, c.rest.dropWhile p⟩)

def skipBlank (c : Cursor) : Cursor := (c.takeWhile Text.isBlank).2

/-- Moves past one byte, which has to be a whole character. -/
def skipByte (c : Cursor) : Except ScanError Cursor :=
  match c.rest with
  | x :: rest => if x.utf8Size = 1 then .ok ⟨c.offset + 1, rest⟩ else .error .cut
  | [] => .error .cut

/-- The text up to a mark, and the cursor after the mark. -/
def breakAt? (c : Cursor) (mark : String) : Option (String × Cursor) :=
  (Text.breakAt? mark.toList c.rest).map fun (before, after) =>
    (String.ofList before, ⟨c.offset + Text.width before + Text.width mark.toList, after⟩)

end Cursor

/-- Reads up to the brace that closes an open one. Braces between quotes do not count, and
`depth` of them were opened since. -/
def closeBrace (depth : Nat) (quote : Option Char) (offset : Nat) :
    List Char → Option (List Char × Cursor)
  | [] => none
  | c :: cs =>
    let next := offset + c.utf8Size
    let more (depth : Nat) (quote : Option Char) := (closeBrace depth quote next cs).map fun (inner, after) =>
      (c :: inner, after)
    match quote with
    | some q => more depth (if c = q then none else some q)
    | none =>
      if c = '"' || c = '\'' || c = (Char.ofNat 0x60) then more depth (some c)
      else if c = '\x7b' then more (depth + 1) none
      else if c = '\x7d' then
        match depth with
        | 0 => some ([], ⟨next, cs⟩)
        | depth + 1 => more depth none
      else more depth none

def braced (c : Cursor) : Except ScanError (List Char × Cursor) :=
  match closeBrace 0 none c.offset c.rest with
  | some found => .ok found
  | none => .error .unterminatedBraces

def scanValue (c : Cursor) : Except ScanError (DirectiveValue × Cursor) := do
  let quote := c.rest.head?.filter fun x => x = '"' || x = '\''
  let c := if quote.isSome then c.skip 1 else c
  if c.startsWith "\x7b" then
    let inner := c.skip 1
    let (text, after) ← braced inner
    let value := ⟨⟨inner.offset, inner.offset + Text.width text⟩, String.ofList text, quote⟩
    return (.expression value, ← if quote.isSome then after.skipByte else pure after)
  else
    let (text, after) := match quote with
      | some q => c.takeWhile (· ≠ q)
      | none => c.takeWhile fun x => !Text.isBlank x && x ≠ '>'
    return (.text ⟨⟨c.offset, after.offset⟩, text⟩, ← if quote.isSome then after.skipByte else pure after)

/-- Splits a directive's attribute name into its word, its name and its modifiers. -/
def directiveHead? (name : String) : Option (DirectiveKind × String × String × List String) := do
  let (word, rest) ← Text.breakAt? [':'] name.toList
  let kind ← DirectiveKind.ofWord? (String.ofList word)
  match (rest.splitOn '|').map String.ofList with
  | head :: modifiers => return (kind, String.ofList word, head, modifiers)
  | [] => none

def scanAttribute (start : Cursor) : Except ScanError (Attribute × Cursor) := do
  let (fullName, named) := start.takeWhile fun x => !Text.isBlank x && x ≠ '=' && x ≠ '>' && x ≠ '/'
  let spaced := named.skipBlank
  let (value, after) ←
    if spaced.startsWith "=" then do
      let (value, after) ← scanValue (spaced.skip 1).skipBlank
      pure (value, after)
    else pure (.shorthand, named)
  let span : Span := ⟨start.offset, after.offset⟩
  match directiveHead? fullName with
  | some (kind, word, name, modifiers) =>
    let nameStart := start.offset + Text.width word.toList + 1
    let nameSpan := ⟨nameStart, nameStart + Text.width name.toList⟩
    return (.directive ⟨span, kind, name, nameSpan, modifiers, value⟩, after)
  | none =>
    let value := match value with
      | .shorthand => .present
      | .text text => .text text
      | .expression expression => .expression expression
    return (.plain ⟨span, fullName, value⟩, after)

/-- Reads attributes up to the end of the start tag. Every attribute takes at least one character. -/
def scanAttributes : (fuel : Nat) → Cursor → Except ScanError (List Attribute × Cursor)
  | 0, _ => .error .stalled
  | fuel + 1, c => do
    let c := c.skipBlank
    if c.rest.isEmpty || c.startsWith ">" || c.startsWith "/>" then return ([], c)
    let (first, c) ← scanAttribute c
    let (attributes, c) ← scanAttributes fuel c
    return (first :: attributes, c)

def Cursor.attributes (c : Cursor) : Except ScanError (List Attribute × Cursor) :=
  scanAttributes (c.rest.length + 1) c

/-- An element whose end tag is still to come; its children are kept last first. -/
structure OpenTag where
  tag : Tag
  children : List Node
  deriving Repr, Inhabited

/-- What was scanned so far. Lists of nodes are kept last first. -/
structure Progress where
  instanceScript : Option ScriptBlock := none
  moduleScript : Option ScriptBlock := none
  styles : List Span := []
  nodes : List Node := []
  opened : List OpenTag := []
  deriving Repr, Inhabited

namespace Progress

def addNode (p : Progress) (node : Node) : Progress :=
  match p.opened with
  | parent :: rest => { p with opened := { parent with children := node :: parent.children } :: rest }
  | [] => { p with nodes := node :: p.nodes }

def finish (p : Progress) : Except ScanError Document :=
  if p.opened.isEmpty then .ok ⟨p.instanceScript, p.moduleScript, p.styles, p.nodes.reverse⟩
  else .error .unclosedElement

end Progress

def voidElements : List String :=
  ["area", "base", "br", "col", "embed", "hr", "img", "input", "link", "meta", "source", "track", "wbr"]

/-- Components start with a capital or have a dot in their name. -/
def isComponentName (name : String) : Bool :=
  name.toList.head?.any Char.isUpper || name.toList.contains '.'

def scanEndTag (p : Progress) (c : Cursor) : Except ScanError (Progress × Cursor) := do
  let some (_, after) := c.breakAt? ">" | throw .unterminatedEndTag
  match p.opened with
  | [] => throw .unbalancedEndTag
  | ⟨tag, children⟩ :: rest =>
    let start := tag.content.elim tag.span.stop (·.start)
    let tag := { tag with content := some ⟨start, c.offset⟩, span := ⟨tag.span.start, after.offset⟩ }
    return ({ p with opened := rest }.addNode (.mk tag children.reverse), after)

/-- Reads a script or style block after its name. A later block of a role replaces an earlier one. -/
def scanBlock (p : Progress) (start : Nat) (name : String) (c : Cursor) :
    Except ScanError (Progress × Cursor) := do
  let (attributes, c) ← c.attributes
  let inner ← c.skipByte
  let some (text, after) := inner.breakAt? ("</" ++ name ++ ">") | throw .unterminatedBlock
  let span : Span := ⟨start, after.offset⟩
  if name = "style" then return ({ p with styles := p.styles ++ [span] }, after)
  let tag : Tag := ⟨false, name, span, none, attributes⟩
  let content := ⟨inner.offset, inner.offset + Text.width text.toList⟩
  let block := ⟨span, content, tag.textAttribute? "lang" <|> tag.textAttribute? "type"⟩
  if tag.textAttribute? "context" = some "module" then return ({ p with moduleScript := some block }, after)
  return ({ p with instanceScript := some block }, after)

/-- Reads a start tag. A void element may be cut off by the end of the text. -/
def scanStartTag (p : Progress) (start : Cursor) : Except ScanError (Progress × Cursor) := do
  let (name, c) := (start.skip 1).takeWhile fun x => !Text.isBlank x && x ≠ '>' && x ≠ '/'
  if name = "script" || name = "style" then return ← scanBlock p start.offset name c
  let (attributes, c) ← c.attributes
  let selfClosing := c.startsWith "/>"
  let after : Cursor := if selfClosing then c.skip 2 else ⟨c.offset + 1, c.rest.drop 1⟩
  let tag : Tag := ⟨isComponentName name, name, ⟨start.offset, after.offset⟩, none, attributes⟩
  if selfClosing || voidElements.contains name then return (p.addNode (.mk tag []), after)
  let tag := { tag with content := some (Span.empty after.offset) }
  return ({ p with opened := ⟨tag, []⟩ :: p.opened }, after)

/-- Reads one item of the text: a comment, a tag, a braced expression or a character. -/
def scanItem (p : Progress) (c : Cursor) : Except ScanError (Progress × Cursor) := do
  if c.startsWith "<!--" then
    let some (_, after) := c.breakAt? "-->" | throw .unterminatedComment
    return (p, after)
  else if c.startsWith "</" then scanEndTag p c
  else if c.startsWith "<" then scanStartTag p c
  else if c.startsWith "\x7b" then
    let (_, after) ← braced (c.skip 1)
    return (p, after)
  else return (p, c.skip 1)

/-- Reads items to the end of the text. Every item takes at least one character. -/
def scanItems : (fuel : Nat) → Progress → Cursor → Except ScanError Document
  | 0, _, _ => .error .stalled
  | fuel + 1, p, c => do
    if c.rest.isEmpty then p.finish
    else
      let (p, c) ← scanItem p c
      scanItems fuel p c

def scan (text : String) : Except ScanError Document :=
  scanItems (text.toList.length + 1) {} ⟨0, text.toList⟩

end SvelteLens.Markup
