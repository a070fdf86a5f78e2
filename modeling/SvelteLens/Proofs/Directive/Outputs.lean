import SvelteLens.Proofs.Directive.Degrading
import SvelteLens.Proofs.Edit.Passes
import SvelteLens.Proofs.Markup.Attributes

/-! What a directive becomes. A directive is written as a word, a name, modifiers and perhaps an expression. Its rule
goes over that text once and writes an attribute that the engine can check, with the name and the expression as they
were given. -/
namespace SvelteLens.Directive

open Edit Markup
open Text (width)

/-- An expression in braces, bare or between quotes, with blanks around the equals sign in front of it. -/
structure Given where
  before : List Char
  after : List Char
  quote : Option Char
  expr : String
  blank : before.all Text.isBlank = true ∧ after.all Text.isBlank = true
  quoted : ∀ q ∈ quote, IsQuote q

namespace Given

def sign (g : Given) : List Char := g.before ++ '=' :: g.after

def opening (g : Given) : List Char := g.sign ++ (g.quote.toList ++ ['\x7b'])

def closing (g : Given) : List Char := '\x7d' :: g.quote.toList

def text (g : Given) : List Char := g.opening ++ (g.expr.toList ++ g.closing)

def value (g : Given) (offset : Nat) : ExpressionValue :=
  let start := offset + width g.opening
  ⟨⟨start, start + width g.expr.toList⟩, g.expr, g.quote⟩

end Given

/-- The text of a directive's attribute. Bindings have no modifiers. -/
structure Wording where
  word : String
  kind : DirectiveKind
  name : String
  modifiers : List String
  given : Option Given
  known : DirectiveKind.ofWord? word = some kind
  unmodified : kind = .binding → modifiers = []

namespace Wording

def label (w : Wording) : List Char := w.word.toList ++ [':']

def marks (w : Wording) : List Char := modifierText w.modifiers

def rest (w : Wording) : List Char := w.given.elim [] Given.text

def text (w : Wording) : List Char := w.label ++ (w.name.toList ++ (w.marks ++ w.rest))

theorem text_given {w : Wording} {g : Given} (given : w.given = some g) :
    w.text = w.label ++ (w.name.toList ++ (w.marks ++ g.opening)) ++ (g.expr.toList ++ g.closing) := by
  simp [text, rest, given, Given.text]

/-- The directive that the text stands for, at an offset. -/
def directive (w : Wording) (offset : Nat) : Markup.Directive :=
  let nameStart := offset + width w.label
  let nameStop := nameStart + width w.name.toList
  let headEnd := nameStop + width w.marks
  { span := ⟨offset, headEnd + width w.rest⟩
    kind := w.kind
    name := w.name
    nameSpan := ⟨nameStart, nameStop⟩
    modifiers := w.modifiers
    value := w.given.elim .shorthand fun g => .expression (g.value headEnd) }

/-- The expression; a shorthand has its name for one. -/
def expr (w : Wording) : String := w.given.elim w.name Given.expr

def sign (w : Wording) : String := w.given.elim "=" fun g => String.ofList g.sign

/-- The call of the named function with the element, checked by a wrapper. -/
def call (w : Wording) (wrapper : String) (extra : List String) (tag : Tag) : String :=
  let given := w.given.toList.map fun g => "(" ++ g.expr ++ ")"
  "\x7b..." ++ wrapper ++ "(" ++ w.name ++ "(" ++ ",".intercalate (elementToken tag.name :: (extra ++ given)) ++ "))\x7d"

/-- What the attribute becomes on a tag. Slot props go elsewhere. -/
def output (w : Wording) (tag : Tag) : String :=
  match w.kind with
  | .action => w.call "__sveltets_1_ensureAction" [] tag
  | .transition => w.call "__sveltets_1_ensureTransition" [] tag
  | .animation => w.call "__sveltets_1_ensureAnimation" ["__sveltets_1_AnimationMove"] tag
  | .binding =>
    if w.name = "this" then
      let instanceType := if tag.isComponent then tag.name else elementClass tag.name
      "\x7b...__sveltets_1_ensureType(" ++ instanceType ++ ", " ++ w.expr ++ ")\x7d"
    else if !tag.isComponent && readOnlyProperties.contains w.name then
      "\x7b...__sveltets_1_empty(" ++ w.expr ++ "=__sveltets_1_instanceOf(" ++ elementClass tag.name ++ ")." ++ w.name ++
        ")\x7d"
    else w.name ++ w.sign ++ "\x7b" ++ w.expr ++ "\x7d"
  | .eventHandler =>
    if tag.isComponent then
      let target := "__sveltets_1_instanceOf(" ++ tag.name ++ "), '" ++ w.name ++ "'"
      match w.given with
      | some g => "\x7b...__sveltets_1_onComponentEvent(" ++ target ++ ", (" ++ g.expr ++ "))\x7d"
      | none => "\x7b...__sveltets_1_bubbleComponentEvent(" ++ target ++ ")\x7d"
    else "on" ++ w.name ++ w.sign ++ "\x7b" ++ w.given.elim "undefined" Given.expr ++ "\x7d"
  | .classToggle => "\x7b...__sveltets_1_ensureType(Boolean, !!(" ++ w.expr ++ "))\x7d"
  | .style => "\x7b...__sveltets_1_ensureType(String, Number, (" ++ w.expr ++ "))\x7d"
  | .slotProp => ""

end Wording

section Steps

variable {offset start stop : Nat} {old : List Char}

theorem overwrite_writes (filled : old ≠ []) (first : start = offset) (last : stop = offset + width old) (text : String) :
    Plan.Writes offset (overwrite start stop text) old text.toList :=
  .overwritten filled first last text

theorem remove_writes (first : start = offset) (last : stop = offset + width old) :
    Plan.Writes offset (remove start stop) old [] :=
  .removed first last

theorem insertAfter_writes (here : start = offset) (text : String) :
    Plan.Writes offset (insertAfter start text) [] text.toList :=
  .appended here text

theorem lastQuote?_opening {source : String} {front back sign : List Char} {quote : Char} {start stop : Nat}
    (whole : source.toList = front ++ (sign ++ [quote, '\x7b'] ++ back)) (first : start = width front)
    (last : stop = start + width (sign ++ [quote, '\x7b'])) (isQuote : IsQuote quote) :
    Site.lastQuote? source quote start stop = some (start + width sign) := by
  have between : Text.slice? source.toList start stop = some (sign ++ [quote, '\x7b']) :=
    Text.slice?_eq_some_iff.mpr ⟨front, back, whole, first.symm, last⟩
  have brace : '\x7b' ≠ quote := by rcases isQuote with rfl | rfl <;> decide
  simp [Site.lastQuote?, between, brace]

end Steps

/-- A site whose directive is written as the wording says, between other text. -/
structure Site.Words (s : Site) (w : Wording) (front back : List Char) : Prop where
  whole : s.source.toList = front ++ (w.text ++ back)
  laid : s.directive = w.directive (width front)
  small : s.source.utf8ByteSize < offsetBound

namespace Site.Words

variable {s : Site} {w : Wording} {front back : List Char} (h : s.Words w front back)
include h

theorem start : s.directive.span.start = width front := by rw [h.laid]; rfl

theorem nameStart : s.directive.nameSpan.start = width front + width w.label := by rw [h.laid]; rfl

theorem nameStop : s.directive.nameSpan.stop = width front + width w.label + width w.name.toList := by rw [h.laid]; rfl

theorem headEnd : s.directive.headEnd = width front + width w.label + width w.name.toList + width w.marks := by
  rw [headEnd_eq, h.laid]
  rfl

theorem stop : s.directive.span.stop = s.directive.headEnd + width w.rest := by
  rw [h.headEnd, h.laid]
  rfl

theorem name : s.directive.name = w.name := by rw [h.laid]; rfl

theorem headEnd_lt : s.directive.headEnd < offsetBound := by
  have size := Text.width_toList s.source
  have small := h.small
  rw [h.whole] at size
  simp only [Wording.text, Text.width_append] at size
  rw [h.headEnd]
  omega

theorem shorthand (bare : w.given = none) : s.directive.value = .shorthand := by
  rw [h.laid, Wording.directive, bare]
  rfl

theorem expression {g : Given} (given : w.given = some g) :
    s.directive.value = .expression (g.value s.directive.headEnd) := by
  rw [h.headEnd, h.laid, Wording.directive, given]
  rfl

theorem overwriteLabel (text : String) : Plan.Writes (width front)
    (overwrite s.directive.span.start s.directive.nameSpan.start text) w.label text.toList :=
  overwrite_writes (by simp [Wording.label]) h.start h.nameStart text

theorem removeModifiers : Plan.Writes (width front + width w.label + width w.name.toList) s.removeModifiers w.marks [] := by
  rw [Site.removeModifiers, Site.withHeadEnd, if_pos h.headEnd_lt]
  exact remove_writes h.nameStop h.headEnd

/-- The expression is wrapped, and what closes it stays in front of a quote. -/
theorem stripClosing {g : Given} (given : w.given = some g) :
    Plan.Writes (s.directive.headEnd + width g.opening + width g.expr.toList)
      (s.stripClosingQuote (g.value s.directive.headEnd)) g.closing ['}'] := by
  have stop := h.stop
  simp only [Wording.rest, given, Option.elim_some, Given.text, Text.width_append] at stop
  unfold Site.stripClosingQuote Given.closing at *
  cases quote : g.quote with
  | none =>
    simp only [Given.value, quote]
    exact .kept _
  | some q =>
    have single : q.utf8Size = 1 := by rcases g.quoted q quote with rfl | rfl <;> decide
    have brace : ('}' : Char).utf8Size = 1 := rfl
    rw [quote, Option.toList_some, Text.width_cons, Text.width_cons, Text.width_nil, single, brace] at stop
    obtain ⟨last, end'⟩ : ∃ last, s.directive.span.stop = last + 1 := ⟨_, by rw [stop]; rfl⟩
    simp only [Given.value, quote, end']
    refine Plan.Writes.keep ['}'] (remove_writes ?_ ?_)
    · simp [brace]; omega
    · simp [single, brace]; omega

theorem stripOpening {g : Given} (given : w.given = some g) :
    Plan.Writes s.directive.headEnd (s.stripOpeningQuote (g.value s.directive.headEnd)) g.opening (g.sign ++ ['{']) := by
  unfold Site.stripOpeningQuote Given.opening
  cases quote : g.quote with
  | none =>
    simp only [Given.value, quote]
    exact .kept _
  | some q =>
    have isQuote := g.quoted q quote
    have single : q.utf8Size = 1 := by rcases isQuote with rfl | rfl <;> decide
    have found : Site.lastQuote? s.source q s.directive.headEnd (g.value s.directive.headEnd).span.start =
        some (s.directive.headEnd + width g.sign) := by
      have whole : s.source.toList = front ++ (w.label ++ (w.name.toList ++ w.marks)) ++
          (g.sign ++ [q, '\x7b'] ++ (g.expr.toList ++ (g.closing ++ back))) := by
        rw [h.whole]
        simp [Wording.text_given given, Given.opening, quote]
      refine lastQuote?_opening whole ?_ ?_ isQuote
      · simp only [h.headEnd, Text.width_append]
        omega
      · simp [Given.value, Given.opening, quote]
    rw [Given.value] at found ⊢
    simp only [quote, Site.withHeadEnd, if_pos h.headEnd_lt, found]
    have removed : Plan.Writes (s.directive.headEnd + width g.sign)
        (remove (s.directive.headEnd + width g.sign) (s.directive.headEnd + width g.sign + 1)) [q] [] :=
      remove_writes rfl (by rw [Text.width_cons, single]; rfl)
    exact .keep g.sign (removed.append (.kept ['\x7b']))

theorem stripQuotes {g : Given} (given : w.given = some g) {offset : Nat} (here : offset = s.directive.headEnd) :
    Plan.Writes offset
      (s.stripOpeningQuote (g.value s.directive.headEnd) ++ s.stripClosingQuote (g.value s.directive.headEnd)) w.rest
      (g.sign ++ ['\x7b'] ++ (g.expr.toList ++ ['\x7d'])) := by
  subst here
  rw [Wording.rest, given]
  exact (h.stripOpening given).append (.keep g.expr.toList (h.stripClosing given))

theorem overwriteToValue (g : Given) (text : String) : Plan.Writes (width front)
    (overwrite s.directive.span.start (g.value s.directive.headEnd).span.start text)
    (w.label ++ (w.name.toList ++ (w.marks ++ g.opening))) text.toList := by
  refine overwrite_writes (by simp [Wording.label]) h.start ?_ text
  simp only [Given.value, h.headEnd, Text.width_append]
  omega

theorem overwriteMarks (g : Given) (text : String) : Plan.Writes (width front + width w.label + width w.name.toList)
    (overwrite s.directive.nameSpan.stop (g.value s.directive.headEnd).span.start text) (w.marks ++ g.opening)
    text.toList := by
  refine overwrite_writes (by simp [Given.opening]) h.nameStop ?_ text
  simp only [Given.value, h.headEnd, Text.width_append]
  omega

theorem valueStart (g : Given) : width front + width (w.label ++ (w.name.toList ++ (w.marks ++ g.opening))) =
    s.directive.headEnd + width g.opening := by
  simp only [h.headEnd, Text.width_append]
  omega

theorem insertBehindValue {g : Given} (given : w.given = some g) {offset : Nat}
    (here : offset = s.directive.headEnd + width g.opening) (text : String) : Plan.Writes offset
      (insertAfter (g.value s.directive.headEnd).span.stop text ++ s.stripClosingQuote (g.value s.directive.headEnd))
      (g.expr.toList ++ g.closing) (g.expr.toList ++ (text.toList ++ ['\x7d'])) := by
  subst here
  exact .keep g.expr.toList ((insertAfter_writes rfl text).append (h.stripClosing given))

theorem overwriteFromValue {g : Given} (given : w.given = some g) {offset : Nat}
    (here : offset = s.directive.headEnd + width g.opening) (text : String) : Plan.Writes offset
      (overwrite (g.value s.directive.headEnd).span.stop s.directive.span.stop text)
      (g.expr.toList ++ g.closing) (g.expr.toList ++ text.toList) := by
  have stop := h.stop
  simp only [Wording.rest, given, Option.elim_some, Given.text, Text.width_append] at stop
  subst here
  exact .keep g.expr.toList (overwrite_writes (by simp [Given.closing]) rfl (by omega) text)

theorem insertBehind (bare : w.given = none) {offset : Nat} (here : offset = s.directive.headEnd) (text : String) :
    Plan.Writes offset (insertAfter s.directive.span.stop text) w.rest text.toList := by
  subst here
  rw [Wording.rest, bare]
  exact insertAfter_writes (by rw [h.stop, Wording.rest, bare]; rfl) text

end Site.Words

section Rules

variable {s : Site} {w : Wording} {front back : List Char}

theorem invoke_writes (h : s.Words w front back) (wrapper extra : String) :
    Plan.Writes (width front) (invoke wrapper extra s) w.text
      (w.call wrapper (if extra.isEmpty then [] else [extra]) s.tag).toList := by
  have head := h.overwriteLabel ("\x7b..." ++ wrapper ++ "(")
  cases given : w.given with
  | none =>
    have all := head.append (.keep w.name.toList (h.removeModifiers.append (h.insertBehind given h.headEnd.symm
      ("(" ++ elementToken s.tag.name ++ (if extra.isEmpty then "" else "," ++ extra) ++ "))\x7d"))))
    simp only [invoke, h.shorthand given, List.append_assoc]
    convert all using 1
    · rfl
    · cases extra.isEmpty <;> simp [Wording.call, given]
  | some g =>
    have between := h.overwriteMarks g
      ("(" ++ elementToken s.tag.name ++ "," ++ (if extra.isEmpty then "" else extra ++ ",") ++ "(")
    have all := head.append (.keep w.name.toList (between.append (h.insertBehindValue given
      (by simp only [h.headEnd, Text.width_append]; omega) ")))")))
    simp only [invoke, h.expression given, List.append_assoc]
    convert all using 1
    · simp [Wording.text_given given]
    · cases extra.isEmpty <;> simp [Wording.call, given]

theorem bindThis_writes (h : s.Words w front back) {g : Given} (given : w.given = some g) :
    Plan.Writes (width front) (bindThis s (g.value s.directive.headEnd)) w.text
      ("\x7b...__sveltets_1_ensureType(" ++ s.className ++ ", " ++ g.expr ++ ")\x7d").toList := by
  have all := (h.overwriteToValue g ("\x7b...__sveltets_1_ensureType(" ++ s.className ++ ", ")).append
    (h.overwriteFromValue given (h.valueStart g) ")\x7d")
  unfold bindThis
  convert all using 1
  · exact Wording.text_given given
  · simp

theorem bindReadOnly_writes (h : s.Words w front back) (unmarked : w.marks = []) :
    Plan.Writes (width front) (bindReadOnly s) w.text
      ("\x7b...__sveltets_1_empty(" ++ w.expr ++ "=__sveltets_1_instanceOf(" ++ elementClass s.tag.name ++ ")." ++ w.name ++
        ")\x7d").toList := by
  have headEnd := h.headEnd
  rw [unmarked, Text.width_nil, Nat.add_zero] at headEnd
  cases given : w.given with
  | none =>
    have all := (h.overwriteLabel "\x7b...__sveltets_1_empty(").append (.keep w.name.toList (h.insertBehind given headEnd.symm
      ("=__sveltets_1_instanceOf(" ++ elementClass s.tag.name ++ ")." ++ w.name ++ ")\x7d")))
    simp only [bindReadOnly, Markup.Directive.expression?, h.shorthand given, h.name]
    convert all using 1
    · simp [Wording.text, unmarked]
    · simp [Wording.expr, given]
  | some g =>
    have all := (h.overwriteToValue g "\x7b...__sveltets_1_empty(").append
      (h.overwriteFromValue given (h.valueStart g)
        ("=__sveltets_1_instanceOf(" ++ elementClass s.tag.name ++ ")." ++ w.name ++ ")\x7d"))
    simp only [bindReadOnly, Markup.Directive.expression?, h.expression given, h.name]
    convert all using 1
    · exact Wording.text_given given
    · simp [Wording.expr, given]

theorem bindProperty_writes (h : s.Words w front back) (unmarked : w.marks = []) :
    Plan.Writes (width front) (bindProperty s) w.text (w.name ++ w.sign ++ "\x7b" ++ w.expr ++ "\x7d").toList := by
  have headEnd := h.headEnd
  rw [unmarked, Text.width_nil, Nat.add_zero] at headEnd
  have head : Plan.Writes (width front) (remove s.directive.span.start s.directive.nameSpan.start) w.label [] :=
    remove_writes h.start h.nameStart
  cases given : w.given with
  | none =>
    have all := head.append (.keep w.name.toList (h.insertBehind given headEnd.symm ("=\x7b" ++ w.name ++ "\x7d")))
    simp only [bindProperty, Markup.Directive.expression?, h.shorthand given, h.name]
    convert all using 1
    · simp [Wording.text, unmarked]
    · simp [Wording.expr, Wording.sign, given]
  | some g =>
    have all := head.append (.keep w.name.toList (h.stripQuotes given headEnd.symm))
    simp only [bindProperty, Markup.Directive.expression?, h.expression given]
    convert all using 1
    · simp [Wording.text, unmarked]
    · simp [Wording.expr, Wording.sign, given]

theorem elementEvent_writes (h : s.Words w front back) : Plan.Writes (width front) (elementEvent s) w.text
    ("on" ++ w.name ++ w.sign ++ "\x7b" ++ w.given.elim "undefined" Given.expr ++ "\x7d").toList := by
  have head := h.overwriteLabel "on"
  cases given : w.given with
  | none =>
    have value := h.insertBehind given h.headEnd.symm "=\x7bundefined\x7d"
    have all := head.append (.keep w.name.toList (h.removeModifiers.append value))
    simp only [elementEvent, Markup.Directive.expression?, h.shorthand given, List.append_assoc]
    convert all using 1
    · rfl
    · simp [Wording.sign, given]
  | some g =>
    have all := head.append (.keep w.name.toList (h.removeModifiers.append (h.stripQuotes given h.headEnd.symm)))
    simp only [elementEvent, Markup.Directive.expression?, h.expression given, List.append_assoc]
    convert all using 1
    · rfl
    · simp [Wording.sign, given]

theorem componentEvent_writes (h : s.Words w front back) (kind : w.kind = .eventHandler)
    (component : s.tag.isComponent = true) :
    Plan.Writes (width front) (componentEvent s) w.text (w.output s.tag).toList := by
  cases given : w.given with
  | none =>
    simp only [componentEvent, Markup.Directive.expression?, h.shorthand given, h.name, Wording.output, kind, component,
      given, if_true]
    refine overwrite_writes (by simp [Wording.text, Wording.label]) h.start ?_ _
    simp only [h.stop, h.headEnd, Wording.text, Text.width_append]
    omega
  | some g =>
    have all := (h.overwriteToValue g ("\x7b...__sveltets_1_onComponentEvent(" ++
      ("__sveltets_1_instanceOf(" ++ s.tag.name ++ "), '" ++ w.name ++ "'") ++ ", (")).append
        (h.insertBehindValue given (h.valueStart g) "))")
    simp only [componentEvent, Markup.Directive.expression?, h.expression given, h.name, List.append_assoc]
    convert all using 1
    · exact Wording.text_given given
    · simp [Wording.output, kind, component, given]

theorem ensureValue_writes (h : s.Words w front back) (opening closing : String) (named : s.isUnnamed = false) :
    Plan.Writes (width front) (ensureValue opening closing s) w.text (opening ++ w.expr ++ closing ++ "\x7d").toList := by
  cases given : w.given with
  | none =>
    have identifier : isPlainIdentifier w.name = true := by
      simpa [Site.isUnnamed, h.shorthand given, h.name] using named
    have all := (h.overwriteLabel opening).append
      (.keep w.name.toList (h.removeModifiers.append (h.insertBehind given h.headEnd.symm (closing ++ "\x7d"))))
    simp only [ensureValue, Markup.Directive.expression?, h.shorthand given, h.name, identifier, Bool.not_true,
      Bool.false_eq_true, if_false, List.append_assoc]
    convert all using 1
    · rfl
    · simp [Wording.expr, given]
  | some g =>
    have all := (h.overwriteToValue g opening).append
      (h.insertBehindValue given (h.valueStart g) closing)
    simp only [ensureValue, Markup.Directive.expression?, h.expression given, List.append_assoc]
    convert all using 1
    · exact Wording.text_given given
    · simp [Wording.expr, given]

theorem Wording.unmarked (binding : w.kind = .binding) : w.marks = [] := by
  rw [Wording.marks, w.unmodified binding]
  rfl

theorem Site.Words.not_text (h : s.Words w front back) (text : TextValue) : s.directive.value ≠ .text text := by
  cases given : w.given with
  | none => simp [h.shorthand given]
  | some g => simp [h.expression given]

theorem Site.Words.kind (h : s.Words w front back) : s.directive.kind = w.kind := by rw [h.laid]; rfl

theorem binding_writes (h : s.Words w front back) (kind : w.kind = .binding) (bound : s.isUnbound = false) :
    Plan.Writes (width front) (binding s) w.text (w.output s.tag).toList := by
  have unmarked := w.unmarked kind
  have plain : w.name ≠ "this" → Plan.Writes (width front)
      (if !s.tag.isComponent && readOnlyProperties.contains s.directive.name then bindReadOnly s else bindProperty s)
      w.text (w.output s.tag).toList := by
    intro other
    rw [h.name]
    simp only [Wording.output, kind, other, if_false]
    split
    · exact bindReadOnly_writes h unmarked
    · exact bindProperty_writes h unmarked
  cases given : w.given with
  | none =>
    have bound : isPlainIdentifier w.name = true ∧ w.name ≠ "this" := by
      simpa [Site.isUnbound, h.shorthand given, h.name] using bound
    simpa [binding, h.shorthand given, h.name, bound] using plain bound.2
  | some g =>
    simp only [binding, h.expression given]
    split
    · next this =>
      rw [h.name] at this
      simpa [Wording.output, kind, this, Wording.expr, given, Site.className] using bindThis_writes h given
    · next other => exact plain (h.name ▸ other)

/-- Every rule goes over its directive once and writes what is wanted. -/
theorem Site.Words.plan_writes (h : s.Words w front back) (other : w.kind ≠ .slotProp) (typed : s.degrades = false) :
    Plan.Writes (width front) s.plan w.text (w.output s.tag).toList := by
  unfold Site.plan
  unfold Site.degrades at typed
  rw [h.kind] at typed ⊢
  unfold Wording.output
  cases kind : w.kind with
  | action =>
    simp only [kind, Bool.or_eq_false_iff] at typed
    simpa [ruleOf, action, typed] using invoke_writes h "__sveltets_1_ensureAction" ""
  | transition =>
    simp only [kind, Bool.or_eq_false_iff] at typed
    simpa [ruleOf, transition, typed] using invoke_writes h "__sveltets_1_ensureTransition" ""
  | animation =>
    simp only [kind, Bool.or_eq_false_iff] at typed
    simpa [ruleOf, animation, typed] using invoke_writes h "__sveltets_1_ensureAnimation" "__sveltets_1_AnimationMove"
  | binding =>
    simp only [kind, Bool.or_eq_false_iff] at typed
    simpa [ruleOf, Wording.output, kind] using binding_writes h kind typed.2
  | eventHandler =>
    simp only [ruleOf, event]
    split
    · next found => exact (h.not_text _ found).elim
    · split
      · next component => simpa [Wording.output, kind, component] using componentEvent_writes h kind component
      · exact elementEvent_writes h
  | classToggle =>
    simp only [kind, Bool.or_eq_false_iff] at typed
    have checked := ensureValue_writes h "\x7b...__sveltets_1_ensureType(Boolean, !!(" "))" typed.2.2
    simp only [ruleOf, classToggle, typed, Bool.false_eq_true, if_false]
    split
    · next found => exact (h.not_text _ found).elim
    · simpa using checked
  | style =>
    simp only [kind, Bool.or_eq_false_iff] at typed
    have checked := ensureValue_writes h "\x7b...__sveltets_1_ensureType(String, Number, (" "))" typed.2
    simp only [ruleOf, style, typed, Bool.false_eq_true, if_false]
    split
    · next found => exact (h.not_text _ found).elim
    · simpa using checked
  | slotProp => exact absurd kind other

end Rules

/-- A directive that is not degraded is rewritten in place, and only its attribute changes. -/
theorem directive_rewritten {s : Site} {w : Wording} {front back : List Char} (h : s.Words w front back)
    (other : w.kind ≠ .slotProp) (typed : s.degrades = false) :
    ∃ b, s.plan.run (Buffer.ofSource s.source) = ⟨b, [], none⟩ ∧
      b.render.text = String.ofList (front ++ ((w.output s.tag).toList ++ back)) := by
  have silent : s.plan.notes = [] := s.plan_silent typed
  obtain ⟨b, run, text⟩ := (h.plan_writes other typed).run_through h.whole
  rw [silent] at run
  exact ⟨b, run, text⟩

section Samples

def quotedHandler : Wording where
  word := "on"
  kind := .eventHandler
  name := "click"
  modifiers := ["once"]
  given := some ⟨[' '], [], some '"', "go", ⟨rfl, rfl⟩, by simp [IsQuote]⟩
  known := rfl
  unmodified := nofun

def quotedHandlerSite : Site where
  source := "<a on:click|once =\"\x7bgo\x7d\">"
  directive := quotedHandler.directive 3
  tag := ⟨false, "a", ⟨0, 25⟩, none, [.directive (quotedHandler.directive 3)]⟩
  enclosing := none

theorem quotedHandlerSite_words : quotedHandlerSite.Words quotedHandler "<a ".toList ">".toList :=
  ⟨by decide +kernel, by decide +kernel, by decide +kernel⟩

theorem quoted_handler_rewritten : quotedHandlerSite.Words quotedHandler "<a ".toList ">".toList ∧
    quotedHandler.kind ≠ .slotProp ∧ quotedHandlerSite.degrades = false ∧
    ∃ b, quotedHandlerSite.plan.run (Buffer.ofSource quotedHandlerSite.source) = ⟨b, [], none⟩ ∧
      b.render.text = "<a onclick =\x7bgo\x7d>" := by
  obtain ⟨b, run, text⟩ := directive_rewritten quotedHandlerSite_words (by decide) (by decide +kernel)
  exact ⟨quotedHandlerSite_words, by decide, by decide +kernel, b, run, text.trans (by decide +kernel)⟩

def spacedBinding : Wording where
  word := "bind"
  kind := .binding
  name := "value"
  modifiers := []
  given := some ⟨[], [' '], some '\'', "name", ⟨rfl, rfl⟩, by simp [IsQuote]⟩
  known := rfl
  unmodified := fun _ => rfl

def spacedBindingSite : Site where
  source := "<input bind:value= '\x7bname\x7d'>"
  directive := spacedBinding.directive 7
  tag := ⟨false, "input", ⟨0, 28⟩, none, [.directive (spacedBinding.directive 7)]⟩
  enclosing := none

/-- The blank stays, so the attribute is not the name, the equals sign and the expression alone. -/
theorem spaced_binding_keeps_blank : spacedBindingSite.Words spacedBinding "<input ".toList ">".toList ∧
    spacedBinding.kind = .binding ∧ spacedBinding.name ≠ "this" ∧
    readOnlyProperties.contains spacedBinding.name = false ∧ spacedBindingSite.degrades = false ∧
    ∃ b, spacedBindingSite.plan.run (Buffer.ofSource spacedBindingSite.source) = ⟨b, [], none⟩ ∧
      b.render.text = "<input value= \x7bname\x7d>" ∧ b.render.text ≠ "<input value=\x7bname\x7d>" := by
  have words : spacedBindingSite.Words spacedBinding "<input ".toList ">".toList :=
    ⟨by decide +kernel, by decide +kernel, by decide +kernel⟩
  have typed : spacedBindingSite.degrades = false := by decide +kernel
  obtain ⟨b, run, text⟩ := (words.plan_writes (by decide) typed).run_through words.whole
  rw [spacedBindingSite.plan_silent typed] at run
  have shown : b.render.text = "<input value= \x7bname\x7d>" := text.trans (by decide +kernel)
  exact ⟨words, rfl, by decide +kernel, by decide +kernel, typed, b, run, shown, by rw [shown]; decide +kernel⟩

end Samples

end SvelteLens.Directive
