import SvelteLens.Text.CharClass

/-! Tokens of a script. Tokens are read on demand: what a slash or a backtick starts is only
known to the parser, which then reads the rest of a pattern or a template itself. -/
namespace SvelteLens.Script

inductive Token where
  /-- An identifier or a keyword; `escaped` when it was written with an escape. -/
  | word (name : String) (escaped : Bool)
  | privateName
  | number
  | string
  | backtick
  | mark (text : String)
  | finish
  | invalid
  deriving DecidableEq, Repr, Inhabited

structure Lexeme where
  token : Token
  start : Nat
  stop : Nat
  /-- A line ends between the previous token and this one. -/
  newline : Bool
  rest : List Char
  deriving DecidableEq, Repr, Inhabited

def isLineEnd (c : Char) : Bool := c == '\n' || c == '\r' || c == '\u2028' || c == '\u2029'

/-- Blank characters other than line ends. The byte-order mark is one of them. -/
def isSpace (c : Char) : Bool :=
  let n := c.toNat
  n == 0x20 || n == 9 || n == 11 || n == 12 || n == 0xA0 || n == 0xFEFF || n == 0x1680 ||
  (0x2000 ≤ n && n ≤ 0x200A) || n == 0x202F || n == 0x205F || n == 0x3000

/-- Where the reader stands between two tokens. -/
inductive Gap where
  | code
  | lineComment
  | blockStart
  | blockComment
  | blockStop
  deriving DecidableEq, Repr, Inhabited

/-- Skips blanks and comments. Markup comments count as line comments. An open comment at the
end is an error. -/
def skipGap (gap : Gap) (newline : Bool) (offset : Nat) : List Char → Option (Bool × Nat × List Char)
  | [] => if gap = .code ∨ gap = .lineComment then some (newline, offset, []) else none
  | c :: cs =>
    let next := offset + c.utf8Size
    match gap with
    | .code =>
      if isLineEnd c then skipGap .code true next cs
      else if isSpace c then skipGap .code newline next cs
      else if "//".toList.isPrefixOf (c :: cs) || "<!--".toList.isPrefixOf (c :: cs) then
        skipGap .lineComment newline next cs
      else if newline && "-->".toList.isPrefixOf (c :: cs) then skipGap .lineComment newline next cs
      else if "/*".toList.isPrefixOf (c :: cs) then skipGap .blockStart newline next cs
      else some (newline, offset, c :: cs)
    | .lineComment =>
      if isLineEnd c then skipGap .code true next cs else skipGap .lineComment newline next cs
    | .blockStart => skipGap .blockComment newline next cs
    | .blockComment =>
      if "*/".toList.isPrefixOf (c :: cs) then skipGap .blockStop newline next cs
      else skipGap .blockComment (newline || isLineEnd c) next cs
    | .blockStop => skipGap .code newline next cs

def hexValue (cs : List Char) : Option Nat :=
  if cs.isEmpty then none
  else cs.foldl (fun value c => do
    let value ← value
    let n := c.toNat
    if c.isDigit then some (16 * value + (n - 48))
    else if 'a' ≤ c && c ≤ 'f' then some (16 * value + (n - 87))
    else if 'A' ≤ c && c ≤ 'F' then some (16 * value + (n - 55))
    else none) (some 0)

/-- Reads what follows the backslash of a character escape: the character and the number of
characters that it was written with. -/
def unicodeEscape? (cs : List Char) : Option (Char × Nat) :=
  let valid (n : Nat) : Option Char := if n.isValidChar then some (Char.ofNat n) else none
  match cs with
  | 'u' :: '\x7b' :: rest =>
    let digits := rest.takeWhile (· ≠ '\x7d')
    if digits.length < rest.length then
      (hexValue digits).bind fun n => (valid n).map fun c => (c, digits.length + 3)
    else none
  | 'u' :: a :: b :: c :: d :: _ => (hexValue [a, b, c, d]).bind fun n => (valid n).map fun c => (c, 5)
  | _ => none

/-- The characters of a word, the number of characters they take, and whether any was escaped.
The first `skip` characters belong to an escape. -/
def wordChars (skip : Nat) : List Char → Option (List Char × Nat × Bool)
  | [] => some ([], 0, false)
  | c :: cs =>
    let continued (x : List Char) (skip : Nat) (escaped : Bool) :=
      (wordChars skip cs).map fun (name, n, more) => (x ++ name, n + 1, escaped || more)
    match skip with
    | n + 1 => continued [] n false
    | 0 =>
      if c = '\\' then
        match unicodeEscape? cs with
        | some (x, n) => if Text.isIdentifierPart x then continued [x] n true else none
        | none => none
      else if Text.isIdentifierPart c then continued [c] 0 false
      else some ([], 0, false)

/-- Reads a word; its first character must be able to start one. -/
def word? (cs : List Char) : Option (String × Bool × List Char × List Char) :=
  match wordChars 0 cs with
  | some (c :: name, n, escaped) =>
    if Text.isIdentifierStart c then some (String.ofList (c :: name), escaped, cs.take n, cs.drop n) else none
  | _ => none

def digitsRest (p : Char → Bool) (cs : List Char) : List Char := cs.dropWhile fun c => p c || c == '_'

def isHexDigit (c : Char) : Bool := c.isDigit || ('a' ≤ c && c ≤ 'f') || ('A' ≤ c && c ≤ 'F')

def endNumber (cs : List Char) : Option (List Char) :=
  match cs with
  | c :: _ => if Text.isIdentifierStart c || c == '\\' then none else some cs
  | [] => some []

def bigSuffix : List Char → List Char
  | 'n' :: rest => rest
  | cs => cs

def based? (p : Char → Bool) (cs : List Char) : Option (List Char) :=
  match cs with
  | c :: _ => if p c then endNumber (bigSuffix (digitsRest p cs)) else none
  | [] => none

def exponent? (cs : List Char) : Option (List Char) :=
  match cs with
  | 'e' :: rest | 'E' :: rest =>
    let digits := match rest with
      | '+' :: r => r
      | '-' :: r => r
      | r => r
    match digits with
    | c :: _ => if c.isDigit then endNumber (digitsRest Char.isDigit digits) else none
    | [] => none
  | cs => endNumber cs

def number? (cs : List Char) : Option (List Char) :=
  match cs with
  | '0' :: 'x' :: rest | '0' :: 'X' :: rest => based? isHexDigit rest
  | '0' :: 'o' :: rest | '0' :: 'O' :: rest => based? (fun c => '0' ≤ c && c ≤ '7') rest
  | '0' :: 'b' :: rest | '0' :: 'B' :: rest => based? (fun c => c == '0' || c == '1') rest
  | _ =>
    match digitsRest Char.isDigit cs with
    | 'n' :: rest => endNumber rest
    | '.' :: rest => exponent? (digitsRest Char.isDigit rest)
    | rest => exponent? rest

/-- The text after a string whose opening quote was read. A string that is not closed ends with
its line; a malformed escape is an error. -/
def stringRest? (quote : Char) : List Char → Option (List Char)
  | [] => some []
  | '\\' :: 'u' :: cs => if (unicodeEscape? ('u' :: cs)).isSome then stringRest? quote cs else none
  | '\\' :: 'x' :: cs => if (hexValue (cs.take 2)).isSome && 2 ≤ cs.length then stringRest? quote cs else none
  | '\\' :: '\r' :: '\n' :: cs => stringRest? quote cs
  | '\\' :: _ :: cs => stringRest? quote cs
  | c :: cs =>
    if c = quote then some cs
    else if c = '\n' || c = '\r' then some (c :: cs)
    else stringRest? quote cs

/-- The text after a pattern whose opening slash was read, with its flags. -/
def patternRest? (inClass : Bool) : List Char → Option (List Char)
  | [] => none
  | '\\' :: c :: cs => if isLineEnd c then none else patternRest? inClass cs
  | c :: cs =>
    if isLineEnd c then none
    else if c = '[' then patternRest? true cs
    else if c = ']' then patternRest? false cs
    else if c = '/' && !inClass then some (cs.dropWhile Text.isIdentifierPart)
    else patternRest? inClass cs

/-- The text after the next stretch of a template, and whether the template ends there. -/
def templateRest? : List Char → Option (Bool × List Char)
  | [] => none
  | '\\' :: _ :: cs => templateRest? cs
  | '$' :: '\x7b' :: cs => some (false, cs)
  | c :: cs => if c = Char.ofNat 0x60 then some (true, cs) else templateRest? cs

/-- Punctuation, longer marks before their beginnings. -/
def marks : List String :=
  [">>>=", "...", "===", "!==", "**=", "<<=", ">>=", ">>>", "&&=", "||=", "??=", "=>", "==", "!=", "<=",
    ">=", "&&", "||", "??", "?.", "++", "--", "+=", "-=", "*=", "/=", "%=", "&=", "|=", "^=", "<<", ">>",
    "**", "\x7b", "\x7d", "(", ")", "[", "]", ";", ",", "<", ">", "+", "-", "*", "/", "%", "&", "|", "^",
    "!", "~", "?", ":", "=", ".", "@", "#"]

/-- The mark at the front. An optional chain is not taken for one when a digit follows. -/
def mark? (cs : List Char) : Option String :=
  (marks.find? fun m => m.toList.isPrefixOf cs).map fun m =>
    if m = "?." && (cs.drop 2).head?.any Char.isDigit then "?" else m

def readToken (newline : Bool) (start : Nat) (cs : List Char) : Lexeme :=
  let taken (token : Token) (text rest : List Char) : Lexeme :=
    ⟨token, start, start + Text.width text, newline, rest⟩
  let lexeme (token : Token) (rest : List Char) : Lexeme :=
    taken token (cs.take (cs.length - rest.length)) rest
  let numberLexeme : Lexeme :=
    match number? cs with
    | some rest => lexeme .number rest
    | none => lexeme .invalid []
  match cs with
  | [] => lexeme .finish []
  | c :: tail =>
    if c = '"' || c = '\'' then
      match stringRest? c tail with
      | some rest => lexeme .string rest
      | none => lexeme .invalid []
    else if c = Char.ofNat 0x60 then taken .backtick [c] tail
    else if c.isDigit || (c = '.' && tail.head?.any Char.isDigit) then numberLexeme
    else
      match word? cs with
      | some (name, escaped, text, rest) => taken (.word name escaped) text rest
      | none =>
        if c = '#' then
          match word? tail with
          | some (_, _, _, rest) => lexeme .privateName rest
          | none => lexeme .invalid []
        else
          match mark? cs with
          | some m => taken (.mark m) m.toList (cs.drop m.length)
          | none => lexeme .invalid []

def nextToken (newline : Bool) (offset : Nat) (cs : List Char) : Lexeme :=
  match skipGap .code newline offset cs with
  | some (newline, start, rest) => readToken newline start rest
  | none => ⟨.invalid, offset, offset, newline, []⟩

end SvelteLens.Script
