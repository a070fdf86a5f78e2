/-! The tokens of a JSON text. Strings keep the body that is written between their quotes. -/
namespace SvelteLens.Json

inductive Token where
  /-- A bracket, brace, colon or comma. -/
  | mark (c : Char)
  | null
  | bool (b : Bool)
  | number (digits : String)
  | text (body : List Char)
  deriving DecidableEq, Repr, Inhabited

def isBlank (c : Char) : Bool := c == ' ' || c == '\n' || c == '\t' || c == '\r'

def isMark (c : Char) : Bool := "\x7b\x7d[]:,".toList.contains c

def hexDigit? (c : Char) : Option Nat :=
  if '0' ≤ c ∧ c ≤ '9' then some (c.toNat - '0'.toNat)
  else if 'a' ≤ c ∧ c ≤ 'f' then some (c.toNat - 'a'.toNat + 10)
  else if 'A' ≤ c ∧ c ≤ 'F' then some (c.toNat - 'A'.toNat + 10)
  else none

def isHex (c : Char) : Bool := (hexDigit? c).isSome

/-- Reads the body of a string up to its closing quote. Control characters have to be escaped. -/
def body? : List Char → Option (List Char × List Char)
  | [] => none
  | '"' :: rest => some ([], rest)
  | '\\' :: 'u' :: a :: b :: c :: d :: rest =>
    if [a, b, c, d].all isHex then
      (body? rest).map fun (body, rest) => ('\\' :: 'u' :: a :: b :: c :: d :: body, rest)
    else none
  | '\\' :: c :: rest =>
    if "\"\\/bfnrt".toList.contains c then (body? rest).map fun (body, rest) => ('\\' :: c :: body, rest)
    else none
  | c :: rest => if c.toNat < 0x20 then none else (body? rest).map fun (body, rest) => (c :: body, rest)

def digits? (cs : List Char) : Option (List Char × List Char) :=
  match cs.takeWhile Char.isDigit with
  | [] => none
  | ds => some (ds, cs.dropWhile Char.isDigit)

/-- A whole number without needless zeros at its front. -/
def whole? : List Char → Option (List Char × List Char)
  | '0' :: rest => some (['0'], rest)
  | cs => digits? cs

def fraction? : List Char → Option (List Char × List Char)
  | '.' :: rest => (digits? rest).map fun (ds, rest) => ('.' :: ds, rest)
  | cs => some ([], cs)

def exponent? : List Char → Option (List Char × List Char)
  | c :: rest =>
    if c == 'e' || c == 'E' then
      let (sign, rest) := match rest with
        | '+' :: rest => (['+'], rest)
        | '-' :: rest => (['-'], rest)
        | rest => ([], rest)
      (digits? rest).map fun (ds, rest) => (c :: sign ++ ds, rest)
    else some ([], c :: rest)
  | [] => some ([], [])

def number? (cs : List Char) : Option (List Char × List Char) := do
  let (sign, rest) := match cs with
    | '-' :: rest => (['-'], rest)
    | rest => ([], rest)
  let (whole, rest) ← whole? rest
  let (fraction, rest) ← fraction? rest
  let (exponent, rest) ← exponent? rest
  return (sign ++ whole ++ fraction ++ exponent, rest)

def Token.next? : List Char → Option (Token × List Char)
  | 'n' :: 'u' :: 'l' :: 'l' :: rest => some (.null, rest)
  | 't' :: 'r' :: 'u' :: 'e' :: rest => some (.bool true, rest)
  | 'f' :: 'a' :: 'l' :: 's' :: 'e' :: rest => some (.bool false, rest)
  | '"' :: rest => (body? rest).map fun (body, rest) => (.text body, rest)
  | c :: rest =>
    if isMark c then some (.mark c, rest)
    else (number? (c :: rest)).map fun (cs, rest) => (.number (String.ofList cs), rest)
  | [] => none

def tokensWithin : (n : Nat) → List Char → Option (List Token)
  | n, cs =>
    match cs.dropWhile isBlank with
    | [] => some []
    | cs =>
      match n with
      | 0 => none
      | n + 1 => do
        let (token, rest) ← Token.next? cs
        return token :: (← tokensWithin n rest)

/-- The tokens of a text, when it has no other parts than tokens and blanks. Every token takes a
character at least, so the length of the text is bound enough. -/
def tokens? (cs : List Char) : Option (List Token) := tokensWithin cs.length cs

end SvelteLens.Json
