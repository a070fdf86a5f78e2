import SvelteLens.Json.Token

/-! JSON values, and how records are read from them. A string with an unpaired surrogate is no
text, which matters only to those who use it. -/
namespace SvelteLens.Json

inductive Value where
  | null
  | bool (b : Bool)
  | number (digits : String)
  | text (s : Option String)
  | array (items : List Value)
  | object (members : List (Option String × Value))
  deriving Repr, Inhabited

def hexValue (cs : List Char) : Nat := cs.foldl (fun n c => n * 16 + (hexDigit? c).getD 0) 0

def simpleEscape (c : Char) : Char :=
  match c with
  | 'b' => '\x08'
  | 'f' => '\x0c'
  | 'n' => '\n'
  | 'r' => '\r'
  | 't' => '\t'
  | c => c

/-- Resolves the escapes in the body of a string. Surrogates have to come in pairs. -/
def unescape? : List Char → Option (List Char)
  | [] => some []
  | '\\' :: 'u' :: a :: b :: c :: d :: rest =>
    let high := hexValue [a, b, c, d]
    if 0xD800 ≤ high ∧ high < 0xDC00 then
      match rest with
      | '\\' :: 'u' :: a :: b :: c :: d :: rest =>
        let low := hexValue [a, b, c, d]
        if 0xDC00 ≤ low ∧ low < 0xE000 then
          (unescape? rest).map (Char.ofNat (0x10000 + (high - 0xD800) * 0x400 + (low - 0xDC00)) :: ·)
        else none
      | _ => none
    else if 0xDC00 ≤ high ∧ high < 0xE000 then none
    else (unescape? rest).map (Char.ofNat high :: ·)
  | '\\' :: c :: rest => (unescape? rest).map (simpleEscape c :: ·)
  | c :: rest => (unescape? rest).map (c :: ·)

def bodyText? (body : List Char) : Option String := (unescape? body).map String.ofList

mutual

/-- Reads the value at the front. `depth` bounds the number of values and members read. -/
def Value.next? : (depth : Nat) → List Token → Option (Value × List Token)
  | 0, _ => none
  | depth + 1, tokens =>
    match tokens with
    | .null :: rest => some (.null, rest)
    | .bool b :: rest => some (.bool b, rest)
    | .number digits :: rest => some (.number digits, rest)
    | .text body :: rest => some (.text (bodyText? body), rest)
    | .mark '[' :: .mark ']' :: rest => some (.array [], rest)
    | .mark '[' :: rest => (itemsOf? depth rest).map fun (items, rest) => (.array items, rest)
    | .mark '\x7b' :: .mark '\x7d' :: rest => some (.object [], rest)
    | .mark '\x7b' :: rest => (membersOf? depth rest).map fun (members, rest) => (.object members, rest)
    | _ => none

/-- Reads the items of an array up to its closing bracket. -/
def itemsOf? : (depth : Nat) → List Token → Option (List Value × List Token)
  | 0, _ => none
  | depth + 1, tokens => do
    let (item, rest) ← Value.next? depth tokens
    match rest with
    | .mark ',' :: rest => (itemsOf? depth rest).map fun (items, rest) => (item :: items, rest)
    | .mark ']' :: rest => some ([item], rest)
    | _ => none

/-- Reads the members of an object up to its closing brace. -/
def membersOf? : (depth : Nat) → List Token → Option (List (Option String × Value) × List Token)
  | 0, _ => none
  | depth + 1, tokens =>
    match tokens with
    | .text key :: .mark ':' :: rest => do
      let (value, rest) ← Value.next? depth rest
      let member := (bodyText? key, value)
      match rest with
      | .mark ',' :: rest => (membersOf? depth rest).map fun (members, rest) => (member :: members, rest)
      | .mark '\x7d' :: rest => some ([member], rest)
      | _ => none
    | _ => none

end

namespace Value

/-- Reads a text that holds one value and nothing else. -/
def ofText? (text : String) : Option Value := do
  let tokens ← tokens? text.toList
  match ← Value.next? (tokens.length + 1) tokens with
  | (value, []) => some value
  | _ => none

def text? : Value → Option String
  | .text s => s
  | _ => none

def bool? : Value → Option Bool
  | .bool b => some b
  | _ => none

def list? (read : Value → Option α) : Value → Option (List α)
  | .array items => items.mapM read
  | _ => none

/-- An object as a table. A repeated key keeps its first place and takes the last value. -/
def table? (read : Value → Option α) : Value → Option (List (String × α))
  | .object members => do
    let entries ← members.mapM fun (key, value) => do return (← key, ← read value)
    return entries.foldl (fun table (key, value) =>
      if table.any (·.1 == key) then table.map fun e => if e.1 == key then (key, value) else e
      else table ++ [(key, value)]) []
  | _ => none

/-- The values of a record's fields, in the order of `names`. An object gives each field once at
most and may have other members; an array gives the fields in order, and `required` of them at
least. -/
def fields? (names : List String) (required : Nat) : Value → Option (List (Option Value))
  | .object members => do
    let members ← members.mapM fun (key, value) => do return (← key, value)
    if names.all fun name => (members.filter (·.1 == name)).length ≤ 1 then
      return names.map fun name => members.lookup name
    else none
  | .array items =>
    if required ≤ items.length ∧ items.length ≤ names.length then
      some (items.map some ++ List.replicate (names.length - items.length) none)
    else none
  | _ => none

def optional? (read : Value → Option α) : Option Value → Option (Option α)
  | none | some .null => some none
  | some value => (read value).map some

def withDefault? (read : Value → Option α) (default : α) : Option Value → Option α
  | none => some default
  | some value => read value

end Value
end SvelteLens.Json
