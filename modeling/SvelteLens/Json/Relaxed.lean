import SvelteLens.Text.CharClass

/-! JSON as people write it in configuration files: with comments, and with a comma after the
last item. Both are taken out before the text is read as plain JSON. Strings stay as they are. -/
namespace SvelteLens.Json

mutual

/-- Drops line comments and block comments. The line break after a line comment stays. -/
def dropComments : List Char → List Char
  | [] => []
  | '"' :: rest => '"' :: dropCommentsInText rest
  | '/' :: '/' :: rest => dropLineComment rest
  | '/' :: '*' :: rest => dropBlockComment rest
  | c :: rest => c :: dropComments rest

def dropCommentsInText : List Char → List Char
  | [] => []
  | '"' :: rest => '"' :: dropComments rest
  | '\\' :: c :: rest => '\\' :: c :: dropCommentsInText rest
  | c :: rest => c :: dropCommentsInText rest

def dropLineComment : List Char → List Char
  | [] => []
  | '\n' :: rest => '\n' :: dropComments rest
  | _ :: rest => dropLineComment rest

def dropBlockComment : List Char → List Char
  | [] => []
  | '*' :: '/' :: rest => dropComments rest
  | _ :: rest => dropBlockComment rest

end

/-- Whether the next character that is not blank closes an object or array. -/
def closesNext (cs : List Char) : Bool :=
  match cs.dropWhile Text.isBlank with
  | '\x7d' :: _ | ']' :: _ => true
  | _ => false

mutual

/-- Drops each comma that stands before a closing brace or bracket. -/
def dropTrailingCommas : List Char → List Char
  | [] => []
  | '"' :: rest => '"' :: dropTrailingCommasInText rest
  | ',' :: rest => if closesNext rest then dropTrailingCommas rest else ',' :: dropTrailingCommas rest
  | c :: rest => c :: dropTrailingCommas rest

def dropTrailingCommasInText : List Char → List Char
  | [] => []
  | '"' :: rest => '"' :: dropTrailingCommas rest
  | '\\' :: c :: rest => '\\' :: c :: dropTrailingCommasInText rest
  | c :: rest => c :: dropTrailingCommasInText rest

end

def plain (text : String) : String := String.ofList (dropTrailingCommas (dropComments text.toList))

end SvelteLens.Json
