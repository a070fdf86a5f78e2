import SvelteLens.Path
import SvelteLens.Text.Bytes

/-! How import specifiers are read: which of them name a file by its place, what a pattern's star
stands for, and which package is meant. -/
namespace SvelteLens.Service.Resolution

def endings (allowJs : Bool) : List String :=
  [".ts", ".tsx", ".d.ts", ".svelte"] ++ (if allowJs then [".js", ".jsx"] else [])

/-- Endings of compiled scripts; the script itself may have another. -/
def compiledEndings : List String := [".js", ".jsx", ".mjs", ".cjs"]

def stripEnding? (text ending : String) : Option String :=
  let cs := text.toList
  if ending.toList.isSuffixOf cs then some (String.ofList (cs.take (cs.length - ending.length))) else none

def withEndings (allowJs : Bool) (base : String) : List Path :=
  (endings allowJs).map fun ending => ⟨base ++ ending⟩

def isRelative (specifier : String) : Bool :=
  match specifier.toList with
  | ['.'] | ['.', '.'] | '.' :: '/' :: _ | '.' :: '.' :: '/' :: _ => true
  | _ => false

/-- Matches a specifier against a pattern with at most one star and gives what the star stands
for. Later stars of a pattern stand for themselves. -/
def capture? (pattern specifier : String) : Option String :=
  match Text.breakAt? ['*'] pattern.toList with
  | none => if pattern = specifier then some "" else none
  | some (before, after) =>
    let cs := specifier.toList
    let rest := cs.drop before.length
    if before.isPrefixOf cs && after.isSuffixOf rest then
      some (String.ofList (rest.take (rest.length - after.length)))
    else none

def substitute (target captured : String) : String :=
  match Text.breakAt? ['*'] target.toList with
  | some (before, after) => String.ofList before ++ captured ++ String.ofList after
  | none => target

/-- The scope that a package is in, up to its separator, and what comes behind it. -/
def splitScope? (specifier : List Char) : Option (List Char × List Char) :=
  if specifier.head? = some '@' then
    (Text.breakAt? ['/'] specifier).map fun (scope, rest) => (scope ++ ['/'], rest)
  else some ([], specifier)

/-- Splits a specifier into a package and what is wanted of it. A package in a scope has two
parts. -/
def splitPackage? (specifier : String) : Option (String × Option String) := do
  let (scope, rest) ← splitScope? specifier.toList
  let (name, subpath) := (Text.breakAt? ['/'] rest).getD (rest, [])
  let package := scope ++ name
  if package.isEmpty then none
  else some (String.ofList package, if subpath.isEmpty then none else some (String.ofList subpath))

/-- Typings for a package in a scope are published under one name of both parts. -/
def typesName (package : String) : String :=
  match package.toList with
  | '@' :: both =>
    match Text.breakAt? ['/'] both with
    | some (scope, name) => String.ofList scope ++ "__" ++ String.ofList name
    | none => String.ofList both
  | _ => package

def stem (name : List Char) : List Char := name.takeWhile (· ≠ '.')

/-- Whether a specifier could name a path. When in doubt, it could. -/
def mayName (specifier : String) (p : Path) : Bool :=
  let wanted := stem (specifier.toList.reverse.takeWhile (· ≠ '/')).reverse
  let named := stem (p.fileName?.getD "").toList
  wanted.isEmpty || named == wanted ||
    (named == "index".toList && (p.parent?.bind Path.fileName?).any (·.toList == wanted))

end SvelteLens.Service.Resolution
