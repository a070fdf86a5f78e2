import SvelteLens.Json.Value

/-! The entry points that a package's manifest names. -/
namespace SvelteLens.Service

structure Manifest where
  types : Option String
  typings : Option String
  svelte : Option String
  main : Option String
  deriving DecidableEq, Repr, Inhabited

namespace Manifest

/-- Reads plain JSON. As an array, all four entries have to be there. -/
def ofText? (text : String) : Option Manifest := do
  let value ← Json.Value.ofText? text
  match ← value.fields? ["types", "typings", "svelte", "main"] 4 with
  | [types, typings, svelte, main] =>
    let entry := Json.Value.optional? Json.Value.text?
    return ⟨← entry types, ← entry typings, ← entry svelte, ← entry main⟩
  | _ => none

def entries (m : Manifest) : List String := [m.types, m.typings, m.svelte, m.main].filterMap id

end Manifest

/-- What reads the manifests of packages. A manifest that cannot be read counts as none. -/
class ManifestReader where
  read? : String → Option Manifest

instance : ManifestReader := ⟨Manifest.ofText?⟩

end SvelteLens.Service
