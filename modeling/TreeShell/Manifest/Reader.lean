import TreeShell.Json.Reader
import TreeShell.Manifest

/-! A manifest from its JSON text. Fields that are not known are left aside; a known one may
stand once. An array may stand for an object, with the known fields in their order, those at
the end that have a default left out. -/

namespace TreeShell

namespace Json

/-- The values of the fields with the given names, in the order of the names; none where the
value is no object, a name is no text, or a field with one of the names stands twice. -/
def knownFields (names : List String) : Json → Option (List (Option Json))
  | .object fields =>
    if fields.all fun (key, _) => key.isSome then
      names.mapM fun name =>
        match fields.filter fun (key, _) => key = some name with
        | [] => some none
        | [(_, value)] => some (some value)
        | _ => none
    else none
  | .array items =>
    if items.length ≤ names.length then
      some (items.map some ++ List.replicate (names.length - items.length) none)
    else none
  | _ => none

def toText? : Json → Option String
  | .string text => text
  | _ => none

/-- A text or null. -/
def toOptionalText? : Json → Option (Option String)
  | .null => some none
  | .string (some text) => some (some text)
  | _ => none

/-- A list whose items all satisfy a reader. -/
def toList? {α : Type} (read : Json → Option α) : Json → Option (List α)
  | .array items => items.mapM read
  | _ => none

end Json

namespace ManifestFile

def ofJson? (json : Json) : Option ManifestFile :=
  match json.knownFields ["path", "source", "content"] with
  | some [some path, source, content] => do
    return {
      path := ← path.toText?
      source := ← source.elim (some none) Json.toOptionalText?
      content := ← content.elim (some none) Json.toOptionalText? }
  | _ => none

end ManifestFile

namespace Manifest

def ofJson? (json : Json) : Option Manifest :=
  match json.knownFields ["directories", "files"] with
  | some [directories, files] => do
    return {
      directories := ← directories.elim (some []) (Json.toList? Json.toText?)
      files := ← files.elim (some []) (Json.toList? ManifestFile.ofJson?) }
  | _ => none

def ofText? (text : String) : Option Manifest :=
  (Json.ofText? text).bind ofJson?

end Manifest

end TreeShell
