import TreeShell.Fetch
import TreeShell.Manifest
import TreeShell.Session.Operations

/-! A session from a manifest. Directories come first, then files in their order; a later file
replaces an earlier one at the same place. The first fault ends it. -/

namespace TreeShell

inductive BootError
  | fetch (source : String) (e : FetchError)
  | conflict (e : FileError)
  deriving DecidableEq, Repr

def BootError.message : BootError → String
  | .fetch source e => "failed to fetch '" ++ source ++ "': " ++ e.message
  | .conflict e => "manifest conflict: " ++ e.message

namespace ManifestFile

/-- The content that a manifest gives a file. A source wins over content in place. -/
def load (fetch : Fetcher) (f : ManifestFile) : Except BootError Content :=
  match f.source, f.content with
  | some source, _ =>
    match fetch source with
    | .ok bytes => .ok (.fetched bytes source)
    | .error e => .error (.fetch source e)
  | none, some text => .ok (.own (Text.utf8 text.toList))
  | none, none => .ok .empty

end ManifestFile

namespace Session

def placeDirectories (s : Session) : List String → Except BootError Session
  | [] => .ok s
  | path :: paths =>
    match s.makeDirectories path with
    | (.error e, _) => .error (.conflict e)
    | (.ok (), s) => s.placeDirectories paths

def placeFiles (fetch : Fetcher) (s : Session) : List ManifestFile → Except BootError Session
  | [] => .ok s
  | f :: files =>
    match f.load fetch with
    | .error e => .error e
    | .ok content =>
      match s.placeFile f.path content with
      | (.error e, _) => .error (.conflict e)
      | (.ok (), s) => s.placeFiles fetch files

/-- The session of a user over the tree that a manifest describes. -/
def bootstrap (manifest : Manifest) (user : String) (fetch : Fetcher) :
    Except BootError Session :=
  match (withHome user).placeDirectories manifest.directories with
  | .error e => .error e
  | .ok s => s.placeFiles fetch manifest.files

end Session

end TreeShell
