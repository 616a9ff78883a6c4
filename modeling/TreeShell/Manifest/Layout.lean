import TreeShell.Fetch
import TreeShell.Manifest
import TreeShell.Session
import TreeShell.Text.Cut

/-! What a manifest describes: where its entries belong, when they fit together, and the tree
that they make up. The order of the entries plays no part, but that of several files at one place
the last counts. -/

namespace TreeShell

/-- The part of a path behind its last slash. -/
def Path.lastPart (path : String) : String :=
  .ofList (Text.cutAfterLast (· = '/') path.toList).2

/-- The content that a file of a manifest asks for. -/
inductive ManifestFile.Asks (fetch : Fetcher) : ManifestFile → Content → Prop
  | fetched {path source : String} {content : Option String} {bytes : List UInt8} :
    fetch source = .ok bytes → Asks fetch ⟨path, some source, content⟩ (.fetched bytes source)
  | inline {path text : String} :
    Asks fetch ⟨path, none, some text⟩ (.own (Text.utf8 text.toList))
  | nothing {path : String} : Asks fetch ⟨path, none, none⟩ .empty

namespace Manifest

/-- The names that a path stands for while the user is at home. -/
def place (user path : String) : List String :=
  match Path.anchor path with
  | (.root, rest) => Path.normalize [] rest
  | (_, rest) => Path.normalize (Session.homeNames user) rest

/-- The places at which a manifest wants directories: home and those it names. -/
def directoryPlaces (m : Manifest) (user : String) : List (List String) :=
  Session.homeNames user :: m.directories.map (place user)

/-- The last file that a manifest has at a place. -/
def fileAt? (m : Manifest) (user : String) (names : List String) : Option ManifestFile :=
  (m.files.filter fun f => place user f.path = names).getLast?

/-- A manifest that can be carried out. -/
structure Consistent (m : Manifest) (user : String) (fetch : Fetcher) : Prop where
  directories_ne : ∀ path ∈ m.directories, path ≠ ""
  lastPart_ne : ∀ f ∈ m.files, Path.lastPart f.path ∉ ["", ".", ".."]
  /-- No file stands where a directory is wanted, or above it. -/
  apart : ∀ f ∈ m.files, ∀ names ∈ m.directoryPlaces user, ¬ place user f.path <+: names
  /-- No file stands above another. -/
  level : ∀ f ∈ m.files, ∀ g ∈ m.files, place user f.path <+: place user g.path →
    place user f.path = place user g.path
  fetches : ∀ f ∈ m.files, ∀ source ∈ f.source, ∃ bytes, fetch source = .ok bytes

/-- A map from names to kinds that holds what a manifest describes and nothing else. -/
structure Describes (m : Manifest) (user : String) (fetch : Fetcher)
    (kindAt : List String → Option Kind) : Prop where
  directory_iff : ∀ names, kindAt names = some .directory ↔
    (∃ dir ∈ m.directoryPlaces user, names <+: dir) ∨
      ∃ f ∈ m.files, names <+: place user f.path ∧ names ≠ place user f.path
  file_iff : ∀ names content, kindAt names = some (.file content) ↔
    ∃ f, m.fileAt? user names = some f ∧ f.Asks fetch content

end Manifest

end TreeShell
