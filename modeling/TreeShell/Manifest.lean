/-! The manifest of an initial tree: directories, and files with where their content comes
from. -/

namespace TreeShell

/-- A file whose bytes are fetched from `source`, or else are those of `content`, or else are
none. -/
structure ManifestFile where
  path : String
  source : Option String
  content : Option String
  deriving DecidableEq, Repr

structure Manifest where
  directories : List String
  files : List ManifestFile
  deriving DecidableEq, Repr

/-- The tree that a terminal starts with. -/
def Manifest.bundled : Manifest where
  directories := ["~/documents", "~/downloads"]
  files := [
    ⟨"~/motd.txt", some "motd.txt", none⟩,
    ⟨"~/.profile", none, some "# ~/.profile\n"⟩]

end TreeShell
