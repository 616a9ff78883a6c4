/-! Paths as text, and the lists of names they stand for. Dots are resolved by the text alone:
a name followed by two dots need not exist, and two dots at the root stay there. -/

namespace TreeShell.Path

/-- The parts of a path between its slashes, empty ones left out. -/
def components (path : String) : List String :=
  ((path.toList.splitOn '/').filter (fun part => !part.isEmpty)).map String.ofList

/-- Follows one component from the directory with the given names. -/
def follow (names : List String) (component : String) : List String :=
  if component = ".." then names.dropLast
  else if component = "." then names
  else names ++ [component]

/-- The names that `path` leads to from the directory with the names `base`. -/
def normalize (base : List String) (path : String) : List String :=
  (components path).foldl follow base

/-- The text of an absolute path. -/
def absolute (names : List String) : String :=
  "/" ++ "/".intercalate names

/-- Such a path can name only a directory. -/
def endsInSlash (path : String) : Bool :=
  path.toList.getLast? = some '/'

/-- A path whose last component is a dot or two names no entry of its own. -/
def endsInDots (path : String) : Bool :=
  (components path).getLast?.any fun last => last = "." || last = ".."

/-- Where a path starts. -/
inductive Anchor
  | root
  | home
  | here
  deriving DecidableEq, Repr

/-- Takes the anchor off a path. A tilde means home only as the whole first component. -/
def anchor (path : String) : Anchor × String :=
  match path.toList with
  | '/' :: rest => (.root, .ofList rest)
  | ['~'] => (.home, "")
  | '~' :: '/' :: rest => (.home, .ofList rest)
  | _ => (.here, path)

@[simp] theorem normalize_empty (base : List String) : normalize base "" = base := by
  rfl

end TreeShell.Path
