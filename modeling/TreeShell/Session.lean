import TreeShell.FileError
import TreeShell.Tree.Change

/-! A user's session: a tree, the directory the user is in, and the home directory, whose path
is the user's name below `/home`. Paths given by the user are resolved here. -/

namespace TreeShell

structure Session where
  tree : Tree
  cwd : Handle
  home : Handle
  user : String
  deriving DecidableEq, Repr

/-- What a path leads to once its parent is known to be a directory. -/
inductive Place
  | existing (h : Handle)
  | vacant (parent : Handle) (name : String)
  deriving DecidableEq, Repr

namespace Session

/-- The names of a user's home directory. -/
def homeNames (user : String) : List String := ["home", user]

/-- A session over a tree that holds the user's home directory; it starts there. -/
def ofTree? (tree : Tree) (user : String) : Option Session :=
  match tree.walk Tree.root (homeNames user) with
  | .ok home => if tree.isDirectory home then some ⟨tree, home, home, user⟩ else none
  | .error _ => none

/-- What a host is told that offers a tree without the user's home directory. -/
def homeRule (user : String) : String :=
  "/home/" ++ user ++ " must exist before a session is created"

/-- A session over a tree that holds the home directory and nothing else. -/
def withHome (user : String) : Session :=
  match Tree.empty.createDirectories (homeNames user) with
  | (some home, tree) => ⟨tree, home, home, user⟩
  | (none, tree) => ⟨tree, Tree.root, Tree.root, user⟩

/-- The names that a path starts from. -/
def anchorNames (s : Session) : Path.Anchor → List String
  | .root => []
  | .home => s.tree.segmentsOf s.home
  | .here => s.tree.segmentsOf s.cwd

/-- The names from the root that a path stands for. -/
def segments (s : Session) (path : String) : List String :=
  Path.normalize (s.anchorNames (Path.anchor path).1) (Path.anchor path).2

/-- Why a walk along `path` failed. -/
def walkFault (path : String) : WalkError → FileError
  | .missing _ => .noSuchFileOrDirectory path
  | .notDirectory _ => .notADirectory path

/-- The node that a path names. An empty path names nothing, and a path that ends in a slash
names no file. -/
def resolve (s : Session) (path : String) : Except FileError Handle :=
  if path.isEmpty then .error (.noSuchFileOrDirectory path)
  else
    match s.tree.walk Tree.root (s.segments path) with
    | .error e => .error (walkFault path e)
    | .ok h =>
      if Path.endsInSlash path && !s.tree.isDirectory h then .error (.notADirectory path)
      else .ok h

/-- The place of the last name of a path in the directory that the names before it lead to. -/
def locate (s : Session) (path : String) : Except FileError Place :=
  if path.isEmpty then .error (.noSuchFileOrDirectory path)
  else
    match (s.segments path).getLast? with
    | none => .ok (.existing Tree.root)
    | some name =>
      match s.tree.walk Tree.root (s.segments path).dropLast with
      | .error e => .error (walkFault path e)
      | .ok parent =>
        if s.tree.isDirectory parent then
          match s.tree.child? parent name with
          | some h => .ok (.existing h)
          | none => .ok (.vacant parent name)
        else .error (.notADirectory path)

/-- The place of a file. A path that ends in a slash must name an existing directory. -/
def locateFile (s : Session) (path : String) : Except FileError Place :=
  match s.locate path with
  | .error e => .error e
  | .ok place =>
    if Path.endsInSlash path then
      match place with
      | .existing h => if s.tree.isDirectory h then .ok place else .error (.notADirectory path)
      | .vacant .. => .error (.notADirectory path)
    else .ok place

/-- The absolute path of the working directory. -/
def workingPath (s : Session) : String :=
  s.tree.pathOf s.cwd

/-- The working directory as a prompt shows it: a tilde stands for the path of the home
directory, also at the start of a longer path. -/
def displayedPath (s : Session) : String :=
  let here := s.workingPath.toList
  let home := (s.tree.pathOf s.home).toList
  if here = home then "~"
  else if (home ++ ['/']).isPrefixOf here then .ofList ('~' :: here.drop home.length)
  else .ofList here

def isDirectory (s : Session) (path : String) : Bool :=
  match s.resolve path with
  | .ok h => s.tree.isDirectory h
  | .error _ => false

def pathExists (s : Session) (path : String) : Bool :=
  match s.resolve path with
  | .ok _ => true
  | .error _ => false

end Session

end TreeShell
