import TreeShell.Download
import TreeShell.Session
import TreeShell.Text.Base64
import TreeShell.Text.Cut

/-! What a user can do with files. An operation that changes the session answers with the
session it leaves, also where it fails. -/

namespace TreeShell

/-- A request to the host to show a file outside the terminal: as base 64 text under its name,
or at the place it was fetched from. -/
inductive OpenRequest
  | blob (filename : String) (base64 : String)
  | url (url : String)
  deriving DecidableEq, Repr

/-- The first candidate for a download's name that no entry of the directory `d` has. One more
than there are slots are tried, and that is always enough. -/
def Tree.freeName? (t : Tree) (d : Handle) (name : String) : Option String :=
  ((List.range (t.slots.size + 1)).map (Download.candidate name)).find? fun candidate =>
    (t.child? d candidate).isNone

namespace Session

/-- Goes to a directory, or home without a path. -/
def cd (path : Option String) (s : Session) : Except FileError Unit × Session :=
  match path with
  | none => (.ok (), { s with cwd := s.home })
  | some path =>
    match s.resolve path with
    | .error e => (.error e, s)
    | .ok h =>
      if s.tree.isDirectory h then (.ok (), { s with cwd := h })
      else (.error (.notADirectory path), s)

/-- Makes a directory in one that exists. -/
def makeDirectory (path : String) (s : Session) : Except FileError Unit × Session :=
  match s.locate path with
  | .error e => (.error e, s)
  | .ok (.existing _) => (.error (.fileExists path), s)
  | .ok (.vacant parent name) =>
    match s.tree.create parent name .directory with
    | (some _, tree) => (.ok (), { s with tree })
    | (none, tree) => (.error (.fileExists path), { s with tree })

/-- Makes a directory and those above it, as far as they are missing. The part of the path that
exists is examined before anything is made. -/
def makeDirectories (path : String) (s : Session) : Except FileError Unit × Session :=
  if path.isEmpty then (.error (.noSuchFileOrDirectory path), s)
  else
    match s.tree.existingPart Tree.root (s.segments path) with
    | .error [] => (.error (.fileExists path), s)
    | .error (_ :: _) => (.error (.notADirectory path), s)
    | .ok (h, missing) =>
      match s.tree.createChain h missing with
      | (some _, tree) => (.ok (), { s with tree })
      | (none, tree) => (.error (.notADirectory path), { s with tree })

def mkdir (path : String) (parents : Bool) (s : Session) : Except FileError Unit × Session :=
  if parents then s.makeDirectories path else s.makeDirectory path

/-- Makes an empty file where nothing exists. -/
def touch (path : String) (s : Session) : Except FileError Unit × Session :=
  match s.locateFile path with
  | .error e => (.error e, s)
  | .ok (.existing _) => (.ok (), s)
  | .ok (.vacant parent name) =>
    (.ok (), { s with tree := (s.tree.create parent name (.file .empty)).2 })

/-- The text of a file. -/
def cat (path : String) (s : Session) : Except FileError String :=
  match s.resolve path with
  | .error e => .error e
  | .ok h =>
    match s.tree.content? h with
    | some content => .ok content.text
    | none => .error (.isADirectory path)

/-- The file at a path, made empty if nothing exists there. -/
def createOrOpen (path : String) (s : Session) : Except FileError Handle × Session :=
  match s.locateFile path with
  | .error e => (.error e, s)
  | .ok place =>
    match
      match place with
      | .existing h => (some h, s.tree)
      | .vacant parent name => s.tree.create parent name (.file .empty)
    with
    | (none, tree) => (.error (.notADirectory path), { s with tree })
    | (some h, tree) =>
      match tree.content? h with
      | some _ => (.ok h, { s with tree })
      | none => (.error (.isADirectory path), { s with tree })

/-- Opens the file at a path and changes its content. -/
def modifyFile (path : String) (f : Content → Content) (s : Session) :
    Except FileError Handle × Session :=
  match s.createOrOpen path with
  | (.error e, s) => (.error e, s)
  | (.ok h, s) => (.ok h, { s with tree := s.tree.modifyContent h f })

/-- The text of a path before its last slash; empty if it has none. -/
def parentText (path : String) : String :=
  .ofList (Text.cutAfterLast (· = '/') path.toList).1.dropLast

/-- Stores content at a path and makes the directories above it. -/
def placeFile (path : String) (content : Content) (s : Session) :
    Except FileError Unit × Session :=
  match
    if (parentText path).isEmpty then (.ok (), s) else s.makeDirectories (parentText path)
  with
  | (.error e, s) => (.error e, s)
  | (.ok (), s) =>
    match s.modifyFile path fun _ => content with
    | (.error e, s) => (.error e, s)
    | (.ok _, s) => (.ok (), s)

/-- The root, the home directory and the one that holds it cannot be removed. -/
def isProtected (s : Session) (h : Handle) : Bool :=
  h = Tree.root || h = s.home || some h = s.tree.parent? s.home

/-- Removes a file, or with `recursive` a directory and all below it. Where that takes the
working directory away, the session moves to the directory that held the removed node. -/
def rm (path : String) (recursive : Bool) (s : Session) : Except FileError Unit × Session :=
  match s.resolve path with
  | .error e => (.error e, s)
  | .ok h =>
    if s.isProtected h || Path.endsInDots path then (.error (.operationRefused path), s)
    else if s.tree.isDirectory h && !recursive then (.error (.isADirectory path), s)
    else
      let cwd := if s.tree.contains h s.cwd then (s.tree.parent? h).getD s.home else s.cwd
      (.ok (), { s with tree := (s.tree.remove h).2, cwd })

/-- The names in a directory in order, directories with a slash behind them; for a file the
path itself. Without a path, the working directory. -/
def list (path : Option String) (s : Session) : Except FileError (List String) :=
  match path.elim (.ok s.cwd) s.resolve with
  | .error e => .error e
  | .ok h =>
    if s.tree.isDirectory h then
      .ok ((s.tree.entries h).map fun (name, c) =>
        if s.tree.isDirectory c then name ++ "/" else name)
    else .ok [path.getD ""]

/-- How the host is to open a file. -/
def openRequest (path : String) (s : Session) : Except FileError OpenRequest :=
  match s.resolve path with
  | .error e => .error e
  | .ok h =>
    match s.tree.node? h with
    | some ⟨name, _, .file (.own bytes)⟩ => .ok (.blob name (.ofList (Text.base64 bytes)))
    | some ⟨_, _, .file (.fetched _ source)⟩ => .ok (.url source)
    | _ => .error (.isADirectory path)

/-- Stores a download in the working directory under the first name that is free, and answers
with that name. -/
def saveDownload (name : String) (bytes : List UInt8) (source : String) (s : Session) :
    Except FileError String × Session :=
  if s.tree.isDirectory s.cwd then
    let candidate := (s.tree.freeName? s.cwd name).getD name
    match s.tree.create s.cwd candidate (.file (.fetched bytes source)) with
    | (some _, tree) => (.ok candidate, { s with tree })
    | (none, tree) => (.error (.fileExists candidate), { s with tree })
  else (.error (.noSuchFileOrDirectory s.workingPath), s)

end Session

end TreeShell
