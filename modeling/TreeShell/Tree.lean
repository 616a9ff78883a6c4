import Std.Data.ExtTreeMap
import TreeShell.Content
import TreeShell.Path

/-! A tree of files and directories, kept as a table of slots. A directory holds its entries by
name; a node knows its own name and the directory that holds it, so that paths can be read from
either end. A slot that was emptied stays empty, and a handle to a removed node names nothing
ever after. -/

namespace TreeShell

/-- The number of a slot. -/
abbrev Handle := Nat

/-- The entries of a directory, in the order of the names' code points, which is that of their
bytes. -/
abbrev Entries := Std.ExtTreeMap String Handle

/-- What a path can name. -/
inductive Kind
  | directory
  | file (content : Content)
  deriving DecidableEq, Repr

inductive Payload
  | directory (entries : Entries)
  | file (content : Content)
  deriving DecidableEq, Repr

/-- What a new node of a kind holds: a directory has no entries yet. -/
def Kind.payload : Kind → Payload
  | .directory => .directory ∅
  | .file content => .file content

/-- Changes the entries of a directory. -/
def Payload.mapEntries (f : Entries → Entries) : Payload → Payload
  | .directory entries => .directory (f entries)
  | .file content => .file content

/-- Changes the content of a file. -/
def Payload.mapContent (f : Content → Content) : Payload → Payload
  | .directory entries => .directory entries
  | .file content => .file (f content)

structure Node where
  name : String
  parent : Option Handle
  payload : Payload
  deriving DecidableEq, Repr

namespace Node

def entries? (n : Node) : Option Entries :=
  match n.payload with
  | .directory entries => some entries
  | .file _ => none

def isDirectory (n : Node) : Bool :=
  n.entries?.isSome

def content? (n : Node) : Option Content :=
  match n.payload with
  | .directory _ => none
  | .file content => some content

/-- The name of a node and the directory that holds it. -/
def link (n : Node) : String × Option Handle :=
  (n.name, n.parent)

/-- The node with another payload under the same name in the same place. -/
def mapPayload (f : Payload → Payload) (n : Node) : Node :=
  { n with payload := f n.payload }

end Node

structure Tree where
  slots : Array (Option Node)
  deriving DecidableEq, Repr

/-- Why a walk ended early: the index of the name that is missing, or that names a file while
more names follow. -/
inductive WalkError
  | missing (index : Nat)
  | notDirectory (index : Nat)
  deriving DecidableEq, Repr

namespace Tree

/-- The handle of the root directory. -/
def root : Handle := 0

/-- The tree that holds the root directory alone. -/
def empty : Tree := ⟨#[some ⟨"", none, .directory ∅⟩]⟩

def node? (t : Tree) (h : Handle) : Option Node :=
  t.slots[h]?.join

/-- The entries of a directory; none for a file or an empty slot. -/
def entries? (t : Tree) (h : Handle) : Option Entries :=
  (t.node? h).bind Node.entries?

def isDirectory (t : Tree) (h : Handle) : Bool :=
  (t.node? h).any Node.isDirectory

def parent? (t : Tree) (h : Handle) : Option Handle :=
  (t.node? h).bind Node.parent

def content? (t : Tree) (h : Handle) : Option Content :=
  (t.node? h).bind Node.content?

def link? (t : Tree) (h : Handle) : Option (String × Option Handle) :=
  (t.node? h).map Node.link

/-- The entry of a directory with the given name. -/
def child? (t : Tree) (d : Handle) (name : String) : Option Handle :=
  (t.entries? d).bind (·[name]?)

/-- The names and handles of a directory's entries in order; empty for what is no directory. -/
def entries (t : Tree) (d : Handle) : List (String × Handle) :=
  (t.entries? d).elim [] (·.toList)

/-- The handles from `h` up to the root, `h` first. A parent link always leads to an older
slot; a link that did not would not be followed. -/
def lineage (t : Tree) (h : Handle) : List Handle :=
  match t.parent? h with
  | none => [h]
  | some p => if p < h then h :: t.lineage p else [h]
termination_by h

/-- The names from the root down to a node, the root's left out; empty for an empty slot. -/
def segmentsOf (t : Tree) (h : Handle) : List String :=
  ((t.lineage h).filterMap fun i =>
    (t.node? i).bind fun n => if n.parent.isSome then some n.name else none).reverse

def pathOf (t : Tree) (h : Handle) : String :=
  Path.absolute (t.segmentsOf h)

/-- Whether `h` is `ancestor` or lies below it. -/
def contains (t : Tree) (ancestor h : Handle) : Bool :=
  (t.lineage h).contains ancestor

/-- Follows names from a node that was reached by `index` names. -/
def walkFrom (t : Tree) (index : Nat) (h : Handle) : List String → Except WalkError Handle
  | [] => .ok h
  | name :: names =>
    match t.entries? h with
    | none => .error (.notDirectory (index - 1))
    | some entries =>
      match entries[name]? with
      | none => .error (.missing index)
      | some c => t.walkFrom (index + 1) c names

/-- Follows names from a node. All but the last must be directories; no names lead nowhere
else, even from an empty slot. -/
def walk (t : Tree) (start : Handle) (names : List String) : Except WalkError Handle :=
  t.walkFrom 0 start names

/-- The last directory that exists along names from `h`, and the names that are missing below
it; or, where a name belongs to a file, the names behind that one. -/
def existingPart (t : Tree) (h : Handle) : List String → Except (List String) (Handle × List String)
  | [] => .ok (h, [])
  | name :: names =>
    match t.child? h name with
    | none => .ok (h, name :: names)
    | some c => if t.isDirectory c then t.existingPart c names else .error names

theorem node?_empty_root : empty.node? root = some ⟨"", none, .directory ∅⟩ := rfl

theorem isDirectory_eq_isSome (t : Tree) (h : Handle) :
    t.isDirectory h = (t.entries? h).isSome := by
  cases hn : t.node? h <;> simp [isDirectory, entries?, hn, Node.isDirectory]

theorem isDirectory_iff {t : Tree} {h : Handle} :
    t.isDirectory h = true ↔ ∃ entries, t.entries? h = some entries := by
  rw [isDirectory_eq_isSome, Option.isSome_iff_exists]

theorem isDirectory_of_child? {t : Tree} {d c : Handle} {name : String}
    (hc : t.child? d name = some c) : t.isDirectory d = true := by
  obtain ⟨entries, he, _⟩ := Option.bind_eq_some_iff.mp hc
  exact isDirectory_iff.mpr ⟨entries, he⟩

theorem parent?_eq_link? (t : Tree) (h : Handle) : t.parent? h = (t.link? h).bind Prod.snd := by
  cases hn : t.node? h <;> simp [parent?, link?, hn, Node.link]

theorem parent?_of_link? {t : Tree} {h : Handle} {name : String} {parent : Option Handle}
    (hl : t.link? h = some (name, parent)) : t.parent? h = parent := by
  rw [parent?_eq_link?, hl]
  rfl

end Tree

end TreeShell
