import TreeShell.Completion

/-! What can be offered for an input line, told apart from how it is found: the candidates for a
partial name, and what an answer says about them. -/

namespace TreeShell.Completion

/-- The path of the directory part of a word; there is none if the part is empty. -/
def directoryPath? (dir : List Char) : Option String :=
  if dir = [] then none else some (.ofList dir)

/-- The node that the directory part of a word names: the working directory if it is empty. -/
def directoryOf (s : Session) (dir : List Char) : Except FileError Handle :=
  (directoryPath? dir).elim (.ok s.cwd) s.resolve

/-- The verbs that start with a word. -/
def VerbCandidate (word : List Char) (name : String) : Prop :=
  name ∈ ["cat", "cd", "clear", "echo", "ls", "mkdir", "pwd", "rm", "touch", "wget", "xdg-open"] ∧
    word <+: name.toList

/-- The entries of a directory that start with a part of a name. Those that start with a dot need
one in the part, and behind `cd` only directories will do. -/
def EntryCandidate (s : Session) (head dir part : List Char) (name : String) : Prop :=
  ∃ entries, s.list (directoryPath? dir) = .ok entries ∧ name ∈ entries ∧
    part <+: name.toList ∧
    (name.toList.head? = some '.' → part.head? = some '.') ∧
    (Text.StartsWithWord head ['c', 'd'] → name.toList.getLast? = some '/')

/-- An answer that tells all candidates for the name that starts behind `front` in an input line,
and only continues the line. -/
structure Offers (candidate : String → Prop) (input : String) (front : List Char)
    (answer : Option Completion) : Prop where
  none_iff : answer = none ↔ ∀ name, ¬ candidate name
  single : ∀ line, answer = some (.single line) →
    (input.toList <+: line.toList ∧ line ≠ input) ∧
    ∃ name, (∀ n, candidate n ↔ n = name) ∧
      line.toList = front ++ name.toList ++
        if name.toList.getLast? = some '/' then [] else [' ']
  multiple : ∀ line names, answer = some (.multiple line names) →
    input.toList <+: line.toList ∧
    (2 ≤ names.length ∧ names.Nodup ∧ ∀ n, n ∈ names ↔ candidate n) ∧
    ∃ common, line.toList = front ++ common ∧
      Text.SharedStart (names.map String.toList) common

end TreeShell.Completion
