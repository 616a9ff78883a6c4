import TreeShell.Session.Operations
import TreeShell.Text.Blank
import TreeShell.Verb

/-! Completing an input line. The first word is completed as a verb, a later one as a path: the
part up to its last slash names a directory, and the rest is the start of a name in it. -/

namespace TreeShell

/-- The whole line with the only match, or the line with what all matches share. -/
inductive Completion
  | single (line : String)
  | multiple (line : String) (names : List String)
  deriving DecidableEq, Repr

namespace Completion

/-- The characters behind which a new word starts. -/
def endsWord (c : Char) : Bool :=
  c = ' ' || c = '\t'

/-- Completes a line whose text before the matched name is `before`. The only match is followed
by a blank, a directory's name excepted. -/
def ofMatches (before : List Char) : List String → Option Completion
  | [] => none
  | [name] =>
    let after := if name.toList.getLast? = some '/' then [] else [' ']
    some (.single (.ofList (before ++ name.toList ++ after)))
  | names =>
    some (.multiple (.ofList (before ++ Text.sharedStartAll (names.map String.toList))) names)

/-- The verbs that a first word may become. -/
def verbMatches (word : List Char) : List String :=
  Verb.names.filter fun name => word.isPrefixOf name.toList

/-- The names of the directory that `dir` names, or of the working directory. -/
def namesIn (s : Session) (dir : List Char) : List String :=
  if dir.isEmpty then (s.list none).toOption.getD []
  else if s.isDirectory (.ofList dir) then (s.list (some (.ofList dir))).toOption.getD []
  else []

/-- The names that a partial name may become. Names that start with a dot are offered only
behind a dot. -/
def nameMatches (directoriesOnly : Bool) (part : List Char) (names : List String) :
    List String :=
  names.filter fun name =>
    part.isPrefixOf name.toList &&
      (part.head? = some '.' || name.toList.head? != some '.') &&
      (!directoriesOnly || name.toList.getLast? = some '/')

end Completion

/-- What can be offered for an input line. The word to complete starts behind its last space or
tab. -/
def complete (input : String) (s : Session) : Option Completion :=
  let line := input.toList
  if Text.allBlank line then none
  else
    let (head, word) := Text.cutAfterLast Completion.endsWord line
    if Text.allBlank head then Completion.ofMatches head (Completion.verbMatches word)
    else
      let (dir, part) := Text.cutAfterLast (· = '/') word
      let directoriesOnly := Text.firstWord head = Verb.cd.name.toList
      Completion.ofMatches (head ++ dir)
        (Completion.nameMatches directoriesOnly part (Completion.namesIn s dir))

end TreeShell
