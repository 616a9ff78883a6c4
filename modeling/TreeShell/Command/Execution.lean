import TreeShell.Command.Grammar
import TreeShell.Verb.Run

/-! Running a command: its verb first, then its redirects in their order, over the session that
the verb left. -/

namespace TreeShell

namespace Command

/-- Runs the verb that a command names. A failure is shown behind the verb's name. -/
def runVerb (c : Command) (fetch : Fetcher) (s : Session) : Result × Session :=
  match Verb.ofName? c.name with
  | none => (.ofError (c.name ++ ": Command not found"), s)
  | some v =>
    match v.run fetch c s with
    | (.ok result, s) => (result, s)
    | (.error e, s) => (.ofError (v.name ++ ": " ++ e.message), s)

/-- Gives the bytes of a text to each target in turn; the first that cannot be opened ends
it. -/
def feed (text : String) : List Redirect → Session → Except FileError Unit × Session
  | [], s => (.ok (), s)
  | r :: rs, s =>
    match s.modifyFile r.target (.receive r.mode (Text.utf8 text.toList)) with
    | (.error e, s) => (.error e, s)
    | (.ok _, s) => feed text rs s

/-- Sends a result's text to the redirects of a command. The text is then no longer shown; an
error still is, and its targets receive an empty text. -/
def redirect (c : Command) (result : Result) (s : Session) : Result × Session :=
  if c.redirects.isEmpty then (result, s)
  else
    match feed result.output.redirected c.redirects s with
    | (.ok (), s) => ({ result with output := result.output.withoutText }, s)
    | (.error e, s) => ({ result with output := .error (c.name ++ ": " ++ e.message) }, s)

/-- Runs a command. One without a name does nothing at all. -/
def execute (c : Command) (fetch : Fetcher) (s : Session) : Result × Session :=
  if c.isEmpty then (.empty, s)
  else
    match c.runVerb fetch s with
    | (result, s) => c.redirect result s

end Command

end TreeShell
