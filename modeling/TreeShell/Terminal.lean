import TreeShell.Command.Execution
import TreeShell.Completion
import TreeShell.History
import TreeShell.Session.Bootstrap

/-! The terminal: keys in, actions for the screen out. Enter runs a line, Tab completes one,
the arrows walk the history, and two control keys drop the line or clear the screen. -/

namespace TreeShell

structure Terminal where
  session : Session
  fetch : Fetcher
  history : History

/-- A key press, with the text of the input field. -/
structure KeyEvent where
  key : String
  input : String
  ctrl : Bool
  deriving DecidableEq, Repr

/-- What the screen is to do, in order. -/
inductive ScreenAction
  | addHistoryItem (prompt input output : String)
  | setInputValue (value : String)
  | clearHistory
  | clearInput
  | openFile (request : OpenRequest)
  deriving DecidableEq, Repr

namespace Terminal

/-- The host that a prompt names. -/
def hostName : String := "mtkonge"

/-- Stands behind a line that was given up. -/
def interruptMark : String := "^C"

def historyCapacity : Nat := 100

def ofSession (session : Session) (fetch : Fetcher) : Terminal :=
  ⟨session, fetch, .withCapacity historyCapacity⟩

/-- A terminal over the bundled manifest's tree. -/
def boot (user : String) (fetch : Fetcher) : Except BootError Terminal :=
  (Session.bootstrap .bundled user fetch).map fun session => ofSession session fetch

def prompt (t : Terminal) : String :=
  t.session.user ++ "@" ++ hostName ++ ":" ++ t.session.displayedPath ++ "$ "

/-- What the screen does about an action of a command. -/
def screenAction : HostAction → ScreenAction
  | .clear => .clearHistory
  | .openFile request => .openFile request

/-- What the screen does about a result. A command that clears the screen leaves no trace of
itself on it. -/
def resultActions (prompt line : String) (result : Result) : List ScreenAction :=
  let item := ScreenAction.addHistoryItem prompt line result.output.shown
  (if result.actions.contains .clear then [] else [item]) ++
    result.actions.map screenAction ++ [.clearInput]

/-- Runs a submitted line and reports it under the prompt it was typed at. -/
def runLine (line : String) (t : Terminal) : List ScreenAction × Terminal :=
  let t' := { t with history := t.history.push line }
  match Command.parse line with
  | .error e => ([.addHistoryItem t.prompt line e.message, .clearInput], t')
  | .ok command =>
    match command.execute t.fetch t.session with
    | (result, session) => (resultActions t.prompt line result, { t' with session })

/-- Offers what an input line may become. -/
def completeLine (input : String) (t : Terminal) : List ScreenAction :=
  match complete input t.session with
  | none => []
  | some (.single line) => [.setInputValue line]
  | some (.multiple line names) =>
    [.addHistoryItem t.prompt input ("  ".intercalate names), .setInputValue line]

/-- Handles a key held with the control key. -/
def handleControl (key input : String) (t : Terminal) : List ScreenAction × Terminal :=
  match key with
  | "c" =>
    ([.addHistoryItem t.prompt (input ++ interruptMark) "", .clearInput],
      { t with history := t.history.reset })
  | "l" => ([.clearHistory], t)
  | _ => ([], t)

/-- Handles a key. Keys without a meaning do nothing. -/
def handleKey (event : KeyEvent) (t : Terminal) : List ScreenAction × Terminal :=
  if event.ctrl then t.handleControl event.key event.input
  else
    match event.key with
    | "Enter" => t.runLine event.input
    | "Tab" => (t.completeLine event.input, t)
    | "ArrowUp" =>
      match t.history.older with
      | (line, history) => (line.toList.map .setInputValue, { t with history })
    | "ArrowDown" =>
      match t.history.newer with
      | (line, history) => ([.setInputValue (line.getD "")], { t with history })
    | _ => ([], t)

end Terminal

end TreeShell
