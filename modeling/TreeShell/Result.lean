import TreeShell.Session.Operations

/-! What comes of a command: what is shown, and what the host is asked to do. -/

namespace TreeShell

/-- What a command shows. -/
inductive Output
  | silent
  | text (text : String)
  | error (message : String)
  deriving DecidableEq, Repr

/-- What a command asks of the host. -/
inductive HostAction
  | clear
  | openFile (request : OpenRequest)
  deriving DecidableEq, Repr

/-- What comes of a command besides the session it leaves. -/
structure Result where
  output : Output
  actions : List HostAction
  deriving DecidableEq, Repr

namespace Output

def isError : Output → Bool
  | .error _ => true
  | _ => false

/-- The text to show, empty if there is none. -/
def shown : Output → String
  | .silent => ""
  | .text line => line
  | .error message => message

/-- The text that redirects receive. -/
def redirected : Output → String
  | .text line => line
  | _ => ""

/-- What is left to show once the text went elsewhere. -/
def withoutText : Output → Output
  | .text _ => .silent
  | output => output

end Output

namespace Result

def empty : Result := ⟨.silent, []⟩

def ofText (text : String) : Result := ⟨.text text, []⟩

def ofError (message : String) : Result := ⟨.error message, []⟩

def ofActions (actions : List HostAction) : Result := ⟨.silent, actions⟩

end Result

end TreeShell
