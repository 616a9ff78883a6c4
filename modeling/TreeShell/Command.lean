import TreeShell.Token

/-! A command: what one line asks for, once options, arguments and redirects are told apart. -/

namespace TreeShell

/-- A file that receives the text of a command. -/
structure Redirect where
  target : String
  mode : RedirectMode
  deriving DecidableEq, Repr

/-- Each list keeps the order of the line. An empty name asks for nothing. -/
structure Command where
  name : String
  shortOptions : List String
  longOptions : List String
  arguments : List String
  redirects : List Redirect
  deriving DecidableEq, Repr

namespace Command

/-- The command of a line without tokens. -/
def empty : Command := ⟨"", [], [], [], []⟩

def isEmpty (c : Command) : Bool :=
  c.name = ""

def consShortOption (name : String) (c : Command) : Command :=
  { c with shortOptions := name :: c.shortOptions }

def consLongOption (name : String) (c : Command) : Command :=
  { c with longOptions := name :: c.longOptions }

def consArgument (value : String) (c : Command) : Command :=
  { c with arguments := value :: c.arguments }

def consRedirect (r : Redirect) (c : Command) : Command :=
  { c with redirects := r :: c.redirects }

end Command

end TreeShell
