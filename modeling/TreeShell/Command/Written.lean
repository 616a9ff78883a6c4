import TreeShell.Command

/-! A command as a line of text. Words stand between single quotes, so that they may hold any
character; the name of an option has a backslash before each of its characters. -/

namespace TreeShell

/-- What can stand behind the name of a command. -/
inductive Part
  | argument (value : String)
  | shortOption (name : String)
  | longOption (name : String)
  | redirect (r : Redirect)
  deriving DecidableEq, Repr

/-- Between single quotes a backslash stands before a quote and before a backslash. -/
def guardQuoted (c : Char) : List Char :=
  if c = '\'' || c = '\\' then ['\\', c] else [c]

def quoted (word : String) : List Char :=
  '\'' :: (word.toList.flatMap guardQuoted ++ ['\''])

/-- A text with a backslash before each of its characters. -/
def guarded (name : String) : List Char :=
  name.toList.flatMap fun c => ['\\', c]

def RedirectMode.mark : RedirectMode → List Char
  | .write => ['>']
  | .append => ['>', '>']

/-- The target follows its mark at once, or behind a space. -/
def Part.written (spaced : Bool) : Part → List Char
  | .argument value => quoted value
  | .shortOption name => '-' :: guarded name
  | .longOption name => '-' :: '-' :: guarded name
  | .redirect r => r.mode.mark ++ (if spaced then [' '] else []) ++ quoted r.target

namespace Command

/-- Puts a part before those of its kind. -/
def consPart : Part → Command → Command
  | .argument value => consArgument value
  | .shortOption name => consShortOption name
  | .longOption name => consLongOption name
  | .redirect r => consRedirect r

/-- The command that a name and the parts behind it make. -/
def ofParts (name : String) (parts : List Part) : Command :=
  parts.foldr consPart { empty with name }

/-- The parts of a command, kind by kind. -/
def parts (c : Command) : List Part :=
  c.arguments.map .argument ++ c.shortOptions.map .shortOption ++
    c.longOptions.map .longOption ++ c.redirects.map .redirect

/-- A name and the parts behind it with single spaces between them. -/
def lineOf (spaced : Bool) (name : String) (parts : List Part) : String :=
  .ofList ([' '].intercalate (quoted name :: parts.map (Part.written spaced)))

/-- The line that a command is written as. -/
def written (c : Command) : String :=
  lineOf false c.name c.parts

/-- An option without a name can neither be written nor read. -/
def OptionsNamed (c : Command) : Prop :=
  (∀ name ∈ c.shortOptions, name ≠ "") ∧ ∀ name ∈ c.longOptions, name ≠ ""

end Command

end TreeShell
