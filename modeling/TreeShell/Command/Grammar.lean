import TreeShell.Command
import TreeShell.Token.Scan

/-! From items to a command. A line is empty, or an argument, the command's name, followed by
options, arguments and redirects with their targets. The first item that breaks this rule is
the one reported, whether its fault is its own or its place. -/

namespace TreeShell

inductive ParseError
  | lex (e : LexError)
  | unexpectedToken (offset : Nat) (found : Token.Kind)
  | missingRedirectTarget (offset : Nat)
  deriving DecidableEq, Repr

def ParseError.message : ParseError → String
  | .lex e => "syntax error: " ++ e.message
  | .unexpectedToken offset found =>
    "syntax error: expected argument at " ++ toString offset ++ ", got " ++ found.description
  | .missingRedirectTarget offset =>
    "syntax error: expected redirect target at " ++ toString offset

namespace Command

/-- The value of an item where only an argument may stand. -/
def argumentOf : Except LexError Token → Except ParseError String
  | .error e => .error (.lex e)
  | .ok t =>
    match t.kind with
    | .argument value => .ok value
    | kind => .error (.unexpectedToken t.offset kind)

/-- Reads what follows a command's name on a line of `size` bytes. -/
def ofOperands (size : Nat) : List (Except LexError Token) → Except ParseError Command
  | [] => .ok empty
  | .error e :: _ => .error (.lex e)
  | .ok t :: rest =>
    match t.kind with
    | .longOption name => (ofOperands size rest).map (consLongOption name)
    | .shortOption name => (ofOperands size rest).map (consShortOption name)
    | .argument value => (ofOperands size rest).map (consArgument value)
    | .redirect mode =>
      match rest with
      | [] => .error (.missingRedirectTarget size)
      | target :: rest =>
        match argumentOf target with
        | .error e => .error e
        | .ok path => (ofOperands size rest).map (consRedirect ⟨path, mode⟩)

/-- Reads the outcomes of the items of a line of `size` bytes. -/
def ofOutcomes (size : Nat) : List (Except LexError Token) → Except ParseError Command
  | [] => .ok empty
  | first :: rest =>
    match argumentOf first with
    | .error e => .error e
    | .ok name => (ofOperands size rest).map fun c => { c with name }

/-- The command of a line. A target that is missing is missed where reading stopped, at the end
of the line. -/
def parse (line : String) : Except ParseError Command :=
  ofOutcomes (Text.byteLength line.toList) ((scan line).map Item.outcome)

end Command

end TreeShell
