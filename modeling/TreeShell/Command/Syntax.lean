import TreeShell.Command.Grammar
import TreeShell.Command.Written

/-! The syntax of command lines, told apart from how a line is read: which tokens make up a
command, and which item of a line is the first that no command has at its place. -/

namespace TreeShell

namespace Part

/-- The tokens that a part is made of. -/
def kinds : Part → List Token.Kind
  | argument value => [.argument value]
  | shortOption name => [.shortOption name]
  | longOption name => [.longOption name]
  | redirect r => [.redirect r.mode, .argument r.target]

def argument? : Part → Option String
  | argument value => some value
  | _ => none

def shortOption? : Part → Option String
  | shortOption name => some name
  | _ => none

def longOption? : Part → Option String
  | longOption name => some name
  | _ => none

def redirect? : Part → Option Redirect
  | redirect r => some r
  | _ => none

end Part

namespace Command

/-- The tokens of a line and the command they make: none at all, or a name and the parts behind
it. -/
inductive Forms : List Token.Kind → Command → Prop
  | blank : Forms [] empty
  | named (name : String) (parts : List Part) :
    Forms (.argument name :: parts.flatMap Part.kinds) {
      name
      shortOptions := parts.filterMap Part.shortOption?
      longOptions := parts.filterMap Part.longOption?
      arguments := parts.filterMap Part.argument?
      redirects := parts.filterMap Part.redirect? }

/-- Some command begins with these tokens. -/
def Begins (kinds : List Token.Kind) : Prop :=
  ∃ more c, Forms (kinds ++ more) c

/-- Only an argument can follow: the name of the command, or the target of a redirect. -/
def AwaitsArgument (kinds : List Token.Kind) : Prop :=
  kinds = [] ∨ ∃ mode, kinds.getLast? = some (.redirect mode)

/-- The error of a line of `size` bytes whose items have these outcomes. What stands before the
item at fault are tokens with which some command begins. -/
inductive Faulty (size : Nat) : List (Except LexError Token) → ParseError → Prop
  | lex {tokens : List Token} (e : LexError) (rest : List (Except LexError Token)) :
    Begins (tokens.map Token.kind) → Faulty size (tokens.map .ok ++ .error e :: rest) (.lex e)
  | unexpected {tokens : List Token} (t : Token) (rest : List (Except LexError Token)) :
    Begins (tokens.map Token.kind) → AwaitsArgument (tokens.map Token.kind) →
    (∀ value, t.kind ≠ .argument value) →
    Faulty size (tokens.map .ok ++ .ok t :: rest) (.unexpectedToken t.offset t.kind)
  | missingTarget {tokens : List Token} {mode : RedirectMode} :
    Begins (tokens.map Token.kind) →
    (tokens.map Token.kind).getLast? = some (.redirect mode) →
    Faulty size (tokens.map .ok) (.missingRedirectTarget size)

end Command

end TreeShell
