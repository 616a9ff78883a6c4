import TreeShell.Text.Alphanumeric
import TreeShell.Text.Control

/-! The tokens of a command line, the classes of characters that tell them apart, and the
faults that a line can have before it has any grammar. -/

namespace TreeShell

/-- What a redirect does to the bytes its target already holds. -/
inductive RedirectMode
  | write
  | append
  deriving DecidableEq, Repr

namespace Token

inductive Kind
  | longOption (name : String)
  | shortOption (name : String)
  | argument (value : String)
  | redirect (mode : RedirectMode)
  deriving DecidableEq, Repr

/-- The word by which a message names a kind of token. -/
def Kind.description : Kind → String
  | .longOption _ => "long_option"
  | .shortOption _ => "short_option"
  | .argument _ => "argument"
  | .redirect .write => "redirect_write"
  | .redirect .append => "redirect_append"

end Token

/-- A token with the place it was read from, in bytes. -/
structure Token where
  offset : Nat
  length : Nat
  kind : Token.Kind
  deriving DecidableEq, Repr

inductive LexFault
  | illegalCharacter (c : Char)
  | unterminatedQuote
  | optionWithoutValue
  deriving DecidableEq, Repr

/-- A fault and the byte offset that a message gives for it. -/
structure LexError where
  fault : LexFault
  offset : Nat
  deriving DecidableEq, Repr

def LexFault.message : LexFault → String
  | .illegalCharacter c => "illegal character '" ++ Text.visible c ++ "'"
  | .unterminatedQuote => "unterminated quote"
  | .optionWithoutValue => "option without value"

def LexError.message (e : LexError) : String :=
  e.fault.message ++ " at " ++ toString e.offset

/-- Characters that only keep tokens apart. -/
def isSeparator (c : Char) : Bool :=
  c = ' ' || c = '\t' || c = '\r' || c = '\n'

def isQuote (c : Char) : Bool :=
  c = '\'' || c = '"'

/-- Characters that no token holds outside quotes: three marks kept for later use, and the
control characters other than separators. -/
def isIllegal (c : Char) : Bool :=
  c = '|' || c = '<' || c = ';' || (Text.isControl c && !isSeparator c)

/-- Characters of an option's name. -/
def isOptionChar (c : Char) : Bool :=
  Text.isAlphanumeric c || c = '_' || c = '.' || c = '/' || c = '-'

/-- Characters of a word without quotes. -/
def isBareChar (c : Char) : Bool :=
  !isSeparator c && c != '>' && !isQuote c && !isIllegal c

end TreeShell
