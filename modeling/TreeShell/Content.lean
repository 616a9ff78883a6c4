import TreeShell.Text.Utf8
import TreeShell.Token

/-! What a file holds: bytes, and for a download the place they came from. Any change to the
bytes makes them the user's own. -/

namespace TreeShell

inductive Content
  | own (bytes : List UInt8)
  | fetched (bytes : List UInt8) (source : String)
  deriving DecidableEq, Repr

namespace Content

def empty : Content := .own []

def bytes : Content → List UInt8
  | .own bytes => bytes
  | .fetched bytes _ => bytes

def text (c : Content) : String :=
  .ofList (Text.decodeUtf8 c.bytes)

/-- The content after its bytes are replaced. -/
def write (data : List UInt8) (_ : Content) : Content :=
  .own data

/-- The content after `data` is put behind its bytes. -/
def append (data : List UInt8) (c : Content) : Content :=
  .own (c.bytes ++ data)

/-- The bytes that a change in the given mode leaves. -/
def receive (mode : RedirectMode) (data : List UInt8) : Content → Content :=
  match mode with
  | .write => write data
  | .append => append data

end Content

end TreeShell
