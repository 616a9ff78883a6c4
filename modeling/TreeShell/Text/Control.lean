/-! Control characters, and the visible form in which a message names a character that the
reader might not see. -/

namespace TreeShell.Text

/-- The 65 characters of Unicode's general category Cc. -/
def isControl (c : Char) : Bool :=
  c.toNat < 0x20 || (0x7F ≤ c.toNat && c.toNat ≤ 0x9F)

/-- The digits of a number in base sixteen, lower case, without leading zeros. -/
def hex (n : Nat) : List Char :=
  Nat.toDigits 16 n

/-- Printable ASCII stands for itself, quotes and the backslash behind a backslash; a tab and
the line ends have their letters, and any other character its code point in braces. -/
def visible (c : Char) : String :=
  if c = '\t' then "\\t"
  else if c = '\r' then "\\r"
  else if c = '\n' then "\\n"
  else if c = '\'' || c = '"' || c = '\\' then String.ofList ['\\', c]
  else if 0x20 ≤ c.toNat && c.toNat ≤ 0x7E then String.ofList [c]
  else "\\u\x7b" ++ String.ofList (hex c.toNat) ++ "\x7d"

end TreeShell.Text
