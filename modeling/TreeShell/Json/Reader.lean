import TreeShell.Json

/-! Reading JSON text. The grammar is the strict one: no comments, no trailing commas, no
control characters inside strings, no leading zeros. Each reader takes a value off the front of
the text and returns the rest, or none where the text has another form. -/

namespace TreeShell.Json

def isSpace (c : Char) : Bool :=
  c = ' ' || c = '\t' || c = '\n' || c = '\r'

def skipSpace (cs : List Char) : List Char :=
  cs.dropWhile isSpace

/-- Takes the given characters off a text. -/
def expect (word : List Char) (cs : List Char) : Option (List Char) :=
  if word.isPrefixOf cs then some (cs.drop word.length) else none

/-- The value of a digit in base sixteen. -/
def hexValue? (c : Char) : Option Nat :=
  if '0' ≤ c && c ≤ '9' then some (c.toNat - '0'.toNat)
  else if 'a' ≤ c && c ≤ 'f' then some (c.toNat - 'a'.toNat + 10)
  else if 'A' ≤ c && c ≤ 'F' then some (c.toNat - 'A'.toNat + 10)
  else none

/-- The character that a backslash and `c` stand for. -/
def simpleEscape? (c : Char) : Option Char :=
  match c with
  | '"' => some '"'
  | '\\' => some '\\'
  | '/' => some '/'
  | 'b' => some '\x08'
  | 'f' => some '\x0c'
  | 'n' => some '\n'
  | 'r' => some '\r'
  | 't' => some '\t'
  | _ => none

/-- Reads a string behind its opening quote: code points, and the code units that escapes in
base sixteen give. -/
def stringUnits : List Char → Option (List Nat × List Char)
  | [] => none
  | '"' :: cs => some ([], cs)
  | '\\' :: 'u' :: a :: b :: c :: d :: cs => do
    let unit := (← hexValue? a) * 4096 + (← hexValue? b) * 256 + (← hexValue? c) * 16 +
      (← hexValue? d)
    let (units, rest) ← stringUnits cs
    return (unit :: units, rest)
  | '\\' :: c :: cs => do
    let e ← simpleEscape? c
    let (units, rest) ← stringUnits cs
    return (e.toNat :: units, rest)
  | c :: cs =>
    if c = '\\' || c.toNat < 0x20 then none
    else do
      let (units, rest) ← stringUnits cs
      return (c.toNat :: units, rest)

def isHighSurrogate (unit : Nat) : Bool :=
  0xD800 ≤ unit && unit ≤ 0xDBFF

def isLowSurrogate (unit : Nat) : Bool :=
  0xDC00 ≤ unit && unit ≤ 0xDFFF

/-- Joins surrogate pairs; none if half of one stands alone. -/
def joinUnits : List Nat → Option (List Char)
  | [] => some []
  | [unit] => if isHighSurrogate unit || isLowSurrogate unit then none else some [.ofNat unit]
  | unit :: next :: units =>
    if isHighSurrogate unit then
      if isLowSurrogate next then
        (joinUnits units).map
          (.ofNat (0x10000 + (unit - 0xD800) * 0x400 + (next - 0xDC00)) :: ·)
      else none
    else if isLowSurrogate unit then none
    else (joinUnits (next :: units)).map (.ofNat unit :: ·)

/-- Reads a string behind its opening quote. -/
def readString (cs : List Char) : Option (Json.Text × List Char) :=
  (stringUnits cs).map fun (units, rest) => ((joinUnits units).map String.ofList, rest)

/-- Takes digits off a text, at least one. -/
def digits (cs : List Char) : Option (List Char) :=
  match cs with
  | c :: cs => if c.isDigit then some (cs.dropWhile Char.isDigit) else none
  | [] => none

/-- Takes the part of a number before its point: a zero, or digits that start with none. -/
def integerPart (cs : List Char) : Option (List Char) :=
  match cs with
  | '0' :: c :: cs => if c.isDigit then none else some (c :: cs)
  | _ => digits cs

/-- Takes a point and digits, if there is a point. -/
def fractionPart (cs : List Char) : Option (List Char) :=
  match cs with
  | '.' :: cs => digits cs
  | _ => some cs

/-- Takes an exponent, if there is one. -/
def exponentPart (cs : List Char) : Option (List Char) :=
  match cs with
  | c :: cs =>
    if c = 'e' || c = 'E' then
      match cs with
      | d :: ds => if d = '+' || d = '-' then digits ds else digits cs
      | [] => none
    else some (c :: cs)
  | [] => some []

def readNumber (cs : List Char) : Option (Json × List Char) := do
  let unsigned := match cs with
    | '-' :: cs => cs
    | _ => cs
  let rest ← exponentPart (← fractionPart (← integerPart unsigned))
  return (.number (.ofList (cs.take (cs.length - rest.length))), rest)

mutual

/-- Reads a value in at most `steps` steps. -/
def readValue (steps : Nat) (cs : List Char) : Option (Json × List Char) :=
  match steps with
  | 0 => none
  | steps + 1 =>
    match skipSpace cs with
    | '"' :: cs => (readString cs).map fun (text, rest) => (.string text, rest)
    | '[' :: cs =>
      match skipSpace cs with
      | ']' :: cs => some (.array [], cs)
      | cs => (readItems steps cs).map fun (items, rest) => (.array items, rest)
    | '{' :: cs =>
      match skipSpace cs with
      | '}' :: cs => some (.object [], cs)
      | cs => (readFields steps cs).map fun (fields, rest) => (.object fields, rest)
    | 'n' :: cs => (expect ['u', 'l', 'l'] cs).map fun rest => (.null, rest)
    | 't' :: cs => (expect ['r', 'u', 'e'] cs).map fun rest => (.bool true, rest)
    | 'f' :: cs => (expect ['a', 'l', 's', 'e'] cs).map fun rest => (.bool false, rest)
    | cs => readNumber cs

/-- Reads the items of an array up to its closing bracket. -/
def readItems (steps : Nat) (cs : List Char) : Option (List Json × List Char) :=
  match steps with
  | 0 => none
  | steps + 1 => do
    let (item, rest) ← readValue steps cs
    match skipSpace rest with
    | ',' :: rest =>
      let (items, rest) ← readItems steps rest
      return (item :: items, rest)
    | ']' :: rest => return ([item], rest)
    | _ => none

/-- Reads the fields of an object up to its closing brace. -/
def readFields (steps : Nat) (cs : List Char) :
    Option (List (Json.Text × Json) × List Char) :=
  match steps with
  | 0 => none
  | steps + 1 =>
    match skipSpace cs with
    | '"' :: cs => do
      let (key, rest) ← readString cs
      match skipSpace rest with
      | ':' :: rest =>
        let (value, rest) ← readValue steps rest
        match skipSpace rest with
        | ',' :: rest =>
          let (fields, rest) ← readFields steps rest
          return ((key, value) :: fields, rest)
        | '}' :: rest => return ([(key, value)], rest)
        | _ => none
      | _ => none
    | _ => none

end

/-- The value that a whole text writes. Of two steps that follow each other at least one takes
a character, so the length of the text bounds their number. -/
def ofText? (text : String) : Option Json :=
  match readValue (2 * text.length + 1) text.toList with
  | some (value, rest) => if skipSpace rest = [] then some value else none
  | none => none

end TreeShell.Json
