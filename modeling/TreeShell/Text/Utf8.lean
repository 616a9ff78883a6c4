/-! Text as bytes and back. Every text has its UTF-8 bytes; bytes that are not UTF-8 are read
with one replacement character for each longest run that could have started a character. -/

namespace TreeShell.Text

/-- The number of bytes of a text. -/
def byteLength : List Char → Nat
  | [] => 0
  | c :: cs => c.utf8Size + byteLength cs

def utf8 (cs : List Char) : List UInt8 :=
  cs.flatMap String.utf8EncodeChar

/-- Stands where bytes form no character. -/
def replacement : Char := '\uFFFD'

/-- Reads the `n` bytes that a character still owes. The next of them must lie between `low`
and `high`, the others between 0x80 and 0xBF; a byte out of place is left for what follows. -/
def readOwed (bits : Nat) (low high : UInt8) : Nat → List UInt8 → Char × List UInt8
  | 0, bytes => (Char.ofNat bits, bytes)
  | _ + 1, [] => (replacement, [])
  | n + 1, b :: bytes =>
    if low ≤ b && b ≤ high then readOwed (bits * 64 + b.toNat % 64) 0x80 0xBF n bytes
    else (replacement, b :: bytes)

/-- Reads one character from its first byte. The narrower ranges after 0xE0, 0xED, 0xF0 and
0xF4 keep out overlong forms, surrogates and code points above U+10FFFF. -/
def readChar (b : UInt8) (bytes : List UInt8) : Char × List UInt8 :=
  if b < 0x80 then (Char.ofNat b.toNat, bytes)
  else if b < 0xC2 then (replacement, bytes)
  else if b < 0xE0 then readOwed (b.toNat % 32) 0x80 0xBF 1 bytes
  else if b = 0xE0 then readOwed 0 0xA0 0xBF 2 bytes
  else if b = 0xED then readOwed 13 0x80 0x9F 2 bytes
  else if b < 0xF0 then readOwed (b.toNat % 16) 0x80 0xBF 2 bytes
  else if b = 0xF0 then readOwed 0 0x90 0xBF 3 bytes
  else if b < 0xF4 then readOwed (b.toNat % 8) 0x80 0xBF 3 bytes
  else if b = 0xF4 then readOwed 4 0x80 0x8F 3 bytes
  else (replacement, bytes)

theorem length_readOwed_le (bits : Nat) (low high : UInt8) (n : Nat) (bytes : List UInt8) :
    (readOwed bits low high n bytes).2.length ≤ bytes.length := by
  fun_induction readOwed bits low high n bytes with
  | case1 => exact Nat.le_refl _
  | case2 => exact Nat.le_refl _
  | case3 bits low high n b bytes h ih => exact Nat.le_succ_of_le ih
  | case4 => exact Nat.le_refl _

theorem length_readChar_le (b : UInt8) (bytes : List UInt8) :
    (readChar b bytes).2.length ≤ bytes.length := by
  unfold readChar
  repeat' split
  all_goals first | exact Nat.le_refl _ | exact length_readOwed_le ..

/-- The text of any bytes. -/
def decodeUtf8 : List UInt8 → List Char
  | [] => []
  | b :: bytes => (readChar b bytes).1 :: decodeUtf8 (readChar b bytes).2
termination_by bytes => bytes.length
decreasing_by exact Nat.lt_succ_of_le (length_readChar_le b bytes)

@[simp] theorem utf8_nil : utf8 [] = [] := rfl

@[simp] theorem byteLength_nil : byteLength [] = 0 := rfl

@[simp] theorem byteLength_cons (c : Char) (cs : List Char) :
    byteLength (c :: cs) = c.utf8Size + byteLength cs := rfl

@[simp] theorem byteLength_append (as bs : List Char) :
    byteLength (as ++ bs) = byteLength as + byteLength bs := by
  induction as with
  | nil => simp
  | cons a as ih => simp [ih, Nat.add_assoc]

end TreeShell.Text
