/-! The standard base 64 text of bytes: three bytes become four digits of six bits each, and
two or one at the end are padded with equals signs. -/

namespace TreeShell.Text

/-- The digit of a number below 64: upper case, lower case, decimals, plus and slash. -/
def base64Digit (n : Nat) : Char :=
  if n < 26 then Char.ofNat ('A'.toNat + n)
  else if n < 52 then Char.ofNat ('a'.toNat + (n - 26))
  else if n < 62 then Char.ofNat ('0'.toNat + (n - 52))
  else if n = 62 then '+'
  else '/'

/-- The `count` leading digits of the 24 bits of `n`. -/
def base64Digits (count n : Nat) : List Char :=
  [n / 262144, n / 4096 % 64, n / 64 % 64, n % 64].map base64Digit |>.take count

def base64 : List UInt8 → List Char
  | [] => []
  | [a] => base64Digits 2 (a.toNat * 65536) ++ ['=', '=']
  | [a, b] => base64Digits 3 (a.toNat * 65536 + b.toNat * 256) ++ ['=']
  | a :: b :: c :: bytes =>
    base64Digits 4 (a.toNat * 65536 + b.toNat * 256 + c.toNat) ++ base64 bytes

end TreeShell.Text
