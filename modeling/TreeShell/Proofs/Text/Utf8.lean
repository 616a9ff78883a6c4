import Mathlib
import TreeShell.Text.Utf8

/-! Texts and their bytes: the length of a text in bytes, and reading the bytes of a text back,
which gives the text. -/

namespace TreeShell.Text

theorem byteLength_eq_utf8Len (cs : List Char) : byteLength cs = String.utf8Len cs := by
  induction cs with
  | nil => rfl
  | cons c cs ih => rw [byteLength_cons, ih, String.utf8Len_cons, Nat.add_comm]

theorem byteLength_toList (s : String) : byteLength s.toList = s.utf8ByteSize := by
  rw [byteLength_eq_utf8Len, ← String.utf8ByteSize_ofList, String.ofList_toList]

theorem utf8_toList (s : String) : utf8 s.toList = s.toUTF8.data.toList := by
  rw [String.toUTF8_eq_toByteArray, ← String.utf8Encode_toList, List.utf8Encode,
    List.toList_data_toByteArray, utf8]

theorem byteLength_pos {cs : List Char} (h : cs ≠ []) : 0 < byteLength cs := by
  obtain ⟨c, cs, rfl⟩ := List.exists_cons_of_ne_nil h
  have hc := c.utf8Size_pos
  rw [byteLength_cons]
  omega

theorem toNat_ofNat {m : Nat} (hm : m < 256) : (UInt8.ofNat m).toNat = m := by
  rw [UInt8.toNat_ofNat', Nat.mod_eq_of_lt hm]

/-- A byte in its range gives six bits to the character. -/
theorem readOwed_succ {low high : UInt8} {m : Nat} (hm : m < 256) (hl : low.toNat ≤ m)
    (hh : m ≤ high.toNat) (bits n : Nat) (bytes : List UInt8) :
    readOwed bits low high (n + 1) (UInt8.ofNat m :: bytes) =
      readOwed (bits * 64 + m % 64) 0x80 0xBF n bytes := by
  have hlow : low ≤ UInt8.ofNat m := UInt8.le_iff_toNat_le.mpr (by rwa [toNat_ofNat hm])
  have hhigh : UInt8.ofNat m ≤ high := UInt8.le_iff_toNat_le.mpr (by rwa [toNat_ofNat hm])
  rw [readOwed, toNat_ofNat hm]
  simp [hlow, hhigh]

theorem readOwed_tail (bits n k : Nat) (bytes : List UInt8) :
    readOwed bits 0x80 0xBF (n + 1) (UInt8.ofNat (k % 64 + 128) :: bytes) =
      readOwed (bits * 64 + k % 64) 0x80 0xBF n bytes := by
  have hk := Nat.mod_lt k (by omega : 0 < 64)
  have hlow : (0x80 : UInt8).toNat = 128 := rfl
  have hhigh : (0xBF : UInt8).toNat = 191 := rfl
  rw [readOwed_succ (by omega) (by omega) (by omega)]
  congr 2
  omega

/-- What the first byte of a character says about the bytes behind it. -/
theorem readChar_ofNat {m : Nat} (hm : m < 256) (bytes : List UInt8) :
    readChar (UInt8.ofNat m) bytes =
      if m < 0x80 then (Char.ofNat m, bytes)
      else if m < 0xC2 then (replacement, bytes)
      else if m < 0xE0 then readOwed (m % 32) 0x80 0xBF 1 bytes
      else if m = 0xE0 then readOwed 0 0xA0 0xBF 2 bytes
      else if m = 0xED then readOwed 13 0x80 0x9F 2 bytes
      else if m < 0xF0 then readOwed (m % 16) 0x80 0xBF 2 bytes
      else if m = 0xF0 then readOwed 0 0x90 0xBF 3 bytes
      else if m < 0xF4 then readOwed (m % 8) 0x80 0xBF 3 bytes
      else if m = 0xF4 then readOwed 4 0x80 0x8F 3 bytes
      else (replacement, bytes) := by
  simp only [readChar, UInt8.lt_iff_toNat_lt, ← UInt8.toNat_inj, toNat_ofNat hm]
  rfl

theorem readChar_two {m : Nat} (h : 0x7F < m) (h' : m ≤ 0x7FF) (bytes : List UInt8) :
    readChar (UInt8.ofNat (m / 64 % 32 + 192)) (UInt8.ofNat (m % 64 + 128) :: bytes) =
      (Char.ofNat m, bytes) := by
  have hbits : (m / 64 % 32 + 192) % 32 * 64 + m % 64 = m := by omega
  rw [readChar_ofNat (by omega), if_neg (by omega), if_neg (by omega), if_pos (by omega),
    readOwed_tail, readOwed, hbits]

theorem readChar_three {m : Nat} (h : 0x7FF < m) (h' : m ≤ 0xFFFF)
    (hv : m < 0xD800 ∨ 0xDFFF < m) (bytes : List UInt8) :
    readChar (UInt8.ofNat (m / 4096 % 16 + 224))
        (UInt8.ofNat (m / 64 % 64 + 128) :: UInt8.ofNat (m % 64 + 128) :: bytes) =
      (Char.ofNat m, bytes) := by
  have hA0 : (0xA0 : UInt8).toNat = 0xA0 := rfl
  have hBF : (0xBF : UInt8).toNat = 0xBF := rfl
  have h80 : (0x80 : UInt8).toNat = 0x80 := rfl
  have h9F : (0x9F : UInt8).toNat = 0x9F := rfl
  rw [readChar_ofNat (by omega), if_neg (by omega), if_neg (by omega), if_neg (by omega)]
  by_cases hE0 : m / 4096 % 16 + 224 = 0xE0
  · have hbits : (0 * 64 + (m / 64 % 64 + 128) % 64) * 64 + m % 64 = m := by omega
    rw [if_pos hE0, readOwed_succ (by omega) (by omega) (by omega), readOwed_tail, readOwed, hbits]
  by_cases hED : m / 4096 % 16 + 224 = 0xED
  · have hbits : (13 * 64 + (m / 64 % 64 + 128) % 64) * 64 + m % 64 = m := by omega
    rw [if_neg hE0, if_pos hED, readOwed_succ (by omega) (by omega) (by omega), readOwed_tail,
      readOwed, hbits]
  · have hbits : ((m / 4096 % 16 + 224) % 16 * 64 + m / 64 % 64) * 64 + m % 64 = m := by omega
    rw [if_neg hE0, if_neg hED, if_pos (by omega), readOwed_tail, readOwed_tail, readOwed, hbits]

theorem readChar_four {m : Nat} (h : 0xFFFF < m) (h' : m < 0x110000) (bytes : List UInt8) :
    readChar (UInt8.ofNat (m / 262144 % 8 + 240)) (UInt8.ofNat (m / 4096 % 64 + 128) ::
        UInt8.ofNat (m / 64 % 64 + 128) :: UInt8.ofNat (m % 64 + 128) :: bytes) =
      (Char.ofNat m, bytes) := by
  have h90 : (0x90 : UInt8).toNat = 0x90 := rfl
  have hBF : (0xBF : UInt8).toNat = 0xBF := rfl
  have h80 : (0x80 : UInt8).toNat = 0x80 := rfl
  have h8F : (0x8F : UInt8).toNat = 0x8F := rfl
  rw [readChar_ofNat (by omega), if_neg (by omega), if_neg (by omega), if_neg (by omega),
    if_neg (by omega), if_neg (by omega), if_neg (by omega)]
  by_cases hF0 : m / 262144 % 8 + 240 = 0xF0
  · have hbits : ((0 * 64 + (m / 4096 % 64 + 128) % 64) * 64 + m / 64 % 64) * 64 + m % 64 = m := by
      omega
    rw [if_pos hF0, readOwed_succ (by omega) (by omega) (by omega), readOwed_tail, readOwed_tail,
      readOwed, hbits]
  by_cases hF4 : m / 262144 % 8 + 240 = 0xF4
  · have hbits : ((4 * 64 + (m / 4096 % 64 + 128) % 64) * 64 + m / 64 % 64) * 64 + m % 64 = m := by
      omega
    rw [if_neg hF0, if_neg (by omega), if_pos hF4, readOwed_succ (by omega) (by omega) (by omega),
      readOwed_tail, readOwed_tail, readOwed, hbits]
  · have hbits : (((m / 262144 % 8 + 240) % 8 * 64 + m / 4096 % 64) * 64 + m / 64 % 64) * 64 +
        m % 64 = m := by omega
    rw [if_neg hF0, if_pos (by omega), readOwed_tail, readOwed_tail, readOwed_tail, readOwed, hbits]

theorem readChar_utf8EncodeChar (c : Char) (bytes : List UInt8) :
    ∃ b bs, String.utf8EncodeChar c = b :: bs ∧ readChar b (bs ++ bytes) = (c, bytes) := by
  have hc : Char.ofNat c.val.toNat = c := Char.ofNat_toNat c
  have hv := c.valid
  simp only [UInt32.isValidChar, Nat.isValidChar] at hv
  simp only [String.utf8EncodeChar]
  generalize c.val.toNat = m at hc hv
  subst hc
  by_cases h₁ : m ≤ 0x7F
  · refine ⟨UInt8.ofNat m, [], by simp [h₁], ?_⟩
    rw [readChar_ofNat (by omega), if_pos (by omega)]
    rfl
  by_cases h₂ : m ≤ 0x7FF
  · refine ⟨UInt8.ofNat (m / 64 % 32 + 192), [UInt8.ofNat (m % 64 + 128)], by simp [h₁, h₂], ?_⟩
    rw [List.cons_append, List.nil_append]
    exact readChar_two (by omega) h₂ bytes
  by_cases h₃ : m ≤ 0xFFFF
  · refine ⟨UInt8.ofNat (m / 4096 % 16 + 224),
      [UInt8.ofNat (m / 64 % 64 + 128), UInt8.ofNat (m % 64 + 128)], by simp [h₁, h₂, h₃], ?_⟩
    rw [List.cons_append, List.cons_append, List.nil_append]
    exact readChar_three (by omega) h₃ (by omega) bytes
  · refine ⟨UInt8.ofNat (m / 262144 % 8 + 240), [UInt8.ofNat (m / 4096 % 64 + 128),
      UInt8.ofNat (m / 64 % 64 + 128), UInt8.ofNat (m % 64 + 128)], by simp [h₁, h₂, h₃], ?_⟩
    rw [List.cons_append, List.cons_append, List.cons_append, List.nil_append]
    exact readChar_four (by omega) (by omega) bytes

/-- The bytes of a text are read as the text. -/
theorem decodeUtf8_utf8 (cs : List Char) : decodeUtf8 (utf8 cs) = cs := by
  induction cs with
  | nil => rw [utf8_nil, decodeUtf8]
  | cons c cs ih =>
    obtain ⟨b, bs, he, hread⟩ := readChar_utf8EncodeChar c (utf8 cs)
    have hutf8 : utf8 (c :: cs) = b :: (bs ++ utf8 cs) := by simp [utf8, he]
    rw [hutf8, decodeUtf8, hread, ih]

end TreeShell.Text
