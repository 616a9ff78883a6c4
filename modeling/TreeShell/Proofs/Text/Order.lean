import Mathlib
import TreeShell.Text.Utf8

/-! Texts in the order of their code points are in the order of their bytes: the first byte at
which two characters differ is smaller in the smaller character. -/

namespace TreeShell.Text

theorem byte_lt_iff {m n : Nat} (hm : m < 256) (hn : n < 256) :
    UInt8.ofNat m < UInt8.ofNat n ↔ m < n := by
  rw [UInt8.lt_iff_toNat_lt, UInt8.toNat_ofNat', UInt8.toNat_ofNat', Nat.mod_eq_of_lt hm,
    Nat.mod_eq_of_lt hn]

theorem byte_eq_iff {m n : Nat} (hm : m < 256) (hn : n < 256) :
    UInt8.ofNat m = UInt8.ofNat n ↔ m = n := by
  rw [← UInt8.toNat_inj, UInt8.toNat_ofNat', UInt8.toNat_ofNat', Nat.mod_eq_of_lt hm,
    Nat.mod_eq_of_lt hn]

/-- No encoding of a character is the beginning of another, so that what follows is never
compared. -/
theorem utf8EncodeChar_append_lt {c d : Char} (h : c < d) (xs ys : List UInt8) :
    String.utf8EncodeChar c ++ xs < String.utf8EncodeChar d ++ ys := by
  have hlt : c.val.toNat < d.val.toNat := h
  have hd : d.val.toNat < 0x110000 := by
    have hv := d.valid
    simp only [UInt32.isValidChar, Nat.isValidChar] at hv
    omega
  simp only [String.utf8EncodeChar]
  generalize c.val.toNat = m at *
  generalize d.val.toNat = n at *
  -- The digits of a number are taken by dividing by 64 again and again.
  have h₂ : ∀ k : Nat, k / 4096 = k / 64 / 64 := fun k => by omega
  have h₃ : ∀ k : Nat, k / 262144 = k / 64 / 64 / 64 := fun k => by omega
  simp only [h₂, h₃]
  split_ifs
  all_goals try omega
  all_goals
    simp (disch := omega) only [List.cons_append, List.nil_append, List.cons_lt_cons_iff,
      byte_lt_iff, byte_eq_iff]
    omega

theorem utf8_lt_utf8 {as bs : List Char} (h : as < bs) : utf8 as < utf8 bs := by
  induction h with
  | @nil b bs =>
    obtain ⟨x, xs, he⟩ := List.exists_cons_of_ne_nil (String.utf8EncodeChar_ne_nil (c := b))
    simp [utf8, he]
  | @rel a as b bs h =>
    simp only [utf8, List.flatMap_cons]
    exact utf8EncodeChar_append_lt h _ _
  | @cons a as bs _ ih =>
    simp only [utf8, List.flatMap_cons] at ih ⊢
    exact List.append_left_lt ih

end TreeShell.Text
