/-! Blank characters: Unicode's White_Space property, 25 characters in ten ranges. A history
line or an input made of nothing else counts as empty. -/

namespace TreeShell.Text

def isBlank (c : Char) : Bool :=
  let n := c.toNat
  (0x09 ≤ n && n ≤ 0x0D) || n == 0x20 || n == 0x85 || n == 0xA0 || n == 0x1680 ||
    (0x2000 ≤ n && n ≤ 0x200A) || n == 0x2028 || n == 0x2029 || n == 0x202F ||
    n == 0x205F || n == 0x3000

/-- Holds of the empty text too. -/
def allBlank (cs : List Char) : Bool :=
  cs.all isBlank

/-- The first run of characters that are not blank; empty if there is none. -/
def firstWord (cs : List Char) : List Char :=
  (cs.dropWhile isBlank).takeWhile (fun c => !isBlank c)

/-- The blank characters one by one. -/
def whiteSpace : List Char :=
  ['\t', '\n', '\u000B', '\u000C', '\r', ' ', '\u0085', '\u00A0', '\u1680', '\u2000', '\u2001',
    '\u2002', '\u2003', '\u2004', '\u2005', '\u2006', '\u2007', '\u2008', '\u2009', '\u200A',
    '\u2028', '\u2029', '\u202F', '\u205F', '\u3000']

/-- A text of blank characters, perhaps none. -/
def OnlyWhiteSpace (cs : List Char) : Prop :=
  ∀ c ∈ cs, c ∈ whiteSpace

/-- Nothing but blanks stands before the word, and a blank or the end of the text behind it. -/
def StartsWithWord (cs word : List Char) : Prop :=
  ∃ before after, cs = before ++ word ++ after ∧ OnlyWhiteSpace before ∧
    ∀ c ∈ after.head?, c ∈ whiteSpace

theorem isBlank_iff {c : Char} : isBlank c = true ↔ c ∈ whiteSpace := by
  -- As code points the characters of the list are the numbers of the ranges.
  have hmem : c ∈ whiteSpace ↔ c.toNat ∈ whiteSpace.map Char.toNat := by simp [Char.toNat_inj]
  rw [hmem]
  simp only [isBlank, whiteSpace, List.map_cons, List.map_nil, List.mem_cons, List.not_mem_nil,
    or_false, Bool.or_eq_true, Bool.and_eq_true, decide_eq_true_eq, beq_iff_eq, Char.reduceToNat]
  omega

theorem allBlank_iff {cs : List Char} : allBlank cs = true ↔ OnlyWhiteSpace cs := by
  simp [allBlank, OnlyWhiteSpace, isBlank_iff]

theorem allBlank_eq_false_iff {cs : List Char} : allBlank cs = false ↔ ¬ OnlyWhiteSpace cs := by
  rw [← allBlank_iff, Bool.not_eq_true]

theorem startsWithWord_firstWord (cs : List Char) : StartsWithWord cs (firstWord cs) := by
  refine ⟨cs.takeWhile isBlank, (cs.dropWhile isBlank).dropWhile (!isBlank ·), ?_, ?_, ?_⟩
  · rw [firstWord, List.append_assoc, List.takeWhile_append_dropWhile,
      List.takeWhile_append_dropWhile]
  · exact fun c hc => isBlank_iff.mp (List.all_eq_true.mp List.all_takeWhile c hc)
  · intro c hc
    have hstop := List.head?_dropWhile_not (!isBlank ·) (cs.dropWhile isBlank)
    rw [Option.mem_def.mp hc] at hstop
    exact isBlank_iff.mp (by simpa using hstop)

/-- A word that no blank stands in is the first of every text that starts with it. -/
theorem StartsWithWord.firstWord_eq {cs word : List Char} (h : StartsWithWord cs word)
    (hne : word ≠ []) (hword : ∀ c ∈ word, c ∉ whiteSpace) : firstWord cs = word := by
  obtain ⟨before, after, rfl, hbefore, hafter⟩ := h
  have hplain : ∀ c ∈ word, isBlank c = false := fun c hc =>
    Bool.eq_false_iff.mpr (mt isBlank_iff.mp (hword c hc))
  have hdrop : (word ++ after).dropWhile isBlank = word ++ after := by
    obtain ⟨c, word, rfl⟩ := List.exists_cons_of_ne_nil hne
    simp [hplain c]
  have htake : after.takeWhile (!isBlank ·) = [] := by
    cases after with
    | nil => rfl
    | cons c after => simp [isBlank_iff.mpr (hafter c rfl)]
  rw [firstWord, List.append_assoc,
    List.dropWhile_append_of_pos fun c hc => isBlank_iff.mpr (hbefore c hc), hdrop,
    List.takeWhile_append_of_pos fun c hc => by simp [hplain c hc], htake, List.append_nil]

theorem firstWord_eq_iff {cs word : List Char} (hne : word ≠ [])
    (hword : ∀ c ∈ word, c ∉ whiteSpace) : firstWord cs = word ↔ StartsWithWord cs word :=
  ⟨fun h => h ▸ startsWithWord_firstWord cs, fun h => h.firstWord_eq hne hword⟩

end TreeShell.Text
