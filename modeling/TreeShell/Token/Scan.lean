import TreeShell.Text.Utf8
import TreeShell.Token

/-! Cutting a line into tokens. Every scan consumes at least one character, so a line has
finitely many items, and scanning goes on behind a fault. -/

namespace TreeShell

/-- Reads a word of accepted characters. A backslash accepts and stands for the character
behind it, and for itself at the end of the line. -/
def scanWord (accept : Char → Bool) : List Char → List Char × List Char
  | [] => ([], [])
  | c :: cs =>
    if c = '\\' then
      match cs with
      | [] => (['\\'], [])
      | d :: cs =>
        let (word, rest) := scanWord accept cs
        (d :: word, rest)
    else if accept c then
      let (word, rest) := scanWord accept cs
      (c :: word, rest)
    else ([], c :: cs)

/-- The character that a backslash and `c` stand for between quotes. -/
def unescape (c : Char) : Char :=
  if c = 'n' then '\n' else if c = 't' then '\t' else if c = '0' then '\x00' else c

/-- Reads up to the closing quote; none if the line ends before it. -/
def scanQuoted (quote : Char) : List Char → Option (List Char × List Char)
  | [] => none
  | c :: cs =>
    if c = quote then some ([], cs)
    else if c = '\\' then
      match cs with
      | [] => none
      | d :: cs => (scanQuoted quote cs).map fun (word, rest) => (unescape d :: word, rest)
    else (scanQuoted quote cs).map fun (word, rest) => (c :: word, rest)

/-- Reads an option behind its first dash. A second dash makes it a long one. -/
def scanOption : List Char → Except LexFault Token.Kind × List Char
  | '-' :: cs =>
    let (name, rest) := scanWord isOptionChar cs
    (if name = [] then .error .optionWithoutValue else .ok (.longOption (.ofList name)), rest)
  | cs =>
    let (name, rest) := scanWord isOptionChar cs
    (if name = [] then .error .optionWithoutValue else .ok (.shortOption (.ofList name)), rest)

/-- Reads one token that starts with `c`, which is no separator, and returns the rest. -/
def scanToken (c : Char) (cs : List Char) : Except LexFault Token.Kind × List Char :=
  if c = '-' then scanOption cs
  else if c = '>' then
    match cs with
    | '>' :: rest => (.ok (.redirect .append), rest)
    | _ => (.ok (.redirect .write), cs)
  else if isQuote c then
    match scanQuoted c cs with
    | some (word, rest) => (.ok (.argument (.ofList word)), rest)
    | none => (.error .unterminatedQuote, [])
  else if isIllegal c then (.error (.illegalCharacter c), cs)
  else
    let (word, rest) := scanWord isBareChar (c :: cs)
    (.ok (.argument (.ofList word)), rest)

theorem scanOption_long (cs : List Char) : scanOption ('-' :: cs) =
    (if (scanWord isOptionChar cs).1 = [] then .error .optionWithoutValue
      else .ok (.longOption (.ofList (scanWord isOptionChar cs).1)),
      (scanWord isOptionChar cs).2) := rfl

theorem scanOption_short {cs : List Char} (h : cs.head? ≠ some '-') : scanOption cs =
    (if (scanWord isOptionChar cs).1 = [] then .error .optionWithoutValue
      else .ok (.shortOption (.ofList (scanWord isOptionChar cs).1)),
      (scanWord isOptionChar cs).2) := by
  rw [scanOption.eq_def]
  split
  · exact absurd rfl h
  · rfl

theorem scanOption_ne_argument (cs : List Char) (value : String) :
    (scanOption cs).1 ≠ .ok (.argument value) := by
  intro h
  unfold scanOption at h
  split at h <;> dsimp only at h <;> split at h <;> cases h

/-- What a token can start with. -/
theorem start_cases {c : Char} (h : isSeparator c = false) : c = '-' ∨ c = '>' ∨
    isQuote c = true ∨ isIllegal c = true ∨ c ≠ '-' ∧ isBareChar c = true := by
  by_cases hd : c = '-'
  · exact .inl hd
  by_cases hr : c = '>'
  · exact .inr (.inl hr)
  by_cases hq : isQuote c = true
  · exact .inr (.inr (.inl hq))
  by_cases hi : isIllegal c = true
  · exact .inr (.inr (.inr (.inl hi)))
  exact .inr (.inr (.inr (.inr ⟨hd, by simp [isBareChar, h, hr, hq, hi]⟩)))

theorem scanToken_dash (cs : List Char) : scanToken '-' cs = scanOption cs := by
  simp [scanToken]

theorem scanToken_redirect (cs : List Char) : scanToken '>' cs =
    if cs.head? = some '>' then (.ok (.redirect .append), cs.tail)
    else (.ok (.redirect .write), cs) := by
  cases cs with
  | nil => rfl
  | cons d cs =>
    by_cases hd : d = '>'
    · subst hd
      rfl
    · simp [scanToken, hd]

theorem scanToken_quote {c : Char} (h : isQuote c = true) (cs : List Char) :
    scanToken c cs = match scanQuoted c cs with
      | some (word, rest) => (.ok (.argument (.ofList word)), rest)
      | none => (.error .unterminatedQuote, []) := by
  have hd : c ≠ '-' := by
    rintro rfl
    exact absurd h (by decide)
  have hr : c ≠ '>' := by
    rintro rfl
    exact absurd h (by decide)
  simp only [scanToken, if_neg hd, if_neg hr, if_pos h]

theorem scanToken_illegal {c : Char} (h : isIllegal c = true) (cs : List Char) :
    scanToken c cs = (.error (.illegalCharacter c), cs) := by
  have hne : ∀ d, isIllegal d = false → c ≠ d := by
    rintro d hd rfl
    rw [h] at hd
    cases hd
  have hq : isQuote c = false := by
    simp [isQuote, hne '\'' (by decide), hne '"' (by decide)]
  simp [scanToken, hne '-' (by decide), hne '>' (by decide), hq, h]

theorem scanToken_bare {c : Char} (hd : c ≠ '-') (hb : isBareChar c = true) (cs : List Char) :
    scanToken c cs = (.ok (.argument (.ofList (scanWord isBareChar (c :: cs)).1)),
      (scanWord isBareChar (c :: cs)).2) := by
  have hclass : isSeparator c = false ∧ c ≠ '>' ∧ isQuote c = false ∧ isIllegal c = false := by
    simpa [isBareChar, and_assoc] using hb
  simp [scanToken, hd, hclass]

theorem length_scanWord_le (accept : Char → Bool) (cs : List Char) :
    (scanWord accept cs).2.length ≤ cs.length := by
  fun_induction scanWord accept cs with
  | case1 | case2 => simp
  | case3 d cs word rest h ih =>
    simp only [h, List.length_cons] at ih ⊢
    omega
  | case4 c cs hc ha word rest h ih =>
    simp only [h, List.length_cons] at ih ⊢
    omega
  | case5 => exact Nat.le_refl _

theorem length_scanWord_lt {accept : Char → Bool} {c : Char} (cs : List Char)
    (h : c = '\\' ∨ accept c = true) : (scanWord accept (c :: cs)).2.length ≤ cs.length := by
  by_cases hc : c = '\\'
  · cases cs with
    | nil => simp [scanWord, hc]
    | cons d cs => simpa [scanWord, hc] using Nat.le_succ_of_le (length_scanWord_le accept cs)
  · rw [scanWord.eq_def]
    simpa [hc, h.resolve_left hc] using length_scanWord_le accept cs

theorem length_scanQuoted_le {quote : Char} {cs word rest : List Char}
    (h : scanQuoted quote cs = some (word, rest)) : rest.length ≤ cs.length := by
  fun_induction scanQuoted quote cs generalizing word with
  | case1 | case3 => simp at h
  | case2 cs => simp_all
  | case4 hq d cs ih =>
    obtain ⟨⟨w, r⟩, hr, he⟩ := Option.map_eq_some_iff.mp h
    obtain ⟨-, rfl⟩ := Prod.mk.inj he
    have := ih hr
    simp only [List.length_cons]
    omega
  | case5 c cs hq hb ih =>
    obtain ⟨⟨w, r⟩, hr, he⟩ := Option.map_eq_some_iff.mp h
    obtain ⟨-, rfl⟩ := Prod.mk.inj he
    exact Nat.le_succ_of_le (ih hr)

theorem length_scanOption_le (cs : List Char) : (scanOption cs).2.length ≤ cs.length := by
  unfold scanOption
  split
  · exact Nat.le_succ_of_le (length_scanWord_le isOptionChar _)
  · exact length_scanWord_le isOptionChar cs

/-- A scan leaves nothing of the character it starts at. -/
theorem length_scanToken_le {c : Char} (cs : List Char) (h : isSeparator c = false) :
    (scanToken c cs).2.length ≤ cs.length := by
  obtain rfl | rfl | hq | hi | ⟨hd, hb⟩ := start_cases h
  · rw [scanToken_dash]
    exact length_scanOption_le cs
  · rw [scanToken_redirect]
    split <;> simp
  · rw [scanToken_quote hq]
    split
    · next hs => exact length_scanQuoted_le hs
    · exact Nat.zero_le _
  · exact Nat.le_of_eq (by rw [scanToken_illegal hi])
  · rw [scanToken_bare hd hb]
    exact length_scanWord_lt cs (.inr hb)

/-- A token or a fault, and the byte offset at which its scan ended. -/
structure Item where
  outcome : Except LexError Token
  stop : Nat

/-- An unclosed quote is noticed where the line ends, every other fault where it starts. -/
def LexFault.offset (start stop : Nat) : LexFault → Nat
  | .unterminatedQuote => stop
  | _ => start

/-- What a scan from `start` to `stop` found, put in its place. -/
def Item.place (start stop : Nat) (found : Except LexFault Token.Kind) : Item where
  outcome := match found with
    | .ok kind => .ok ⟨start, stop - start, kind⟩
    | .error fault => .error ⟨fault, fault.offset start stop⟩
  stop := stop

theorem Item.found_of_place {start stop : Nat} {found : Except LexFault Token.Kind} {t : Token}
    (h : (Item.place start stop found).outcome = .ok t) : found = .ok t.kind := by
  cases found with
  | error fault => cases h
  | ok kind =>
    cases h
    rfl

/-- The items of a text that starts at byte `start` of its line. -/
def scanFrom (start : Nat) : List Char → List Item
  | [] => []
  | c :: cs =>
    if isSeparator c then scanFrom (start + c.utf8Size) cs
    else
      let found := scanToken c cs
      let stop := start + (Text.byteLength (c :: cs) - Text.byteLength found.2)
      Item.place start stop found.1 :: scanFrom stop found.2
termination_by cs => cs.length
decreasing_by
  · exact Nat.lt_succ_self _
  · exact Nat.lt_succ_of_le (length_scanToken_le cs (by simp_all))

/-- All items of a line, those behind a fault too. -/
def scan (line : String) : List Item :=
  scanFrom 0 line.toList

/-- The tokens of a line, or its first fault. -/
def tokenize (line : String) : Except LexError (List Token) :=
  (scan line).mapM Item.outcome

end TreeShell
