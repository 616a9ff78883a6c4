import Mathlib
import TreeShell.Command.Execution
import TreeShell.Proofs.Command.Written

/-! Which lines ask for nothing: those without tokens, and those whose first token is a pair of
quotes with nothing in it. -/

namespace TreeShell

def OnlySeparators (cs : List Char) : Prop :=
  ∀ c ∈ cs, isSeparator c = true

/-- Behind separators, a quote is closed where it opens. -/
def StartsWithEmptyQuotes (cs : List Char) : Prop :=
  ∃ blanks quote rest, OnlySeparators blanks ∧ isQuote quote = true ∧
    cs = blanks ++ quote :: quote :: rest

theorem isSeparator_of_isQuote {c : Char} (h : isQuote c = true) : isSeparator c = false := by
  have hc : c = '\'' ∨ c = '"' := by simpa [isQuote] using h
  rcases hc with rfl | rfl <;> decide

theorem onlySeparators_or_token (cs : List Char) : OnlySeparators cs ∨
    ∃ blanks c rest, OnlySeparators blanks ∧ isSeparator c = false ∧ cs = blanks ++ c :: rest := by
  induction cs with
  | nil => exact .inl fun c hc => absurd hc List.not_mem_nil
  | cons c cs ih =>
    cases hc : isSeparator c with
    | false => exact .inr ⟨[], c, cs, fun d hd => absurd hd List.not_mem_nil, hc, rfl⟩
    | true =>
      obtain h | ⟨blanks, d, rest, hb, hd, rfl⟩ := ih
      · exact .inl (List.forall_mem_cons.mpr ⟨hc, h⟩)
      · exact .inr ⟨c :: blanks, d, rest, List.forall_mem_cons.mpr ⟨hc, hb⟩, hd, rfl⟩

theorem scanQuoted_eq_nil {quote : Char} {cs rest : List Char}
    (h : scanQuoted quote cs = some ([], rest)) : cs = quote :: rest := by
  rw [scanQuoted.eq_def] at h
  cases cs with
  | nil => cases h
  | cons c cs =>
    dsimp only at h
    split at h
    · next hc =>
      cases h
      rw [hc]
    · split at h
      · cases cs <;> simp at h
      · simp at h

theorem scanWord_ne_nil {accept : Char → Bool} {c : Char} (hc : accept c = true)
    (cs : List Char) : (scanWord accept (c :: cs)).1 ≠ [] := by
  rw [scanWord.eq_def]
  dsimp only
  split
  · cases cs <;> simp
  · simp

/-- Of all tokens only empty quotes are an argument without a character. -/
theorem scanToken_eq_empty_iff {c : Char} (hc : isSeparator c = false) (cs : List Char) :
    (scanToken c cs).1 = .ok (.argument "") ↔
      isQuote c = true ∧ ∃ rest, cs = c :: rest := by
  constructor
  · intro h
    obtain rfl | rfl | hq | hi | ⟨hd, hb⟩ := start_cases hc
    · rw [scanToken_dash] at h
      exact absurd h (scanOption_ne_argument cs "")
    · rw [scanToken_redirect] at h
      split at h <;> cases h
    · rw [scanToken_quote hq] at h
      split at h
      · next word rest hs =>
        obtain rfl : word = [] := by simpa using h
        exact ⟨hq, rest, scanQuoted_eq_nil hs⟩
      · cases h
    · rw [scanToken_illegal hi] at h
      cases h
    · rw [scanToken_bare hd hb] at h
      exact absurd (by simpa using h) (scanWord_ne_nil hb cs)
  · rintro ⟨hq, rest, rfl⟩
    rw [scanToken_quote hq, scanQuoted_close]

namespace Command

theorem outcomesFrom_behind_separators {blanks : List Char} (hb : OnlySeparators blanks)
    (start : Nat) (cs : List Char) :
    ∃ start', outcomesFrom start (blanks ++ cs) = outcomesFrom start' cs := by
  induction blanks generalizing start with
  | nil => exact ⟨start, rfl⟩
  | cons c blanks ih =>
    obtain ⟨hc, hb⟩ := List.forall_mem_cons.mp hb
    rw [List.cons_append, outcomesFrom_separator hc]
    exact ih hb _

theorem outcomesFrom_eq_cons {c : Char} (hc : isSeparator c = false) (start : Nat)
    (cs : List Char) : ∃ stop, outcomesFrom start (c :: cs) =
      (Item.place start stop (scanToken c cs).1).outcome ::
        outcomesFrom stop (scanToken c cs).2 := by
  rw [outcomesFrom, scanFrom, if_neg (by simp [hc])]
  exact ⟨_, rfl⟩

theorem outcomesFrom_eq_nil_iff {cs : List Char} (start : Nat) :
    outcomesFrom start cs = [] ↔ OnlySeparators cs := by
  obtain h | ⟨blanks, c, rest, hb, hc, rfl⟩ := onlySeparators_or_token cs
  · obtain ⟨start', hs⟩ := outcomesFrom_behind_separators h start []
    rw [List.append_nil] at hs
    have hend : outcomesFrom start' [] = [] := by simp [outcomesFrom, scanFrom]
    exact iff_of_true (hs.trans hend) h
  · obtain ⟨start', hs⟩ := outcomesFrom_behind_separators hb start (c :: rest)
    obtain ⟨stop, ht⟩ := outcomesFrom_eq_cons hc start' rest
    refine iff_of_false (by simp [hs, ht]) fun h => ?_
    have hsep := h c (by simp)
    simp [hc] at hsep

theorem scan_eq_nil_iff (line : String) : scan line = [] ↔ OnlySeparators line.toList :=
  List.map_eq_nil_iff.symm.trans (outcomesFrom_eq_nil_iff 0)

theorem argumentOf_of_ofOutcomes {size : Nat} {first : Except LexError Token}
    {rest : List (Except LexError Token)} {c : Command}
    (h : ofOutcomes size (first :: rest) = .ok c) : argumentOf first = .ok c.name := by
  rw [ofOutcomes] at h
  cases hf : argumentOf first with
  | error e => simp [hf] at h
  | ok name =>
    rw [hf] at h
    obtain ⟨d, -, rfl⟩ := exists_of_map_eq_ok h
    rfl

theorem argumentOf_place {start stop : Nat} {found : Except LexFault Token.Kind} {name : String} :
    argumentOf (Item.place start stop found).outcome = .ok name ↔
      found = .ok (.argument name) := by
  cases found with
  | error fault => simp [Item.place, argumentOf]
  | ok kind => cases kind <;> simp [Item.place, argumentOf]

theorem isEmpty_iff (c : Command) : c.isEmpty = true ↔ c.name = "" :=
  decide_eq_true_iff

/-- The first token of a line is the name of its command. -/
theorem scanToken_of_parse {line : String} {c : Command} (h : parse line = .ok c)
    {blanks rest : List Char} {d : Char} (hb : OnlySeparators blanks)
    (hd : isSeparator d = false) (he : line.toList = blanks ++ d :: rest) :
    (scanToken d rest).1 = .ok (.argument c.name) := by
  obtain ⟨start, hs⟩ := outcomesFrom_behind_separators hb 0 (d :: rest)
  obtain ⟨stop, ht⟩ := outcomesFrom_eq_cons hd start rest
  have hp : ofOutcomes (Text.byteLength line.toList) (outcomesFrom 0 line.toList) = .ok c := h
  rw [he, hs, ht] at hp
  exact argumentOf_place.mp (argumentOf_of_ofOutcomes hp)

/-- A command asks for nothing where its line is blank, but also where its line starts with
empty quotes, whatever tokens follow them. -/
theorem isEmpty_iff_of_parse {line : String} {c : Command} (h : parse line = .ok c) :
    (c.isEmpty = true ↔ OnlySeparators line.toList ∨ StartsWithEmptyQuotes line.toList) ∧
    (scan line = [] ↔ OnlySeparators line.toList) ∧ (scan line = [] → c = empty) ∧
    (c.isEmpty = true → ∀ fetch s, c.execute fetch s = (.empty, s)) := by
  have hblank : scan line = [] → c = empty := by
    intro hs
    rw [parse, hs] at h
    exact (Except.ok.inj h).symm
  refine ⟨⟨fun hc => ?_, ?_⟩, scan_eq_nil_iff line, hblank,
    fun hc fetch s => by rw [execute, if_pos hc]⟩
  · obtain hl | ⟨blanks, d, rest, hb, hd, he⟩ := onlySeparators_or_token line.toList
    · exact .inl hl
    · have ht := scanToken_of_parse h hb hd he
      rw [(isEmpty_iff c).mp hc] at ht
      obtain ⟨hq, rest, rfl⟩ := (scanToken_eq_empty_iff hd rest).mp ht
      exact .inr ⟨blanks, d, rest, hb, hq, he⟩
  · rintro (hl | ⟨blanks, quote, rest, hb, hq, he⟩)
    · rw [hblank ((scan_eq_nil_iff line).mpr hl)]
      rfl
    · have hd := isSeparator_of_isQuote hq
      have ht := scanToken_of_parse h hb hd he
      rw [(scanToken_eq_empty_iff hd _).mpr ⟨hq, rest, rfl⟩] at ht
      simpa [isEmpty_iff] using ht.symm

theorem isEmpty_iff_of_parse_quotes : parse "'' x > f" = .ok ⟨"", [], [], ["x"], [⟨"f", .write⟩]⟩ ∧
    StartsWithEmptyQuotes "'' x > f".toList := by
  have h : parse "'' x > f" = .ok ⟨"", [], [], ["x"], [⟨"f", .write⟩]⟩ := by cbv
  have hn : ¬ OnlySeparators "'' x > f".toList := by
    intro hl
    have hsep := hl '\'' (by decide)
    cases hsep
  exact ⟨h, ((isEmpty_iff_of_parse h).1.mp rfl).resolve_left hn⟩

/-- A line that asks for nothing, with its redirect, though it has tokens. -/
theorem not_isEmpty_iff_scan_eq_nil :
    ¬ ∀ line c, parse line = .ok c → (c.isEmpty = true ↔ scan line = []) := by
  intro hall
  have h : parse "'' x > f" = .ok ⟨"", [], [], ["x"], [⟨"f", .write⟩]⟩ := by cbv
  have hs := (hall _ _ h).mp rfl
  rw [parse, hs] at h
  cases h

end Command

end TreeShell
