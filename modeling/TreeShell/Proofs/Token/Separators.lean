import TreeShell.Proofs.Command.Syntax
import TreeShell.Proofs.Token.Spans

/-! Lines put together at a separator. What is read before it ends there as it would at the end of
the line, so that the line has the tokens of the one part and then the items of the other, as far
behind as this stands in the line. A backslash before the separator would take it into a word. -/

namespace TreeShell

/-- The token in a line with `n` bytes more in front. -/
def Token.shift (n : Nat) (t : Token) : Token :=
  { t with offset := n + t.offset }

def LexError.shift (n : Nat) (e : LexError) : LexError :=
  { e with offset := n + e.offset }

/-- The item in a line with `n` bytes more in front. -/
def Item.shift (n : Nat) (item : Item) : Item where
  outcome := (item.outcome.map (.shift n)).mapError (.shift n)
  stop := n + item.stop

theorem Item.place_shift (n start stop : Nat) (found : Except LexFault Token.Kind) :
    Item.place (n + start) (n + stop) found = (Item.place start stop found).shift n := by
  cases found with
  | ok kind => simp [Item.place, Item.shift, Token.shift, Except.map, Except.mapError,
      Nat.add_sub_add_left]
  | error fault => cases fault <;> rfl

theorem scanFrom_shift (n start : Nat) (cs : List Char) :
    scanFrom (n + start) cs = (scanFrom start cs).map (Item.shift n) := by
  fun_induction scanFrom start cs with
  | case1 => rw [scanFrom, List.map_nil]
  | case2 start c cs hc ih => rw [scanFrom, if_pos hc, Nat.add_assoc, ih]
  | case3 start c cs hc found stop ih =>
    rw [scanFrom, if_neg hc, List.map_cons, ← ih, ← Item.place_shift]
    simp only [found, stop, Nat.add_assoc]

theorem scanQuoted_append {quote : Char} {cs word rest : List Char}
    (h : scanQuoted quote cs = some (word, rest)) (more : List Char) :
    scanQuoted quote (cs ++ more) = some (word, rest ++ more) := by
  fun_induction scanQuoted quote cs generalizing word with
  | case1 | case3 => cases h
  | case2 =>
    cases h
    exact scanQuoted_close quote (rest ++ more)
  | case4 d cs hq ih =>
    obtain ⟨⟨w, r⟩, hr, he⟩ := Option.map_eq_some_iff.mp h
    cases he
    simp [scanQuoted, hq, ih hr]
  | case5 c cs hq hb ih =>
    obtain ⟨⟨w, r⟩, hr, he⟩ := Option.map_eq_some_iff.mp h
    cases he
    rw [List.cons_append, scanQuoted_plain hq hb, ih hr]
    rfl

section Separator

variable {sep : Char} (hs : isSeparator sep = true)
include hs

theorem separator_cases : sep = ' ' ∨ sep = '\t' ∨ sep = '\r' ∨ sep = '\n' := by
  simpa [isSeparator, or_assoc] using hs

theorem isOptionChar_of_isSeparator : isOptionChar sep = false := by
  obtain rfl | rfl | rfl | rfl := separator_cases hs <;> decide

theorem isBareChar_of_isSeparator : isBareChar sep = false := by
  simp [isBareChar, hs]

theorem utf8Size_of_isSeparator : sep.utf8Size = 1 := by
  obtain rfl | rfl | rfl | rfl := separator_cases hs <;> decide

theorem scanWord_append {accept : Char → Bool} (ha : accept sep = false) {cs : List Char}
    (hlast : ¬ ['\\'] <:+ cs) (more : List Char) : scanWord accept (cs ++ sep :: more) =
      ((scanWord accept cs).1, (scanWord accept cs).2 ++ sep :: more) := by
  have hne : sep ≠ '\\' := by
    rintro rfl
    exact absurd hs (by decide)
  fun_induction scanWord accept cs with
  | case1 =>
    rw [List.nil_append, scanWord.eq_def]
    simp [hne, ha]
  | case2 => exact absurd List.suffix_rfl hlast
  | case3 d cs word rest h ih =>
    have ih := ih fun hl => hlast (hl.trans (List.suffix_append ['\\', d] cs))
    simp [scanWord, ih, h]
  | case4 c cs hc hac word rest h ih =>
    have ih := ih fun hl => hlast (hl.trans (List.suffix_cons c cs))
    rw [List.cons_append, scanWord.eq_def]
    simp [hc, hac, ih, h]
  | case5 c cs hc hac =>
    rw [List.cons_append, scanWord.eq_def]
    simp [hc, hac]

theorem scanOption_append {cs : List Char} (hlast : ¬ ['\\'] <:+ cs) (more : List Char) :
    scanOption (cs ++ sep :: more) =
      ((scanOption cs).1, (scanOption cs).2 ++ sep :: more) := by
  have hword := fun {name : List Char} (hl : ¬ ['\\'] <:+ name) =>
    scanWord_append hs (isOptionChar_of_isSeparator hs) hl more
  by_cases hdash : cs.head? = some '-'
  · obtain ⟨name, rfl⟩ := List.head?_eq_some_iff.mp hdash
    have hname := hword fun hl => hlast (hl.trans (List.suffix_cons '-' name))
    rw [List.cons_append, scanOption_long, scanOption_long, hname]
  · have hdash' : (cs ++ sep :: more).head? ≠ some '-' := by
      cases cs with
      | nil =>
        intro h
        cases Option.some.inj h
        exact absurd hs (by decide)
      | cons c cs => exact hdash
    rw [scanOption_short hdash, scanOption_short hdash', hword hlast]

/-- A token ends before a separator as it ends at the end of the line. -/
theorem scanToken_append {c : Char} {cs rest : List Char} {kind : Token.Kind}
    (hc : isSeparator c = false) (h : scanToken c cs = (.ok kind, rest))
    (hlast : ¬ ['\\'] <:+ c :: cs) (more : List Char) :
    scanToken c (cs ++ sep :: more) = (.ok kind, rest ++ sep :: more) := by
  obtain rfl | rfl | hq | hi | ⟨hd, hb⟩ := start_cases hc
  · rw [scanToken_dash] at h ⊢
    rw [scanOption_append hs (fun hl => hlast (hl.trans (List.suffix_cons '-' cs))), h]
  · rw [scanToken_redirect] at h ⊢
    cases cs with
    | nil =>
      have hr : sep ≠ '>' := by
        rintro rfl
        exact absurd hs (by decide)
      cases h
      simp [hr]
    | cons d cs =>
      split at h <;> cases h <;> simp_all
  · rw [scanToken_quote hq] at h ⊢
    cases hw : scanQuoted c cs with
    | none =>
      rw [hw] at h
      cases h
    | some found =>
      obtain ⟨word, rest'⟩ := found
      rw [hw] at h
      rw [scanQuoted_append hw]
      cases h
      rfl
  · rw [scanToken_illegal hi] at h
    cases h
  · rw [scanToken_bare hd hb] at h ⊢
    rw [← List.cons_append, scanWord_append hs (isBareChar_of_isSeparator hs) hlast]
    cases h
    rfl

/-- A text without a fault is scanned before a separator as it is by itself. -/
theorem scanFrom_append {start : Nat} {cs : List Char}
    (hok : ∀ item ∈ scanFrom start cs, ∃ t, item.outcome = .ok t) (hlast : ¬ ['\\'] <:+ cs)
    (more : List Char) : scanFrom start (cs ++ sep :: more) =
      scanFrom start cs ++ scanFrom (start + Text.byteLength cs + 1) more := by
  fun_induction scanFrom start cs with
  | case1 start =>
    rw [List.nil_append, scanFrom, if_pos hs, utf8Size_of_isSeparator hs]
    rfl
  | case2 start c cs hc ih =>
    have ih := ih hok fun hl => hlast (hl.trans (List.suffix_cons c cs))
    rw [List.cons_append, scanFrom, if_pos hc, ih, Text.byteLength_cons, Nat.add_assoc start]
  | case3 start c cs hc found stop ih =>
    have hsep : isSeparator c = false := Bool.eq_false_iff.mpr hc
    obtain ⟨⟨t, ht⟩, hrest⟩ := List.forall_mem_cons.mp hok
    have hk : found.1 = .ok t.kind := Item.found_of_place ht
    have hfound : scanToken c cs = (.ok t.kind, found.2) := Prod.ext hk rfl
    obtain ⟨read, hcs, -⟩ := scanToken_split hsep cs
    have hsuffix : found.2 <:+ c :: cs := ⟨c :: read, by rw [List.cons_append, ← hcs]⟩
    have hlen : Text.byteLength cs = Text.byteLength read + Text.byteLength found.2 := by
      conv_lhs => rw [hcs, Text.byteLength_append]
    -- The separator and what follows it count on both sides of the difference.
    have hstop : start + (Text.byteLength (c :: (cs ++ sep :: more)) -
        Text.byteLength (found.2 ++ sep :: more)) = stop := by
      simp only [stop, Text.byteLength_cons, Text.byteLength_append]
      omega
    have hend : stop + Text.byteLength found.2 = start + Text.byteLength (c :: cs) := by
      simp only [stop, Text.byteLength_cons]
      omega
    rw [List.cons_append, scanFrom, if_neg hc, scanToken_append hs hsep hfound hlast]
    dsimp only
    rw [hstop, ih hrest fun hl => hlast (hl.trans hsuffix), hend, ← hk]
    rfl

end Separator

theorem exists_tokens_iff {line : String} :
    (∃ tokens, tokenize line = .ok tokens) ↔ ∀ item ∈ scan line, ∃ t, item.outcome = .ok t := by
  have hrange : (∃ tokens : List Token, tokens.map .ok = (scan line).map Item.outcome) ↔
      ∀ outcome ∈ (scan line).map Item.outcome, ∃ t, .ok t = outcome :=
    Set.ext_iff.mp (Set.range_list_map _) _
  rw [List.forall_mem_map] at hrange
  simp only [tokenize, Command.mapM_outcome_eq_ok_iff]
  exact (exists_congr fun _ => eq_comm).trans
    (hrange.trans (forall₂_congr fun _ _ => exists_congr fun _ => eq_comm))

theorem exists_outcome_shift_iff {n : Nat} {item : Item} :
    (∃ t, (item.shift n).outcome = .ok t) ↔ ∃ t, item.outcome = .ok t := by
  cases h : item.outcome <;> simp [Item.shift, h, Except.map, Except.mapError]

/-- Lines put together at a separator: if the first is read without a fault and does not end in a
backslash, then what is read of the whole are its tokens, as they are, and behind them the items
of the second, moved by the bytes of the first and one for the separator. So the whole is read
without a fault exactly if the second line is. -/
theorem scan_at_separator {a : String} {tokens : List Token} (ha : tokenize a = .ok tokens)
    (hlast : ¬ ['\\'] <:+ a.toList) {sep : Char} (hs : isSeparator sep = true) (b : String) :
    scan (a ++ .singleton sep ++ b) = scan a ++ (scan b).map (.shift (a.utf8ByteSize + 1)) ∧
    (scan a).map Item.outcome = tokens.map .ok ∧
    ((∃ ts, tokenize (a ++ .singleton sep ++ b) = .ok ts) ↔ ∃ ts, tokenize b = .ok ts) := by
  have hok : ∀ item ∈ scan a, ∃ t, item.outcome = .ok t := exists_tokens_iff.mp ⟨tokens, ha⟩
  have hscan : scan (a ++ .singleton sep ++ b) =
      scan a ++ (scan b).map (.shift (a.utf8ByteSize + 1)) := by
    have hline : (a ++ .singleton sep ++ b).toList = a.toList ++ sep :: b.toList := by simp
    rw [scan, hline, scanFrom_append hs hok hlast, Text.byteLength_toList, Nat.zero_add]
    exact congrArg (scan a ++ ·) (scanFrom_shift (a.utf8ByteSize + 1) 0 b.toList)
  refine ⟨hscan, Command.mapM_outcome_eq_ok_iff.mp ha, ?_⟩
  rw [exists_tokens_iff, exists_tokens_iff, hscan, List.forall_mem_append, List.forall_mem_map]
  simp only [exists_outcome_shift_iff]
  exact and_iff_right hok

/-- A mark at the end, which another mark behind it would change, and a fault in the second line. -/
theorem scan_at_separator_tab :
    tokenize "cat 'é b' -l>" = .ok [⟨0, 3, .argument "cat"⟩, ⟨4, 6, .argument "é b"⟩,
      ⟨11, 2, .shortOption "l"⟩, ⟨13, 1, .redirect .write⟩] ∧
    ¬ ['\\'] <:+ "cat 'é b' -l>".toList ∧ isSeparator '\t' = true ∧
    scan ("cat 'é b' -l>" ++ .singleton '\t' ++ "> | x") =
      scan "cat 'é b' -l>" ++ (scan "> | x").map (.shift ("cat 'é b' -l>".utf8ByteSize + 1)) := by
  have ha : tokenize "cat 'é b' -l>" = .ok [⟨0, 3, .argument "cat"⟩, ⟨4, 6, .argument "é b"⟩,
      ⟨11, 2, .shortOption "l"⟩, ⟨13, 1, .redirect .write⟩] := by cbv
  have hlast : ¬ ['\\'] <:+ "cat 'é b' -l>".toList := by decide
  have hs : isSeparator '\t' = true := by decide
  exact ⟨ha, hlast, hs, (scan_at_separator ha hlast hs "> | x").1⟩

-- A backslash at the end of the first line takes the separator.
example : tokenize "x\\" = .ok [⟨0, 2, .argument "x\\"⟩] ∧
    tokenize "x\\ y" = .ok [⟨0, 4, .argument "x y"⟩] :=
  ⟨by cbv, by cbv⟩

end TreeShell
