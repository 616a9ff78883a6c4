import TreeShell.Proofs.Token.Spans

/-! Words without quotes. Reading one loses backslashes and nothing else, so a text is read as
itself exactly where each of its characters stands for itself. -/

namespace TreeShell

/-- Characters that stand for themselves in a word without quotes. -/
def isPlainChar (c : Char) : Bool :=
  isBareChar c && c != '\\'

theorem isPlainChar_iff {c : Char} : isPlainChar c = true ↔ isBareChar c = true ∧ c ≠ '\\' := by
  simp [isPlainChar]

theorem isSeparator_of_isPlainChar {c : Char} (h : isPlainChar c = true) :
    isSeparator c = false := by
  have hb : isSeparator c = false ∧ c ≠ '>' ∧ isQuote c = false ∧ isIllegal c = false := by
    simpa [isBareChar, and_assoc] using (isPlainChar_iff.mp h).1
  exact hb.1

theorem scanWord_plain {word : List Char} (hw : ∀ c ∈ word, isPlainChar c = true)
    (rest : List Char) : scanWord isBareChar (word ++ rest) =
      (word ++ (scanWord isBareChar rest).1, (scanWord isBareChar rest).2) := by
  induction word with
  | nil => rfl
  | cons c word ih =>
    obtain ⟨hc, hword⟩ := List.forall_mem_cons.mp hw
    obtain ⟨hb, hne⟩ := isPlainChar_iff.mp hc
    rw [List.cons_append, scanWord.eq_def]
    simp [hne, hb, ih hword]

theorem scanToken_plain {c : Char} {word rest : List Char}
    (hp : ∀ d ∈ c :: word, isPlainChar d = true) (hd : c ≠ '-') (hr : EndsToken rest) :
    scanToken c (word ++ rest) = (.ok (.argument (.ofList (c :: word))), rest) := by
  have hend : scanWord isBareChar rest = ([], rest) := by
    cases rest with
    | nil => rfl
    | cons e rest =>
      obtain rfl := hr e rfl
      have hb : isBareChar ' ' = false := by decide
      rw [scanWord.eq_def]
      simp [hb]
  obtain ⟨hc, -⟩ := List.forall_mem_cons.mp hp
  rw [scanToken_bare hd (isPlainChar_iff.mp hc).1, ← List.cons_append, scanWord_plain hp, hend,
    List.append_nil]

section Loss

variable {accept : Char → Bool} {cs word rest : List Char}

theorem scanWord_sublist (h : scanWord accept cs = (word, rest)) :
    (word ++ rest).Sublist cs := by
  fun_induction scanWord accept cs generalizing word rest with
  | case1 | case2 | case5 => cases h; simp
  | case3 d cs word rest hr ih =>
    cases h
    exact ((ih hr).cons_cons d).cons '\\'
  | case4 c cs hc ha word rest hr ih =>
    cases h
    exact (ih hr).cons_cons c

theorem count_scanWord {y : Char} (hy : y ≠ '\\') (h : scanWord accept cs = (word, rest)) :
    (word ++ rest).count y = cs.count y := by
  fun_induction scanWord accept cs generalizing word rest with
  | case1 | case2 | case5 => cases h; simp
  | case3 d cs word rest hr ih =>
    cases h
    rw [List.cons_append, List.count_cons, ih hr, List.count_cons_of_ne hy.symm, List.count_cons]
  | case4 c cs hc ha word rest hr ih =>
    cases h
    rw [List.cons_append, List.count_cons, ih hr, List.count_cons]

theorem plain_of_scanWord (h : scanWord accept cs = (word, rest)) (he : word ++ rest = cs)
    (hlast : cs.getLast? ≠ some '\\') : ∀ c ∈ word, accept c = true ∧ c ≠ '\\' := by
  fun_induction scanWord accept cs generalizing word rest with
  | case1 | case5 => cases h; simp
  | case2 => simp at hlast
  | case3 d cs word rest hr ih =>
    -- A backslash was lost, so the two parts are shorter than the text.
    cases h
    have hle := (scanWord_sublist hr).length_le
    have hlen := congrArg List.length he
    simp only [List.cons_append, List.length_cons] at hlen
    omega
  | case4 c cs hc ha word rest hr ih =>
    cases h
    refine List.forall_mem_cons.mpr ⟨⟨ha, hc⟩, fun e hm => ?_⟩
    have he' : word ++ rest = cs := (List.cons.inj he).2
    have hne : cs ≠ [] := by
      rintro rfl
      simp [(List.append_eq_nil_iff.mp he').1] at hm
    refine ih hr he' ?_ e hm
    rwa [List.getLast?_cons_of_ne_nil hne] at hlast

end Loss

theorem eq_slash_of_unescape {d : Char} (h : unescape d = '/') : d = '/' := by
  unfold unescape at h
  split at h
  · exact absurd h (by decide)
  split at h
  · exact absurd h (by decide)
  split at h
  · exact absurd h (by decide)
  · exact h

/-- A quoted word ends where its quote is closed. -/
theorem exists_of_scanQuoted {quote : Char} {cs word rest : List Char}
    (h : scanQuoted quote cs = some (word, rest)) : ∃ read, cs = read ++ quote :: rest ∧
      word.length ≤ read.length ∧ ('/' ∈ word → '/' ∈ read) := by
  fun_induction scanQuoted quote cs generalizing word with
  | case1 | case3 => cases h
  | case2 cs =>
    cases h
    exact ⟨[], rfl, Nat.le_refl _, id⟩
  | case4 d cs hq ih =>
    obtain ⟨⟨w, r⟩, hr, he⟩ := Option.map_eq_some_iff.mp h
    cases he
    obtain ⟨read, rfl, hlen, hslash⟩ := ih hr
    refine ⟨'\\' :: d :: read, rfl, by simp only [List.length_cons]; omega, fun hm => ?_⟩
    rcases List.mem_cons.mp hm with hd | hm
    · simp [eq_slash_of_unescape hd.symm]
    · exact List.mem_cons_of_mem _ (List.mem_cons_of_mem _ (hslash hm))
  | case5 c cs hq hb ih =>
    obtain ⟨⟨w, r⟩, hr, he⟩ := Option.map_eq_some_iff.mp h
    cases he
    obtain ⟨read, rfl, hlen, hslash⟩ := ih hr
    refine ⟨c :: read, rfl, Nat.succ_le_succ hlen, fun hm => ?_⟩
    rcases List.mem_cons.mp hm with rfl | hm
    · exact List.mem_cons_self
    · exact List.mem_cons_of_mem _ (hslash hm)

theorem argument_cases {c : Char} (hc : isSeparator c = false) {cs : List Char} {value : String}
    (h : (scanToken c cs).1 = .ok (.argument value)) :
    (isQuote c = true ∧ ∃ rest, scanQuoted c cs = some (value.toList, rest)) ∨
      c ≠ '-' ∧ isBareChar c = true ∧ (scanWord isBareChar (c :: cs)).1 = value.toList := by
  obtain rfl | rfl | hq | hi | ⟨hd, hb⟩ := start_cases hc
  · rw [scanToken_dash] at h
    exact absurd h (scanOption_ne_argument cs value)
  · rw [scanToken_redirect] at h
    split at h <;> cases h
  · refine .inl ⟨hq, ?_⟩
    rw [scanToken_quote hq] at h
    split at h
    · next word rest hw =>
      simp only [Except.ok.injEq, Token.Kind.argument.injEq] at h
      rw [hw, ← h, String.toList_ofList]
      exact ⟨rest, rfl⟩
    · cases h
  · rw [scanToken_illegal hi] at h
    cases h
  · refine .inr ⟨hd, hb, ?_⟩
    rw [scanToken_bare hd hb] at h
    simp only [Except.ok.injEq, Token.Kind.argument.injEq] at h
    rw [← h, String.toList_ofList]

section Stopped

variable {name word rest : List Char} {stop : Char}

theorem slash_ends_sublist (hname : '/' ∉ name)
    (h : (word ++ rest).Sublist (name ++ [stop])) (hm : '/' ∈ word) :
    ∃ u, '/' ∉ u ∧ word = u ++ ['/'] := by
  obtain ⟨u, last, he, hu, hlast⟩ := List.sublist_append_iff.mp h
  have hfree : '/' ∉ u := fun hm => hname (hu.subset hm)
  have hword : '/' ∈ u ++ last := he ▸ List.mem_append_left rest hm
  -- The slash is the character at the end, so nothing is left behind it.
  obtain rfl | rfl := List.sublist_singleton.mp hlast
  · rw [List.append_nil] at hword
    exact absurd hword hfree
  · obtain rfl : '/' = stop := by simpa [hfree] using hword
    obtain rfl | ⟨front, last, rfl⟩ := List.eq_nil_or_concat rest
    · exact ⟨u, hfree, by rw [← he, List.append_nil]⟩
    · rw [List.concat_eq_append, ← List.append_assoc] at he
      have hfront := (List.append_inj' he rfl).1
      exact absurd (hfront ▸ List.mem_append_left front hm) hfree

/-- What is read of a name and one character behind it is `found`, but for a slash at its end. It
is no longer than the name, and only of a plain name it is the name itself. -/
structure ReadsOff (name value found : List Char) : Prop where
  value_eq : value = found ∨ value = found ++ ['/']
  no_slash : '/' ∉ found
  length_le : found.length ≤ name.length
  plain : found = name → ∀ c ∈ name, isPlainChar c = true

theorem readsOff_of_scanWord (hstop : stop = '/' ∨ stop = ' ') (hname : '/' ∉ name)
    (h : scanWord isBareChar (name ++ [stop]) = (word, rest)) :
    ∃ found, ReadsOff name word found := by
  have hne : stop ≠ '\\' := by
    rintro rfl
    simp at hstop
  have hsub := scanWord_sublist h
  by_cases he : word ++ rest = name ++ [stop]
  · have hplain : ∀ c ∈ word, isPlainChar c = true := fun c hc =>
      isPlainChar_iff.mpr (plain_of_scanWord h he (by simpa using hne) c hc)
    obtain rfl | ⟨front, last, rfl⟩ := List.eq_nil_or_concat rest
    · -- The character behind the name was read with it, and a space cannot be.
      rw [List.append_nil] at he
      rw [he] at hplain
      obtain ⟨hn, hs⟩ := List.forall_mem_append.mp hplain
      have hs : isPlainChar stop = true := hs stop List.mem_cons_self
      obtain rfl | rfl := hstop
      · exact ⟨name, .inr he, hname, Nat.le_refl _, fun _ => hn⟩
      · exact absurd hs (by decide)
    · rw [List.concat_eq_append, ← List.append_assoc] at he
      obtain rfl := (List.append_inj' he rfl).1
      have hfree : '/' ∉ word := fun hm => hname (List.mem_append_left front hm)
      exact ⟨word, .inl rfl, hfree, by simp, fun hw => hw ▸ hplain⟩
  · have hlt : word.length + rest.length ≤ name.length := by
      have hle := hsub.length_le
      have hlen : (word ++ rest).length ≠ (name ++ [stop]).length :=
        fun hl => he (hsub.eq_of_length hl)
      simp only [List.length_append, List.length_singleton] at hle hlen
      omega
    -- A backslash was lost, but not the last character, of which the name has one too few.
    have hdiff : ∀ found, word = found ∨ word = found ++ ['/'] → found ≠ name := by
      rintro found (rfl | rfl) rfl
      · obtain rfl : rest = [] := List.length_eq_zero_iff.mp (by omega)
        simpa using count_scanWord hne h
      · rw [List.length_append, List.length_singleton] at hlt
        omega
    by_cases hm : '/' ∈ word
    · obtain ⟨found, hfree, rfl⟩ := slash_ends_sublist hname hsub hm
      rw [List.length_append] at hlt
      exact ⟨found, .inr rfl, hfree, by omega, fun h => absurd h (hdiff found (.inr rfl))⟩
    · exact ⟨word, .inl rfl, hm, by omega, fun h => absurd h (hdiff word (.inl rfl))⟩

theorem readsOff_of_scanToken {c : Char} {cs : List Char} {value : String}
    (hc : isSeparator c = false) (he : c :: cs = name ++ [stop]) (hstop : stop = '/' ∨ stop = ' ')
    (hname : '/' ∉ name) (h : (scanToken c cs).1 = .ok (.argument value)) :
    ∃ found, ReadsOff name value.toList found ∧ (found = name → c ≠ '-') := by
  obtain ⟨hq, rest, hw⟩ | ⟨hd, hb, hw⟩ := argument_cases hc h
  · cases name with
    | nil =>
      obtain ⟨rfl, -⟩ := List.cons.inj he
      obtain rfl | rfl := hstop <;> exact absurd hq (by decide)
    | cons d name =>
      obtain ⟨rfl, hcs⟩ : c = d ∧ cs = name ++ [stop] := List.cons.inj he
      obtain ⟨read, rfl, hlen, hslash⟩ := exists_of_scanQuoted hw
      -- The quote is closed within the name, so what it encloses is shorter than the name.
      have hle : read.length ≤ name.length := by
        have hcount := congrArg List.length hcs
        simp only [List.length_append, List.length_cons, List.length_nil] at hcount
        omega
      have hread : read <+: name :=
        List.prefix_of_prefix_length_le (List.prefix_append read _) ⟨_, hcs.symm⟩ hle
      have hlt : value.toList.length < (c :: name).length :=
        Nat.lt_succ_of_le (hlen.trans hle)
      have hdiff : value.toList ≠ c :: name := fun h => by simp [h] at hlt
      have hfree : '/' ∉ value.toList := fun hm =>
        hname (List.mem_cons_of_mem c (hread.subset (hslash hm)))
      exact ⟨value.toList, ⟨.inl rfl, hfree, hlt.le, fun h => absurd h hdiff⟩,
        fun h => absurd h hdiff⟩
  · rw [he] at hw
    obtain ⟨found, hfound⟩ := readsOff_of_scanWord hstop hname (Prod.ext hw rfl)
    exact ⟨found, hfound, fun _ => hd⟩

end Stopped

end TreeShell
