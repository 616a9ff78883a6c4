import Mathlib
import TreeShell.Command.Grammar
import TreeShell.Command.Written

/-! Reading a written command gives the command back, in whatever order its parts stand, and no
line has an option without a name: the commands that lines stand for are those that can be
written. -/

namespace TreeShell

/-- At the end of a line or before a space every token ends. -/
def EndsToken (rest : List Char) : Prop :=
  ∀ c ∈ rest.head?, c = ' '

theorem scanWord_of_endsToken {rest : List Char} (hr : EndsToken rest) :
    scanWord isOptionChar rest = ([], rest) := by
  cases rest with
  | nil => rfl
  | cons c rest =>
    obtain rfl := hr c rfl
    have ha : isOptionChar ' ' = false := by decide
    rw [scanWord.eq_def]
    simp [ha]

theorem scanWord_guarded (name : List Char) {rest : List Char} (hr : EndsToken rest) :
    scanWord isOptionChar ((name.flatMap fun c => ['\\', c]) ++ rest) = (name, rest) := by
  induction name with
  | nil => exact scanWord_of_endsToken hr
  | cons c name ih =>
    simp only [List.flatMap_cons, List.cons_append, List.nil_append]
    rw [scanWord, if_pos rfl, ih]

theorem scanQuoted_close (quote : Char) (cs : List Char) :
    scanQuoted quote (quote :: cs) = some ([], cs) := by
  rw [scanQuoted.eq_def]
  simp

theorem scanQuoted_plain {quote c : Char} (hq : c ≠ quote) (hb : c ≠ '\\') (cs : List Char) :
    scanQuoted quote (c :: cs) =
      (scanQuoted quote cs).map fun (word, rest) => (c :: word, rest) := by
  rw [scanQuoted.eq_def]
  simp [hq, hb]

theorem scanQuoted_guarded (word rest : List Char) :
    scanQuoted '\'' (word.flatMap guardQuoted ++ '\'' :: rest) = some (word, rest) := by
  induction word with
  | nil => exact scanQuoted_close '\'' rest
  | cons c word ih =>
    by_cases hq : c = '\''
    · subst hq
      simp [guardQuoted, scanQuoted, unescape, ih]
    · by_cases hb : c = '\\'
      · subst hb
        simp [guardQuoted, scanQuoted, unescape, ih]
      · simp [guardQuoted, hq, hb, scanQuoted_plain, ih]

theorem scanToken_quoted (word : String) (rest : List Char) :
    scanToken '\'' (word.toList.flatMap guardQuoted ++ '\'' :: rest) =
      (.ok (.argument word), rest) := by
  simp [scanToken_quote, isQuote, scanQuoted_guarded]

theorem toList_ne_nil {name : String} (hn : name ≠ "") : name.toList ≠ [] := by
  simpa using hn

theorem scanToken_shortOption {name : String} (hn : name ≠ "") {rest : List Char}
    (hr : EndsToken rest) :
    scanToken '-' (guarded name ++ rest) = (.ok (.shortOption name), rest) := by
  have hs := scanWord_guarded name.toList hr
  cases hc : name.toList with
  | nil => exact absurd hc (toList_ne_nil hn)
  | cons c cs =>
    -- The first character behind the dash is a backslash and no second dash.
    rw [hc] at hs
    simp only [guarded, hc, List.flatMap_cons, List.cons_append, List.nil_append] at hs ⊢
    rw [scanToken_dash, scanOption_short (by simp), hs, ← hc]
    simp [hn]

theorem scanToken_longOption {name : String} (hn : name ≠ "") {rest : List Char}
    (hr : EndsToken rest) :
    scanToken '-' ('-' :: (guarded name ++ rest)) = (.ok (.longOption name), rest) := by
  have hs := scanWord_guarded name.toList hr
  simp [scanToken_dash, scanOption_long, guarded, hs, toList_ne_nil hn]

namespace Command

/-- The outcomes of the items of a text that starts at byte `start` of its line. -/
def outcomesFrom (start : Nat) (cs : List Char) : List (Except LexError Token) :=
  (scanFrom start cs).map Item.outcome

theorem outcomesFrom_separator {c : Char} (hc : isSeparator c = true) (start : Nat)
    (cs : List Char) :
    outcomesFrom start (c :: cs) = outcomesFrom (start + c.utf8Size) cs := by
  rw [outcomesFrom, scanFrom, if_pos hc]
  rfl

/-- A scan that finds a token gives the first outcome. -/
theorem outcomesFrom_token {c : Char} {cs rest : List Char} {kind : Token.Kind}
    (hc : isSeparator c = false) (hs : scanToken c cs = (.ok kind, rest)) (start : Nat) :
    ∃ length stop,
      outcomesFrom start (c :: cs) = .ok ⟨start, length, kind⟩ :: outcomesFrom stop rest := by
  rw [outcomesFrom, scanFrom, if_neg (by simp [hc]), hs]
  exact ⟨_, _, rfl⟩

theorem outcomesFrom_quoted (word : String) (rest : List Char) (start : Nat) :
    ∃ t stop, t.kind = .argument word ∧
      outcomesFrom start (quoted word ++ rest) = .ok t :: outcomesFrom stop rest := by
  have hs := scanToken_quoted word rest
  obtain ⟨length, stop, he⟩ := outcomesFrom_token (by decide) hs start
  refine ⟨⟨start, length, .argument word⟩, stop, rfl, ?_⟩
  simpa [quoted] using he

/-- Every quoted word is read as an argument, also behind a space. -/
theorem outcomesFrom_target (spaced : Bool) (word : String) (rest : List Char) (start : Nat) :
    ∃ t stop, t.kind = .argument word ∧
      outcomesFrom start ((if spaced then [' '] else []) ++ quoted word ++ rest) =
        .ok t :: outcomesFrom stop rest := by
  cases spaced with
  | false => simpa using outcomesFrom_quoted word rest start
  | true =>
    simp only [if_true, List.cons_append, List.nil_append]
    rw [outcomesFrom_separator (by decide)]
    exact outcomesFrom_quoted word rest _

theorem outcomesFrom_mark (mode : RedirectMode) (spaced : Bool) (word : String)
    (rest : List Char) (start : Nat) :
    ∃ t stop, t.kind = .redirect mode ∧
      outcomesFrom start (mode.mark ++ (if spaced then [' '] else []) ++ quoted word ++ rest) =
        .ok t :: outcomesFrom stop ((if spaced then [' '] else []) ++ quoted word ++ rest) := by
  have hs : ∃ c cs, mode.mark = c :: cs ∧ isSeparator c = false ∧
      scanToken c (cs ++ ((if spaced then [' '] else []) ++ quoted word ++ rest)) =
        (.ok (.redirect mode), (if spaced then [' '] else []) ++ quoted word ++ rest) := by
    cases mode with
    | write =>
      refine ⟨'>', [], rfl, by decide, ?_⟩
      cases spaced <;> simp [scanToken_redirect, quoted]
    | append =>
      refine ⟨'>', ['>'], rfl, by decide, ?_⟩
      simp [scanToken_redirect]
  obtain ⟨c, cs, hm, hc, hs⟩ := hs
  obtain ⟨length, stop, he⟩ := outcomesFrom_token hc hs start
  refine ⟨⟨start, length, .redirect mode⟩, stop, rfl, ?_⟩
  simpa only [hm, List.cons_append, List.append_assoc] using he

end Command

/-- Options have names; other parts need none. -/
def Part.Named : Part → Prop
  | .shortOption name | .longOption name => name ≠ ""
  | .argument _ | .redirect _ => True

namespace Command

/-- What is read from a written part is the part, whatever follows it. -/
theorem ofOperands_written {p : Part} (hp : p.Named) (spaced : Bool) {rest : List Char}
    (hr : EndsToken rest) (size start : Nat) : ∃ stop,
      ofOperands size (outcomesFrom start (p.written spaced ++ rest)) =
        (ofOperands size (outcomesFrom stop rest)).map (consPart p) := by
  cases p with
  | argument value =>
    obtain ⟨t, stop, hk, he⟩ := outcomesFrom_quoted value rest start
    exact ⟨stop, by rw [Part.written, he, ofOperands, hk]; rfl⟩
  | shortOption name =>
    obtain ⟨length, stop, he⟩ :=
      outcomesFrom_token (by decide) (scanToken_shortOption hp hr) start
    exact ⟨stop, by rw [Part.written, List.cons_append, he, ofOperands]; rfl⟩
  | longOption name =>
    obtain ⟨length, stop, he⟩ :=
      outcomesFrom_token (by decide) (scanToken_longOption hp hr) start
    exact ⟨stop, by rw [Part.written, List.cons_append, List.cons_append, he, ofOperands]; rfl⟩
  | redirect r =>
    obtain ⟨t, middle, hk, he⟩ := outcomesFrom_mark r.mode spaced r.target rest start
    obtain ⟨t', stop, hk', he'⟩ := outcomesFrom_target spaced r.target rest middle
    refine ⟨stop, ?_⟩
    rw [Part.written, he, he', ofOperands, hk]
    simp only [argumentOf, hk']
    rfl

/-- The parts of a line with a space before each. -/
def spacedParts (spaced : Bool) (parts : List Part) : List Char :=
  parts.flatMap fun p => ' ' :: p.written spaced

theorem endsToken_spacedParts (spaced : Bool) (parts : List Part) :
    EndsToken (spacedParts spaced parts) := by
  intro c hc
  cases parts with
  | nil => cases hc
  | cons p parts => exact (Option.some.inj hc).symm

theorem intercalate_cons_eq (sep x : List Char) (xs : List (List Char)) :
    sep.intercalate (x :: xs) = x ++ xs.flatMap fun y => sep ++ y := by
  induction xs generalizing x with
  | nil => simp [List.intercalate]
  | cons y xs ih =>
    have hy := ih y
    simp only [List.intercalate] at hy ⊢
    simp [hy]

theorem toList_lineOf (spaced : Bool) (name : String) (parts : List Part) :
    (lineOf spaced name parts).toList = quoted name ++ spacedParts spaced parts := by
  rw [lineOf, String.toList_ofList, intercalate_cons_eq, List.flatMap_map]
  rfl

example : written ⟨"a'b", ["x"], ["n"], ["", "c d"], [⟨"e", .write⟩]⟩ =
    "'a\\'b' '' 'c d' -\\x --\\n >'e'" := by
  cbv

theorem ofOperands_spacedParts {parts : List Part} (hp : ∀ p ∈ parts, p.Named) (spaced : Bool)
    (size start : Nat) :
    ofOperands size (outcomesFrom start (spacedParts spaced parts)) =
      .ok (parts.foldr consPart empty) := by
  induction parts generalizing start with
  | nil => simp [spacedParts, outcomesFrom, scanFrom, ofOperands]
  | cons p parts ih =>
    have hp' := List.forall_mem_cons.mp hp
    obtain ⟨stop, he⟩ := ofOperands_written hp'.1 spaced (endsToken_spacedParts spaced parts)
      size (start + ' '.utf8Size)
    rw [spacedParts, List.flatMap_cons, List.cons_append, outcomesFrom_separator (by decide)]
    exact he.trans (by rw [ih hp'.2]; rfl)

theorem foldr_consPart_name (name : String) (parts : List Part) (c : Command) :
    { parts.foldr consPart c with name } = parts.foldr consPart { c with name } := by
  induction parts with
  | nil => rfl
  | cons p parts ih =>
    rw [List.foldr_cons, List.foldr_cons, ← ih]
    cases p <;> rfl

/-- A line of named parts is read as the command that the parts make. -/
theorem parse_lineOf (spaced : Bool) (name : String) {parts : List Part}
    (hp : ∀ p ∈ parts, p.Named) : parse (lineOf spaced name parts) = .ok (ofParts name parts) := by
  obtain ⟨t, stop, hk, he⟩ := outcomesFrom_quoted name (spacedParts spaced parts) 0
  have hs : (scan (lineOf spaced name parts)).map Item.outcome =
      .ok t :: outcomesFrom stop (spacedParts spaced parts) := by
    rw [scan, toList_lineOf]
    exact he
  rw [parse, hs, ofOutcomes]
  simp only [argumentOf, hk, ofOperands_spacedParts hp, ofParts, ← foldr_consPart_name]
  rfl

theorem foldr_consPart_map {α : Type} (part : α → Part) (put : List α → Command → Command)
    (hnil : ∀ c, put [] c = c) (hcons : ∀ x xs c, consPart (part x) (put xs c) = put (x :: xs) c)
    (xs : List α) (c : Command) : (xs.map part).foldr consPart c = put xs c := by
  induction xs with
  | nil => exact (hnil c).symm
  | cons x xs ih => rw [List.map_cons, List.foldr_cons, ih, hcons]

theorem ofParts_parts (c : Command) : ofParts c.name c.parts = c := by
  have ha := foldr_consPart_map .argument
    (fun xs c => { c with arguments := xs ++ c.arguments }) (fun _ => rfl) (fun _ _ _ => rfl)
  have hs := foldr_consPart_map .shortOption
    (fun xs c => { c with shortOptions := xs ++ c.shortOptions }) (fun _ => rfl)
    (fun _ _ _ => rfl)
  have hl := foldr_consPart_map .longOption
    (fun xs c => { c with longOptions := xs ++ c.longOptions }) (fun _ => rfl)
    (fun _ _ _ => rfl)
  have hr := foldr_consPart_map .redirect
    (fun xs c => { c with redirects := xs ++ c.redirects }) (fun _ => rfl) (fun _ _ _ => rfl)
  simp only [ofParts, parts, List.foldr_append, ha, hs, hl, hr, empty, List.append_nil]

theorem optionsNamed_consPart {p : Part} {c : Command} :
    (consPart p c).OptionsNamed ↔ p.Named ∧ c.OptionsNamed := by
  cases p <;> simp [OptionsNamed, Part.Named, consPart, consArgument, consShortOption,
    consLongOption, consRedirect, and_assoc, and_left_comm]

theorem named_of_optionsNamed {parts : List Part} {c : Command}
    (h : (parts.foldr consPart c).OptionsNamed) : ∀ p ∈ parts, p.Named := by
  induction parts with
  | nil => simp
  | cons p parts ih =>
    obtain ⟨hp, hparts⟩ := optionsNamed_consPart.mp h
    exact List.forall_mem_cons.mpr ⟨hp, ih hparts⟩

end Command

/-- A token that is an option has a name. -/
def Token.Kind.Named : Token.Kind → Prop
  | .shortOption name | .longOption name => name ≠ ""
  | .argument _ | .redirect _ => True

theorem named_of_scanOption {cs rest : List Char} {kind : Token.Kind}
    (h : scanOption cs = (.ok kind, rest)) : kind.Named := by
  unfold scanOption at h
  split at h
  all_goals
    dsimp only at h
    split at h
    · cases h
    · rename_i hn
      cases h
      simpa [Token.Kind.Named] using hn

theorem named_of_scanToken {c : Char} (hc : isSeparator c = false) {cs rest : List Char}
    {kind : Token.Kind} (h : scanToken c cs = (.ok kind, rest)) : kind.Named := by
  obtain rfl | rfl | hq | hi | ⟨hd, hb⟩ := start_cases hc
  · rw [scanToken_dash] at h
    exact named_of_scanOption h
  · rw [scanToken_redirect] at h
    split at h <;> cases h <;> trivial
  · rw [scanToken_quote hq] at h
    split at h <;> cases h
    trivial
  · rw [scanToken_illegal hi] at h
    cases h
  · rw [scanToken_bare hd hb] at h
    cases h
    trivial

theorem named_of_mem_scanFrom {start : Nat} {cs : List Char} {t : Token}
    (h : .ok t ∈ (scanFrom start cs).map Item.outcome) : t.kind.Named := by
  fun_induction scanFrom start cs with
  | case1 => cases h
  | case2 start c cs hc ih => exact ih h
  | case3 start c cs hc found stop ih =>
    rcases List.mem_cons.mp h with he | hm
    · have hfound : found = (.ok t.kind, found.2) := Prod.ext (Item.found_of_place he.symm) rfl
      exact named_of_scanToken (Bool.eq_false_iff.mpr hc) hfound
    · exact ih hm

namespace Command

theorem exists_of_map_eq_ok {ε α β : Type} {f : α → β} {x : Except ε α} {b : β}
    (h : x.map f = .ok b) : ∃ a, x = .ok a ∧ f a = b := by
  cases x with
  | error e => cases h
  | ok a => exact ⟨a, rfl, Except.ok.inj h⟩

theorem optionsNamed_empty : empty.OptionsNamed := by
  simp [OptionsNamed, empty]

/-- One part more, with its name if it is an option. -/
theorem optionsNamed_of_map {p : Part} {x : Except ParseError Command} {c : Command}
    (hp : p.Named) (hx : ∀ d, x = .ok d → d.OptionsNamed)
    (h : x.map (consPart p) = .ok c) : c.OptionsNamed := by
  obtain ⟨d, hd, rfl⟩ := exists_of_map_eq_ok h
  exact optionsNamed_consPart.mpr ⟨hp, hx d hd⟩

theorem optionsNamed_of_ofOperands {size : Nat} {outcomes : List (Except LexError Token)}
    {c : Command} (hn : ∀ t, .ok t ∈ outcomes → t.kind.Named)
    (h : ofOperands size outcomes = .ok c) : c.OptionsNamed := by
  have htail : ∀ {x : Except LexError Token} {rest : List (Except LexError Token)},
      (∀ t, .ok t ∈ x :: rest → t.kind.Named) → ∀ t, .ok t ∈ rest → t.kind.Named :=
    fun hn t ht => hn t (List.mem_cons_of_mem _ ht)
  fun_induction ofOperands size outcomes generalizing c with
  | case1 =>
    cases h
    exact optionsNamed_empty
  | case2 => cases h
  | case3 t rest name hk ih =>
    have hp := hn t List.mem_cons_self
    rw [hk] at hp
    exact optionsNamed_of_map (p := .longOption name) hp (fun d => ih (htail hn)) h
  | case4 t rest name hk ih =>
    have hp := hn t List.mem_cons_self
    rw [hk] at hp
    exact optionsNamed_of_map (p := .shortOption name) hp (fun d => ih (htail hn)) h
  | case5 t rest value hk ih =>
    exact optionsNamed_of_map (p := .argument value) trivial (fun d => ih (htail hn)) h
  | case6 => cases h
  | case7 => cases h
  | case8 t mode hk target rest path ht ih =>
    exact optionsNamed_of_map (p := .redirect ⟨path, mode⟩) trivial
      (fun d => ih (htail (htail hn))) h

theorem optionsNamed_of_parse {line : String} {c : Command} (h : parse line = .ok c) :
    c.OptionsNamed := by
  have hn : ∀ t, .ok t ∈ (scan line).map Item.outcome → t.kind.Named :=
    fun t ht => named_of_mem_scanFrom ht
  unfold parse at h
  cases hs : (scan line).map Item.outcome with
  | nil =>
    rw [hs] at h
    cases h
    exact optionsNamed_empty
  | cons first rest =>
    rw [hs, ofOutcomes] at h
    split at h
    · cases h
    · obtain ⟨d, hd, rfl⟩ := exists_of_map_eq_ok h
      rw [hs] at hn
      have hd := optionsNamed_of_ofOperands (fun t ht => hn t (List.mem_cons_of_mem _ ht)) hd
      exact hd

/-- Every command whose options have names is read back from its written form, in whatever
order its parts stand behind the name, and lines stand for no other commands. -/
theorem parse_written (c : Command) :
    ((∃ line, parse line = .ok c) ↔ c.OptionsNamed) ∧
      (c.OptionsNamed → parse c.written = .ok c ∧ ∀ spaced parts, ofParts c.name parts = c →
        parse (lineOf spaced c.name parts) = .ok c) := by
  have hread : c.OptionsNamed → ∀ spaced parts, ofParts c.name parts = c →
      parse (lineOf spaced c.name parts) = .ok c := by
    intro hc spaced parts he
    have hp : ∀ p ∈ parts, p.Named := by
      rw [← he] at hc
      exact named_of_optionsNamed hc
    rw [parse_lineOf spaced c.name hp, he]
  have hwritten := fun hc => hread hc false c.parts c.ofParts_parts
  exact ⟨⟨fun ⟨_, h⟩ => optionsNamed_of_parse h, fun hc => ⟨_, hwritten hc⟩⟩,
    fun hc => ⟨hwritten hc, hread hc⟩⟩

/-- A name that needs guards, options that look like dashes and escapes, and empty words. -/
theorem parse_written_guarded : ∃ c : Command,
    c = ⟨"it's\\n", ["-", "\\"], ["-n", "\x00"], ["", "-x\n"], [⟨">", .append⟩]⟩ ∧
    OptionsNamed c ∧ parse (written c) = .ok c := by
  refine ⟨_, rfl, ?_⟩
  have hc : OptionsNamed
      ⟨"it's\\n", ["-", "\\"], ["-n", "\x00"], ["", "-x\n"], [⟨">", .append⟩]⟩ := by
    simp [OptionsNamed]
  exact ⟨hc, ((parse_written _).2 hc).1⟩

end Command

end TreeShell
