import TreeShell.Command.Syntax
import TreeShell.Proofs.Token.Spans

/-! A line is read as its syntax has it. Reading takes whole parts from the front of the items
for as long as there are any; where it halts, the items have ended or the next of them is one
that no command has at its place. -/

namespace TreeShell.Command

theorem foldr_consPart_eq (parts : List Part) (c : Command) : parts.foldr consPart c =
    { name := c.name
      shortOptions := parts.filterMap Part.shortOption? ++ c.shortOptions
      longOptions := parts.filterMap Part.longOption? ++ c.longOptions
      arguments := parts.filterMap Part.argument? ++ c.arguments
      redirects := parts.filterMap Part.redirect? ++ c.redirects } := by
  induction parts with
  | nil => rfl
  | cons p parts ih =>
    rw [List.foldr_cons, ih]
    cases p <;> rfl

/-- Parts at the front of the items are taken off whole. -/
theorem ofOperands_parts {size : Nat} {parts : List Part} {tokens : List Token}
    (h : tokens.map Token.kind = parts.flatMap Part.kinds)
    (rest : List (Except LexError Token)) :
    ofOperands size (tokens.map .ok ++ rest) =
      (ofOperands size rest).map fun c => parts.foldr consPart c := by
  induction parts generalizing tokens with
  | nil =>
    obtain rfl : tokens = [] := by simpa using h
    cases hr : ofOperands size rest <;> simp [hr, Except.map]
  | cons p parts ih =>
    have hmap : (ofOperands size rest).map (fun c => (p :: parts).foldr consPart c) =
        ((ofOperands size rest).map fun c => parts.foldr consPart c).map (consPart p) := by
      cases ofOperands size rest <;> rfl
    rw [hmap]
    cases p with
    | argument value =>
      obtain ⟨t, tokens, rfl, hk, ht⟩ := List.map_eq_cons_iff.mp h
      rw [← ih ht, List.map_cons, List.cons_append, ofOperands, hk]
      rfl
    | shortOption name =>
      obtain ⟨t, tokens, rfl, hk, ht⟩ := List.map_eq_cons_iff.mp h
      rw [← ih ht, List.map_cons, List.cons_append, ofOperands, hk]
      rfl
    | longOption name =>
      obtain ⟨t, tokens, rfl, hk, ht⟩ := List.map_eq_cons_iff.mp h
      rw [← ih ht, List.map_cons, List.cons_append, ofOperands, hk]
      rfl
    | redirect r =>
      obtain ⟨t, _, rfl, hk, hu⟩ := List.map_eq_cons_iff.mp h
      obtain ⟨u, tokens, rfl, hk', ht⟩ := List.map_eq_cons_iff.mp hu
      rw [← ih ht]
      simp only [List.map_cons, List.cons_append, ofOperands, hk, argumentOf, hk']
      rfl

/-- What is left of the items once no whole part stands in front, and what reading answers. -/
inductive Halts (size : Nat) :
    List (Except LexError Token) → Except ParseError Command → Prop
  | done : Halts size [] (.ok empty)
  | fault (e : LexError) (rest : List (Except LexError Token)) :
    Halts size (.error e :: rest) (.error (.lex e))
  | targetFault {t : Token} {mode : RedirectMode} (e : LexError)
    (rest : List (Except LexError Token)) : t.kind = .redirect mode →
    Halts size (.ok t :: .error e :: rest) (.error (.lex e))
  | targetKind {t : Token} {mode : RedirectMode} (u : Token)
    (rest : List (Except LexError Token)) : t.kind = .redirect mode →
    (∀ value, u.kind ≠ .argument value) →
    Halts size (.ok t :: .ok u :: rest) (.error (.unexpectedToken u.offset u.kind))
  | targetMissing {t : Token} {mode : RedirectMode} : t.kind = .redirect mode →
    Halts size [.ok t] (.error (.missingRedirectTarget size))

theorem argumentOf_of_kind_ne {t : Token} (h : ∀ value, t.kind ≠ .argument value) :
    argumentOf (.ok t) = .error (.unexpectedToken t.offset t.kind) := by
  cases hk : t.kind with
  | argument value => exact absurd hk (h value)
  | _ => simp [argumentOf, hk]

theorem Halts.ofOperands_eq {size : Nat} {rest : List (Except LexError Token)}
    {answer : Except ParseError Command} (h : Halts size rest answer) :
    ofOperands size rest = answer := by
  cases h with
  | done => rfl
  | fault e rest => rfl
  | targetFault e rest hk => simp [ofOperands, hk, argumentOf]
  | targetKind u rest hk hu => simp [ofOperands, hk, argumentOf_of_kind_ne hu]
  | targetMissing hk => simp [ofOperands, hk]

/-- Whole parts stand in front of the items, and behind them reading halts. -/
def HaltsBehindParts (size : Nat) (outcomes : List (Except LexError Token)) : Prop :=
  ∃ (tokens : List Token) (parts : List Part) (rest : List (Except LexError Token))
    (answer : Except ParseError Command), outcomes = tokens.map .ok ++ rest ∧
      tokens.map Token.kind = parts.flatMap Part.kinds ∧ Halts size rest answer

theorem Halts.atOnce {size : Nat} {rest : List (Except LexError Token)}
    {answer : Except ParseError Command} (h : Halts size rest answer) :
    HaltsBehindParts size rest :=
  ⟨[], [], rest, answer, rfl, rfl, h⟩

theorem HaltsBehindParts.cons {size : Nat} {outcomes : List (Except LexError Token)}
    (h : HaltsBehindParts size outcomes) {p : Part} {front : List Token}
    (hp : front.map Token.kind = p.kinds) :
    HaltsBehindParts size (front.map .ok ++ outcomes) := by
  obtain ⟨tokens, parts, rest, answer, rfl, ht, hh⟩ := h
  exact ⟨front ++ tokens, p :: parts, rest, answer, by simp, by simp [hp, ht], hh⟩

theorem haltsBehindParts (size : Nat) (outcomes : List (Except LexError Token)) :
    HaltsBehindParts size outcomes := by
  fun_induction ofOperands size outcomes with
  | case1 => exact Halts.done.atOnce
  | case2 e rest => exact (Halts.fault e rest).atOnce
  | case3 t rest name hk ih =>
    have hp : [t].map Token.kind = Part.kinds (.longOption name) := by simp [hk, Part.kinds]
    exact ih.cons hp
  | case4 t rest name hk ih =>
    have hp : [t].map Token.kind = Part.kinds (.shortOption name) := by simp [hk, Part.kinds]
    exact ih.cons hp
  | case5 t rest value hk ih =>
    have hp : [t].map Token.kind = Part.kinds (.argument value) := by simp [hk, Part.kinds]
    exact ih.cons hp
  | case6 t mode hk => exact (Halts.targetMissing hk).atOnce
  | case7 t mode hk target rest e he =>
    cases target with
    | error fault => exact (Halts.targetFault fault rest hk).atOnce
    | ok u =>
      refine (Halts.targetKind u rest hk fun value hv => ?_).atOnce
      simp [argumentOf, hv] at he
  | case8 t mode hk target rest path hp ih =>
    cases target with
    | error fault => cases hp
    | ok u =>
      have hu : u.kind = .argument path := by
        cases hv : u.kind <;> simp_all [argumentOf]
      have hp : [t, u].map Token.kind = Part.kinds (.redirect ⟨path, mode⟩) := by
        simp [hk, hu, Part.kinds]
      exact ih.cons hp

section Beginnings

variable {kinds : List Token.Kind} {name : String} {parts : List Part}

theorem begins_nil : Begins [] :=
  ⟨[], empty, .blank⟩

theorem begins_parts (name : String) (parts : List Part) :
    Begins (.argument name :: parts.flatMap Part.kinds) :=
  ⟨[], _, by rw [List.append_nil]; exact .named name parts⟩

theorem begins_concat (name : String) (parts : List Part) (p : Part) :
    Begins (.argument name :: (parts.flatMap Part.kinds ++ p.kinds)) := by
  have h := begins_parts name (parts ++ [p])
  rwa [List.flatMap_append, List.flatMap_singleton] at h

theorem begins_redirect (name : String) (parts : List Part) (mode : RedirectMode) :
    Begins (.argument name :: (parts.flatMap Part.kinds ++ [.redirect mode])) := by
  obtain ⟨more, c, hc⟩ := begins_concat name parts (.redirect ⟨"", mode⟩)
  exact ⟨.argument "" :: more, c, by simpa [Part.kinds] using hc⟩

/-- A list of whole parts that is cut in two is cut between parts, or behind a redirect. -/
theorem cut_parts {front more : List Token.Kind} {k : Token.Kind}
    (h : parts.flatMap Part.kinds = front ++ k :: more) : ∃ whole : List Part,
    front = whole.flatMap Part.kinds ∨ ∃ mode value,
      front = whole.flatMap Part.kinds ++ [.redirect mode] ∧ k = .argument value := by
  rw [List.flatMap_def, List.flatten_eq_append_iff] at h
  obtain ⟨as, bs, hs, rfl, -⟩ | ⟨as, bs, c, cs, ds, hs, rfl, hk⟩ := h
  · obtain ⟨whole, rest, rfl, rfl, -⟩ := List.map_eq_append_iff.mp hs
    exact ⟨whole, .inl List.flatMap_def.symm⟩
  · obtain ⟨whole, rest, rfl, rfl, hrest⟩ := List.map_eq_append_iff.mp hs
    obtain ⟨p, rest, rfl, hp, -⟩ := List.map_eq_cons_iff.mp hrest
    obtain ⟨rfl, -⟩ := List.cons.inj hk
    refine ⟨whole, ?_⟩
    rw [← List.flatMap_def]
    cases bs with
    | nil => exact .inl (List.append_nil _)
    | cons b bs =>
      -- Only a redirect is made of two tokens.
      cases p with
      | redirect r =>
        obtain ⟨rfl, hb⟩ := List.cons.inj hp
        cases bs with
        | nil => exact .inr ⟨r.mode, r.target, rfl, (List.cons.inj hb).1.symm⟩
        | cons b' bs => simp at hb
      | _ => simp [Part.kinds] at hp

theorem getLast?_parts (name : String) (parts : List Part) (mode : RedirectMode) :
    (Token.Kind.argument name :: parts.flatMap Part.kinds).getLast? ≠ some (.redirect mode) := by
  obtain rfl | ⟨front, p, rfl⟩ := List.eq_nil_or_concat parts
  · simp
  · have hp : p.kinds ≠ [] := by cases p <;> simp [Part.kinds]
    rw [List.concat_eq_append, List.flatMap_append, List.flatMap_singleton, ← List.cons_append,
      List.getLast?_append_of_ne_nil _ hp]
    cases p <;> simp [Part.kinds]

/-- A beginning of a command ends behind a part, or behind a redirect that has no target yet. -/
theorem begins_cases (h : Begins kinds) : kinds = [] ∨ ∃ (name : String) (parts : List Part),
    kinds = .argument name :: parts.flatMap Part.kinds ∨
      ∃ mode, kinds = .argument name :: (parts.flatMap Part.kinds ++ [.redirect mode]) := by
  obtain ⟨more, c, hf⟩ := h
  cases kinds with
  | nil => exact .inl rfl
  | cons k kinds =>
    generalize hs : k :: kinds ++ more = all at hf
    cases hf with
    | blank => cases hs
    | named name parts =>
      obtain ⟨rfl, hparts⟩ := List.cons.inj hs
      refine .inr ⟨name, ?_⟩
      cases more with
      | nil => exact ⟨parts, .inl (by rw [← hparts, List.append_eq, List.append_nil])⟩
      | cons k more =>
        obtain ⟨whole, rfl | ⟨mode, value, rfl, -⟩⟩ := cut_parts hparts.symm
        · exact ⟨whole, .inl rfl⟩
        · exact ⟨whole, .inr ⟨mode, rfl⟩⟩

/-- Every token can follow a beginning of a command, save that some beginnings await an
argument. -/
theorem begins_concat_iff {k : Token.Kind} : Begins (kinds ++ [k]) ↔
    Begins kinds ∧ (AwaitsArgument kinds → ∃ value, k = .argument value) := by
  constructor
  · rintro ⟨more, c, hf⟩
    rw [List.append_assoc] at hf
    refine ⟨⟨_, c, hf⟩, fun ha => ?_⟩
    generalize hs : kinds ++ ([k] ++ more) = all at hf
    cases hf with
    | blank => simp at hs
    | named name parts =>
      cases kinds with
      | nil => exact ⟨name, (List.cons.inj hs).1⟩
      | cons first kinds =>
        obtain ⟨rfl, hparts⟩ := List.cons.inj hs
        obtain ⟨whole, rfl | ⟨mode, value, -, hk⟩⟩ := cut_parts hparts.symm
        · obtain hn | ⟨mode, hl⟩ := ha
          · cases hn
          · exact absurd hl (getLast?_parts name whole mode)
        · exact ⟨value, hk⟩
  · rintro ⟨h, ha⟩
    obtain rfl | ⟨name, parts, rfl | ⟨mode, rfl⟩⟩ := begins_cases h
    · obtain ⟨value, rfl⟩ := ha (.inl rfl)
      exact begins_parts value []
    · cases k with
      | redirect mode => exact begins_redirect name parts mode
      | argument value => exact begins_concat name parts (.argument value)
      | shortOption x => exact begins_concat name parts (.shortOption x)
      | longOption x => exact begins_concat name parts (.longOption x)
    · obtain ⟨value, rfl⟩ := ha (.inr ⟨mode, by rw [← List.cons_append, List.getLast?_concat]⟩)
      rw [List.cons_append, List.append_assoc]
      exact begins_concat name parts (.redirect ⟨value, mode⟩)

end Beginnings

section Reading

variable {size : Nat}

/-- A name and whole parts are read, and what follows them decides. -/
theorem ofOutcomes_parts {name : String} {parts : List Part} {tokens : List Token}
    (h : tokens.map Token.kind = .argument name :: parts.flatMap Part.kinds)
    (rest : List (Except LexError Token)) :
    ofOutcomes size (tokens.map .ok ++ rest) =
      (ofOperands size rest).map fun c => { parts.foldr consPart c with name } := by
  obtain ⟨t, tokens, rfl, hk, ht⟩ := List.map_eq_cons_iff.mp h
  simp only [List.map_cons, List.cons_append, ofOutcomes, argumentOf, hk, ofOperands_parts ht]
  cases ofOperands size rest <;> rfl

theorem ofOutcomes_of_forms {tokens : List Token} {c : Command}
    (h : Forms (tokens.map Token.kind) c) : ofOutcomes size (tokens.map .ok) = .ok c := by
  generalize hk : tokens.map Token.kind = kinds at h
  cases h with
  | blank =>
    obtain rfl : tokens = [] := List.map_eq_nil_iff.mp hk
    rfl
  | named name parts =>
    rw [← List.append_nil (tokens.map _), ofOutcomes_parts hk]
    simp [ofOperands, Except.map, foldr_consPart_eq, empty]

theorem ofOutcomes_of_halts {name : String} {parts : List Part} {tokens : List Token}
    (h : tokens.map Token.kind = .argument name :: parts.flatMap Part.kinds)
    {rest : List (Except LexError Token)} {e : ParseError} (hh : Halts size rest (.error e)) :
    ofOutcomes size (tokens.map .ok ++ rest) = .error e := by
  rw [ofOutcomes_parts h, hh.ofOperands_eq]
  rfl

/-- Tokens with which a command begins are none, or a name and whole parts, perhaps with a
redirect behind them. -/
theorem begun_cases {tokens : List Token} (h : Begins (tokens.map Token.kind)) : tokens = [] ∨
    ∃ (name : String) (parts : List Part) (front : List Token),
      front.map Token.kind = .argument name :: parts.flatMap Part.kinds ∧
        (tokens = front ∨ ∃ t mode, tokens = front ++ [t] ∧ t.kind = .redirect mode) := by
  obtain hn | ⟨name, parts, hk | ⟨mode, hk⟩⟩ := begins_cases h
  · exact .inl (List.map_eq_nil_iff.mp hn)
  · exact .inr ⟨name, parts, tokens, hk, .inl rfl⟩
  · rw [← List.cons_append] at hk
    obtain ⟨front, last, rfl, hfront, hlast⟩ := List.map_eq_append_iff.mp hk
    obtain ⟨t, rfl, ht⟩ := List.map_eq_singleton_iff.mp hlast
    exact .inr ⟨name, parts, front, hfront, .inr ⟨t, mode, rfl, ht⟩⟩

theorem ofOutcomes_of_faulty {outcomes : List (Except LexError Token)} {e : ParseError}
    (h : Faulty size outcomes e) : ofOutcomes size outcomes = .error e := by
  cases h with
  | lex e rest hb =>
    obtain rfl | ⟨name, parts, front, hk, rfl | ⟨t, mode, rfl, ht⟩⟩ := begun_cases hb
    · rfl
    · exact ofOutcomes_of_halts hk (.fault e rest)
    · rw [List.map_append, List.append_assoc]
      exact ofOutcomes_of_halts hk (.targetFault e rest ht)
  | unexpected u rest hb ha hu =>
    obtain rfl | ⟨name, parts, front, hk, rfl | ⟨t, mode, rfl, ht⟩⟩ := begun_cases hb
    · simp [ofOutcomes, argumentOf_of_kind_ne hu]
    · obtain hn | ⟨mode, hl⟩ := ha
      · simp [hk] at hn
      · exact absurd (hk ▸ hl) (getLast?_parts name parts mode)
    · rw [List.map_append, List.append_assoc]
      exact ofOutcomes_of_halts hk (.targetKind u rest ht hu)
  | @missingTarget tokens mode hb hl =>
    obtain rfl | ⟨name, parts, front, hk, rfl | ⟨t, mode, rfl, ht⟩⟩ := begun_cases hb
    · cases hl
    · exact absurd (hk ▸ hl) (getLast?_parts name parts mode)
    · rw [List.map_append]
      exact ofOutcomes_of_halts hk (.targetMissing ht)

/-- Items are the tokens of a command, or hold a fault that the syntax has for them. -/
def FormsOrFaulty (size : Nat) (outcomes : List (Except LexError Token)) : Prop :=
  (∃ (tokens : List Token) (c : Command), outcomes = tokens.map .ok ∧
    Forms (tokens.map Token.kind) c) ∨ ∃ e, Faulty size outcomes e

theorem formsOrFaulty_of_halts {name : String} {parts : List Part} {tokens : List Token}
    (hk : tokens.map Token.kind = .argument name :: parts.flatMap Part.kinds)
    {rest : List (Except LexError Token)} {answer : Except ParseError Command}
    (hh : Halts size rest answer) : FormsOrFaulty size (tokens.map .ok ++ rest) := by
  have hb : Begins (tokens.map Token.kind) := hk ▸ begins_parts name parts
  have hr : ∀ {t : Token} {mode : RedirectMode}, t.kind = .redirect mode →
      Begins ((tokens ++ [t]).map Token.kind) ∧
        ((tokens ++ [t]).map Token.kind).getLast? = some (.redirect mode) := by
    intro t mode ht
    rw [List.map_append, List.map_singleton, ht]
    exact ⟨hk ▸ begins_redirect name parts mode, List.getLast?_concat⟩
  cases hh with
  | done =>
    rw [List.append_nil]
    exact .inl ⟨tokens, _, rfl, hk ▸ Forms.named name parts⟩
  | fault e rest => exact .inr ⟨_, .lex e rest hb⟩
  | targetFault e rest ht =>
    have hf : Faulty size _ (.lex e) := .lex e rest (hr ht).1
    rw [List.map_append, List.append_assoc] at hf
    exact .inr ⟨_, hf⟩
  | @targetKind t mode u rest ht hu =>
    have hf : Faulty size _ (.unexpectedToken u.offset u.kind) :=
      .unexpected u rest (hr ht).1 (.inr ⟨mode, (hr ht).2⟩) hu
    rw [List.map_append, List.append_assoc] at hf
    exact .inr ⟨_, hf⟩
  | targetMissing ht =>
    have hf : Faulty size _ (.missingRedirectTarget size) := .missingTarget (hr ht).1 (hr ht).2
    rw [List.map_append] at hf
    exact .inr ⟨_, hf⟩

theorem formsOrFaulty (size : Nat) (outcomes : List (Except LexError Token)) :
    FormsOrFaulty size outcomes := by
  cases outcomes with
  | nil => exact .inl ⟨[], empty, rfl, .blank⟩
  | cons first rest =>
    cases first with
    | error e => exact .inr ⟨_, @Faulty.lex size [] e rest begins_nil⟩
    | ok t =>
      by_cases ha : ∃ value, t.kind = .argument value
      · obtain ⟨name, hname⟩ := ha
        obtain ⟨tokens, parts, rest, answer, rfl, ht, hh⟩ := haltsBehindParts size rest
        have hk : (t :: tokens).map Token.kind = .argument name :: parts.flatMap Part.kinds := by
          rw [List.map_cons, hname, ht]
        exact formsOrFaulty_of_halts hk hh
      · have hk : ∀ value, t.kind ≠ .argument value := fun value hv => ha ⟨value, hv⟩
        exact .inr ⟨_, @Faulty.unexpected size [] t rest begins_nil (.inl rfl) hk⟩

theorem ofOutcomes_eq_ok_iff {outcomes : List (Except LexError Token)} {c : Command} :
    ofOutcomes size outcomes = .ok c ↔
      ∃ tokens : List Token, outcomes = tokens.map .ok ∧ Forms (tokens.map Token.kind) c := by
  constructor
  · intro h
    obtain ⟨tokens, c', rfl, hf⟩ | ⟨e, he⟩ := formsOrFaulty size outcomes
    · rw [ofOutcomes_of_forms hf] at h
      obtain rfl := Except.ok.inj h
      exact ⟨tokens, rfl, hf⟩
    · cases (ofOutcomes_of_faulty he).symm.trans h
  · rintro ⟨tokens, rfl, hf⟩
    exact ofOutcomes_of_forms hf

theorem ofOutcomes_eq_error_iff {outcomes : List (Except LexError Token)} {e : ParseError} :
    ofOutcomes size outcomes = .error e ↔ Faulty size outcomes e := by
  refine ⟨fun h => ?_, ofOutcomes_of_faulty⟩
  obtain ⟨tokens, c, rfl, hf⟩ | ⟨e', he⟩ := formsOrFaulty size outcomes
  · cases (ofOutcomes_of_forms hf).symm.trans h
  · obtain rfl := Except.error.inj ((ofOutcomes_of_faulty he).symm.trans h)
    exact he

end Reading

theorem mapM_outcome_eq_ok_iff {items : List Item} {tokens : List Token} :
    items.mapM Item.outcome = .ok tokens ↔ items.map Item.outcome = tokens.map .ok := by
  induction items generalizing tokens with
  | nil => cases tokens <;> simp [pure, Except.pure]
  | cons item items ih =>
    rw [List.mapM_cons, List.map_cons]
    cases ho : item.outcome with
    | error e => cases tokens <;> simp [bind, Except.bind]
    | ok t =>
      cases tokens with
      | nil => cases items.mapM Item.outcome <;> simp [bind, Except.bind, pure, Except.pure]
      | cons t' tokens =>
        simp only [List.map_cons, List.cons.injEq, Except.ok.injEq, ← ih]
        cases items.mapM Item.outcome <;> simp [bind, Except.bind, pure, Except.pure]

/-- A line is read from what calls on it read, item by item; a target that is missing is missed
where the last call leaves the cursor. -/
theorem parse_eq_of_reads {line : String} {items : List Item} {last : Cursor}
    (h : (Cursor.start line).Reads items last) :
    parse line = ofOutcomes last.offset (items.map Item.outcome) := by
  have hitems : items = scan line := h.items_eq
  rw [parse, hitems, h.offset_eq (Cursor.on_start line), Text.byteLength_toList]

/-- A line is read as a command where all of its items are tokens that form the command, and
the error of any other line is the fault of its first item that no command has at its place. -/
theorem parse_iff_syntax (line : String) :
    (∀ c, parse line = .ok c ↔
      ∃ tokens, tokenize line = .ok tokens ∧ Forms (tokens.map Token.kind) c) ∧
    (∀ e, parse line = .error e ↔
      Faulty line.utf8ByteSize ((scan line).map Item.outcome) e) ∧
    ∀ kinds kind, Begins (kinds ++ [kind]) ↔
      Begins kinds ∧ (AwaitsArgument kinds → ∃ value, kind = .argument value) := by
  obtain ⟨last, hreads⟩ := Cursor.reads_scanFrom (Cursor.start line)
  have hparse : parse line = ofOutcomes line.utf8ByteSize ((scan line).map Item.outcome) := by
    rw [parse_eq_of_reads hreads, hreads.offset_eq (Cursor.on_start line)]
    rfl
  rw [hparse]
  refine ⟨fun c => ?_, fun e => ofOutcomes_eq_error_iff, fun kinds kind => begins_concat_iff⟩
  rw [ofOutcomes_eq_ok_iff]
  simp only [tokenize, mapM_outcome_eq_ok_iff]

example : parse "echo > -x |" = .error (.unexpectedToken 7 (.shortOption "x")) := by
  cbv

end TreeShell.Command
