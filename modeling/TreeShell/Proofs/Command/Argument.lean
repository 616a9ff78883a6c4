import TreeShell.Proofs.Command.Syntax
import TreeShell.Proofs.Token.Words

/-! Lines of one argument. A plain word is its own argument; of a name that is not plain, and of
separators in front of one, something is lost, so that the argument is another name. -/

namespace TreeShell

namespace Command

/-- A text that is read as one argument and nothing else. -/
def ReadsArgument (cs : List Char) (value : String) : Prop :=
  ∃ blanks c rest, OnlySeparators blanks ∧ isSeparator c = false ∧ cs = blanks ++ c :: rest ∧
    (scanToken c rest).1 = .ok (.argument value) ∧ OnlySeparators (scanToken c rest).2

theorem readsArgument_iff {cs : List Char} {value : String} (start : Nat) :
    ReadsArgument cs value ↔ ∃ t, outcomesFrom start cs = [.ok t] ∧ t.kind = .argument value := by
  constructor
  · rintro ⟨blanks, c, rest, hb, hc, rfl, ht, hrest⟩
    obtain ⟨start', hs⟩ := outcomesFrom_behind_separators hb start (c :: rest)
    obtain ⟨length, stop, he⟩ := outcomesFrom_token hc (Prod.ext ht rfl) start'
    rw [(outcomesFrom_eq_nil_iff stop).mpr hrest] at he
    exact ⟨_, hs.trans he, rfl⟩
  · rintro ⟨t, he, hk⟩
    obtain h | ⟨blanks, c, rest, hb, hc, rfl⟩ := onlySeparators_or_token cs
    · rw [(outcomesFrom_eq_nil_iff start).mpr h] at he
      cases he
    · obtain ⟨start', hs⟩ := outcomesFrom_behind_separators hb start (c :: rest)
      obtain ⟨stop, ht⟩ := outcomesFrom_eq_cons hc start' rest
      rw [hs, ht] at he
      obtain ⟨hfirst, hnil⟩ := List.cons.inj he
      have hvalue : argumentOf (Item.place start' stop (scanToken c rest).1).outcome =
          .ok value := by
        rw [hfirst, argumentOf, hk]
      exact ⟨blanks, c, rest, hb, hc, rfl, argumentOf_place.mp hvalue,
        (outcomesFrom_eq_nil_iff stop).mp hnil⟩

theorem forms_argument_iff {kinds : List Token.Kind} {name value : String} :
    Forms kinds ⟨name, [], [], [value], []⟩ ↔ kinds = [.argument name, .argument value] := by
  constructor
  · intro h
    generalize hc : (⟨name, [], [], [value], []⟩ : Command) = c at h
    cases h with
    | blank => cases hc
    | named name' parts =>
      obtain ⟨rfl, hshort, hlong, hargument, hredirect⟩ := Command.mk.inj hc
      -- Any part puts something into one of the lists.
      match parts with
      | [] => cases hargument
      | .shortOption _ :: _ => cases hshort
      | .longOption _ :: _ => cases hlong
      | .redirect _ :: _ => cases hredirect
      | [.argument v] =>
        obtain ⟨rfl, -⟩ := List.cons.inj hargument
        rfl
      | .argument v :: p :: parts =>
        cases p with
        | argument w => cases (List.cons.inj hargument).2
        | shortOption _ => cases hshort
        | longOption _ => cases hlong
        | redirect _ => cases hredirect
  · rintro rfl
    exact .named name [.argument value]

section Plain

variable {c : Char} {word : List Char} (hp : ∀ d ∈ c :: word, isPlainChar d = true) (hd : c ≠ '-')
include hp hd

theorem readsArgument_plain {rest : List Char} (hr : EndsToken rest)
    (hblank : OnlySeparators rest) : ReadsArgument (c :: word ++ rest) (.ofList (c :: word)) := by
  have hs := scanToken_plain hp hd hr
  have hc := isSeparator_of_isPlainChar (hp c List.mem_cons_self)
  refine ⟨[], c, word ++ rest, fun e he => absurd he List.not_mem_nil, hc, rfl, ?_, ?_⟩
  · rw [hs]
  · rwa [hs]

theorem readsArgument_behind {cs : List Char} {value : String}
    (h : ReadsArgument (c :: word ++ cs) value) :
    value.toList = c :: word ++ (scanWord isBareChar cs).1 := by
  have hc := hp c List.mem_cons_self
  obtain ⟨blanks, e, rest, hb, he, hcs, ht, -⟩ := h
  cases blanks with
  | nil =>
    obtain ⟨rfl, rfl⟩ : c = e ∧ word ++ cs = rest := List.cons.inj hcs
    rw [scanToken_bare hd (isPlainChar_iff.mp hc).1, ← List.cons_append, scanWord_plain hp] at ht
    obtain rfl := Token.Kind.argument.inj (Except.ok.inj ht)
    exact String.toList_ofList
  | cons b blanks =>
    obtain ⟨rfl, -⟩ := List.cons.inj hcs
    have hsep := hb c List.mem_cons_self
    rw [isSeparator_of_isPlainChar hc] at hsep
    cases hsep

/-- A line of a plain name and a text behind it is a command with one argument where the text is
read as the argument. -/
theorem parse_argument_iff {cs : List Char} {value : String} :
    parse (.ofList (c :: word ++ ' ' :: cs)) = .ok ⟨.ofList (c :: word), [], [], [value], []⟩ ↔
      ReadsArgument cs value := by
  have hc := isSeparator_of_isPlainChar (hp c List.mem_cons_self)
  have hspace : isSeparator ' ' = true := by decide
  have hends : EndsToken (' ' :: cs) := fun e he => (Option.some.inj he).symm
  obtain ⟨length, stop, he⟩ := outcomesFrom_token hc (scanToken_plain hp hd hends) 0
  rw [outcomesFrom_separator hspace] at he
  have hscan : (scan (.ofList (c :: word ++ ' ' :: cs))).map Item.outcome =
      .ok ⟨0, length, .argument (.ofList (c :: word))⟩ ::
        outcomesFrom (stop + ' '.utf8Size) cs := by
    rw [scan, String.toList_ofList]
    exact he
  rw [parse, hscan, ofOutcomes_eq_ok_iff, readsArgument_iff (stop + ' '.utf8Size)]
  simp only [forms_argument_iff]
  constructor
  · rintro ⟨tokens, htokens, hkinds⟩
    obtain ⟨t, rest, rfl, -, hrest⟩ := List.map_eq_cons_iff.mp hkinds
    obtain ⟨u, rfl, hu⟩ := List.map_eq_singleton_iff.mp hrest
    exact ⟨u, (List.cons.inj htokens).2, hu⟩
  · rintro ⟨t, ht, hk⟩
    exact ⟨[⟨0, length, .argument (.ofList (c :: word))⟩, t], by rw [ht]; rfl, by simp [hk]⟩

end Plain

/-- Separators in front of a name are lost, so it is read as itself only if it has none. -/
theorem readsOff_of_readsArgument {name : List Char} {stop : Char} {value : String}
    (hstop : stop = '/' ∨ stop = ' ') (hname : '/' ∉ name)
    (hne : name ≠ []) (h : ReadsArgument (name ++ [stop]) value) :
    ∃ found, ReadsOff name value.toList found ∧ (found = name → name.head? ≠ some '-') := by
  obtain ⟨blanks, c, rest, -, hc, hcs, ht, -⟩ := h
  -- What is left behind the separators still ends in the character behind the name.
  obtain hnil | ⟨front, last, hlast⟩ := List.eq_nil_or_concat (c :: rest)
  · cases hnil
  rw [List.concat_eq_append] at hlast
  rw [hlast, ← List.append_assoc] at hcs
  obtain ⟨rfl, hone⟩ := List.append_inj' hcs rfl
  obtain rfl : stop = last := by simpa using hone
  have hfront : '/' ∉ front := fun hm => hname (List.mem_append_right blanks hm)
  obtain ⟨found, hfound, hdash⟩ := readsOff_of_scanToken hc hlast hstop hfront ht
  have hle : found.length ≤ front.length := hfound.length_le
  have hblanks : found = blanks ++ front → blanks = [] := by
    rintro rfl
    rw [List.length_append] at hle
    exact List.length_eq_zero_iff.mp (by omega)
  refine ⟨found, ⟨hfound.value_eq, hfound.no_slash, ?_, fun h => ?_⟩, fun h => ?_⟩
  · rw [List.length_append]
    omega
  · obtain rfl := hblanks h
    exact hfound.plain h
  · obtain rfl := hblanks h
    obtain ⟨d, front, rfl⟩ := List.exists_cons_of_ne_nil hne
    obtain ⟨rfl, -⟩ := List.cons.inj hlast
    simpa using hdash h

end Command

end TreeShell
