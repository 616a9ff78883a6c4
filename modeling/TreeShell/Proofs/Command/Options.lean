import Mathlib
import TreeShell.Command.Execution

/-! How options are spelled. A verb has a table of its flags, each with a letter and a word for
it. What a command sets is told by which letters and which words it has; in how many clusters its
letters stand, in which order and how often, tells only which bad one is named first. -/

namespace TreeShell

/-- The flags of a verb with their letters and their words. -/
def Verb.options : Verb → List (Char × String × Flag)
  | .ls => [('a', "all", .all)]
  | .mkdir => [('p', "parents", .parents)]
  | .rm => [('r', "recursive", .recursive), ('R', "recursive", .recursive)]
  | .cat | .cd | .clear | .echo | .pwd | .touch | .wget | .xdgOpen => []

def Verb.letters (v : Verb) : List Char :=
  v.options.map fun o => o.1

def Verb.words (v : Verb) : List String :=
  v.options.map fun o => o.2.1

def Command.letters (c : Command) : List Char :=
  c.shortOptions.flatMap String.toList

/-- Every letter and every word of the command is one that the verb takes. -/
structure Verb.Accepts (v : Verb) (c : Command) : Prop where
  letters : ∀ letter ∈ c.letters, letter ∈ v.letters
  words : ∀ word ∈ c.longOptions, word ∈ v.words

/-- What the verb has against the command: its first bad letter or, where all letters are good,
its first bad word. -/
inductive Verb.Refuses (v : Verb) (c : Command) : CommandError → Prop
  | letter {front rest : List Char} {letter : Char} : c.letters = front ++ letter :: rest →
    (∀ x ∈ front, x ∈ v.letters) → letter ∉ v.letters → Refuses v c (.invalidOption letter)
  | word {front rest : List String} {word : String} : (∀ x ∈ c.letters, x ∈ v.letters) →
    c.longOptions = front ++ word :: rest → (∀ x ∈ front, x ∈ v.words) → word ∉ v.words →
    Refuses v c (.unrecognizedOption word)

/-- The same command but for the clusters, the order and the number of its letters and words. -/
structure Command.Respells (c d : Command) : Prop where
  name_eq : c.name = d.name
  arguments_eq : c.arguments = d.arguments
  redirects_eq : c.redirects = d.redirects
  letters_iff : ∀ letter, letter ∈ c.letters ↔ letter ∈ d.letters
  words_iff : ∀ word, word ∈ c.longOptions ↔ word ∈ d.longOptions

/-- Looking up each item in turn ends at the first that is not found. -/
theorem mapM_lookup {ε α β : Type} (lookup? : α → Option β) (fault : α → ε) (as : List α) :
    (as.mapM fun a => (lookup? a).elim (Except.error (fault a)) Except.ok) =
      match as.find? fun a => (lookup? a).isNone with
      | some a => .error (fault a)
      | none => .ok (as.filterMap lookup?) := by
  induction as with
  | nil => rfl
  | cons a as ih =>
    rw [List.mapM_cons, List.find?_cons, ih]
    cases h : lookup? a with
    | none => rfl
    | some b =>
      rw [List.filterMap_cons_some h, Option.isNone_some]
      dsimp only
      cases as.find? fun a => (lookup? a).isNone <;> rfl

section Find

variable {α : Type} {as good : List α} {a : α} {bad : α → Bool}
  (hb : ∀ x, bad x = true ↔ x ∉ good)
include hb

theorem find?_bad_eq_none_iff : as.find? bad = none ↔ ∀ x ∈ as, x ∈ good := by
  simp [List.find?_eq_none, hb]

theorem find?_bad_eq_some_iff : as.find? bad = some a ↔
    a ∉ good ∧ ∃ front rest, as = front ++ a :: rest ∧ ∀ x ∈ front, x ∈ good := by
  have hgood : ∀ x, (!bad x) = true ↔ x ∈ good := fun x => by simp [← Bool.not_eq_true, hb]
  simp only [List.find?_eq_some_iff_append, hb, hgood]

end Find

namespace Verb

variable {v : Verb} {c : Command}

theorem shortFlag?_eq_some_iff {letter : Char} {f : Flag} :
    v.shortFlag? letter = some f ↔ ∃ word, (letter, word, f) ∈ v.options := by
  unfold shortFlag?
  split
  case h_5 => cases v <;> simp_all [options]
  all_goals simp [options, eq_comm]

theorem longFlag?_eq_some_iff {word : String} {f : Flag} :
    v.longFlag? word = some f ↔ ∃ letter, (letter, word, f) ∈ v.options := by
  unfold longFlag?
  split
  case h_4 => cases v <;> simp_all [options]
  all_goals simp [options, eq_comm, exists_or]

theorem isNone_shortFlag?_iff (letter : Char) :
    (v.shortFlag? letter).isNone = true ↔ letter ∉ v.letters := by
  simp [Option.isNone_iff_eq_none, Option.eq_none_iff_forall_ne_some, shortFlag?_eq_some_iff,
    letters, forall_comm (α := Flag)]

theorem isNone_longFlag?_iff (word : String) :
    (v.longFlag? word).isNone = true ↔ word ∉ v.words := by
  simp [Option.isNone_iff_eq_none, Option.eq_none_iff_forall_ne_some, longFlag?_eq_some_iff,
    words, forall_comm (α := Flag)]

/-- The flags of a command whose letters and words are all good. -/
def flagsSet (v : Verb) (c : Command) : List Flag :=
  c.letters.filterMap v.shortFlag? ++ c.longOptions.filterMap v.longFlag?

theorem flags_eq : v.flags c = match c.letters.find? fun x => (v.shortFlag? x).isNone with
    | some letter => .error (.invalidOption letter)
    | none => match c.longOptions.find? fun x => (v.longFlag? x).isNone with
      | some word => .error (.unrecognizedOption word)
      | none => .ok (v.flagsSet c) := by
  rw [flags, mapM_lookup, mapM_lookup, Command.letters]
  cases List.find? (fun x => (v.shortFlag? x).isNone) _ with
  | some letter => rfl
  | none => cases c.longOptions.find? fun x => (v.longFlag? x).isNone <;> rfl

theorem Accepts.flags_eq (h : v.Accepts c) : v.flags c = .ok (v.flagsSet c) := by
  rw [Verb.flags_eq, (find?_bad_eq_none_iff isNone_shortFlag?_iff).mpr h.letters,
    (find?_bad_eq_none_iff isNone_longFlag?_iff).mpr h.words]

theorem Refuses.flags_eq {e : CommandError} (h : v.Refuses c e) : v.flags c = .error e := by
  rw [Verb.flags_eq]
  cases h with
  | letter he hgood hbad =>
    rw [(find?_bad_eq_some_iff isNone_shortFlag?_iff).mpr ⟨hbad, _, _, he, hgood⟩]
  | word hletters he hgood hbad =>
    rw [(find?_bad_eq_none_iff isNone_shortFlag?_iff).mpr hletters,
      (find?_bad_eq_some_iff isNone_longFlag?_iff).mpr ⟨hbad, _, _, he, hgood⟩]

theorem accepts_or_refuses (v : Verb) (c : Command) : v.Accepts c ∨ ∃ e, v.Refuses c e := by
  cases hl : c.letters.find? fun x => (v.shortFlag? x).isNone with
  | some letter =>
    obtain ⟨hbad, front, rest, he, hgood⟩ := (find?_bad_eq_some_iff isNone_shortFlag?_iff).mp hl
    exact .inr ⟨_, .letter he hgood hbad⟩
  | none =>
    have hletters := (find?_bad_eq_none_iff isNone_shortFlag?_iff).mp hl
    cases hw : c.longOptions.find? fun x => (v.longFlag? x).isNone with
    | some word =>
      obtain ⟨hbad, front, rest, he, hgood⟩ := (find?_bad_eq_some_iff isNone_longFlag?_iff).mp hw
      exact .inr ⟨_, .word hletters he hgood hbad⟩
    | none => exact .inl ⟨hletters, (find?_bad_eq_none_iff isNone_longFlag?_iff).mp hw⟩

theorem accepts_iff : (∃ flags, v.flags c = .ok flags) ↔ v.Accepts c := by
  refine ⟨fun ⟨flags, hf⟩ => ?_, fun h => ⟨_, h.flags_eq⟩⟩
  obtain h | ⟨e, he⟩ := v.accepts_or_refuses c
  · exact h
  · cases hf.symm.trans he.flags_eq

theorem refuses_iff {e : CommandError} : v.flags c = .error e ↔ v.Refuses c e := by
  refine ⟨fun hf => ?_, Refuses.flags_eq⟩
  obtain h | ⟨e', he⟩ := v.accepts_or_refuses c
  · cases hf.symm.trans h.flags_eq
  · cases hf.symm.trans he.flags_eq
    exact he

/-- Verbs ask whether a flag is among those set, and nothing else about them. -/
theorem perform_congr {flags flags' : List Flag} (h : ∀ f, f ∈ flags ↔ f ∈ flags') (v : Verb)
    (fetch : Fetcher) (args : List String) (s : Session) :
    v.perform fetch flags args s = v.perform fetch flags' args s := by
  have hc : ∀ f, flags.contains f = flags'.contains f := fun f => by simp [h]
  cases v <;> simp only [perform, hc]

end Verb

namespace Command.Respells

variable {c d : Command} (h : c.Respells d)
include h

theorem symm : d.Respells c where
  name_eq := h.name_eq.symm
  arguments_eq := h.arguments_eq.symm
  redirects_eq := h.redirects_eq.symm
  letters_iff letter := (h.letters_iff letter).symm
  words_iff word := (h.words_iff word).symm

theorem accepts {v : Verb} (hv : v.Accepts c) : v.Accepts d where
  letters letter hl := hv.letters letter ((h.letters_iff letter).mpr hl)
  words word hw := hv.words word ((h.words_iff word).mpr hw)

theorem mem_flagsSet_iff (v : Verb) (f : Flag) : f ∈ v.flagsSet c ↔ f ∈ v.flagsSet d := by
  simp only [Verb.flagsSet, List.mem_append, List.mem_filterMap, h.letters_iff, h.words_iff]

theorem run_eq {v : Verb} (hv : v.Accepts c) (fetch : Fetcher) (s : Session) :
    v.run fetch c s = v.run fetch d s := by
  rw [Verb.run, Verb.run, hv.flags_eq, (h.accepts hv).flags_eq, h.arguments_eq]
  dsimp only
  rw [Verb.perform_congr (h.mem_flagsSet_iff v)]

theorem execute_eq (hv : ∀ v, Verb.ofName? c.name = some v → v.Accepts c) (fetch : Fetcher)
    (s : Session) : c.execute fetch s = d.execute fetch s := by
  have hrun : c.runVerb fetch s = d.runVerb fetch s := by
    rw [runVerb, runVerb, ← h.name_eq]
    cases hn : Verb.ofName? c.name with
    | none => rfl
    | some v =>
      dsimp only
      rw [h.run_eq (hv v hn)]
  have hredirect : ∀ result t, c.redirect result t = d.redirect result t := fun result t => by
    rw [redirect, redirect, h.redirects_eq, h.name_eq]
  rw [execute, execute, isEmpty, isEmpty, h.name_eq, hrun]
  simp only [hredirect]

end Command.Respells

/-- A verb accepts a command exactly if it takes each of its letters and words, and else names
the first bad letter, or, if there is none, the first bad word. So it accepts every spelling of
the options or none, and where the verb that a command names accepts it, every spelling of it
has the same result and leaves the same session. -/
theorem options_may_be_respelled :
    (∀ (v : Verb) (c : Command), ((∃ flags, v.flags c = .ok flags) ↔ v.Accepts c) ∧
      ∀ e, v.flags c = .error e ↔ v.Refuses c e) ∧
    ∀ c d : Command, c.Respells d →
      (∀ v : Verb, (∃ flags, v.flags c = .ok flags) ↔ ∃ flags, v.flags d = .ok flags) ∧
      ((∀ v, Verb.ofName? c.name = some v → ∃ flags, v.flags c = .ok flags) →
        ∀ fetch s, c.execute fetch s = d.execute fetch s) := by
  refine ⟨fun v c => ⟨Verb.accepts_iff, fun e => Verb.refuses_iff⟩, fun c d h => ⟨fun v => ?_, ?_⟩⟩
  · rw [Verb.accepts_iff, Verb.accepts_iff]
    exact ⟨h.accepts, h.symm.accepts⟩
  · intro hv fetch s
    exact h.execute_eq (fun v hn => Verb.accepts_iff.mp (hv v hn)) fetch s

/-- Both letters in one cluster, and each by itself and again with the other. -/
theorem options_may_be_respelled_rm : ∃ c c' : Command,
    c = ⟨"rm", ["rR"], ["recursive", "recursive"], ["x"], []⟩ ∧
    c' = ⟨"rm", ["R", "r", "Rr"], ["recursive"], ["x"], []⟩ ∧ Command.Respells c c' ∧
    Verb.rm.flags c = .ok [.recursive, .recursive, .recursive, .recursive] ∧
    ∀ fetch s, c.execute fetch s = c'.execute fetch s := by
  let c : Command := ⟨"rm", ["rR"], ["recursive", "recursive"], ["x"], []⟩
  let c' : Command := ⟨"rm", ["R", "r", "Rr"], ["recursive"], ["x"], []⟩
  have hletters : c.letters = ['r', 'R'] := rfl
  have hletters' : c'.letters = ['R', 'r', 'R', 'r'] := rfl
  have h : c.Respells c' := by
    refine ⟨rfl, rfl, rfl, fun letter => ?_, fun word => by simp [c, c']⟩
    simp only [hletters, hletters', List.mem_cons, List.not_mem_nil]
    tauto
  have hf : Verb.rm.flags c = .ok [.recursive, .recursive, .recursive, .recursive] := rfl
  refine ⟨c, c', rfl, rfl, h, hf, (options_may_be_respelled.2 _ _ h).2 fun v hn => ?_⟩
  obtain rfl : Verb.rm = v := Option.some.inj ((Verb.ofName?_name .rm).symm.trans hn)
  exact ⟨_, hf⟩

end TreeShell
