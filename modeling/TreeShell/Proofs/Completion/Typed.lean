import TreeShell.Proofs.Command.Argument
import TreeShell.Proofs.Completion.Offers

/-! Running a line as it was completed. Completing puts the name of an entry into the line as it
is, without quotes; so the line is read as one path to that entry only if each character of the
name stands for itself, and the name has no meaning of its own at the start of a word. -/

namespace TreeShell

namespace Completion

/-- ASCII letters and digits, and the marks that paths are made of. -/
def isPathChar (c : Char) : Bool :=
  c.isAlphanum || c = '.' || c = '_' || c = '~' || c = '/'

/-- A name that can be typed without quotes behind the directory part of a path. Where there is
no such part, it must start no option and not stand for the home directory. -/
structure Typable (dir : List Char) (name : String) : Prop where
  plain : ∀ c ∈ name.toList, isPlainChar c = true
  first : dir = [] → name.toList.head? ≠ some '-' ∧ name ≠ "~"

/-- A line that is read as `cat` with one argument, which leads to the node. -/
def Cats (s : Session) (line : String) (h : Handle) : Prop :=
  ∃ path, Command.parse line = .ok ⟨"cat", [], [], [path], []⟩ ∧ s.resolve path = .ok h

/-- An entry of the directory that a word names up to its last slash, and the only one to be
offered for the rest of the word. -/
structure OnlyEntry (s : Session) (head dir part : List Char) (d : Handle) (name : String)
    (c : Handle) : Prop where
  directory : directoryOf s dir = .ok d
  child : s.tree.child? d name = some c
  candidate_iff : ∀ n, EntryCandidate s head dir part n ↔ n = s.shownEntry (name, c)

/-- What follows the name of an entry in a line that was completed to it. -/
def stopOf (s : Session) (c : Handle) : Char :=
  if s.tree.isDirectory c then '/' else ' '

end Completion

namespace Path

section Found

variable {value found : List Char} (hv : value = found ∨ value = found ++ ['/'])
  (hslash : '/' ∉ found)
include hv hslash

/-- A name, with or without a slash at its end, has an anchor only if it is empty or a tilde. -/
theorem anchor_of_name (hne : found ≠ []) (htilde : found ≠ ['~']) :
    anchor (.ofList value) = (.here, .ofList value) := by
  obtain ⟨c, cs, rfl⟩ := List.exists_cons_of_ne_nil hne
  obtain ⟨hc, hcs⟩ := not_or.mp (mt List.mem_cons.mpr hslash)
  refine anchor_here ?_ ?_ ?_
  · rintro rest rfl
    simp [hc] at hv
  · rintro rfl
    obtain he | he := hv
    · exact htilde he.symm
    · simp at he
  · rintro rest rfl
    cases cs with
    | nil =>
      have hv : '~' = c ∧ rest = [] := by simpa using hv
      exact htilde (by rw [hv.1])
    | cons d cs =>
      obtain ⟨hd, -⟩ := not_or.mp (mt List.mem_cons.mpr hcs)
      simp [hd] at hv

theorem eq_of_normalize {base : List String} {name : String}
    (h : normalize base (.ofList value) = base ++ [name]) : .ofList found = name := by
  have hfound : normalize base (.ofList found) = base ++ [name] := by
    obtain rfl | rfl := hv
    · exact h
    · rwa [normalize_concat] at h
  rw [normalize_last hslash] at hfound
  split at hfound
  · exact absurd (congrArg List.length hfound) (by simp)
  · unfold follow at hfound
    split at hfound
    · have hlen := congrArg List.length hfound
      simp only [List.length_dropLast, List.length_append, List.length_singleton] at hlen
      omega
    · split at hfound
      · exact absurd (congrArg List.length hfound) (by simp)
      · simpa using hfound

end Found

end Path

namespace Session

theorem segments_behind_slash (s : Session) {dir : List Char} (hne : dir ≠ [])
    (hends : ∀ c ∈ dir.getLast?, c = '/') (rest : List Char) :
    s.segments (.ofList (dir ++ rest)) =
      Path.normalize (s.segments (.ofList dir)) (.ofList rest) := by
  obtain rfl | ⟨front, last, rfl⟩ := List.eq_nil_or_concat dir
  · exact absurd rfl hne
  obtain rfl : last = '/' := hends last (by simp)
  rw [List.concat_eq_append, List.append_assoc, List.singleton_append]
  by_cases hf : front = []
  · simp [hf, segments, Path.anchor, anchorNames]
  · rw [segments_slash s hf, segments_slash s hf]
    rfl

end Session

namespace Completion

theorem isPlainChar_of_isPathChar {c : Char} (h : isPathChar c = true) :
    isPlainChar c = true ∧ c ≠ '-' := by
  have hne : ∀ d ∈ [' ', '\t', '\r', '\n', '>', '\'', '"', '|', '<', ';', '\\', '-'], c ≠ d := by
    rintro d hd rfl
    revert h
    fin_cases hd <;> decide
  have hc : Text.isControl c = false := by
    simp only [isPathChar, Bool.or_eq_true, decide_eq_true_eq] at h
    obtain (((h | rfl) | rfl) | rfl) | rfl := h
    · simp only [Char.isAlphanum, Char.isAlpha, Char.isUpper, Char.isLower, Char.isDigit,
        Bool.or_eq_true, Bool.and_eq_true, decide_eq_true_eq, UInt32.le_iff_toNat_le] at h
      have hval : c.toNat = c.val.toNat := rfl
      simp [Text.isControl] at h ⊢
      omega
    all_goals decide
  simp only [List.forall_mem_cons] at hne
  simp [isPlainChar, isBareChar, isSeparator, isQuote, isIllegal, hc, hne]

section Entries

variable {s : Session} {dir : List Char} {d c : Handle} {name : String}

/-- Behind its directory part a path is followed from the directory. -/
theorem segments_of_directoryOf (hs : s.Sound) (hends : ∀ c ∈ dir.getLast?, c = '/')
    (hr : directoryOf s dir = .ok d) {rest : List Char}
    (hhere : dir = [] → Path.anchor (.ofList rest) = (.here, .ofList rest)) :
    s.segments (.ofList (dir ++ rest)) =
      Path.normalize (s.tree.segmentsOf d) (.ofList rest) := by
  by_cases hdir : dir = []
  · obtain rfl : s.cwd = d := by simpa [directoryOf, directoryPath?, hdir] using hr
    rw [hdir, List.nil_append, Session.segments, hhere hdir]
    rfl
  · have hresolve : s.resolve (.ofList dir) = .ok d := by
      simpa [directoryOf, directoryPath?, hdir] using hr
    rw [s.segments_behind_slash hdir hends,
      (Session.segmentsOf_of_resolve hs.linked hresolve).2]

variable (hs : s.Printable) (hends : ∀ c ∈ dir.getLast?, c = '/')
  (hr : directoryOf s dir = .ok d) (hc : s.tree.child? d name = some c)
include hs hends hr hc

theorem resolve_typed (hhome : dir = [] → name ≠ "~") :
    s.resolve (.ofList (dir ++ (s.shownEntry (name, c)).toList)) = .ok c := by
  have ht := hs.sound.linked
  have hl := ht.down hc
  have hn := hs.named.ordinary hl
  have hshown := toList_shownEntry s (name, c)
  have hne : (s.shownEntry (name, c)).toList ≠ [] := by
    obtain he | he := hshown <;> simp [he, hn.toList_ne_nil]
  have hpath : String.ofList (dir ++ (s.shownEntry (name, c)).toList) ≠ "" := by
    rw [Ne, String.ofList_eq_empty_iff]
    exact List.append_ne_nil_of_right_ne_nil dir hne
  have hhere : dir = [] → Path.anchor (.ofList (s.shownEntry (name, c)).toList) =
      (.here, .ofList (s.shownEntry (name, c)).toList) := fun hdir =>
    Path.anchor_of_name hshown hn.no_slash hn.toList_ne_nil fun he =>
      hhome hdir (String.toList_inj.mp he)
  refine Session.resolve_of_segments ht hl hpath ?_ fun hslash => ?_
  · rw [segments_of_directoryOf hs.sound hends hr hhere, String.ofList_toList, Path.normalize,
      Session.components_shownEntry s c hn, ht.segmentsOf_of_link? hl]
    exact Path.follow_ordinary hn
  · rw [← Session.endsInSlash_shownEntry s c hn]
    rwa [Path.endsInSlash, String.toList_ofList, List.getLast?_append_of_ne_nil dir hne] at hslash

/-- A path to an entry of the directory has the name of the entry behind the directory part, but
that home can also be reached by its tilde. -/
theorem name_of_resolve {value found : List Char} (hv : value = found ∨ value = found ++ ['/'])
    (hslash : '/' ∉ found) (h : s.resolve (.ofList (dir ++ value)) = .ok c) :
    (found = name.toList ∧ (dir = [] → name ≠ "~")) ∨ c = s.home := by
  have ht := hs.sound.linked
  have hl := ht.down hc
  have hsegs := (Session.segmentsOf_of_resolve ht h).2
  rw [ht.segmentsOf_of_link? hl] at hsegs
  have hname : (dir = [] → Path.anchor (.ofList value) = (.here, .ofList value)) →
      found = name.toList := by
    intro hhere
    rw [segments_of_directoryOf hs.sound hends hr hhere] at hsegs
    rw [← Path.eq_of_normalize hv hslash hsegs.symm, String.toList_ofList]
  by_cases hdir : dir = []
  · subst hdir
    by_cases hnil : found = []
    · -- Nothing was typed, or a slash alone, and this leads to the root.
      obtain rfl | rfl := hv
      · exact absurd (by rw [hnil]; rfl) (Session.ne_empty_of_resolve h)
      · simp [hnil, Session.segments, Path.anchor, Session.anchorNames] at hsegs
    by_cases htilde : found = ['~']
    · have hhome : s.segments (.ofList ([] ++ value)) = s.tree.segmentsOf s.home := by
        obtain rfl | rfl := hv <;>
          simp [htilde, Session.segments, Path.anchor, Session.anchorNames]
      obtain ⟨link, hlink⟩ := Tree.link?_of_isDirectory hs.sound.home_isDirectory
      have he : s.tree.segmentsOf c = s.tree.segmentsOf s.home := by
        rw [← hhome, ← hsegs, ht.segmentsOf_of_link? hl]
      exact .inr (ht.segmentsOf_injective hl hlink he)
    · have he := hname fun _ => Path.anchor_of_name hv hslash hnil htilde
      exact .inl ⟨he, fun _ hn => htilde (by rw [he, hn]; rfl)⟩
  · exact .inl ⟨hname fun h => absurd h hdir, fun h => absurd h hdir⟩

end Entries

section Reading

open Command

variable {name : List Char} {stop : Char} {value : String}

theorem readsArgument_typed {s : Session} {dir : List Char} {name : String} {c : Handle}
    (hdir : ∀ e ∈ dir, isPathChar e = true) (hname : name ≠ "") (h : Typable dir name) :
    ReadsArgument (dir ++ (name.toList ++ [stopOf s c]))
      (.ofList (dir ++ (s.shownEntry (name, c)).toList)) := by
  have hshown := toList_shownEntry s (name, c)
  have hplain : ∀ e ∈ dir ++ (s.shownEntry (name, c)).toList, isPlainChar e = true := by
    refine List.forall_mem_append.mpr ⟨fun e he => (isPlainChar_of_isPathChar (hdir e he)).1, ?_⟩
    obtain he | he := hshown
    · rw [he]
      exact h.plain
    · have hslash : isPlainChar '/' = true := (isPlainChar_of_isPathChar (by decide)).1
      rw [he]
      exact List.forall_mem_append.mpr ⟨h.plain, List.forall_mem_singleton.mpr hslash⟩
  have hdash : (dir ++ (s.shownEntry (name, c)).toList).head? ≠ some '-' := by
    cases dir with
    | nil =>
      obtain ⟨e, cs, he⟩ := List.exists_cons_of_ne_nil (mt String.toList_eq_nil_iff.mp hname)
      have hfirst := (h.first rfl).1
      obtain hn | hn := hshown <;> simpa [hn, he] using hfirst
    | cons e dir =>
      simpa using (isPlainChar_of_isPathChar (hdir e List.mem_cons_self)).2
  have hrest : ∃ rest, (EndsToken rest ∧ OnlySeparators rest) ∧
      name.toList ++ [stopOf s c] = (s.shownEntry (name, c)).toList ++ rest := by
    unfold stopOf Session.shownEntry
    split
    · exact ⟨[], by simp [EndsToken, OnlySeparators], by simp⟩
    · exact ⟨[' '], by simp [EndsToken, OnlySeparators, isSeparator], rfl⟩
  obtain ⟨rest, ⟨hends, hblank⟩, he⟩ := hrest
  rw [he, ← List.append_assoc]
  cases hword : dir ++ (s.shownEntry (name, c)).toList with
  | nil =>
    obtain he | he := hshown <;> simp [he, hname] at hword
  | cons e word =>
    rw [hword] at hplain hdash
    exact readsArgument_plain hplain (fun hd => hdash (by rw [hd]; rfl)) hends hblank

theorem readsOff_of_typed {dir : List Char} (hdir : ∀ e ∈ dir, isPathChar e = true)
    (hstop : stop = '/' ∨ stop = ' ') (hname : '/' ∉ name) (hne : name ≠ [])
    (h : ReadsArgument (dir ++ (name ++ [stop])) value) :
    ∃ word found, value = .ofList (dir ++ word) ∧ ReadsOff name word found ∧
      (dir = [] → found = name → name.head? ≠ some '-') := by
  cases dir with
  | nil =>
    obtain ⟨found, hfound, hdash⟩ := readsOff_of_readsArgument hstop hname hne h
    exact ⟨value.toList, found, String.ofList_toList.symm, hfound, fun _ => hdash⟩
  | cons e dir =>
    have hplain : ∀ c ∈ e :: dir, isPlainChar c = true := fun c hc =>
      (isPlainChar_of_isPathChar (hdir c hc)).1
    have hdash := (isPlainChar_of_isPathChar (hdir e List.mem_cons_self)).2
    have hvalue := readsArgument_behind hplain hdash h
    obtain ⟨found, hfound⟩ := readsOff_of_scanWord hstop hname rfl
    exact ⟨_, found, by rw [← hvalue, String.ofList_toList], hfound, fun h => by cases h⟩

end Reading

section Lines

variable {s : Session} {input line : String} {head word dir part : List Char}

theorem cut_behind_cat {word : String} (hw : ∀ c ∈ word.toList, isPathChar c = true) :
    Text.CutAfterLast endsWord ("cat " ++ word).toList "cat ".toList word.toList := by
  refine ⟨String.toList_append.symm, by simp [endsWord], fun c hc => ?_⟩
  have hsep := isSeparator_of_isPlainChar (isPlainChar_of_isPathChar (hw c hc)).1
  simp only [isSeparator, Bool.or_eq_false_iff] at hsep
  simp [endsWord, hsep]

theorem parse_cat_iff {cs : List Char} (hline : line.toList = "cat ".toList ++ cs)
    (path : String) : Command.parse line = .ok ⟨"cat", [], [], [path], []⟩ ↔
      Command.ReadsArgument cs path := by
  have hcat : ∀ c ∈ ['c', 'a', 't'], isPlainChar c = true := fun c hc =>
    (isPlainChar_of_isPathChar (by revert c; simp [isPathChar])).1
  have hlist : line = .ofList (['c', 'a', 't'] ++ ' ' :: cs) :=
    String.toList_inj.mp (hline.trans String.toList_ofList.symm)
  rw [hlist]
  exact Command.parse_argument_iff hcat (by decide)

theorem ofMatches_eq_single {front : List Char} {found : List String} {line : String}
    (h : ofMatches front found = some (.single line)) : ∃ name, found = [name] ∧
      line = .ofList (front ++ name.toList ++ if Path.endsInSlash name then [] else [' ']) := by
  unfold ofMatches at h
  split at h
  · cases h
  · rename_i name
    cases h
    exact ⟨name, rfl, by simp [Path.endsInSlash]⟩
  · cases h

theorem entry_of_complete (hs : s.Printable) (hb : Text.allBlank input.toList = false)
    (hcut : Text.CutAfterLast endsWord input.toList head word) (hh : Text.allBlank head = false)
    (hdir : Text.CutAfterLast (· = '/') word dir part)
    (h : complete input s = some (.single line)) : ∃ d name c,
      OnlyEntry s head dir part d name c ∧
      line.toList = head ++ (dir ++ (name.toList ++ [stopOf s c])) := by
  obtain ⟨hends, -⟩ := slash_ends hdir
  rw [complete_entry hb hcut hh hdir] at h
  obtain ⟨shown, hone, rfl⟩ := ofMatches_eq_single h
  have hiff : ∀ n, EntryCandidate s head dir part n ↔ n = shown := fun n => by
    rw [← mem_nameMatches_iff hs.sound hends, hone, List.mem_singleton]
  have hmem : shown ∈ namesIn s dir :=
    (mem_nameMatches.mp (hone ▸ List.mem_singleton_self shown)).1
  obtain ⟨d, hr, -, heq⟩ := exists_directoryOf_of_mem_namesIn hs.sound hends hmem
  rw [heq] at hmem
  obtain ⟨⟨name, c⟩, he, rfl⟩ := List.mem_map.mp hmem
  have hn := ordinary_of_mem_entries hs he
  refine ⟨d, name, c, ⟨hr, Tree.mem_entries_iff.mp he, hiff⟩, ?_⟩
  rw [String.toList_ofList, Session.endsInSlash_shownEntry s c hn]
  unfold stopOf Session.shownEntry
  split <;> simp

end Lines

end Completion

open Session Completion

namespace Command

/-- Whatever commands are run in a session of a user with an ordinary name: if a path behind `cat`
is completed to the only entry that fits, the line can be run as it stands, and the path leads to
that entry, if the name of the entry can be typed without quotes. Otherwise it cannot, but for
home, which is also found where its name is read as a tilde. -/
theorem complete_runs_typable {user : String} (hu : Path.Ordinary user) (fetch : Fetcher)
    (cs : List Command) {word line : String} (hw : ∀ c ∈ word.toList, isPathChar c = true) :
    let s := (executeAll fetch cs (withHome user)).2
    complete ("cat " ++ word) s = some (.single line) →
      ∃ dir part d name c, Text.CutAfterLast (· = '/') word.toList dir part ∧
        OnlyEntry s "cat ".toList dir part d name c ∧
        line.toList = "cat ".toList ++ (dir ++ (name.toList ++ [stopOf s c])) ∧
        (Typable dir name → Cats s line c) ∧ (Cats s line c → Typable dir name ∨ c = s.home) := by
  intro s h
  have hs : s.Printable := printable_of_start hu (.inl rfl) fetch cs
  generalize s = s at hs h ⊢
  have hb : Text.allBlank ("cat " ++ word).toList = false := by simp [Text.allBlank, Text.isBlank]
  have hh : Text.allBlank "cat ".toList = false := by decide
  have hcut := cut_behind_cat hw
  have hdir := Text.cutAfterLast_cuts (· = '/') word.toList
  generalize (Text.cutAfterLast (· = '/') word.toList).1 = dir at hdir
  generalize (Text.cutAfterLast (· = '/') word.toList).2 = part at hdir
  obtain ⟨d, name, c, hentry, hline⟩ := entry_of_complete hs hb hcut hh hdir h
  obtain ⟨hends, -⟩ := slash_ends hdir
  have hpath : ∀ e ∈ dir, isPathChar e = true := fun e he =>
    hw e (hdir.append_eq ▸ List.mem_append_left part he)
  have hn := hs.named.ordinary (hs.sound.linked.down hentry.child)
  refine ⟨dir, part, d, name, c, hdir, hentry, hline, fun ht => ?_, ?_⟩
  · exact ⟨_, (parse_cat_iff hline _).mpr (readsArgument_typed hpath hn.ne_empty ht),
      resolve_typed hs hends hentry.directory hentry.child fun h => (ht.first h).2⟩
  · rintro ⟨path, hp, hr⟩
    have hstop : stopOf s c = '/' ∨ stopOf s c = ' ' := ite_eq_or_eq _ _ _
    obtain ⟨value, found, rfl, hfound, hdash⟩ :=
      readsOff_of_typed hpath hstop hn.no_slash hn.toList_ne_nil ((parse_cat_iff hline path).mp hp)
    have hname := name_of_resolve hs hends hentry.directory hentry.child hfound.value_eq
      hfound.no_slash hr
    refine hname.imp_left fun hfit => ?_
    obtain ⟨he, hhome⟩ := hfit
    exact ⟨hfound.plain he, fun h => ⟨hdash h he, hhome h⟩⟩

theorem complete_runs_typable_guest : ∃ s, s = (executeAll (.ofList [])
      [⟨"mkdir", [], [], ["d"], []⟩, ⟨"touch", [], [], ["d/x.txt", "d/y"], []⟩]
      (withHome "g")).2 ∧
    Path.Ordinary "g" ∧ (∀ c ∈ "~/d/x".toList, isPathChar c = true) ∧
    complete ("cat " ++ "~/d/x") s = some (.single "cat ~/d/x.txt ") ∧
    ∃ d c, s.tree.child? d "x.txt" = some c ∧ Cats s "cat ~/d/x.txt " c := by
  have hu : Path.Ordinary "g" := ⟨by decide, by decide, by decide, by decide⟩
  have hw : ∀ c ∈ "~/d/x".toList, isPathChar c = true := by simp [isPathChar]
  have hc : complete ("cat " ++ "~/d/x") (executeAll (.ofList []) [⟨"mkdir", [], [], ["d"], []⟩,
      ⟨"touch", [], [], ["d/x.txt", "d/y"], []⟩] (withHome "g")).2 =
        some (.single "cat ~/d/x.txt ") := by
    decide +kernel
  refine ⟨_, rfl, hu, hw, hc, ?_⟩
  obtain ⟨dir, part, d, name, c, hdir, hentry, hline, hruns, -⟩ :=
    complete_runs_typable hu (.ofList []) _ hw hc
  obtain ⟨rfl, -⟩ : "~/d/".toList = dir ∧ "x".toList = part := by
    simpa [Text.cutAfterLast] using hdir.eq
  have htail : "cat ~/d/".toList ++ ("x.txt".toList ++ [' ']) =
      "cat ~/d/".toList ++ (name.toList ++ [stopOf _ c]) := hline
  have hname := (List.append_inj' (List.append_cancel_left htail) rfl).1
  obtain rfl : "x.txt" = name := String.toList_inj.mp hname
  have ht : Typable "~/d/".toList "x.txt" := by
    have hpath : ∀ c ∈ "x.txt".toList, isPathChar c = true := by simp [isPathChar]
    exact ⟨fun c hc => (isPlainChar_of_isPathChar (hpath c hc)).1, fun h => by cases h⟩
  exact ⟨d, c, hentry.child, hruns ht⟩

/-- A name with a space is read as two arguments. -/
theorem not_complete_runs_every_name :
    ¬ ∀ user, Path.Ordinary user → ∀ fetch cs (word line : String),
    (∀ c ∈ word.toList, isPathChar c = true) →
    complete ("cat " ++ word) (executeAll fetch cs (withHome user)).2 = some (.single line) →
    ∃ c, Cats (executeAll fetch cs (withHome user)).2 line c := by
  intro hall
  have hu : Path.Ordinary "g" := ⟨by decide, by decide, by decide, by decide⟩
  have hc : complete ("cat " ++ "a") (executeAll (.ofList [])
      [⟨"touch", [], [], ["a b"], []⟩] (withHome "g")).2 = some (.single "cat a b ") := by
    decide +kernel
  obtain ⟨c, path, hp, -⟩ := hall "g" hu (.ofList []) _ "a" _ (by simp [isPathChar]) hc
  have hparse : parse "cat a b " = .ok ⟨"cat", [], [], ["a", "b"], []⟩ := by cbv
  cases hparse.symm.trans hp

end Command

end TreeShell
