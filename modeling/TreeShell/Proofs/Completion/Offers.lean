import TreeShell.Completion.Candidates
import TreeShell.Proofs.Command.Listings

/-! Completion offers what fits and only continues a line. The names that a directory lists are
distinct, and a slash can only end one; so the partial name and the matching names never disagree
about where the name starts. -/

namespace TreeShell

namespace Completion

section Answers

variable {candidate : String → Prop} {input : String} {front part : List Char}

theorem offers_none (hmem : ∀ n, ¬ candidate n) : Offers candidate input front none where
  none_iff := iff_of_true rfl hmem
  single := by simp
  multiple := by simp

theorem offers_single (hinput : input.toList = front ++ part) {name : String}
    (hmem : ∀ n, candidate n ↔ n = name) (hpart : part <+: name.toList)
    (hslash : name.toList.getLast? = some '/' → name.toList ≠ part) :
    Offers candidate input front (some (.single (.ofList (front ++ name.toList ++
      if name.toList.getLast? = some '/' then [] else [' '])))) where
  none_iff := iff_of_false (by simp) fun h => h name ((hmem name).mpr rfl)
  single := by
    rintro line ⟨rfl⟩
    obtain ⟨more, hmore⟩ := hpart
    refine ⟨⟨?_, fun he => ?_⟩, name, hmem, String.toList_ofList⟩
    · rw [String.toList_ofList, hinput, ← hmore, List.append_assoc, List.append_assoc]
      exact ⟨_, by rw [List.append_assoc]⟩
    · have hlist := congrArg String.toList he
      rw [String.toList_ofList, hinput, List.append_assoc, List.append_cancel_left_eq] at hlist
      split at hlist
      · rename_i hends
        exact hslash hends (by rwa [List.append_nil] at hlist)
      · have hlen := congrArg List.length hlist
        rw [← hmore] at hlen
        simp at hlen
  multiple := by simp

theorem offers_multiple (hinput : input.toList = front ++ part) {names : List String}
    (hlen : 2 ≤ names.length) (hnodup : names.Nodup) (hmem : ∀ n, n ∈ names ↔ candidate n)
    (hpart : ∀ n ∈ names, part <+: n.toList) :
    Offers candidate input front (some (.multiple
      (.ofList (front ++ Text.sharedStartAll (names.map String.toList))) names)) where
  none_iff := by
    obtain ⟨name, rest, rfl⟩ := List.exists_cons_of_length_pos (Nat.lt_of_lt_of_le Nat.two_pos hlen)
    exact iff_of_false (by simp) fun h => h name ((hmem name).mp List.mem_cons_self)
  single := by simp
  multiple := by
    rintro line names' ⟨⟩
    have hne : names.map String.toList ≠ [] := by
      rintro he
      rw [List.map_eq_nil_iff] at he
      simp [he] at hlen
    have hshared := Text.sharedStartAll_spec hne
    refine ⟨?_, ⟨hlen, hnodup, hmem⟩, _, String.toList_ofList, hshared⟩
    rw [String.toList_ofList, hinput, List.prefix_append_right_inj]
    exact hshared.longest part (List.forall_mem_map.mpr hpart)

theorem ofMatches_offers {names : List String} (hinput : input.toList = front ++ part)
    (hmem : ∀ n, n ∈ names ↔ candidate n) (hnodup : names.Nodup)
    (hpart : ∀ n, candidate n → part <+: n.toList)
    (hslash : ∀ n, candidate n → n.toList.getLast? = some '/' → n.toList ≠ part) :
    Offers candidate input front (ofMatches front names) := by
  match names, hmem, hnodup with
  | [], hmem, _ => exact offers_none fun n hn => absurd ((hmem n).mpr hn) List.not_mem_nil
  | [name], hmem, _ =>
    have hone : ∀ n, candidate n ↔ n = name := fun n => by rw [← hmem, List.mem_singleton]
    have hname := (hone name).mpr rfl
    exact offers_single hinput hone (hpart name hname) (hslash name hname)
  | a :: b :: rest, hmem, hnodup =>
    exact offers_multiple hinput (by simp) hnodup hmem fun n hn => hpart n ((hmem n).mp hn)

end Answers

theorem toList_shownEntry (s : Session) (entry : String × Handle) :
    (s.shownEntry entry).toList = entry.1.toList ∨
      (s.shownEntry entry).toList = entry.1.toList ++ ['/'] := by
  unfold Session.shownEntry
  split
  · exact .inr String.toList_append
  · exact .inl rfl

section Names

variable {s : Session} {dir : List Char} {d : Handle}

theorem list_of_directoryOf (hr : directoryOf s dir = .ok d) (hd : s.tree.isDirectory d = true) :
    s.list (directoryPath? dir) = .ok ((s.tree.entries d).map s.shownEntry) := by
  rw [directoryOf] at hr
  simp only [Session.list, hr, hd, if_true]
  rfl

theorem list_of_directoryOf_error {e : FileError} (hr : directoryOf s dir = .error e) :
    s.list (directoryPath? dir) = .error e := by
  rw [directoryOf] at hr
  simp only [Session.list, hr]

/-- Behind a slash a path can name only a directory. -/
theorem isDirectory_of_directoryOf (hs : s.Sound) (hends : ∀ c ∈ dir.getLast?, c = '/')
    (hr : directoryOf s dir = .ok d) : s.tree.isDirectory d = true := by
  by_cases hdir : dir = []
  · obtain rfl : s.cwd = d := by simpa [directoryOf, directoryPath?, hdir] using hr
    exact hs.cwd_isDirectory
  · have hresolve : s.resolve (.ofList dir) = .ok d := by
      simpa [directoryOf, directoryPath?, hdir] using hr
    have hslash : Path.endsInSlash (.ofList dir) = true := by
      have hlast := List.getLast?_eq_some_getLast hdir
      simp [Path.endsInSlash, hlast, hends _ hlast]
    have hp := Session.ne_empty_of_resolve hresolve
    exact ((Session.resolve_eq_ok_iff hs.linked hp).mp hresolve).2 hslash

theorem namesIn_eq (hs : s.Sound) (hends : ∀ c ∈ dir.getLast?, c = '/') :
    namesIn s dir = (s.list (directoryPath? dir)).toOption.getD [] := by
  by_cases hdir : dir = []
  · simp [namesIn, directoryPath?, hdir]
  · have hpath : directoryOf s dir = s.resolve (.ofList dir) := by
      simp [directoryOf, directoryPath?, hdir]
    have hempty : dir.isEmpty = false := by simpa using hdir
    rw [namesIn, hempty, if_neg Bool.false_ne_true]
    cases hr : s.resolve (.ofList dir) with
    | error e =>
      have hno : s.isDirectory (.ofList dir) = false := by simp [Session.isDirectory, hr]
      rw [hno, list_of_directoryOf_error (hpath.trans hr)]
      rfl
    | ok d =>
      have hd := isDirectory_of_directoryOf hs hends (hpath.trans hr)
      have hyes : s.isDirectory (.ofList dir) = true := by simp [Session.isDirectory, hr, hd]
      rw [hyes, if_pos rfl, directoryPath?, if_neg hdir]

/-- What is listed are the entries of one directory, as a listing shows them. -/
theorem exists_directoryOf_of_mem_namesIn (hs : s.Sound) (hends : ∀ c ∈ dir.getLast?, c = '/')
    {name : String} (hn : name ∈ namesIn s dir) : ∃ d, directoryOf s dir = .ok d ∧
      s.tree.isDirectory d = true ∧ namesIn s dir = (s.tree.entries d).map s.shownEntry := by
  rw [namesIn_eq hs hends] at hn ⊢
  cases hr : directoryOf s dir with
  | error e =>
    rw [list_of_directoryOf_error hr] at hn
    cases hn
  | ok d =>
    have hd := isDirectory_of_directoryOf hs hends hr
    exact ⟨d, rfl, hd, by rw [list_of_directoryOf hr hd]; rfl⟩

variable (hs : s.Printable)
include hs

theorem ordinary_of_mem_entries {entry : String × Handle} (he : entry ∈ s.tree.entries d) :
    Path.Ordinary entry.1 :=
  hs.named.ordinary (hs.sound.linked.down (Tree.mem_entries_iff.mp he))

theorem nodup_shownEntries (d : Handle) : ((s.tree.entries d).map s.shownEntry).Nodup := by
  have hdrop : ((s.tree.entries d).map s.shownEntry).map Path.dropSlash =
      (s.tree.entries d).map Prod.fst := by
    rw [List.map_map]
    exact List.map_congr_left fun entry he =>
      Session.dropSlash_shownEntry s entry.2 (ordinary_of_mem_entries hs he)
  refine List.Nodup.of_map Path.dropSlash ?_
  rw [hdrop, List.nodup_iff_pairwise_ne, List.pairwise_map]
  exact (s.tree.entries_sorted d).imp fun hlt => ne_of_lt hlt

theorem nodup_namesIn (hends : ∀ c ∈ dir.getLast?, c = '/') : (namesIn s dir).Nodup := by
  cases hnames : namesIn s dir with
  | nil => exact List.nodup_nil
  | cons name rest =>
    have hmem : name ∈ namesIn s dir := hnames ▸ List.mem_cons_self
    obtain ⟨d, -, -, heq⟩ := exists_directoryOf_of_mem_namesIn hs.sound hends hmem
    rw [← hnames, heq]
    exact nodup_shownEntries hs d

/-- The only slash in a listed name is the one behind a directory. -/
theorem slash_in_namesIn (hends : ∀ c ∈ dir.getLast?, c = '/') {name : String}
    (hn : name ∈ namesIn s dir) :
    ∃ cs, '/' ∉ cs ∧ (name.toList = cs ∨ name.toList = cs ++ ['/']) := by
  obtain ⟨d, -, -, heq⟩ := exists_directoryOf_of_mem_namesIn hs.sound hends hn
  rw [heq] at hn
  obtain ⟨entry, he, rfl⟩ := List.mem_map.mp hn
  exact ⟨entry.1.toList, (ordinary_of_mem_entries hs he).no_slash, toList_shownEntry s entry⟩

end Names

section Lines

variable {s : Session} {input : String} {head word dir part : List Char}

theorem complete_verb (hb : Text.allBlank input.toList = false)
    (hcut : Text.CutAfterLast endsWord input.toList head word)
    (hh : Text.allBlank head = true) :
    complete input s = ofMatches head (verbMatches word) := by
  simp [complete, hb, hcut.eq, hh]

theorem complete_entry (hb : Text.allBlank input.toList = false)
    (hcut : Text.CutAfterLast endsWord input.toList head word)
    (hh : Text.allBlank head = false) (hdir : Text.CutAfterLast (· = '/') word dir part) :
    complete input s = ofMatches (head ++ dir)
      (nameMatches (Text.firstWord head = Verb.cd.name.toList) part (namesIn s dir)) := by
  simp [complete, hb, hcut.eq, hh, hdir.eq]

theorem mem_verbMatches {name : String} : name ∈ verbMatches word ↔ VerbCandidate word name := by
  have hnames : Verb.names = ["cat", "cd", "clear", "echo", "ls", "mkdir", "pwd", "rm", "touch",
    "wget", "xdg-open"] := rfl
  rw [verbMatches, VerbCandidate, ← hnames, List.mem_filter, List.isPrefixOf_iff_prefix]

theorem mem_nameMatches {directoriesOnly : Bool} {names : List String} {name : String} :
    name ∈ nameMatches directoriesOnly part names ↔ name ∈ names ∧ part <+: name.toList ∧
      (name.toList.head? = some '.' → part.head? = some '.') ∧
      (directoriesOnly = true → name.toList.getLast? = some '/') := by
  simp only [nameMatches, List.mem_filter, Bool.and_eq_true, Bool.or_eq_true,
    List.isPrefixOf_iff_prefix, decide_eq_true_eq, bne_iff_ne, Bool.not_eq_true',
    Bool.eq_false_iff, and_assoc]
  tauto

theorem mem_nameMatches_iff (hs : s.Sound) (hends : ∀ c ∈ dir.getLast?, c = '/')
    {name : String} :
    name ∈ nameMatches (Text.firstWord head = Verb.cd.name.toList) part (namesIn s dir) ↔
      EntryCandidate s head dir part name := by
  have hcd : Text.firstWord head = ['c', 'd'] ↔ Text.StartsWithWord head ['c', 'd'] :=
    Text.firstWord_eq_iff (by simp) (by simp [Text.whiteSpace])
  have hname : Verb.cd.name.toList = ['c', 'd'] := by decide
  rw [mem_nameMatches, namesIn_eq hs hends, EntryCandidate, decide_eq_true_eq, hname, hcd]
  cases s.list (directoryPath? dir) with
  | error e => simp [Except.toOption]
  | ok entries => simp [Except.toOption]

theorem slash_ends (hdir : Text.CutAfterLast (· = '/') word dir part) :
    (∀ c ∈ dir.getLast?, c = '/') ∧ '/' ∉ part :=
  ⟨fun c hc => by simpa using hdir.front_ends c hc, fun hm => by simpa using hdir.back_free _ hm⟩

end Lines

end Completion

open Session Completion

namespace Command

/-- Whatever commands are run in a session of a user with an ordinary name, completing a line
offers all candidates for the name that is started at its end. The first word can become a verb,
a later one an entry of the directory that its part up to the last slash names. -/
theorem complete_offers_candidates {user : String} (hu : Path.Ordinary user) {s₀ : Session}
    (h₀ : s₀ = withHome user ∨ ∃ manifest fetch, bootstrap manifest user fetch = .ok s₀)
    (fetch : Fetcher) (cs : List Command) (input : String) :
    let s := (executeAll fetch cs s₀).2
    (Text.OnlyWhiteSpace input.toList → complete input s = none) ∧
    (¬ Text.OnlyWhiteSpace input.toList → ∀ head word,
      Text.CutAfterLast (fun c => c = ' ' || c = '\t') input.toList head word →
      (Text.OnlyWhiteSpace head → Offers (VerbCandidate word) input head (complete input s)) ∧
      (¬ Text.OnlyWhiteSpace head → ∀ dir part, Text.CutAfterLast (· = '/') word dir part →
        Offers (EntryCandidate s head dir part) input (head ++ dir) (complete input s))) := by
  intro s
  have hs : s.Printable := printable_of_start hu h₀ fetch cs
  refine ⟨fun hb => by simp [complete, Text.allBlank_iff.mpr hb], fun hb head word hcut =>
    ⟨fun hh => ?_, fun hh dir part hdir => ?_⟩⟩
  · rw [complete_verb (Text.allBlank_eq_false_iff.mpr hb) hcut (Text.allBlank_iff.mpr hh)]
    have hnodup : Verb.names.Nodup := Verb.names_sorted.imp fun hlt => ne_of_lt hlt
    have hplain : ∀ n, VerbCandidate word n → n.toList.getLast? ≠ some '/' := by
      rintro n ⟨hn, -⟩
      revert n
      decide
    exact ofMatches_offers hcut.append_eq.symm (fun _ => mem_verbMatches) (hnodup.filter _)
      (fun n hn => hn.2) fun n hn hends => absurd hends (hplain n hn)
  · obtain ⟨hends, hpart⟩ := slash_ends hdir
    rw [complete_entry (Text.allBlank_eq_false_iff.mpr hb) hcut
      (Text.allBlank_eq_false_iff.mpr hh) hdir]
    have hinput : input.toList = head ++ dir ++ part := by
      rw [← hcut.append_eq, ← hdir.append_eq, List.append_assoc]
    refine ofMatches_offers hinput (fun _ => mem_nameMatches_iff hs.sound hends)
      ((nodup_namesIn hs hends).filter _) (fun n hn => ?_) fun n hn hslash he => ?_
    · obtain ⟨-, -, -, hstarts, -⟩ := hn
      exact hstarts
    · -- The partial name has no slash, so a name that ends in one is longer.
      rw [he] at hslash
      exact hpart (List.mem_of_getLast? hslash)

/-- Two directories behind `cd` whose names share a letter, and of the next one only its first
byte; a file that shares as much is left out, and so is a directory behind a dot. -/
theorem complete_offers_candidates_guest : ∃ (s : Session) (cs : List Command),
    cs = [⟨"mkdir", [], [], ["d", "d/aé", "d/aè", "d/.a"], []⟩,
      ⟨"touch", [], [], ["d/aê"], []⟩] ∧
    s = (executeAll (.ofList []) cs (withHome "g")).2 ∧
    Path.Ordinary "g" ∧ ¬ Text.OnlyWhiteSpace "cd d/".toList ∧
    Text.CutAfterLast (fun c => c = ' ' || c = '\t') "cd d/".toList "cd ".toList "d/".toList ∧
    ¬ Text.OnlyWhiteSpace "cd ".toList ∧
    Text.CutAfterLast (· = '/') "d/".toList "d/".toList [] ∧
    s.list (some "d/") = .ok [".a/", "aè/", "aé/", "aê"] ∧
    complete "cd d/" s = some (.multiple "cd d/a" ["aè/", "aé/"]) ∧
    (∀ name, name ∈ ["aè/", "aé/"] ↔ EntryCandidate s "cd ".toList "d/".toList [] name) ∧
    Text.SharedStart ["aè/".toList, "aé/".toList] ['a'] := by
  obtain ⟨cs, hcs⟩ : ∃ cs : List Command, cs =
    [⟨"mkdir", [], [], ["d", "d/aé", "d/aè", "d/.a"], []⟩,
      ⟨"touch", [], [], ["d/aê"], []⟩] := ⟨_, rfl⟩
  obtain ⟨s, hs⟩ : ∃ s, s = (executeAll (.ofList []) cs (withHome "g")).2 := ⟨_, rfl⟩
  have hu : Path.Ordinary "g" := ⟨by decide, by decide, by decide, by decide⟩
  have hb : ¬ Text.OnlyWhiteSpace "cd d/".toList := by
    simp [Text.OnlyWhiteSpace, Text.whiteSpace]
  have hcut : Text.CutAfterLast (fun c => c = ' ' || c = '\t') "cd d/".toList "cd ".toList
      "d/".toList := ⟨by decide, by simp, by simp⟩
  have hh : ¬ Text.OnlyWhiteSpace "cd ".toList := by
    simp [Text.OnlyWhiteSpace, Text.whiteSpace]
  have hdir : Text.CutAfterLast (· = '/') "d/".toList "d/".toList [] :=
    ⟨by decide, by simp, by simp⟩
  have hlist : s.list (some "d/") = .ok [".a/", "aè/", "aé/", "aê"] := by
    rw [hs, hcs]
    decide +kernel
  have hc : complete "cd d/" s = some (.multiple "cd d/a" ["aè/", "aé/"]) := by
    rw [hs, hcs]
    decide +kernel
  have hoffers := complete_offers_candidates hu (.inl rfl) (.ofList []) cs "cd d/"
  rw [← hs] at hoffers
  obtain ⟨-, ⟨-, -, hmem⟩, common, hline, hshared⟩ :=
    ((hoffers.2 hb _ _ hcut).2 hh _ _ hdir).multiple _ _ hc
  have hline : "cd d/".toList ++ ['a'] = "cd d/".toList ++ common := hline
  obtain rfl := List.append_cancel_left hline
  exact ⟨s, cs, hcs, hs, hu, hb, hcut, hh, hdir, hlist, hc, hmem, hshared⟩

end Command

end TreeShell
