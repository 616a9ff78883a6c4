import TreeShell.Proofs.Completion.Offers

/-! Completing a line that was extended already. What the matching names share is cut off behind
the same word and the same directory as the partial name was, and it selects the same names; so
they are offered again and the line stays as it is. -/

namespace TreeShell

namespace Completion

theorem ofMatches_eq_multiple {front : List Char} {found names : List String} {line : String}
    (h : ofMatches front found = some (.multiple line names)) :
    found = names ∧ 2 ≤ names.length ∧ ∃ common, line = .ofList (front ++ common) ∧
      Text.SharedStart (names.map String.toList) common := by
  unfold ofMatches at h
  split at h
  · cases h
  · cases h
  · rename_i hnil hone
    cases h
    have hne : found.map String.toList ≠ [] := fun he => hnil (List.map_eq_nil_iff.mp he)
    refine ⟨rfl, ?_, _, rfl, Text.sharedStartAll_spec hne⟩
    match found, hnil, hone with
    | [], hnil, _ => exact absurd rfl hnil
    | [name], _, hone => exact absurd rfl (hone name)
    | _ :: _ :: _, _, _ => simp

theorem head?_of_isPrefix {cs ds : List Char} {c : Char} (h : cs <+: ds)
    (hc : cs.head? = some c) : ds.head? = some c := by
  obtain ⟨more, rfl⟩ := h
  rw [List.head?_append, hc, Option.some_or]

section Shared

variable {word part common : List Char}

theorem starts_with_shared {found : List String} {name : String}
    (hshared : Text.SharedStart (found.map String.toList) common) (hn : name ∈ found) :
    common <+: name.toList :=
  hshared.starts _ (List.mem_map_of_mem hn)

theorem longer_than_partial {found : List String} (hpart : ∀ n ∈ found, part <+: n.toList)
    (hshared : Text.SharedStart (found.map String.toList) common) : part <+: common :=
  hshared.longest part (List.forall_mem_map.mpr hpart)

theorem verbMatches_shared
    (hshared : Text.SharedStart ((verbMatches word).map String.toList) common) :
    verbMatches common = verbMatches word := by
  have hlonger := longer_than_partial (fun n hn => (mem_verbMatches.mp hn).2) hshared
  refine List.filter_congr fun n hn => ?_
  rw [Bool.eq_iff_iff, List.isPrefixOf_iff_prefix, List.isPrefixOf_iff_prefix]
  exact ⟨hlonger.trans, fun hw => starts_with_shared hshared (mem_verbMatches.mpr ⟨hn, hw⟩)⟩

theorem nameMatches_shared {directoriesOnly : Bool} {names : List String}
    (hne : nameMatches directoriesOnly part names ≠ [])
    (hshared : Text.SharedStart
      ((nameMatches directoriesOnly part names).map String.toList) common) :
    nameMatches directoriesOnly common names = nameMatches directoriesOnly part names := by
  have hlonger := longer_than_partial (fun n hn => (mem_nameMatches.mp hn).2.1) hshared
  -- The names share a dot at their start only if one was typed: otherwise none has it.
  have hdot : common.head? = some '.' → part.head? = some '.' := by
    intro hc
    obtain ⟨m, hm⟩ := List.exists_mem_of_ne_nil _ hne
    have hm' := head?_of_isPrefix (starts_with_shared hshared hm) hc
    exact (mem_nameMatches.mp hm).2.2.1 hm'
  have hmem : ∀ n, n ∈ nameMatches directoriesOnly common names ↔
      n ∈ nameMatches directoriesOnly part names := by
    intro n
    refine ⟨fun hn => ?_, fun hn => ?_⟩
    · obtain ⟨hin, hstarts, hhidden, hslash⟩ := mem_nameMatches.mp hn
      exact mem_nameMatches.mpr ⟨hin, hlonger.trans hstarts, fun hd => hdot (hhidden hd), hslash⟩
    · obtain ⟨hin, -, hhidden, hslash⟩ := mem_nameMatches.mp hn
      exact mem_nameMatches.mpr ⟨hin, starts_with_shared hshared hn,
        fun hd => head?_of_isPrefix hlonger (hhidden hd), hslash⟩
  refine List.filter_congr fun n hn => ?_
  have hn' := hmem n
  simp only [nameMatches, List.mem_filter, hn, true_and] at hn'
  exact Bool.eq_iff_iff.mpr hn'

/-- Distinct names of which each has a slash at its end at most share no slash. -/
theorem slash_not_mem_shared {names : List String} (hlen : 2 ≤ names.length)
    (hnodup : names.Nodup) (hshared : Text.SharedStart (names.map String.toList) common)
    (hslash : ∀ n ∈ names, ∃ cs, '/' ∉ cs ∧ (n.toList = cs ∨ n.toList = cs ++ ['/'])) :
    '/' ∉ common := by
  intro hm
  have hall : ∀ n ∈ names, n.toList = common := by
    intro n hn
    have hstarts := starts_with_shared hshared hn
    obtain ⟨cs, hcs, he | he⟩ := hslash n hn
    · exact absurd (hstarts.subset hm) (he ▸ hcs)
    · rw [he] at hstarts ⊢
      rcases List.prefix_concat_iff.mp hstarts with rfl | hshort
      · rfl
      · exact absurd (hshort.subset hm) hcs
  match names, hlen, hnodup, hall with
  | a :: b :: rest, _, hnodup, hall =>
    have ha := hall a (by simp)
    have hb := hall b (by simp)
    have hab : a = b := String.toList_inj.mp (ha.trans hb.symm)
    simp [hab] at hnodup

theorem free_of_endsWord {names : List String} (hne : names ≠ [])
    (hshared : Text.SharedStart (names.map String.toList) common)
    (hwords : ∀ n ∈ names, ' ' ∉ n.toList ∧ '\t' ∉ n.toList) :
    ∀ c ∈ common, endsWord c = false := by
  obtain ⟨n, hn⟩ := List.exists_mem_of_ne_nil _ hne
  intro c hc
  have hin := (starts_with_shared hshared hn).subset hc
  obtain ⟨hspace, htab⟩ := hwords n hn
  simp only [endsWord, Bool.or_eq_false_iff, decide_eq_false_iff_not]
  exact ⟨fun he => hspace (he ▸ hin), fun he => htab (he ▸ hin)⟩

end Shared

theorem not_allBlank_of_isPrefix {cs ds : List Char} (h : cs <+: ds)
    (hc : Text.allBlank cs = false) : Text.allBlank ds = false := by
  obtain ⟨more, rfl⟩ := h
  rw [Text.allBlank, List.all_append, ← Text.allBlank, hc, Bool.false_and]

section Lines

variable {s : Session} {input line : String} {names : List String} {head word dir part : List Char}

theorem complete_verb_extended (hb : Text.allBlank input.toList = false)
    (hcut : Text.CutAfterLast endsWord input.toList head word) (hh : Text.allBlank head = true)
    (hc : complete input s = some (.multiple line names))
    (hwords : ∀ n ∈ names, ' ' ∉ n.toList ∧ '\t' ∉ n.toList) :
    complete line s = some (.multiple line names) := by
  rw [complete_verb hb hcut hh] at hc
  obtain ⟨rfl, hlen, common, hline, hshared⟩ := ofMatches_eq_multiple hc
  have hne : verbMatches word ≠ [] := List.ne_nil_of_length_pos (by omega)
  have hlonger := longer_than_partial (fun n hn => (mem_verbMatches.mp hn).2) hshared
  have hlist : line.toList = head ++ common := by rw [hline, String.toList_ofList]
  have hstarts : input.toList <+: line.toList := by
    rw [hlist, ← hcut.append_eq]
    exact (List.prefix_append_right_inj head).mpr hlonger
  have hb' := not_allBlank_of_isPrefix hstarts hb
  have hcut' : Text.CutAfterLast endsWord line.toList head common :=
    ⟨hlist.symm, hcut.front_ends, free_of_endsWord hne hshared hwords⟩
  rw [complete_verb hb' hcut' hh, verbMatches_shared hshared]
  exact hc

theorem complete_entry_extended (hs : s.Printable) (hb : Text.allBlank input.toList = false)
    (hcut : Text.CutAfterLast endsWord input.toList head word) (hh : Text.allBlank head = false)
    (hdir : Text.CutAfterLast (· = '/') word dir part)
    (hc : complete input s = some (.multiple line names))
    (hwords : ∀ n ∈ names, ' ' ∉ n.toList ∧ '\t' ∉ n.toList) :
    complete line s = some (.multiple line names) := by
  rw [complete_entry hb hcut hh hdir] at hc
  obtain ⟨rfl, hlen, common, hline, hshared⟩ := ofMatches_eq_multiple hc
  generalize hfound : nameMatches _ part (namesIn s dir) = names at *
  have hne : names ≠ [] := List.ne_nil_of_length_pos (by omega)
  have hin : ∀ n ∈ names, n ∈ namesIn s dir ∧ part <+: n.toList := fun n hn => by
    obtain ⟨hn, hstarts, -⟩ := mem_nameMatches.mp (hfound ▸ hn)
    exact ⟨hn, hstarts⟩
  have hlonger := longer_than_partial (fun n hn => (hin n hn).2) hshared
  have hlist : line.toList = head ++ (dir ++ common) := by
    rw [hline, String.toList_ofList, List.append_assoc]
  have hstarts : input.toList <+: line.toList := by
    rw [hlist, ← hcut.append_eq, ← hdir.append_eq, List.prefix_append_right_inj,
      List.prefix_append_right_inj]
    exact hlonger
  have hb' := not_allBlank_of_isPrefix hstarts hb
  obtain ⟨hends, -⟩ := slash_ends hdir
  have hnodup : names.Nodup := hfound ▸ (nodup_namesIn hs hends).filter _
  -- What was put in has no word's end and no slash, so both cuts stay where they were.
  have hcut' : Text.CutAfterLast endsWord line.toList head (dir ++ common) := by
    refine ⟨hlist.symm, hcut.front_ends, List.forall_mem_append.mpr ⟨fun c hm => ?_,
      free_of_endsWord hne hshared hwords⟩⟩
    exact hcut.back_free c (hdir.append_eq ▸ List.mem_append_left part hm)
  have hdir' : Text.CutAfterLast (· = '/') (dir ++ common) dir common := by
    refine ⟨rfl, hdir.front_ends, fun c hm => decide_eq_false fun he => ?_⟩
    exact slash_not_mem_shared hlen hnodup hshared
      (fun n hn => slash_in_namesIn hs hends (hin n hn).1) (he ▸ hm)
  have hagain := nameMatches_shared (hfound ▸ hne) (hfound ▸ hshared)
  rw [complete_entry hb' hcut' hh hdir', hagain, hfound]
  exact hc

end Lines

end Completion

open Session Completion

namespace Command

/-- Whatever commands are run in a session of a user with an ordinary name: where several names
are offered for a line and none of them holds a space or a tab, the extended line is offered the
same names and not extended further. -/
theorem complete_extended {user : String} (hu : Path.Ordinary user) {s₀ : Session}
    (h₀ : s₀ = withHome user ∨ ∃ manifest fetch, bootstrap manifest user fetch = .ok s₀)
    (fetch : Fetcher) (cs : List Command) {input line : String} {names : List String}
    (hc : complete input (executeAll fetch cs s₀).2 = some (.multiple line names))
    (hwords : ∀ n ∈ names, ' ' ∉ n.toList ∧ '\t' ∉ n.toList) :
    complete line (executeAll fetch cs s₀).2 = some (.multiple line names) := by
  have hs : (executeAll fetch cs s₀).2.Printable := printable_of_start hu h₀ fetch cs
  generalize (executeAll fetch cs s₀).2 = s at hc hs ⊢
  cases hb : Text.allBlank input.toList with
  | true => simp [complete, hb] at hc
  | false =>
    have hcut := Text.cutAfterLast_cuts endsWord input.toList
    cases hh : Text.allBlank (Text.cutAfterLast endsWord input.toList).1 with
    | true => exact complete_verb_extended hb hcut hh hc hwords
    | false =>
      have hdir := Text.cutAfterLast_cuts (· = '/') (Text.cutAfterLast endsWord input.toList).2
      exact complete_entry_extended hs hb hcut hh hdir hc hwords

/-- Two directories are offered behind what their names share, and a hidden one is not. -/
theorem complete_extended_guest : ∃ s, s = (executeAll (.ofList [])
      [⟨"mkdir", ["p"], [], ["d/notes", "d/nominal", "d/.n"], []⟩] (withHome "g")).2 ∧
    Path.Ordinary "g" ∧
    complete "ls ~/d/" s = some (.multiple "ls ~/d/no" ["nominal/", "notes/"]) ∧
    (∀ n ∈ ["nominal/", "notes/"], ' ' ∉ n.toList ∧ '\t' ∉ n.toList) ∧
    complete "ls ~/d/no" s = some (.multiple "ls ~/d/no" ["nominal/", "notes/"]) := by
  have hu : Path.Ordinary "g" := ⟨by decide, by decide, by decide, by decide⟩
  have hc : complete "ls ~/d/" (executeAll (.ofList [])
      [⟨"mkdir", ["p"], [], ["d/notes", "d/nominal", "d/.n"], []⟩] (withHome "g")).2 =
        some (.multiple "ls ~/d/no" ["nominal/", "notes/"]) := by
    decide +kernel
  have hwords : ∀ n ∈ ["nominal/", "notes/"], ' ' ∉ n.toList ∧ '\t' ∉ n.toList := by decide
  exact ⟨_, rfl, hu, hc, hwords, complete_extended hu (.inl rfl) (.ofList []) _ hc hwords⟩

end Command

end TreeShell
