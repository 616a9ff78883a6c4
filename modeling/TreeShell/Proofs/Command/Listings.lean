import TreeShell.Proofs.Command.PrintedPaths
import TreeShell.Proofs.Session.Relative
import TreeShell.Proofs.Tree.FreeName

/-! Listings. Names of entries are ordinary, so that an entry as it is listed, with the slash of
a directory or without one, is still one component: put behind a path to the directory it leads
to the entry. -/

namespace TreeShell

namespace Path

/-- A path without the slash at its end, if there is one. -/
def dropSlash (path : String) : String :=
  if endsInSlash path then .ofList path.toList.dropLast else path

variable {name : String}

theorem endsInSlash_append_slash (name : String) : endsInSlash (name ++ "/") = true := by
  simp [endsInSlash]

theorem dropSlash_append_slash (name : String) : dropSlash (name ++ "/") = name := by
  rw [dropSlash, endsInSlash_append_slash, if_pos rfl, ← String.toList_inj]
  simp

theorem Ordinary.endsInSlash_eq (h : Ordinary name) : endsInSlash name = false :=
  decide_eq_false fun he => h.no_slash (List.mem_of_getLast? he)

theorem Ordinary.dropSlash_eq (h : Ordinary name) : dropSlash name = name := by
  rw [dropSlash, h.endsInSlash_eq, if_neg (by decide)]

theorem Ordinary.components_eq (h : Ordinary name) : components name = [name] := by
  have hone := components_intercalate (List.forall_mem_singleton.mpr h)
  rwa [List.map_singleton, List.intercalate_singleton, String.ofList_toList] at hone

theorem Ordinary.components_append_slash (h : Ordinary name) :
    components (name ++ "/") = [name] := by
  have hslash : name ++ "/" = .ofList (name.toList ++ '/' :: []) := by
    rw [← String.toList_inj]
    simp
  rw [hslash, components_slash, String.ofList_toList, h.components_eq]
  rfl

end Path

namespace Session

/-- An entry of a directory as a listing shows it. -/
def shownEntry (s : Session) (entry : String × Handle) : String :=
  if s.tree.isDirectory entry.2 then entry.1 ++ "/" else entry.1

variable {s : Session} {path name : String} {d c : Handle}

theorem list_of_directory (hr : s.resolve path = .ok d) (hd : s.tree.isDirectory d = true) :
    s.list (some path) = .ok ((s.tree.entries d).map s.shownEntry) := by
  simp only [list, Option.elim_some, hr, hd, if_true]
  rfl

theorem list_of_file (hr : s.resolve path = .ok d) (hd : s.tree.isDirectory d = false) :
    s.list (some path) = .ok [path] := by
  simp [list, hr, hd]

section Ordinary

variable (s) (c) (hn : Path.Ordinary name)
include hn

theorem endsInSlash_shownEntry :
    Path.endsInSlash (s.shownEntry (name, c)) = s.tree.isDirectory c := by
  unfold shownEntry
  split
  · rename_i hd
    rw [Path.endsInSlash_append_slash, hd]
  · rename_i hd
    rw [hn.endsInSlash_eq, Bool.eq_false_iff.mpr hd]

theorem dropSlash_shownEntry : Path.dropSlash (s.shownEntry (name, c)) = name := by
  unfold shownEntry
  split
  · exact Path.dropSlash_append_slash name
  · exact hn.dropSlash_eq

theorem components_shownEntry : Path.components (s.shownEntry (name, c)) = [name] := by
  unfold shownEntry
  split
  · exact hn.components_append_slash
  · exact hn.components_eq

end Ordinary

/-- Behind a path to a directory, an entry as it is listed leads to the node it is listed for. -/
theorem Printable.resolve_shownEntry (hs : s.Printable) (hr : s.resolve path = .ok d)
    (hc : s.tree.child? d name = some c) :
    s.resolve (path ++ "/" ++ s.shownEntry (name, c)) = .ok c := by
  have ht := hs.sound.linked
  have hl := ht.down hc
  have hn := hs.named.ordinary hl
  have hone := components_shownEntry s c hn
  have hshown : s.shownEntry (name, c) ≠ "" := fun he => by
    rw [he] at hone
    cases hone
  have hsegs := (segmentsOf_of_resolve ht hr).2
  -- The slash behind a directory's name is no component, but it asks for a directory.
  refine resolve_of_segments ht hl (Path.join_ne_empty path _) ?_ fun hslash => ?_
  · rw [segments_join s (ne_empty_of_resolve hr), Path.normalize, hone, ← hsegs,
      ht.segmentsOf_of_link? hl]
    exact Path.follow_ordinary hn
  · rwa [Path.endsInSlash_join path hshown, endsInSlash_shownEntry s c hn] at hslash

end Session

open Session

namespace Command

/-- Whatever commands are run in a session of a user with an ordinary name, and whatever path
leads to a directory: the directory can be listed under it; each entry of the listing, put behind
the path and a slash, leads to the child of that name, and ends in a slash exactly where this is
a directory; each child is listed once; and without the slashes the entries are in the order of
their bytes. A file is listed as the path it was asked for by. -/
theorem listings_lead_to_children {user : String} (hu : Path.Ordinary user) {s₀ : Session}
    (h₀ : s₀ = withHome user ∨ ∃ manifest fetch, bootstrap manifest user fetch = .ok s₀)
    (fetch : Fetcher) (cs : List Command) {path : String} {d : Handle}
    (hr : (executeAll fetch cs s₀).2.resolve path = .ok d) :
    let s := (executeAll fetch cs s₀).2
    (s.tree.isDirectory d = true → ∃ entries, s.list (some path) = .ok entries ∧
      (∀ e ∈ entries, ∃ c, s.resolve (path ++ "/" ++ e) = .ok c ∧
        s.tree.child? d (Path.dropSlash e) = some c ∧
        (s.tree.isDirectory c = true ↔ Path.endsInSlash e = true)) ∧
      (∀ name c, s.tree.child? d name = some c →
        ∃! e, e ∈ entries ∧ s.resolve (path ++ "/" ++ e) = .ok c) ∧
      (entries.map Path.dropSlash).Pairwise fun a b => Text.utf8 a.toList < Text.utf8 b.toList) ∧
    (s.tree.isDirectory d = false → s.list (some path) = .ok [path]) := by
  intro s
  have hs₀ : s₀.Printable := by
    obtain rfl | ⟨manifest, fetch, h⟩ := h₀
    · exact withHome_printable hu
    · exact bootstrap_printable hu h
  have hs : s.Printable := executeAll_printable fetch cs hs₀
  have ht := hs.sound.linked
  have hordinary : ∀ {name c}, s.tree.child? d name = some c → Path.Ordinary name :=
    fun hc => hs.named.ordinary (ht.down hc)
  refine ⟨fun hd => ⟨_, list_of_directory hr hd, fun e he => ?_, fun name c hc => ?_, ?_⟩,
    list_of_file hr⟩
  · obtain ⟨⟨name, c⟩, hmem, rfl⟩ := List.mem_map.mp he
    have hc := Tree.mem_entries_iff.mp hmem
    have hn := hordinary hc
    refine ⟨c, hs.resolve_shownEntry hr hc, ?_, ?_⟩
    · rwa [dropSlash_shownEntry s c hn]
    · rw [endsInSlash_shownEntry s c hn]
  · refine ⟨s.shownEntry (name, c), ⟨?_, hs.resolve_shownEntry hr hc⟩, ?_⟩
    · exact List.mem_map_of_mem (Tree.mem_entries_iff.mpr hc)
    · rintro e ⟨he, hre⟩
      obtain ⟨⟨name', c'⟩, hmem, rfl⟩ := List.mem_map.mp he
      have hc' := Tree.mem_entries_iff.mp hmem
      obtain rfl : c' = c := Except.ok.inj ((hs.resolve_shownEntry hr hc').symm.trans hre)
      rw [ht.child?_injective hc' hc]
  · rw [List.map_map, List.pairwise_map]
    refine (s.tree.entries_sorted d).imp_of_mem fun {a b} ha hb hlt => ?_
    have hna := hordinary (Tree.mem_entries_iff.mp ha)
    have hnb := hordinary (Tree.mem_entries_iff.mp hb)
    rw [Function.comp_apply, Function.comp_apply, dropSlash_shownEntry s a.2 hna,
      dropSlash_shownEntry s b.2 hnb]
    exact Text.utf8_lt_utf8 hlt

/-- A path with two slashes and a dot leads to a directory that holds a file and a directory. -/
theorem listings_lead_to_children_guest : ∃ s, s = (executeAll (.ofList [])
      [⟨"mkdir", ["p"], [], ["d/b"], []⟩, ⟨"touch", [], [], ["d/a"], []⟩] (withHome "g")).2 ∧
    Path.Ordinary "g" ∧ s.resolve "~//d/." = .ok 3 ∧ s.tree.isDirectory 3 = true ∧
    s.list (some "~//d/.") = .ok ["a", "b/"] ∧
    ∃ c, s.resolve "~//d/./b/" = .ok c ∧ s.tree.child? 3 "b" = some c ∧
      s.tree.isDirectory c = true := by
  obtain ⟨cs, hcs⟩ : ∃ cs : List Command, cs =
    [⟨"mkdir", ["p"], [], ["d/b"], []⟩, ⟨"touch", [], [], ["d/a"], []⟩] := ⟨_, rfl⟩
  obtain ⟨s, hs⟩ : ∃ s, s = (executeAll (.ofList []) cs (withHome "g")).2 := ⟨_, rfl⟩
  have hu : Path.Ordinary "g" := ⟨by decide, by decide, by decide, by decide⟩
  have hr : s.resolve "~//d/." = .ok 3 := by
    rw [hs, hcs]
    decide +kernel
  have hd : s.tree.isDirectory 3 = true := by
    rw [hs, hcs]
    decide +kernel
  have hlist : s.list (some "~//d/.") = .ok ["a", "b/"] := by
    rw [hs, hcs]
    decide +kernel
  have hlead := listings_lead_to_children hu (.inl rfl) (.ofList []) cs (hs ▸ hr)
  rw [← hs] at hlead
  obtain ⟨entries, he, heach, -⟩ := hlead.1 hd
  obtain rfl := Except.ok.inj (hlist.symm.trans he)
  obtain ⟨c, hc, hchild, hdir⟩ := heach "b/" (by simp)
  exact ⟨s, hcs ▸ hs, hu, hr, hd, hlist, c, hc, hchild, hdir.mpr (by decide)⟩

end Command

end TreeShell
