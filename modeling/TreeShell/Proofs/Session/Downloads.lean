import TreeShell.Proofs.Download.Names
import TreeShell.Proofs.Session.Safety
import TreeShell.Proofs.Tree.Additions
import TreeShell.Proofs.Tree.FreeName

/-! Downloads. The working directory of a session that operations have led to is a directory
that is there, so that there is always a place to store a download, and the search for its name
always ends. It ends at a name that paths can give, whatever the URL. -/

namespace TreeShell.Session

variable {s : Session}

/-- A download is one new entry of the working directory. -/
theorem Sound.saveDownload_eq (hs : s.Sound) (name : String) (bytes : List UInt8)
    (source : String) : ∃ n,
      IsLeast {m | s.tree.child? s.cwd (Download.candidate name m) = none} n ∧
      s.saveDownload name bytes source = (.ok (Download.candidate name n),
        { s with
          tree := s.tree.attach s.cwd (Download.candidate name n)
            (.file (.fetched bytes source)) }) := by
  obtain ⟨n, hf, hfree, htaken⟩ := hs.linked.freeName?_eq s.cwd name
  have hc := Tree.create_of_vacant (.file (.fetched bytes source)) hs.cwd_isDirectory hfree
  refine ⟨n, ⟨hfree, fun m hm => Nat.le_of_not_lt fun hlt => htaken m hlt hm⟩, ?_⟩
  rw [saveDownload, if_pos hs.cwd_isDirectory, hf]
  dsimp only [Option.getD_some]
  rw [hc]

/-- A download always succeeds. Its name is the first candidate that the working directory has
no entry of; trying one candidate after another stops there, and after no more rounds than there
are entries. What is added is one file of that name, with the bytes and the place they come
from; all nodes and all other entries stay as they were. -/
theorem saveDownload_takes_first_free (hs : s.Reachable) (name : String) (bytes : List UInt8)
    (source : String) : ∃ n h tree,
      s.saveDownload name bytes source = (.ok (Download.candidate name n), { s with tree }) ∧
      IsLeast {m | s.tree.child? s.cwd (Download.candidate name m) = none} n ∧
      n ≤ (s.tree.entries s.cwd).length ∧
      (∀ rounds, n ≤ rounds → (s.tree.probeRound s.cwd name)^[rounds] (name, 0) =
        (Download.candidate name n, n)) ∧
      s.tree.node? h = none ∧ s.tree.Keeps tree ∧
      (∀ d x, tree.child? d x =
        if d = s.cwd ∧ x = Download.candidate name n then some h else s.tree.child? d x) ∧
      tree.kindAt = Function.update s.tree.kindAt
        (s.tree.segmentsOf s.cwd ++ [Download.candidate name n])
        (some (.file (.fetched bytes source))) := by
  have hsound := hs.sound
  have hcwd := hsound.cwd_isDirectory
  obtain ⟨n, hn, he⟩ := hsound.saveDownload_eq name bytes source
  have hadds : Tree.Adds (fun _ => True) s.tree
      (s.tree.attach s.cwd (Download.candidate name n) (.file (.fetched bytes source))) :=
    .single (.attach _ hcwd hn.1 trivial)
  have hnew : s.tree.node? s.tree.slots.size = none := by simp [Tree.node?]
  exact ⟨n, s.tree.slots.size, _, he, hn, Tree.le_length_entries hn,
    fun rounds hr => Tree.probeRound_iterate_of_le hn hr, hnew, hadds.keeps hsound.linked,
    fun d x => Tree.child?_attach hcwd, hsound.linked.kindAt_attach hcwd hn.1⟩

/-- A directory has the name, a file the first number, and a gap is left before the third. -/
theorem saveDownload_takes_first_free_guest : ∃ s : Session,
    s = run [.mkdir "x" false, .touch "x.1", .touch "x.3"] (withHome "guest") ∧ s.Reachable ∧
    (s.saveDownload "x" [104] "u").1 = .ok "x.2" := by
  obtain ⟨s, he⟩ : ∃ s, s = run [.mkdir "x" false, .touch "x.1", .touch "x.3"]
    (withHome "guest") := ⟨_, rfl⟩
  have hs : s.Reachable := ⟨_, .withHome "guest", _, he⟩
  have htaken : ∀ m < 2, s.tree.child? s.cwd (Download.candidate "x" m) ≠ none := by
    rw [he]
    decide +kernel
  have hfree : s.tree.child? s.cwd (Download.candidate "x" 2) = none := by
    rw [he]
    decide +kernel
  obtain ⟨n, h, tree, hsave, hn, -⟩ := saveDownload_takes_first_free hs "x" [104] "u"
  obtain rfl : n = 2 := le_antisymm (hn.2 hfree)
    (Nat.le_of_not_lt fun hlt => htaken n hlt hn.1)
  exact ⟨s, he, hs, congrArg Prod.fst hsave⟩

/-- Whatever a URL looks like, its download is named for the last part of its path, or has the
default name where that part can name no entry, as it has where nothing follows the host. A query
or a fragment never has a say. The name can stand for an entry, so can every candidate behind it,
and one of these is what a session saves the download under. -/
theorem downloads_have_usable_names (url : String) :
    (∃ last, Download.LastPart url last ∧
      (Path.Ordinary (.ofList last) ∧ Download.nameOf url = .ofList last ∨
        ¬ Path.Ordinary (.ofList last) ∧ Download.nameOf url = Download.defaultName)) ∧
    (∀ scheme host rest behind,
      Download.CutAtQuery url.toList (scheme ++ [':', '/', '/'] ++ host) behind →
      Download.CutAtFirst [':', '/', '/'] url.toList scheme rest → '/' ∉ host →
        Download.nameOf url = Download.defaultName) ∧
    (∀ extra, Download.nameOf (url ++ "?" ++ extra) = Download.nameOf url ∧
      Download.nameOf (url ++ "#" ++ extra) = Download.nameOf url) ∧
    Download.Usable (Download.nameOf url) ∧
    (∀ n, Download.Usable (Download.candidate (Download.nameOf url) n)) ∧
    ∀ s : Session, s.Reachable → ∀ bytes source, ∃ n u,
      s.saveDownload (Download.nameOf url) bytes source =
        (.ok (Download.candidate (Download.nameOf url) n), u) := by
  have hextra : ∀ mark : Char, mark = '?' ∨ mark = '#' → ∀ extra : String,
      Download.nameOf (url ++ .singleton mark ++ extra) = Download.nameOf url := by
    intro mark hm extra
    refine Download.nameOf_congr ?_
    rw [String.toList_append, String.toList_append, String.toList_singleton, List.append_assoc]
    exact Download.location_append url.toList hm extra.toList
  have husable := Download.nameOf_usable url
  refine ⟨Download.nameOf_cases url, fun _ _ _ _ => Download.nameOf_of_host,
    fun extra => ⟨hextra '?' (.inl rfl) extra, hextra '#' (.inr rfl) extra⟩,
    husable, husable.candidate, fun s hs bytes source => ?_⟩
  obtain ⟨n, -, he⟩ := hs.sound.saveDownload_eq (Download.nameOf url) bytes source
  exact ⟨n, _, he⟩

/-- Behind a host that looks like a name comes a query that looks like a URL. -/
theorem downloads_have_usable_names_host : ∃ url : String, url = "ftp://a.txt?at=b://c/d#e" ∧
    Download.CutAtQuery url.toList ("ftp".toList ++ [':', '/', '/'] ++ "a.txt".toList)
      "?at=b://c/d#e".toList ∧
    Download.CutAtFirst [':', '/', '/'] url.toList "ftp".toList "a.txt?at=b://c/d#e".toList ∧
    '/' ∉ "a.txt".toList ∧ Download.nameOf url = "index.html" ∧ (withHome "guest").Reachable ∧
    ∃ n u, (withHome "guest").saveDownload (Download.nameOf url) [104] "u" =
      (.ok (Download.candidate (Download.nameOf url) n), u) := by
  obtain ⟨url, hurl⟩ : ∃ url, url = "ftp://a.txt?at=b://c/d#e" := ⟨_, rfl⟩
  have hq : Download.CutAtQuery url.toList ("ftp".toList ++ [':', '/', '/'] ++ "a.txt".toList)
      "?at=b://c/d#e".toList := by
    rw [hurl]
    exact ⟨by decide, by simp, by simp⟩
  have hafter : Download.textAfter? [':', '/', '/'] url.toList =
      some "a.txt?at=b://c/d#e".toList := by
    rw [hurl]
    decide
  have hf : Download.CutAtFirst [':', '/', '/'] url.toList "ftp".toList
      "a.txt?at=b://c/d#e".toList := by
    obtain ⟨front, h⟩ := Download.textAfter?_eq_some_iff.mp hafter
    have hall : url.toList = "ftp".toList ++ [':', '/', '/'] ++ "a.txt?at=b://c/d#e".toList := by
      rw [hurl]
      decide
    obtain rfl : front = "ftp".toList :=
      List.append_cancel_right (List.append_cancel_right (h.append_eq.symm.trans hall))
    exact h
  have hs : (withHome "guest").Reachable := ⟨_, .withHome "guest", [], rfl⟩
  obtain ⟨-, hhost, -, -, -, hsave⟩ := downloads_have_usable_names url
  exact ⟨url, hurl, hq, hf, by decide, hhost _ _ _ _ hq hf (by decide), hs, hsave _ hs [104] "u"⟩

end TreeShell.Session
