import TreeShell.Proofs.Download.Names
import TreeShell.Proofs.Manifest.Bootstrap

/-! Paths that a session prints. Every entry has a name that a path can give it, since new
names come from paths and from downloads; so the path of a node leads back to it, and the
working directory is shown by its names. -/

namespace TreeShell

structure Tree.Named (t : Tree) : Prop where
  ordinary : ∀ {h name p}, t.link? h = some (name, some p) → Path.Ordinary name

namespace Tree.Named

variable {t t' : Tree}

theorem empty : Tree.empty.Named where
  ordinary := by
    intro h name p hl
    obtain _ | h := h
    · cases hl
    · rw [Tree.link?_eq_none_of_size_le (Nat.succ_le_succ (Nat.zero_le h))] at hl
      cases hl

theorem adds (ht : t.Named) {allowed : String → Prop} (ha : Adds allowed t t')
    (hall : ∀ name, allowed name → Path.Ordinary name) : t'.Named := by
  induction ha with
  | refl => exact ht
  | tail _ hstep ih =>
    cases hstep with
    | attach kind hp hc hname =>
      refine ⟨fun {h name p} hl => ?_⟩
      rw [Tree.link?_attach] at hl
      split at hl
      · cases hl
        exact hall _ hname
      · exact ih.ordinary hl

theorem modifyContent (ht : t.Named) (h : Handle) (f : Content → Content) :
    (t.modifyContent h f).Named where
  ordinary hl := by
    rw [Tree.modifyContent, Tree.link?_modify] at hl
    exact ht.ordinary hl

theorem remove (ht : t.Named) (hlinked : t.Linked) {h p : Handle} {name : String}
    (hl : t.link? h = some (name, some p)) : (t.remove h).2.Named where
  ordinary hi := by
    rw [hlinked.link?_remove hl] at hi
    split at hi
    · cases hi
    · exact ht.ordinary hi

theorem segmentsOf (ht : t.Named) (h : Handle) : ∀ name ∈ t.segmentsOf h, Path.Ordinary name := by
  intro name hn
  obtain ⟨i, -, hi⟩ := List.mem_filterMap.mp (List.mem_reverse.mp hn)
  obtain ⟨n, hnode, hname⟩ := Option.bind_eq_some_iff.mp hi
  split at hname
  · rename_i hp
    obtain ⟨p, hp⟩ := Option.isSome_iff_exists.mp hp
    cases hname
    have hl : t.link? i = some (n.name, some p) := by
      rw [Tree.link?, hnode, Option.map_some, Node.link, hp]
    exact ht.ordinary hl
  · cases hname

end Tree.Named

namespace Session

/-- Operations that make no entry under a name of their own choice, or an ordinary one. -/
def Operation.KeepsNames : Operation → Prop
  | .saveDownload name _ _ => Path.Ordinary name
  | _ => True

variable {s s' : Session}

theorem segments_ordinary (hn : s.tree.Named) (path : String) :
    ∀ name ∈ s.segments path, Path.Ordinary name := by
  refine Path.normalize_ordinary (fun name hname => ?_) _
  generalize (Path.anchor path).1 = anchor at hname
  cases anchor with
  | root => cases hname
  | home => exact hn.segmentsOf s.home name hname
  | here => exact hn.segmentsOf s.cwd name hname

theorem names_ordinary (hn : s.tree.Named) {op : Operation} (hop : op.KeepsNames) :
    ∀ name, op.Names s name → Path.Ordinary name := by
  intro name hname
  cases op with
  | cd | rm => exact hname.elim
  | mkdir path | touch path | modifyFile path => exact segments_ordinary hn path name hname
  | saveDownload =>
    obtain ⟨n, rfl⟩ := hname
    exact Download.candidate_ordinary hop n

theorem Operation.Changes.named {op : Operation} (h : op.Changes s s') (hop : op.KeepsNames)
    (hs : s.tree.Linked) (hn : s.tree.Named) : s'.tree.Named := by
  have hnames := names_ordinary hn hop
  cases h with
  | added ha =>
    obtain ⟨tree, ha, rfl⟩ := ha
    exact hn.adds ha hnames
  | @written path f i u he ha =>
    obtain ⟨tree, ha, rfl⟩ := ha
    exact (hn.adds ha hnames).modifyContent i f
  | wentTo | wentHome => exact hn
  | removed _ hl _ => exact hn.remove hs hl

theorem Operation.run_named {op : Operation} (hop : op.KeepsNames) (hs : s.tree.Linked)
    (hn : s.tree.Named) : (op.run s).2.tree.Named := by
  obtain he | ⟨-, hc⟩ := op.run_cases hs
  · rwa [he]
  · exact hc.named hop hs hn

theorem withHome_named {user : String} (hu : Path.Ordinary user) :
    (withHome user).tree.Named := by
  have hhome : Path.Ordinary "home" := ⟨by decide, by decide, by decide, by decide⟩
  have ha : Tree.Adds (· ∈ homeNames user) Tree.empty (withHome user).tree := by
    rw [tree_withHome]
    exact Tree.adds_createMissing _ _ fun _ => id
  refine Tree.Named.empty.adds ha fun name hname => ?_
  simp only [homeNames, List.mem_cons, List.not_mem_nil, or_false] at hname
  rcases hname with rfl | rfl
  · exact hhome
  · exact hu

/-- A session whose paths can be printed and read back. -/
structure Printable (s : Session) : Prop where
  sound : s.Sound
  named : s.tree.Named

theorem Operation.run_printable {op : Operation} (hop : op.KeepsNames) (hs : s.Printable) :
    (op.run s).2.Printable where
  sound := (hs.sound.run [op]).1
  named := op.run_named hop hs.sound.linked hs.named

theorem resolve_of_segments (hs : s.tree.Linked) {path : String} {h : Handle}
    {link : String × Option Handle} (hl : s.tree.link? h = some link) (hp : path ≠ "")
    (he : s.segments path = s.tree.segmentsOf h)
    (hslash : Path.endsInSlash path = true → s.tree.isDirectory h = true) :
    s.resolve path = .ok h := by
  have hempty : path.isEmpty = false := by simpa [String.isEmpty_iff] using hp
  have hfile : (Path.endsInSlash path && !s.tree.isDirectory h) = false := by
    cases hd : Path.endsInSlash path with
    | false => rfl
    | true => simp [hslash hd]
  simp [resolve, hempty, he, hs.walk_segmentsOf hl, hfile]

theorem cd_of_resolve {path : String} {h : Handle} (hr : s.resolve path = .ok h)
    (hd : s.tree.isDirectory h = true) : s.cd (some path) = (.ok (), { s with cwd := h }) := by
  simp [cd, hr, hd]

theorem workingPath_of_cd (hs : s.tree.Linked) {path : String}
    (h : (s.cd (some path)).1 = .ok ()) :
    (s.cd (some path)).2.workingPath = Path.absolute (s.segments path) := by
  cases hr : s.resolve path with
  | error e => simp [cd, hr] at h
  | ok i =>
    by_cases hd : s.tree.isDirectory i = true
    · rw [cd_of_resolve hr hd, workingPath, Tree.pathOf,
        (segmentsOf_of_resolve hs hr).2]
    · simp [cd, hr, hd] at h

section Segments

variable {names : List String}

theorem segments_absolute (hn : ∀ name ∈ names, Path.Ordinary name) :
    s.segments (Path.absolute names) = names := by
  obtain ⟨rest, hrest, hnorm⟩ := Path.normalize_absolute hn []
  have ha : Path.anchor (Path.absolute names) = (.root, .ofList rest) := by
    simp only [Path.anchor, hrest]
  rw [segments, ha]
  exact hnorm

theorem segments_tilde (hn : ∀ name ∈ names, Path.Ordinary name) :
    s.segments ("~" ++ Path.absolute names) = s.tree.segmentsOf s.home ++ names := by
  obtain ⟨rest, hrest, hnorm⟩ := Path.normalize_absolute hn (s.tree.segmentsOf s.home)
  have hl : ("~" ++ Path.absolute names).toList = '~' :: '/' :: rest := by
    rw [String.toList_append, hrest]
    rfl
  have ha : Path.anchor ("~" ++ Path.absolute names) = (.home, .ofList rest) := by
    simp only [Path.anchor, hl]
  rw [segments, ha]
  exact hnorm

end Segments

namespace Printable

variable (hs : s.Printable)
include hs

theorem resolve_pathOf {h : Handle} {link : String × Option Handle}
    (hl : s.tree.link? h = some link) : s.resolve (s.tree.pathOf h) = .ok h := by
  have hn := hs.named.segmentsOf h
  refine resolve_of_segments hs.sound.linked hl ?_ (segments_absolute hn) fun hslash => ?_
  · intro he
    have hlist := congrArg String.toList he
    rw [Tree.pathOf, Path.toList_absolute] at hlist
    cases hlist
  · by_cases hroot : s.tree.segmentsOf h = []
    · have hlinked := hs.sound.linked
      rw [← hlinked.segmentsOf_root] at hroot
      rw [hlinked.segmentsOf_injective hl hlinked.root_link hroot]
      exact hlinked.root_isDirectory
    · have hno := Path.endsInSlash_append_absolute "" hn hroot
      rw [String.empty_append] at hno
      rw [Tree.pathOf, hno] at hslash
      cases hslash

theorem workingPath_eq_iff : s.workingPath = s.tree.pathOf s.home ↔ s.cwd = s.home := by
  refine ⟨fun he => ?_, fun he => by rw [workingPath, he]⟩
  obtain ⟨link, hl⟩ := Tree.link?_of_isDirectory hs.sound.cwd_isDirectory
  obtain ⟨link', hl'⟩ := Tree.link?_of_isDirectory hs.sound.home_isDirectory
  have hsegs := Path.absolute_injective (hs.named.segmentsOf _) (hs.named.segmentsOf _) he
  exact hs.sound.linked.segmentsOf_injective hl hl' hsegs

/-- The working directory as a prompt shows it: home, below home, or elsewhere. -/
theorem displayedPath_cases :
    (s.cwd = s.home ∧ s.displayedPath = "~") ∨
    (∃ names, names ≠ [] ∧ s.tree.segmentsOf s.cwd = s.tree.segmentsOf s.home ++ names ∧
      s.displayedPath = "~" ++ Path.absolute names) ∨
    (¬ s.tree.segmentsOf s.home <+: s.tree.segmentsOf s.cwd ∧
      s.displayedPath = s.workingPath) := by
  have hc := hs.named.segmentsOf s.cwd
  have hh := hs.named.segmentsOf s.home
  have hne : s.tree.segmentsOf s.home ≠ [] := by
    rw [hs.sound.home_segments]
    exact List.cons_ne_nil _ _
  have hbelow := Path.absolute_prefix_iff hh hne hc
  unfold displayedPath
  dsimp only
  split
  · rename_i he
    exact .inl ⟨hs.workingPath_eq_iff.mp (String.toList_inj.mp he), rfl⟩
  · rename_i hdiff
    split
    · rename_i hp
      obtain ⟨⟨names, hnames⟩, hsegs⟩ := hbelow.mp (List.isPrefixOf_iff_prefix.mp hp)
      have hn : names ≠ [] := by
        rintro rfl
        exact hsegs (by rw [← hnames, List.append_nil])
      refine .inr (.inl ⟨names, hn, hnames.symm, ?_⟩)
      have hpath : s.workingPath = s.tree.pathOf s.home ++ Path.absolute names := by
        rw [workingPath, Tree.pathOf, ← hnames, Path.absolute_append hne hn]
        rfl
      rw [hpath, String.toList_append, List.drop_left, ← String.toList_inj, String.toList_ofList,
        String.toList_append]
      rfl
    · rename_i hp
      refine .inr (.inr ⟨fun hpre => ?_, String.ofList_toList⟩)
      refine hp (List.isPrefixOf_iff_prefix.mpr (hbelow.mpr ⟨hpre, fun he => hdiff ?_⟩))
      rw [workingPath, Tree.pathOf, Tree.pathOf, he]

theorem cd_workingPath : s.cd (some s.workingPath) = (.ok (), s) := by
  obtain ⟨link, hl⟩ := Tree.link?_of_isDirectory hs.sound.cwd_isDirectory
  exact cd_of_resolve (hs.resolve_pathOf hl) hs.sound.cwd_isDirectory

theorem cd_displayedPath : s.cd (some s.displayedPath) = (.ok (), s) := by
  obtain ⟨link, hl⟩ := Tree.link?_of_isDirectory hs.sound.cwd_isDirectory
  obtain ⟨he, hp⟩ | ⟨names, hn, hsegs, hp⟩ | ⟨-, hp⟩ := hs.displayedPath_cases
  · have hr : s.resolve "~" = .ok s.cwd := by
      refine resolve_of_segments hs.sound.linked hl (by decide) ?_ fun _ => ?_
      · rw [he]
        rfl
      · exact hs.sound.cwd_isDirectory
    rw [hp]
    exact cd_of_resolve hr hs.sound.cwd_isDirectory
  · have hnames : ∀ name ∈ names, Path.Ordinary name := fun name hm =>
      hs.named.segmentsOf s.cwd name (by rw [hsegs]; exact List.mem_append_right _ hm)
    have hne : "~" ++ Path.absolute names ≠ "" := by
      intro he
      have hlist := congrArg String.toList he
      rw [String.toList_append] at hlist
      cases hlist
    have hr : s.resolve ("~" ++ Path.absolute names) = .ok s.cwd := by
      refine resolve_of_segments hs.sound.linked hl hne ?_ fun _ => hs.sound.cwd_isDirectory
      rw [segments_tilde hnames, hsegs]
    rw [hp]
    exact cd_of_resolve hr hs.sound.cwd_isDirectory
  · rw [hp]
    exact hs.cd_workingPath

theorem displayedPath_eq_tilde_iff : s.displayedPath = "~" ↔ s.cwd = s.home := by
  obtain ⟨he, hp⟩ | ⟨names, hn, hsegs, hp⟩ | ⟨hpre, hp⟩ := hs.displayedPath_cases
  · exact iff_of_true hp he
  · refine iff_of_false (fun ht => ?_) fun he => ?_
    · have hlist := congrArg String.toList (hp.symm.trans ht)
      rw [String.toList_append, Path.toList_absolute] at hlist
      cases hlist
    · rw [he] at hsegs
      exact hn (List.self_eq_append_right.mp hsegs)
  · refine iff_of_false (fun ht => ?_) fun he => hpre (by rw [he])
    have hlist := congrArg String.toList (hp.symm.trans ht)
    rw [workingPath, Tree.pathOf, Path.toList_absolute] at hlist
    cases hlist

theorem displayedPath_below_iff : (∃ rest, s.displayedPath.toList = '~' :: '/' :: rest) ↔
    s.tree.contains s.home s.cwd = true ∧ s.cwd ≠ s.home := by
  obtain ⟨link, hl⟩ := Tree.link?_of_isDirectory hs.sound.cwd_isDirectory
  obtain ⟨link', hl'⟩ := Tree.link?_of_isDirectory hs.sound.home_isDirectory
  obtain ⟨he, hp⟩ | ⟨names, hn, hsegs, hp⟩ | ⟨hpre, hp⟩ := hs.displayedPath_cases
  · refine iff_of_false ?_ fun hc => hc.2 he
    rintro ⟨rest, hr⟩
    rw [hp] at hr
    cases hr
  · refine iff_of_true ?_ ⟨?_, fun he => ?_⟩
    · rw [hp, String.toList_append, Path.toList_absolute]
      exact ⟨_, rfl⟩
    · exact hs.sound.linked.contains_of_prefix hl' hl (by rw [hsegs]; exact List.prefix_append _ _)
    · rw [he] at hsegs
      exact hn (List.self_eq_append_right.mp hsegs)
  · refine iff_of_false ?_ fun hc => hpre (hs.sound.linked.prefix_of_contains hl hc.1)
    rintro ⟨rest, hr⟩
    rw [hp, workingPath, Tree.pathOf, Path.toList_absolute] at hr
    cases hr

end Printable

end Session

end TreeShell
