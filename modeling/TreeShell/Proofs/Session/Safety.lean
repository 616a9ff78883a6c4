import TreeShell.Proofs.Session.Runs

/-! No run of operations loses the home directory or leaves the session without a working
directory: the nodes above home are the three that are protected, so that what can be removed
is never above it. An operation that fails leaves the session exactly as it was. -/

namespace TreeShell.Session

/-- Home is a directory at its place, and the session is in a directory. -/
structure Sound (s : Session) : Prop where
  linked : s.tree.Linked
  home_isDirectory : s.tree.isDirectory s.home = true
  home_segments : s.tree.segmentsOf s.home = homeNames s.user
  cwd_isDirectory : s.tree.isDirectory s.cwd = true

namespace Sound

variable {s : Session}

theorem walk_home (hs : s.Sound) : s.tree.walk Tree.root (homeNames s.user) = .ok s.home := by
  obtain ⟨link, hl⟩ := Tree.link?_of_isDirectory hs.home_isDirectory
  exact hs.linked.walk_eq_ok_iff.mpr ⟨⟨link, hl⟩, hs.home_segments⟩

/-- The way up from home passes one directory below the root. -/
theorem home_links (hs : s.Sound) : ∃ d, s.tree.link? d = some ("home", some Tree.root) ∧
    s.tree.link? s.home = some (s.user, some d) := by
  obtain ⟨d, hd, hh⟩ := Tree.walkFrom_cons_eq_ok.mp hs.walk_home
  obtain ⟨c, hc, he⟩ := Tree.walkFrom_cons_eq_ok.mp hh
  cases he
  exact ⟨d, hs.linked.down hd, hs.linked.down hc⟩

theorem contains_home (hs : s.Sound) (h : Handle) :
    s.tree.contains h s.home = s.isProtected h := by
  obtain ⟨d, hd, hh⟩ := hs.home_links
  have hp := Tree.parent?_of_link? hh
  rw [Bool.eq_iff_iff, hs.linked.contains_of_link? hh, hs.linked.contains_of_link? hd,
    hs.linked.contains_root]
  simp only [isProtected, hp, Bool.or_eq_true, decide_eq_true_eq, Option.some.injEq]
  tauto

end Sound

/-- A tree in which the nodes of home and of the working directory are still directories. -/
theorem Sound.of_ages {s : Session} (hs : s.Sound) {tree : Tree} {cwd : Handle}
    (ht : tree.Linked) (ha : Tree.Ages s.tree tree) (hh : tree.isDirectory s.home = true)
    (hc : tree.isDirectory cwd = true) : Sound { s with tree, cwd } where
  linked := ht
  home_isDirectory := hh
  home_segments := by
    obtain ⟨link, hl⟩ := Tree.link?_of_isDirectory hs.home_isDirectory
    obtain ⟨link', hl'⟩ := Tree.link?_of_isDirectory hh
    exact (hs.linked.segmentsOf_of_ages ht ha hl hl').trans hs.home_segments
  cwd_isDirectory := hc

theorem Step.sound {s s' : Session} (h : Step s s') (hs : s.Sound) : s'.Sound := by
  cases h with
  | goTo hd => exact ⟨hs.linked, hs.home_isDirectory, hs.home_segments, hd⟩
  | goHome => exact ⟨hs.linked, hs.home_isDirectory, hs.home_segments, hs.home_isDirectory⟩
  | grow hg =>
    obtain ⟨tree, hg, rfl⟩ := hg
    have hl := hg.leads
    refine hs.of_ages (hl.linked hs.linked) (hl.ages hs.linked) ?_ ?_
    · exact hg.isDirectory hs.home_isDirectory
    · exact hg.isDirectory hs.cwd_isDirectory
  | @remove h p name hl hp =>
    have hd := fun i => hs.linked.isDirectory_remove (i := i) hl
    refine hs.of_ages (hs.linked.remove h) ((Tree.Step.remove h).ages hs.linked) ?_ ?_
    · simp [hd, hs.contains_home, hp, hs.home_isDirectory]
    · by_cases hc : s.tree.contains h s.cwd = true
      · -- What held the removed node is older than it and stays.
        have hpd := Tree.isDirectory_of_child? (hs.linked.child?_eq_some_iff.mpr hl)
        have hout : s.tree.contains h p = false := Bool.eq_false_iff.mpr fun hh =>
          Nat.not_lt_of_le (hs.linked.le_of_contains hh) (hs.linked.parent_lt hl)
        simp [hd, hc, hout, hpd]
      · simp [hd, hc, hs.cwd_isDirectory]

theorem Step.home {s s' : Session} (h : Step s s') : s'.home = s.home ∧ s'.user = s.user := by
  cases h with
  | grow hg =>
    obtain ⟨tree, _, rfl⟩ := hg
    exact ⟨rfl, rfl⟩
  | goTo => exact ⟨rfl, rfl⟩
  | goHome => exact ⟨rfl, rfl⟩
  | remove => exact ⟨rfl, rfl⟩

/-- What holds of one operation holds of a run. -/
theorem Sound.run {s : Session} (hs : s.Sound) (ops : List Operation) :
    (run ops s).Sound ∧ (run ops s).home = s.home ∧ (run ops s).user = s.user := by
  induction ops generalizing s with
  | nil => exact ⟨hs, rfl, rfl⟩
  | cons op ops ih =>
    have ho := op.outcome hs.linked
    have hr : Session.run (op :: ops) s = Session.run ops (op.run s).2 := rfl
    rw [hr]
    generalize op.run s = r at ho ⊢
    cases ho with
    | failed e => exact ih hs
    | done a hstep =>
      obtain ⟨hs', hh, hu⟩ := ih (hstep.sound hs)
      exact ⟨hs', hh.trans hstep.home.1, hu.trans hstep.home.2⟩

theorem sound_of_ofTree? {tree : Tree} (ht : tree.Linked) {user : String} {s : Session}
    (h : ofTree? tree user = some s) : s.Sound := by
  unfold ofTree? at h
  split at h
  · rename_i home hw
    split at h
    · rename_i hd
      cases h
      exact ⟨ht, hd, (ht.segmentsOf_of_walk hw).2, hd⟩
    · cases h
  · cases h

/-- A fresh tree has room for the home directory. -/
theorem ofTree?_withHome (user : String) :
    ofTree? (Tree.empty.createDirectories (homeNames user)).2 user = some (withHome user) := by
  have hroot : Tree.empty.isDirectory Tree.root = true := rfl
  have hv : ∀ name ∈ (homeNames user).head?, Tree.empty.child? Tree.root name = none :=
    fun name _ => Tree.child?_empty Tree.root name
  obtain ⟨c, hc⟩ := Tree.createChain_of_vacant hroot hv
  have he : Tree.empty.createChain Tree.root (homeNames user) =
      (some c, (Tree.empty.createChain Tree.root (homeNames user)).2) := Prod.ext hc rfl
  obtain ⟨hd, hw⟩ := Tree.walkFrom_of_createChain .empty hroot hv he 0
  rw [withHome, Tree.createDirectories, Tree.createMissing_of_vacant hroot hv, he]
  simp only [ofTree?, Tree.walk, hw, hd, if_true]

theorem withHome_sound (user : String) : (withHome user).Sound :=
  sound_of_ofTree? ((Tree.grows_createMissing _ _ _).leads.linked .empty) (ofTree?_withHome user)

theorem Start.sound {s : Session} (h : Start s) : s.Sound := by
  cases h with
  | ofTree h => exact sound_of_ofTree? ((Tree.leads_run _ _).linked .empty) h
  | withHome user => exact withHome_sound user
  | bootstrap h =>
    obtain ⟨ops, rfl⟩ := leads_of_bootstrap h
    exact ((withHome_sound _).run ops).1

/-- The nodes on the way from the root to home are directories, and all of them protected. -/
theorem Sound.walk_prefix {s : Session} (hs : s.Sound) {names : List String}
    (hn : names <+: homeNames s.user) : ∃ h, s.tree.walk Tree.root names = .ok h ∧
      s.tree.isDirectory h = true ∧ s.isProtected h = true := by
  obtain ⟨rest, he⟩ := hn
  have hw := hs.walk_home
  rw [← he] at hw
  obtain ⟨h, hh, hrest⟩ := Tree.walkFrom_append_eq_ok.mp hw
  refine ⟨h, hh, ?_, ?_⟩
  · cases rest with
    | nil =>
      obtain rfl : h = s.home := Except.ok.inj hrest
      exact hs.home_isDirectory
    | cons name rest =>
      obtain ⟨c, hc, _⟩ := Tree.walkFrom_cons_eq_ok.mp hrest
      exact Tree.isDirectory_of_child? hc
  · obtain ⟨⟨link, hl⟩, hseg⟩ := hs.linked.segmentsOf_of_walk hh
    obtain ⟨link', hl'⟩ := Tree.link?_of_isDirectory hs.home_isDirectory
    rw [← hs.contains_home]
    refine hs.linked.contains_of_prefix hl hl' ?_
    rw [hseg, hs.home_segments, ← he]
    exact List.prefix_append names rest

/-- What is protected outlives every step. -/
theorem Step.keeps_protected {s s' : Session} (h : Step s s') (hs : s.Sound) {i : Handle}
    (hp : s.isProtected i = true) (hd : s.tree.isDirectory i = true) :
    s'.tree.isDirectory i = true := by
  cases h with
  | goTo => exact hd
  | goHome => exact hd
  | grow hg =>
    obtain ⟨tree, hg, rfl⟩ := hg
    exact hg.isDirectory hd
  | @remove h p name hl hnot =>
    -- If `i` were to go, home below it would go too, and the removed node be protected.
    have hout : s.tree.contains h i = false := by
      refine Bool.eq_false_iff.mpr fun hin => ?_
      rw [← hs.contains_home] at hp hnot
      rw [hs.linked.contains_trans hin hp] at hnot
      cases hnot
    simp [hs.linked.isDirectory_remove hl, hout, hd]

theorem Step.ages {s s' : Session} (h : Step s s') (hs : s.Sound) :
    Tree.Ages s.tree s'.tree := by
  cases h with
  | goTo => exact .refl _
  | goHome => exact .refl _
  | grow hg =>
    obtain ⟨tree, hg, rfl⟩ := hg
    exact hg.leads.ages hs.linked
  | remove => exact (Tree.Step.remove _).ages hs.linked

/-- New nodes change nothing about what a path stands for. -/
theorem Sound.segments_of_grows {s : Session} (hs : s.Sound) {tree : Tree}
    (hg : Tree.Grows s.tree tree) :
    segments { s with tree } = s.segments := by
  have hl := hg.leads
  have hsame : ∀ h, s.tree.isDirectory h = true → tree.segmentsOf h = s.tree.segmentsOf h := by
    intro h hd
    obtain ⟨link, hlink⟩ := Tree.link?_of_isDirectory hd
    obtain ⟨link', hlink'⟩ := Tree.link?_of_isDirectory (hg.isDirectory hd)
    exact hs.linked.segmentsOf_of_ages (hl.linked hs.linked) (hl.ages hs.linked) hlink hlink'
  have hnames : anchorNames { s with tree } = s.anchorNames := by
    funext anchor
    cases anchor with
    | root => rfl
    | home => exact hsame _ hs.home_isDirectory
    | here => exact hsame _ hs.cwd_isDirectory
  funext path
  rw [segments, segments, hnames]

theorem Reachable.sound {s : Session} (h : Reachable s) : s.Sound := by
  obtain ⟨s₀, h₀, ops, rfl⟩ := h
  exact (h₀.sound.run ops).1

theorem rm_of_protected {s : Session} {path : String} {h : Handle} (recursive : Bool)
    (hr : s.resolve path = .ok h) (hp : s.isProtected h = true) :
    s.rm path recursive = (.error (.operationRefused path), s) := by
  simp [rm, hr, hp]

/-- Whatever is tried on a session: home stays the same directory at the same place and the
working directory is a directory. No path leads a removal to the root, to the directory that
holds home, or to home, and going home always succeeds. -/
theorem run_keeps_home_and_cwd {s₀ : Session} (h₀ : Start s₀) (ops : List Operation) :
    ((run ops s₀).home = s₀.home ∧
      (run ops s₀).tree.isDirectory s₀.home = true ∧
      (run ops s₀).tree.segmentsOf s₀.home = homeNames s₀.user ∧
      (run ops s₀).tree.isDirectory (run ops s₀).cwd = true) ∧
    (∀ names, names <+: homeNames s₀.user → ∃ h,
      (run ops s₀).tree.walk Tree.root names = .ok h ∧ ∀ path recursive,
        (((run ops s₀).rm path recursive).2.tree.walk Tree.root names = .ok h ∧
          ((run ops s₀).rm path recursive).2.tree.isDirectory h = true) ∧
        ((run ops s₀).resolve path = .ok h →
          (run ops s₀).rm path recursive = (.error (.operationRefused path), run ops s₀))) ∧
    ((run ops s₀).cd none).1 = .ok () ∧ ((run ops s₀).cd none).2.cwd = s₀.home := by
  obtain ⟨hs, hh, hu⟩ := h₀.sound.run ops
  generalize run ops s₀ = s at hs hh hu
  rw [← hh, ← hu]
  refine ⟨⟨rfl, hs.home_isDirectory, hs.home_segments, hs.cwd_isDirectory⟩, ?_, rfl, rfl⟩
  intro names hn
  obtain ⟨h, hw, hd, hp⟩ := hs.walk_prefix hn
  refine ⟨h, hw, fun path recursive => ⟨?_, fun hr => rm_of_protected recursive hr hp⟩⟩
  have ho := rm_outcome path hs.linked recursive
  generalize s.rm path recursive = r at ho ⊢
  cases ho with
  | failed e => exact ⟨hw, hd⟩
  | done a hstep =>
    have hd' := hstep.keeps_protected hs hp hd
    obtain ⟨link, hl⟩ := Tree.link?_of_isDirectory hd
    obtain ⟨link', hl'⟩ := Tree.link?_of_isDirectory hd'
    have hs' := hstep.sound hs
    have hseg := hs.linked.segmentsOf_of_ages hs'.linked (hstep.ages hs) hl hl'
    refine ⟨hs'.linked.walk_eq_ok_iff.mpr ⟨⟨link', hl'⟩, ?_⟩, hd'⟩
    rw [hseg, (hs.linked.segmentsOf_of_walk hw).2]

/-- The working directory is removed with what holds it, and then home is tried. -/
theorem run_keeps_home_and_cwd_guest :
    Start (withHome "guest") ∧
    (run [.mkdir "a/b" true, .cd (some "a/b"), .rm "../../a" true, .rm "~/../guest" true]
      (withHome "guest")).tree.segmentsOf (withHome "guest").home = ["home", "guest"] ∧
    (run [.mkdir "a/b" true, .cd (some "a/b"), .rm "../../a" true, .rm "~/../guest" true]
      (withHome "guest")).tree.isDirectory (run [.mkdir "a/b" true, .cd (some "a/b"),
        .rm "../../a" true, .rm "~/../guest" true] (withHome "guest")).cwd = true :=
  ⟨.withHome "guest", (run_keeps_home_and_cwd (.withHome "guest") _).1.2.2⟩

/-- An operation that fails leaves the session as it was, every slot, the working directory and
home. -/
theorem failed_operation_changes_nothing {s : Session} (hs : s.Reachable) :
    (∀ op e, (Operation.run op s).1 = .error e → (op.run s).2 = s) ∧
    ∀ path e, (s.createOrOpen path).1 = .error e → (s.createOrOpen path).2 = s := by
  refine ⟨fun op e he => ?_, fun path e he => ?_⟩
  · exact (op.outcome hs.sound.linked).eq_of_error he
  · exact (createOrOpen_outcome path).eq_of_error he

/-- A file stands where a chain of directories is to be made. -/
theorem failed_mkdir_changes_nothing : ∃ s : Session,
    s = run [.touch "f"] (withHome "guest") ∧ s.Reachable ∧
    (Operation.run (.mkdir "~/f/x/y" true) s).1 = .error (.notADirectory "~/f/x/y") ∧
    (Operation.run (.mkdir "~/f/x/y" true) s).2 = s := by
  obtain ⟨s, he⟩ : ∃ s, s = run [.touch "f"] (withHome "guest") := ⟨_, rfl⟩
  have hs : s.Reachable := ⟨_, .withHome "guest", _, he⟩
  have hfails : (Operation.run (.mkdir "~/f/x/y" true) s).1 =
      .error (.notADirectory "~/f/x/y") := by
    rw [he]
    cbv
  exact ⟨s, he, hs, hfails, (failed_operation_changes_nothing hs).1 _ _ hfails⟩

end TreeShell.Session
