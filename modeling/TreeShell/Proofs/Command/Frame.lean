import TreeShell.Proofs.Command.Effects

/-! What a command leaves alone. Nodes go only where an argument of a removal leads to them or
above them, contents change only in files that a redirect opens, and a command that no verb takes
up does nothing by itself. -/

namespace TreeShell

namespace Tree

/-- What stays of a tree where some nodes may go and the contents of some files may change. -/
structure Frame (gone opened : Handle → Prop) (t t' : Tree) : Prop where
  ages : Ages t t'
  stays : ∀ {h link}, t.link? h = some link → gone h ∨ t'.link? h = some link
  kind_eq : ∀ {h kind link}, t.kind? h = some kind → t'.link? h = some link →
    opened h ∨ t'.kind? h = some kind

namespace Frame

variable {gone gone' opened : Handle → Prop} {t t' t'' : Tree}

theorem refl (t : Tree) : Frame gone opened t t where
  ages := .refl t
  stays hl := .inr hl
  kind_eq hk _ := .inr hk

theorem trans (h : Frame gone opened t t') (h' : Frame gone' opened t' t'')
    (hg : ∀ i link, t.link? i = some link → t'.link? i = some link → gone' i → gone i) :
    Frame gone opened t t'' where
  ages := h.ages.trans h'.ages
  stays := by
    intro i link hl
    rcases h.stays hl with hgone | hl'
    · exact .inl hgone
    · exact (h'.stays hl').imp_left (hg i link hl hl')
  kind_eq := by
    intro i kind link hk hl''
    obtain ⟨l, hl⟩ := exists_kind?_iff.mp ⟨kind, hk⟩
    cases hl' : t'.link? i with
    | none =>
      have hi := Nat.lt_of_lt_of_le (lt_size_of_link? hl) h.ages.size_le
      rw [h'.ages.stays_empty hi hl'] at hl''
      cases hl''
    | some link' =>
      rcases h.kind_eq hk hl' with ho | hk'
      · exact .inl ho
      · exact h'.kind_eq hk' hl''

theorem attach {p : Handle} {name : String} (kind : Kind) (hp : t.isDirectory p = true)
    (hc : t.child? p name = none) : Frame gone opened t (t.attach p name kind) where
  ages := (Grow.attach kind hp hc).ages
  stays hl := .inr (((Grow.attach kind hp hc).link? (lt_size_of_link? hl)).1.trans hl)
  kind_eq hk _ := by
    obtain ⟨l, hl⟩ := exists_kind?_iff.mp ⟨_, hk⟩
    rw [kind?_attach, if_neg (Nat.ne_of_lt (lt_size_of_link? hl))]
    exact .inr hk

theorem of_adds {allowed : String → Prop} (ha : Adds allowed t t') : Frame gone opened t t' := by
  induction ha with
  | refl => exact refl t
  | tail _ hstep ih =>
    cases hstep with
    | attach kind hp hc _ => exact ih.trans (Frame.attach kind hp hc) fun _ _ _ _ => id

theorem modifyContent {h : Handle} (ho : opened h) (f : Content → Content) :
    Frame gone opened t (t.modifyContent h f) where
  ages := (Grow.modifyContent h f).ages
  stays hl := .inr (by rwa [Tree.modifyContent, link?_modify])
  kind_eq {i kind link} hk _ := by
    by_cases hi : i = h
    · exact .inl (hi ▸ ho)
    · rw [kind?_modifyContent, if_neg hi]
      exact .inr hk

theorem remove (ht : t.Linked) {h p : Handle} {name : String}
    (hl : t.link? h = some (name, some p)) (hg : ∀ i, t.contains h i = true → gone i) :
    Frame gone opened t (t.remove h).2 where
  ages := (Step.remove h).ages ht
  stays {i link} hli := by
    rw [ht.link?_remove hl]
    split
    · rename_i hin
      exact .inl (hg i hin)
    · exact .inr hli
  kind_eq {i kind link} hk hli := by
    rw [ht.kind?_remove hl]
    rw [ht.link?_remove hl] at hli
    split at hli
    · cases hli
    · rename_i hout
      rw [if_neg hout]
      exact .inr hk

/-- A node that stays is found where it was. -/
theorem walk_or_gone (h : Frame gone opened t t') (ht : t.Linked) (ht' : t'.Linked)
    {names : List String} {i : Handle} (hw : t.walk Tree.root names = .ok i) :
    gone i ∨ t'.walk Tree.root names = .ok i ∧ t'.isDirectory i = t.isDirectory i := by
  obtain ⟨⟨link, hl⟩, hs⟩ := ht.segmentsOf_of_walk hw
  rcases h.stays hl with hgone | hl'
  · exact .inl hgone
  · refine .inr ⟨ht'.walk_eq_ok_iff.mpr ⟨⟨link, hl'⟩, ?_⟩, (h.ages.link_eq hl hl').2⟩
    rw [ht.segmentsOf_of_ages ht' h.ages hl hl', hs]

end Frame

end Tree

namespace Session

theorem Operation.Changes.cwd_eq {s s' : Session} {op : Operation} (h : op.Changes s s') :
    s'.cwd = s.cwd ∨ (∃ path, op = .cd path) ∨ ∃ path recursive g,
      op = .rm path recursive ∧ s.resolve path = .ok g ∧ s.tree.contains g s.cwd = true := by
  cases h with
  | added ha =>
    obtain ⟨tree, ha, rfl⟩ := ha
    exact .inl rfl
  | written he ha =>
    obtain ⟨tree, ha, rfl⟩ := ha
    exact .inl rfl
  | wentTo | wentHome => exact .inr (.inl ⟨_, rfl⟩)
  | @removed path recursive g p name hr hl hp =>
    by_cases hin : s.tree.contains g s.cwd = true
    · exact .inr (.inr ⟨path, recursive, g, rfl, hr, hin⟩)
    · exact .inl (if_neg hin)

end Session

open Session

namespace Command

/-- An argument of a removal leads, at its turn in the session `t`, to the node `g`, which is
removed with all below it. -/
def Removes (c : Command) (s : Session) (path : String) (t : Session) (g : Handle) : Prop :=
  c.name = "rm" ∧ ∃ flags, Verb.rm.flags c = .ok flags ∧
    Turn (fun path s => s.rm path (flags.contains .recursive)) c.arguments s path t ∧
    t.resolve path = .ok g ∧ (t.rm path (flags.contains .recursive)).1 = .ok ()

/-- A redirect opens the node `h` at its turn. -/
def Opens (c : Command) (fetch : Fetcher) (s : Session) (h : Handle) : Prop :=
  c.isEmpty = false ∧ ∃ r t,
    Turn (Redirect.receive (c.redirected fetch s)) c.redirects (c.runVerb fetch s).2 r t ∧
    (t.createOrOpen r.target).1 = .ok h

/-- What has these names is removed by the command. -/
def Loses (c : Command) (s : Session) (names : List String) : Prop :=
  ∃ path ∈ c.arguments, ∃ t g, c.Removes s path t g ∧ t.tree.segmentsOf g <+: names

/-- Commands that no verb takes up. -/
inductive Rejected (c : Command) : Prop
  | unknownVerb : Verb.ofName? c.name = none → Rejected c
  | badOption {v : Verb} {e : CommandError} : Verb.ofName? c.name = some v →
    v.flags c = .error e → Rejected c
  | missingOperand {v : Verb} : Verb.ofName? c.name = some v → v.needsOperand = true →
    c.arguments = [] → Rejected c
  | tooManyArguments : c.name = "cd" → 1 < c.arguments.length → Rejected c

variable {c : Command} {fetch : Fetcher} {s t : Session}

theorem ofName?_of_name_eq {v : Verb} (hn : c.name = v.name) : Verb.ofName? c.name = some v :=
  hn ▸ Verb.ofName?_name v

theorem not_rejected_of_cd {flags : List Flag} (hn : c.name = "cd")
    (hf : Verb.cd.flags c = .ok flags) (hl : c.arguments.length ≤ 1) : ¬ c.Rejected := by
  have hcd : Verb.ofName? c.name = some .cd := ofName?_of_name_eq hn
  intro hr
  cases hr with
  | unknownVerb hv => cases hcd.symm.trans hv
  | badOption hv he =>
    obtain rfl := Option.some.inj (hcd.symm.trans hv)
    cases hf.symm.trans he
  | missingOperand hv hneeds _ =>
    obtain rfl := Option.some.inj (hcd.symm.trans hv)
    cases hneeds
  | tooManyArguments _ hmany => exact absurd hmany (Nat.not_lt_of_le hl)

theorem Tries.frame {op : Operation} (h : c.Tries fetch s op t) (ht : t.tree.Linked) :
    Tree.Frame (fun i => ∃ path g, c.Removes s path t g ∧ t.tree.contains g i = true)
      (c.Opens fetch s) t.tree (op.run t).2.tree := by
  obtain he | ⟨hok, hc⟩ := op.run_cases ht
  · rw [he]
    exact .refl t.tree
  · generalize (op.run t).2 = t' at hc
    cases hc with
    | added ha =>
      obtain ⟨tree, ha, rfl⟩ := ha
      exact .of_adds ha
    | wentTo | wentHome => exact .refl t.tree
    | @written path f i u he ha =>
      obtain ⟨tree, ha, rfl⟩ := ha
      cases h with
      | @redirect r t hc hturn =>
        have hopened : c.Opens fetch s i := ⟨hc, r, t, hturn, by rw [he]⟩
        exact (Tree.Frame.of_adds ha).trans (.modifyContent hopened _) fun _ _ _ _ => id
    | @removed path recursive g p name hres hl _ =>
      cases h with
      | rm hn hf hturn =>
        have hrm : c.Removes s path t g := ⟨hn, _, hf, hturn, hres, hok⟩
        exact .remove ht hl fun i hi => ⟨path, g, hrm, hi⟩

/-- What goes is lost by the names it had at the start. -/
theorem frame_execute (hs : s.Sound) : (c.execute fetch s).2.Sound ∧
    Tree.Frame (fun i => c.Loses s (s.tree.segmentsOf i)) (c.Opens fetch s) s.tree
      (c.execute fetch s).2.tree := by
  refine execute_preserves (P := fun u => u.Sound ∧ Tree.Frame
    (fun i => c.Loses s (s.tree.segmentsOf i)) (c.Opens fetch s) s.tree u.tree)
    ⟨hs, .refl s.tree⟩ ?_
  rintro op t hop ⟨ht, hf⟩
  refine ⟨(ht.run [op]).1, hf.trans (hop.frame ht.linked) ?_⟩
  rintro i link hl hl' ⟨path, g, hrm, hc⟩
  have hmem : path ∈ c.arguments := by
    obtain ⟨-, flags, -, hturn, -⟩ := hrm
    exact hturn.mem
  refine ⟨path, hmem, t, g, hrm, ?_⟩
  rw [← hs.linked.segmentsOf_of_ages ht.linked hf.ages hl hl']
  exact ht.linked.prefix_of_contains hl' hc

theorem Tries.cwd_eq {op : Operation} (h : c.Tries fetch s op t) (ht : t.tree.Linked) :
    (op.run t).2.cwd = t.cwd ∨
      (c.name = "cd" ∧ ¬ c.Rejected ∧ (s.cd c.arguments.head?).1 = .ok ()) ∨
      ∃ path g, c.Removes s path t g ∧ t.tree.contains g t.cwd = true := by
  obtain he | ⟨hok, hc⟩ := op.run_cases ht
  · exact .inl (by rw [he])
  · obtain he | ⟨path, rfl⟩ | ⟨path, recursive, g, rfl, hres, hin⟩ := hc.cwd_eq
    · exact .inl he
    · cases h with
      | cd hn hf hl => exact .inr (.inl ⟨hn, not_rejected_of_cd hn hf hl, hok⟩)
    · cases h with
      | rm hn hf hturn => exact .inr (.inr ⟨path, g, ⟨hn, _, hf, hturn, hres, hok⟩, hin⟩)

theorem cwd_execute (hs : s.Sound) : (c.execute fetch s).2.cwd = s.cwd ∨
    (c.name = "cd" ∧ ¬ c.Rejected ∧ (s.cd c.arguments.head?).1 = .ok ()) ∨
    ∃ path t g, c.Removes s path t g ∧ t.cwd = s.cwd ∧ t.tree.contains g s.cwd = true := by
  refine (execute_preserves (P := fun u => u.Sound ∧ (u.cwd = s.cwd ∨
    (c.name = "cd" ∧ ¬ c.Rejected ∧ (s.cd c.arguments.head?).1 = .ok ()) ∨
    ∃ path t g, c.Removes s path t g ∧ t.cwd = s.cwd ∧ t.tree.contains g s.cwd = true))
    ⟨hs, .inl rfl⟩ ?_).2
  rintro op t hop ⟨ht, he | hmoved⟩
  · refine ⟨(ht.run [op]).1, ?_⟩
    obtain hcwd | hcd | ⟨path, g, hrm, hin⟩ := hop.cwd_eq ht.linked
    · exact .inl (hcwd.trans he)
    · exact .inr (.inl hcd)
    · exact .inr (.inr ⟨path, t, g, hrm, he, he ▸ hin⟩)
  · exact ⟨(ht.run [op]).1, .inr hmoved⟩

theorem runVerb_of_run_error {v : Verb} {e : CommandError} (hv : Verb.ofName? c.name = some v)
    (hr : v.run fetch c s = (.error e, s)) :
    c.runVerb fetch s = (.ofError (v.name ++ ": " ++ e.message), s) := by
  simp only [runVerb, hv, hr]

theorem runVerb_of_rejected (h : c.Rejected) (fetch : Fetcher) (s : Session) :
    ∃ message, c.runVerb fetch s = (.ofError message, s) := by
  have hflags : ∀ {v e}, Verb.ofName? c.name = some v → v.flags c = .error e →
      ∃ message, c.runVerb fetch s = (.ofError message, s) :=
    fun hv hf => ⟨_, runVerb_of_run_error hv (by rw [Verb.run, hf])⟩
  cases h with
  | unknownVerb hv => exact ⟨_, by rw [runVerb, hv]⟩
  | badOption hv hf => exact hflags hv hf
  | @missingOperand v hv hn ha =>
    cases hf : v.flags c with
    | error e => exact hflags hv hf
    | ok flags =>
      have hrun : v.run fetch c s = (.error .missingOperand, s) := by simp [Verb.run, hf, hn, ha]
      exact ⟨_, runVerb_of_run_error hv hrun⟩
  | tooManyArguments hn hl =>
    have hv : Verb.ofName? c.name = some .cd := ofName?_of_name_eq hn
    cases hf : Verb.cd.flags c with
    | error e => exact hflags hv hf
    | ok flags =>
      have hrun : Verb.cd.run fetch c s = (.error .tooManyArguments, s) := by
        rcases ha : c.arguments with _ | ⟨first, _ | ⟨second, rest⟩⟩
        · simp [ha] at hl
        · simp [ha] at hl
        · simp [Verb.run, hf, ha, Verb.needsOperand, Verb.perform]
      exact ⟨_, runVerb_of_run_error hv hrun⟩

theorem execute_of_rejected (h : c.Rejected) (fetch : Fetcher) (s : Session) :
    (c.execute fetch s).2 = if c.isEmpty then s else (feed "" c.redirects s).2 := by
  obtain ⟨message, hr⟩ := runVerb_of_rejected h fetch s
  rw [execute]
  split
  · rfl
  · rw [hr]
    dsimp only
    rw [redirect_snd, feed_snd]
    rfl

/-- No command loses what it was not told to touch. Paths lead to the same nodes as before, save
those that a removal was told to remove; a file whose node no redirect opened has the content it
had; the working directory changes only where the user goes, or where it is removed; and a
command that no verb takes up leaves all to its redirects. -/
theorem execute_spares {s : Session} (hs : s.Reachable) (fetch : Fetcher) (c : Command) :
    let s' := (c.execute fetch s).2
    (∀ names h, s.tree.walk Tree.root names = .ok h →
      (s'.tree.walk Tree.root names = .ok h ∧ s'.tree.isDirectory h = s.tree.isDirectory h) ∨
        c.name = "rm" ∧ c.Loses s names) ∧
    (∀ h content, s.tree.content? h = some content → s'.tree.node? h ≠ none →
      ¬ c.Opens fetch s h → s'.tree.content? h = some content) ∧
    (s'.cwd ≠ s.cwd → (c.name = "cd" ∧ ¬ c.Rejected ∧ (s.cd c.arguments.head?).1 = .ok ()) ∨
      c.name = "rm" ∧ ∃ path t g, c.Removes s path t g ∧ t.cwd = s.cwd ∧
        t.tree.contains g s.cwd = true) ∧
    (c.Rejected → (∃ message, c.runVerb fetch s = (.ofError message, s)) ∧
      s' = if c.isEmpty then s else (feed "" c.redirects s).2) := by
  intro s'
  obtain ⟨hs', hf⟩ := @frame_execute c fetch s hs.sound
  refine ⟨fun names h hw => ?_, fun h content hk hn ho => ?_, fun hne => ?_, fun hr =>
    ⟨runVerb_of_rejected hr fetch s, execute_of_rejected hr fetch s⟩⟩
  · rcases hf.walk_or_gone hs.sound.linked hs'.linked hw with hlost | hstays
    · rw [(hs.sound.linked.segmentsOf_of_walk hw).2] at hlost
      have hname : c.name = "rm" := by
        obtain ⟨_, _, _, _, hrm, _⟩ := hlost
        exact hrm.1
      exact .inr ⟨hname, hlost⟩
    · exact .inl hstays
  · obtain ⟨link, hl⟩ := Tree.isSome_node?_iff.mp (Option.isSome_iff_ne_none.mpr hn)
    have hkind := hf.kind_eq (Tree.content?_eq_some_iff.mp hk) hl
    exact Tree.content?_eq_some_iff.mpr (hkind.resolve_left ho)
  · obtain he | hcd | ⟨path, t, g, hrm, hmoved⟩ := @cwd_execute c fetch s hs.sound
    · exact absurd he hne
    · exact .inl hcd
    · exact .inr ⟨hrm.1, path, t, g, hrm, hmoved⟩

/-- A file in the way of a directory stops the command and stays. -/
theorem execute_spares_file_in_the_way : ∃ (s : Session) (c : Command),
    s = run [.touch "f"] (withHome "guest") ∧
    c = ⟨"mkdir", [], [], ["d", "f", "e"], [⟨"g", .append⟩]⟩ ∧ s.Reachable ∧
    s.tree.walk Tree.root ["home", "guest", "f"] = .ok 3 ∧
    (c.execute (.ofList []) s).2.tree.walk Tree.root ["home", "guest", "f"] = .ok 3 := by
  obtain ⟨s, he⟩ : ∃ s, s = run [.touch "f"] (withHome "guest") := ⟨_, rfl⟩
  have hs : s.Reachable := ⟨_, .withHome "guest", _, he⟩
  have hw : s.tree.walk Tree.root ["home", "guest", "f"] = .ok 3 := by rw [he]; cbv
  have hspared := (execute_spares hs (.ofList [])
    ⟨"mkdir", [], [], ["d", "f", "e"], [⟨"g", .append⟩]⟩).1 _ _ hw
  have hname : "mkdir" ≠ "rm" := by decide
  exact ⟨s, _, he, rfl, hs, hw, (hspared.resolve_right fun hlost => hname hlost.1).1⟩

end Command

end TreeShell
