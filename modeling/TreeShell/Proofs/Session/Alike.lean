import TreeShell.Completion
import TreeShell.Proofs.Session.Safety
import TreeShell.Proofs.Tree.Alike

/-! Two sessions of one user whose trees have the same map and whose working directories have the
same names. Every question about files has the same answer in both, and every operation has the
same outcome and leaves sessions that are alike again: handles are never seen. -/

namespace TreeShell.Session

structure Alike (s s' : Session) : Prop where
  sound : s.Sound
  sound' : s'.Sound
  user_eq : s.user = s'.user
  tree : Tree.Alike s.tree s'.tree
  cwd : Tree.Twins s.tree s'.tree s.cwd s'.cwd

/-- Places that are twins. -/
inductive PlaceTwins (t t' : Tree) : Place → Place → Prop
  | existing {h h' : Handle} : Tree.Twins t t' h h' → PlaceTwins t t' (.existing h) (.existing h')
  | vacant {p p' : Handle} (name : String) :
    Tree.Twins t t' p p' → PlaceTwins t t' (.vacant p name) (.vacant p' name)

/-- The same answer, and sessions that are alike. -/
def Agree {α : Type} (r r' : α × Session) : Prop :=
  r.1 = r'.1 ∧ Alike r.2 r'.2

/-- The same handle up to twins or the same error, and sessions that are alike. -/
def OpenedAlike (r r' : Except FileError Handle × Session) : Prop :=
  Corresponds (Tree.Twins r.2.tree r'.2.tree) r.1 r'.1 ∧ Alike r.2 r'.2

/-- What comes of opening a file once its node was found or added. -/
def opened (path : String) (s : Session) :
    Option Handle × Tree → Except FileError Handle × Session
  | (none, tree) => (.error (.notADirectory path), { s with tree })
  | (some h, tree) =>
    match tree.content? h with
    | some _ => (.ok h, { s with tree })
    | none => (.error (.isADirectory path), { s with tree })

theorem createOrOpen_eq_opened (path : String) (s : Session) :
    s.createOrOpen path = match s.locateFile path with
      | .error e => (.error e, s)
      | .ok (.existing h) => opened path s (some h, s.tree)
      | .ok (.vacant parent name) => opened path s (s.tree.create parent name (.file .empty)) := by
  rw [createOrOpen]
  cases s.locateFile path with
  | error e => rfl
  | ok place => cases place <;> rfl

/-- A request to open a file is made from the name and the content of its node. -/
theorem openRequest_eq_kind (path : String) (s : Session) :
    s.openRequest path = match s.resolve path with
      | .error e => .error e
      | .ok h =>
        match (s.tree.link? h).map Prod.fst, s.tree.kind? h with
        | some name, some (.file (.own bytes)) =>
          .ok (.blob name (.ofList (Text.base64 bytes)))
        | some _, some (.file (.fetched _ source)) => .ok (.url source)
        | _, _ => .error (.isADirectory path) := by
  rw [openRequest]
  cases s.resolve path with
  | error e => rfl
  | ok h =>
    simp only [Tree.link?, Tree.kind?]
    obtain _ | ⟨name, parent, entries | content⟩ := s.tree.node? h
    · rfl
    · rfl
    · cases content <;> rfl

namespace Alike

variable {s s' : Session}

theorem home (h : Alike s s') : Tree.Twins s.tree s'.tree s.home s'.home :=
  ⟨homeNames s.user, h.sound.walk_home, h.user_eq ▸ h.sound'.walk_home⟩

theorem segments_eq (h : Alike s s') (path : String) : s.segments path = s'.segments path := by
  have ha : ∀ anchor, s.anchorNames anchor = s'.anchorNames anchor := by
    intro anchor
    cases anchor with
    | root => rfl
    | home => exact h.tree.segmentsOf_eq h.home
    | here => exact h.tree.segmentsOf_eq h.cwd
  rw [segments, segments, ha]

theorem walk (h : Alike s s') (names : List String) : Corresponds (Tree.Twins s.tree s'.tree)
    (s.tree.walk Tree.root names) (s'.tree.walk Tree.root names) :=
  h.tree.walkFrom (.root s.tree s'.tree) 0 names

theorem resolve (h : Alike s s') (path : String) :
    Corresponds (Tree.Twins s.tree s'.tree) (s.resolve path) (s'.resolve path) := by
  rw [Session.resolve, Session.resolve, h.segments_eq]
  split
  · exact .error _
  · have hw := h.walk (s'.segments path)
    generalize s.tree.walk _ _ = w, s'.tree.walk _ _ = w' at hw
    cases hw with
    | error e => exact .error _
    | ok hh =>
      dsimp only
      rw [h.tree.isDirectory_eq hh]
      split
      · exact .error _
      · exact .ok hh

theorem locate (h : Alike s s') (path : String) :
    Corresponds (PlaceTwins s.tree s'.tree) (s.locate path) (s'.locate path) := by
  rw [Session.locate, Session.locate, h.segments_eq]
  split
  · exact .error _
  · split
    · exact .ok (.existing (.root s.tree s'.tree))
    · rename_i name _
      have hw := h.walk (s'.segments path).dropLast
      generalize s.tree.walk _ _ = w, s'.tree.walk _ _ = w' at hw
      cases hw with
      | error e => exact .error _
      | @ok p p' hp =>
        dsimp only
        rw [h.tree.isDirectory_eq hp]
        split
        · have hc := h.tree.child? hp name
          generalize s.tree.child? p name = x, s'.tree.child? p' name = x' at hc
          cases hc with
          | none => exact .ok (.vacant name hp)
          | some hc => exact .ok (.existing hc)
        · exact .error _

theorem locateFile (h : Alike s s') (path : String) :
    Corresponds (PlaceTwins s.tree s'.tree) (s.locateFile path) (s'.locateFile path) := by
  rw [Session.locateFile, Session.locateFile]
  have hl := h.locate path
  generalize s.locate path = l, s'.locate path = l' at hl
  cases hl with
  | error e => exact .error e
  | ok hp =>
    dsimp only
    split
    · cases hp with
      | existing hh =>
        dsimp only
        rw [h.tree.isDirectory_eq hh]
        split
        · exact .ok (.existing hh)
        · exact .error _
      | vacant name hp => exact .error _
    · exact .ok hp

section Questions

variable (h : Alike s s')
include h

theorem workingPath_eq : s.workingPath = s'.workingPath := by
  rw [workingPath, workingPath, Tree.pathOf, Tree.pathOf, h.tree.segmentsOf_eq h.cwd]

theorem displayedPath_eq : s.displayedPath = s'.displayedPath := by
  rw [displayedPath, displayedPath, h.workingPath_eq, Tree.pathOf, Tree.pathOf,
    h.tree.segmentsOf_eq h.home]

theorem isDirectory_eq (path : String) : s.isDirectory path = s'.isDirectory path := by
  rw [Session.isDirectory, Session.isDirectory]
  have hr := h.resolve path
  generalize s.resolve path = r, s'.resolve path = r' at hr
  cases hr with
  | error e => rfl
  | ok hh => exact h.tree.isDirectory_eq hh

theorem cat_eq (path : String) : s.cat path = s'.cat path := by
  rw [cat, cat]
  have hr := h.resolve path
  generalize s.resolve path = r, s'.resolve path = r' at hr
  cases hr with
  | error e => rfl
  | ok hh => simp only [h.tree.content?_eq hh]

theorem list_eq (path : Option String) : s.list path = s'.list path := by
  have hr : Corresponds (Tree.Twins s.tree s'.tree) (path.elim (.ok s.cwd) s.resolve)
      (path.elim (.ok s'.cwd) s'.resolve) := by
    cases path with
    | none => exact .ok h.cwd
    | some path => exact h.resolve path
  rw [list, list]
  generalize path.elim (.ok s.cwd) s.resolve = r, path.elim (.ok s'.cwd) s'.resolve = r' at hr
  cases hr with
  | error e => rfl
  | ok hh =>
    have he := h.tree.map_entries_eq hh fun name d => if d = true then name ++ "/" else name
    simp only [h.tree.isDirectory_eq hh, he]

theorem openRequest_eq (path : String) : s.openRequest path = s'.openRequest path := by
  rw [openRequest_eq_kind, openRequest_eq_kind]
  have hr := h.resolve path
  generalize s.resolve path = r, s'.resolve path = r' at hr
  cases hr with
  | error e => rfl
  | ok hh => simp only [h.tree.name_eq hh, h.tree.kind?_eq hh]

theorem complete_eq (input : String) : complete input s = complete input s' := by
  have hn : ∀ dir, Completion.namesIn s dir = Completion.namesIn s' dir := by
    intro dir
    simp only [Completion.namesIn, h.list_eq, h.isDirectory_eq]
  simp only [complete, hn]

end Questions

section Operations

variable (h : Alike s s')
include h

theorem grown {u u' : Tree} (hg : Tree.Grows s.tree u) (hg' : Tree.Grows s'.tree u')
    (hu : Tree.Alike u u') : Alike { s with tree := u } { s' with tree := u' } where
  sound := (Step.grow ⟨u, hg, rfl⟩).sound h.sound
  sound' := (Step.grow ⟨u', hg', rfl⟩).sound h.sound'
  user_eq := h.user_eq
  tree := hu
  cwd := h.cwd.of_grows h.tree hu hg hg'

/-- An outcome that hangs on whether nodes could be added. -/
theorem agree_of_growAlike {α : Type} (yes no : α) {r r' : Option Handle × Tree} :
    Tree.GrowAlike s.tree s'.tree r r' →
    Agree (match r with
        | (some _, tree) => (yes, { s with tree })
        | (none, tree) => (no, { s with tree }))
      (match r' with
        | (some _, tree) => (yes, { s' with tree })
        | (none, tree) => (no, { s' with tree })) := by
  rintro ⟨hg, hg', hu, ht⟩
  obtain ⟨answer, u⟩ := r
  obtain ⟨answer', u'⟩ := r'
  cases ht <;> exact ⟨rfl, h.grown hg hg' hu⟩

theorem cd (path : Option String) : Agree (s.cd path) (s'.cd path) := by
  cases path with
  | none =>
    exact ⟨rfl, Step.goHome.sound h.sound, Step.goHome.sound h.sound', h.user_eq, h.tree, h.home⟩
  | some path =>
    rw [Session.cd, Session.cd]
    have hr := h.resolve path
    generalize s.resolve path = r, s'.resolve path = r' at hr
    cases hr with
    | error e => exact ⟨rfl, h⟩
    | @ok d d' hd =>
      dsimp only
      rw [h.tree.isDirectory_eq hd]
      split
      · rename_i hd'
        have hdir := (h.tree.isDirectory_eq hd).trans hd'
        exact ⟨rfl, (Step.goTo hdir).sound h.sound, (Step.goTo hd').sound h.sound', h.user_eq,
          h.tree, hd⟩
      · exact ⟨rfl, h⟩

theorem makeDirectory (path : String) :
    Agree (s.makeDirectory path) (s'.makeDirectory path) := by
  rw [Session.makeDirectory, Session.makeDirectory]
  have hl := h.locate path
  generalize s.locate path = l, s'.locate path = l' at hl
  cases hl with
  | error e => exact ⟨rfl, h⟩
  | ok hp =>
    cases hp with
    | existing hh => exact ⟨rfl, h⟩
    | vacant name hp => exact h.agree_of_growAlike _ _ (h.tree.create hp name .directory)

theorem makeDirectories (path : String) :
    Agree (s.makeDirectories path) (s'.makeDirectories path) := by
  rw [Session.makeDirectories, Session.makeDirectories, h.segments_eq]
  split
  · exact ⟨rfl, h⟩
  · have he := h.tree.existingPart (.root s.tree s'.tree) (s'.segments path)
    generalize s.tree.existingPart _ _ = e, s'.tree.existingPart _ _ = e' at he
    cases he with
    | error rest => cases rest <;> exact ⟨rfl, h⟩
    | @ok d d' hd =>
      obtain ⟨d, missing⟩ := d
      obtain ⟨d', missing'⟩ := d'
      obtain ⟨hd, rfl⟩ := hd
      exact h.agree_of_growAlike _ _ (h.tree.createChain hd missing)

theorem touch (path : String) : Agree (s.touch path) (s'.touch path) := by
  rw [Session.touch, Session.touch]
  have hl := h.locateFile path
  generalize s.locateFile path = l, s'.locateFile path = l' at hl
  cases hl with
  | error e => exact ⟨rfl, h⟩
  | ok hp =>
    cases hp with
    | existing hh => exact ⟨rfl, h⟩
    | vacant name hp =>
      obtain ⟨hg, hg', hu, _⟩ := h.tree.create hp name (.file .empty)
      exact ⟨rfl, h.grown hg hg' hu⟩

theorem saveDownload (name : String) (bytes : List UInt8) (source : String) :
    Agree (s.saveDownload name bytes source) (s'.saveDownload name bytes source) := by
  rw [Session.saveDownload, Session.saveDownload, h.tree.isDirectory_eq h.cwd,
    h.tree.freeName?_eq h.cwd, h.workingPath_eq]
  split
  · exact h.agree_of_growAlike _ _ (h.tree.create h.cwd _ _)
  · exact ⟨rfl, h⟩

theorem opened_of_growAlike (path : String) {r r' : Option Handle × Tree} :
    Tree.GrowAlike s.tree s'.tree r r' →
    OpenedAlike (opened path s r) (opened path s' r') := by
  rintro ⟨hg, hg', hu, ht⟩
  obtain ⟨answer, u⟩ := r
  obtain ⟨answer', u'⟩ := r'
  have ha := h.grown hg hg' hu
  cases ht with
  | none => exact ⟨.error _, ha⟩
  | @some i i' hh =>
    rw [opened, opened, hu.content?_eq hh]
    cases u'.content? i' with
    | some content => exact ⟨.ok hh, ha⟩
    | none => exact ⟨.error _, ha⟩

theorem createOrOpen (path : String) :
    OpenedAlike (s.createOrOpen path) (s'.createOrOpen path) := by
  rw [createOrOpen_eq_opened, createOrOpen_eq_opened]
  have hl := h.locateFile path
  generalize s.locateFile path = l, s'.locateFile path = l' at hl
  cases hl with
  | error e => exact ⟨.error e, h⟩
  | ok hp =>
    cases hp with
    | existing hh => exact h.opened_of_growAlike path ⟨.refl, .refl, h.tree, .some hh⟩
    | vacant name hp => exact h.opened_of_growAlike path (h.tree.create hp name (.file .empty))

theorem modifyFile (path : String) (f : Content → Content) :
    Agree ((Operation.modifyFile path f).run s) ((Operation.modifyFile path f).run s') := by
  obtain ⟨hc, ha⟩ := h.createOrOpen path
  rw [Operation.run, Operation.run, Session.modifyFile, Session.modifyFile]
  generalize s.createOrOpen path = r, s'.createOrOpen path = r' at hc ha
  obtain ⟨answer, u⟩ := r
  obtain ⟨answer', u'⟩ := r'
  cases hc with
  | error e => exact ⟨rfl, ha⟩
  | ok hh =>
    exact ⟨rfl, ha.grown (Tree.grows_modifyContent _ _ f) (Tree.grows_modifyContent _ _ f)
      (ha.tree.modifyContent hh f)⟩

theorem isProtected_eq {i i' : Handle} (hi : Tree.Twins s.tree s'.tree i i') :
    s.isProtected i = s'.isProtected i' := by
  rw [← h.sound.contains_home, ← h.sound'.contains_home, h.tree.contains_eq hi h.home]

theorem removed {i i' p p' : Handle} {name : String} (hi : Tree.Twins s.tree s'.tree i i')
    (hp : Tree.Twins s.tree s'.tree p p') (hl : s.tree.link? i = some (name, some p))
    (hl' : s'.tree.link? i' = some (name, some p')) (hn : s.isProtected i = false)
    (hn' : s'.isProtected i' = false) :
    Alike
      { s with
        tree := (s.tree.remove i).2
        cwd := if s.tree.contains i s.cwd then p else s.cwd }
      { s' with
        tree := (s'.tree.remove i').2
        cwd := if s'.tree.contains i' s'.cwd then p' else s'.cwd } := by
  have hs := (Step.remove hl hn).sound h.sound
  have hs' := (Step.remove hl' hn').sound h.sound'
  have ht : Tree.Alike (s.tree.remove i).2 (s'.tree.remove i').2 := h.tree.remove hi
  refine ⟨hs, hs', h.user_eq, ht, ?_⟩
  have hc : Tree.Twins s.tree s'.tree (if s.tree.contains i s.cwd then p else s.cwd)
      (if s'.tree.contains i' s'.cwd then p' else s'.cwd) := by
    rw [h.tree.contains_eq hi h.cwd]
    split
    · exact hp
    · exact h.cwd
  exact hc.of_ages h.tree ht ((Tree.Step.remove i).ages h.tree.linked)
    ((Tree.Step.remove i').ages h.tree.linked') (Tree.link?_of_isDirectory hs.cwd_isDirectory)
    (Tree.link?_of_isDirectory hs'.cwd_isDirectory)

theorem rm (path : String) (recursive : Bool) :
    Agree (s.rm path recursive) (s'.rm path recursive) := by
  rw [Session.rm, Session.rm]
  have hr := h.resolve path
  generalize s.resolve path = r, s'.resolve path = r' at hr
  cases hr with
  | error e => exact ⟨rfl, h⟩
  | @ok i i' hi =>
    dsimp only
    rw [h.isProtected_eq hi, h.tree.isDirectory_eq hi]
    split
    · exact ⟨rfl, h⟩
    · rename_i hn
      split
      · exact ⟨rfl, h⟩
      · have hn' := (Bool.or_eq_false_iff.mp (Bool.eq_false_iff.mpr hn)).1
        rcases hi.cases with ⟨rfl, rfl⟩ | ⟨p, p', name, hp, hc, hc'⟩
        · simp [isProtected] at hn'
        · have hl := h.tree.linked.down hc
          have hl' := h.tree.linked'.down hc'
          rw [Tree.parent?_of_link? hl, Tree.parent?_of_link? hl']
          exact ⟨rfl, h.removed hi hp hl hl' ((h.isProtected_eq hi).trans hn') hn'⟩

end Operations

end Alike

/-- Every operation has the same outcome in sessions that are alike. -/
theorem Operation.agree {s s' : Session} (h : Alike s s') (op : Operation) :
    Agree (op.run s) (op.run s') := by
  cases op with
  | cd path => exact h.cd path
  | mkdir path parents =>
    cases parents with
    | false => exact h.makeDirectory path
    | true => exact h.makeDirectories path
  | touch path => exact h.touch path
  | modifyFile path f => exact h.modifyFile path f
  | rm path recursive => exact h.rm path recursive
  | saveDownload name bytes source =>
    obtain ⟨he, ha⟩ := h.saveDownload name bytes source
    exact ⟨congrArg (·.map fun _ => ()) he, ha⟩

end TreeShell.Session
