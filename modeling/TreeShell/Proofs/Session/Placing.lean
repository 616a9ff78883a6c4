import TreeShell.Proofs.Manifest.Places
import TreeShell.Proofs.Session.Safety
import TreeShell.Proofs.Tree.PathMap

/-! Placing directories and files in a session that is at home, told by the map of its tree. A
file on the way refuses directories; a file needs a way on which no file stands and a place that
is no directory. Whatever is not refused is done. Opening a file makes no directories: what is
above it must be there. -/

namespace TreeShell

/-- A map from names to kinds. -/
abbrev KindMap := List String → Option Kind

namespace KindMap

/-- Some beginning of the names leads to a file. -/
def Blocks (m : KindMap) (names : List String) : Prop :=
  ∃ first content, first <+: names ∧ m first = some (.file content)

/-- A file can be placed at the names. -/
def Admits (m : KindMap) (names : List String) : Prop :=
  ¬ m.Blocks names.dropLast ∧ m names ≠ some .directory

/-- The content of the file at the names, empty if there is none. -/
def contentAt (m : KindMap) (names : List String) : Content :=
  match m names with
  | some (.file content) => content
  | _ => .empty

/-- A path that stands for the names can be opened as a file, one that is there or a new one. -/
structure Openable (m : KindMap) (path : String) (names : List String) : Prop where
  path_ne : path ≠ ""
  slash : Path.endsInSlash path = false
  names_ne : names ≠ []
  parent : m names.dropLast = some .directory
  no_directory : m names ≠ some .directory

/-- The map with directories where beginnings of the names led nowhere. -/
def withDirectories (m : KindMap) (names : List String) : KindMap := fun key =>
  if key <+: names ∧ m key = none then some .directory else m key

/-- The map with a file, and directories above it where there were none. -/
def withFile (m : KindMap) (names : List String) (content : Content) : KindMap :=
  Function.update (m.withDirectories names.dropLast) names (some (.file content))

theorem withDirectories_above {m : KindMap} {first names : List String}
    (hb : ¬ m.Blocks names) (hp : first <+: names) :
    m.withDirectories names first = some .directory := by
  rw [withDirectories]
  cases hk : m first with
  | none => exact if_pos ⟨hp, rfl⟩
  | some kind =>
    cases kind with
    | directory => simp
    | file content => exact absurd ⟨first, content, hp, hk⟩ hb

theorem withDirectories_elsewhere {m : KindMap} {key names : List String}
    (hp : ¬ key <+: names) : m.withDirectories names key = m key :=
  if_neg fun h => hp h.1

theorem withDirectories_of_eq_some {m : KindMap} {key names : List String} {kind : Kind}
    (hk : m key = some kind) : m.withDirectories names key = some kind := by
  simp [withDirectories, hk]

theorem withDirectories_self {m : KindMap} {names : List String}
    (hm : ∀ first, first <+: names → m first ≠ none) : m.withDirectories names = m :=
  funext fun key => if_neg fun h => hm key h.1 h.2

end KindMap

open KindMap

namespace Tree

variable {t : Tree}

/-- Names along which the existing part ends at a file are blocked. -/
theorem Linked.exists_existingPart_error_iff (ht : t.Linked) {names : List String} :
    (∃ rest, t.existingPart root names = .error rest) ↔ KindMap.Blocks t.kindAt names := by
  simp only [ht.existingPart_eq_error_iff ht.root_isDirectory, ht.exists_meetsFile_root_iff]
  constructor
  · rintro ⟨first, content, -, hp, hk⟩
    exact ⟨first, content, hp, hk⟩
  · rintro ⟨first, content, hp, hk⟩
    refine ⟨first, content, ?_, hp, hk⟩
    rintro rfl
    simp [ht.kindAt_nil] at hk

end Tree

namespace Session

section Operations

variable {s : Session} (hs : s.tree.Linked) {path : String}
include hs

theorem makeDirectories_cases (hp : path ≠ "") :
    Blocks s.tree.kindAt (s.segments path) ∧ (∃ e, s.makeDirectories path = (.error e, s)) ∨
    ¬ Blocks s.tree.kindAt (s.segments path) ∧ ∃ tree,
      s.makeDirectories path = (.ok (), { s with tree }) ∧ Tree.Grows s.tree tree ∧
        tree.kindAt = withDirectories s.tree.kindAt (s.segments path) := by
  have hpe : path.isEmpty = false := by simpa using hp
  have hmissing := Tree.createMissing_eq (s.segments path) hs.root_isDirectory
  rw [← hs.exists_existingPart_error_iff, makeDirectories, hpe]
  cases he : s.tree.existingPart Tree.root (s.segments path) with
  | error rest => exact .inl ⟨⟨rest, rfl⟩, by cases rest <;> exact ⟨_, rfl⟩⟩
  | ok found =>
    obtain ⟨d, missing⟩ := found
    obtain ⟨hd, hv⟩ := Tree.existingPart_eq_ok hs.root_isDirectory he
    obtain ⟨c, hc⟩ := Tree.createChain_of_vacant hd hv
    have hg := s.tree.grows_createChain d missing
    rw [he] at hmissing
    dsimp only at hmissing ⊢
    generalize s.tree.createChain d missing = r at hc hg hmissing
    obtain ⟨answer, tree⟩ := r
    obtain rfl : answer = some c := hc
    refine .inr ⟨by simp, tree, rfl, hg, funext fun key => ?_⟩
    have hk := hs.kindAt_createMissing hs.root_isDirectory hmissing key
    rwa [hs.segmentsOf_root, List.nil_append] at hk

omit hs in
theorem locateFile_of_parent (hp : path ≠ "") (hslash : Path.endsInSlash path = false)
    {front : List String} {name : String} (hsegs : s.segments path = front ++ [name])
    {p : Handle} (hw : s.tree.walk Tree.root front = .ok p) (hd : s.tree.isDirectory p = true) :
    s.locateFile path = .ok ((s.tree.child? p name).elim (.vacant p name) .existing) := by
  have hpe : path.isEmpty = false := by simpa using hp
  simp only [locateFile, locate, hpe, hsegs, List.getLast?_concat, List.dropLast_concat, hw, hd,
    hslash]
  cases s.tree.child? p name <;> rfl

theorem modifyFile_of_parent (hp : path ≠ "") (hslash : Path.endsInSlash path = false)
    {front : List String} {name : String} (hsegs : s.segments path = front ++ [name])
    (hfront : s.tree.kindAt front = some .directory)
    (hd : s.tree.kindAt (front ++ [name]) ≠ some .directory) (f : Content → Content) :
    ∃ h tree, s.modifyFile path f = (.ok h, { s with tree }) ∧ Tree.Grows s.tree tree ∧
      tree.kindAt = Function.update s.tree.kindAt (front ++ [name])
        (some (.file (f (contentAt s.tree.kindAt (front ++ [name]))))) := by
  obtain ⟨p, hw, hkind⟩ := Tree.exists_walk_of_kindAt hfront
  have hpd := Tree.isDirectory_iff_kind?.mpr hkind
  have hps := (hs.segmentsOf_of_walk hw).2
  have hl := locateFile_of_parent hp hslash hsegs hw hpd
  cases hc : s.tree.child? p name with
  | some h =>
    have hlink := hs.down hc
    have hseg : s.tree.segmentsOf h = front ++ [name] := by rw [hs.segmentsOf_of_link? hlink, hps]
    have hat := hs.kindAt_segmentsOf hlink
    rw [hseg] at hat
    obtain ⟨kind, hk⟩ := Tree.exists_kind?_iff.mpr ⟨_, hlink⟩
    cases kind with
    | directory => exact absurd (hat.trans hk) hd
    | file old =>
      refine ⟨h, s.tree.modifyContent h f, ?_, s.tree.grows_modifyContent h f, ?_⟩
      · simp [modifyFile, createOrOpen, hl, hc, Tree.content?_eq_some_iff.mpr hk]
      · rw [hs.kindAt_modifyContent hlink, hseg, hk, contentAt, hat, hk]
        rfl
  | none =>
    have hs' : (s.tree.attach p name (.file .empty)).Linked := hs.attach hpd hc
    have hlink : (s.tree.attach p name (.file .empty)).link? s.tree.slots.size =
        some (name, some p) := by rw [Tree.link?_attach, if_pos rfl]
    have hk : (s.tree.attach p name (.file .empty)).kind? s.tree.slots.size =
        some (.file .empty) := by rw [Tree.kind?_attach, if_pos rfl]
    have hg := Tree.grows_of_create (Tree.create_of_vacant (.file .empty) hpd hc)
    have hat : s.tree.kindAt (front ++ [name]) = none := by
      rw [← hps, ← hs.child?_eq_none_iff hpd, hc]
    refine ⟨s.tree.slots.size, (s.tree.attach p name (.file .empty)).modifyContent
      s.tree.slots.size f, ?_, hg.trans (Tree.grows_modifyContent _ _ _), ?_⟩
    · simp [modifyFile, createOrOpen, hl, hc, Tree.create_of_vacant _ hpd hc,
        Tree.content?_eq_some_iff.mpr hk]
    · rw [hs'.kindAt_modifyContent hlink, hs.segmentsOf_attach_new hpd hc, hps, hk,
        hs.kindAt_attach hpd hc, hps, Function.update_idem, contentAt, hat]
      rfl

omit hs in
theorem locate_eq_ok {place : Place} (hl : s.locate path = .ok place) : path ≠ "" ∧
    (place = .existing Tree.root ∨ ∃ front name p, s.segments path = front ++ [name] ∧
      s.tree.walk Tree.root front = .ok p ∧ s.tree.isDirectory p = true ∧
      place = (s.tree.child? p name).elim (.vacant p name) .existing) := by
  unfold locate at hl
  split at hl
  · cases hl
  · rename_i hp
    refine ⟨by simpa using hp, ?_⟩
    obtain hnil | ⟨front, name, hsegs⟩ := List.eq_nil_or_concat (s.segments path)
    · rw [hnil] at hl
      exact .inl (Except.ok.inj hl).symm
    · rw [List.concat_eq_append] at hsegs
      rw [hsegs, List.getLast?_concat, List.dropLast_concat] at hl
      dsimp only at hl
      split at hl
      · cases hl
      · rename_i p hw
        split at hl
        · rename_i hd
          refine .inr ⟨front, name, p, hsegs, hw, hd, ?_⟩
          cases hc : s.tree.child? p name <;> simp_all
        · cases hl

omit hs in
theorem locateFile_eq_ok {place : Place} (hl : s.locateFile path = .ok place) :
    s.locate path = .ok place ∧
      (Path.endsInSlash path = true → ∃ h, place = .existing h ∧ s.tree.isDirectory h = true) := by
  unfold locateFile at hl
  split at hl
  · cases hl
  · rename_i found hf
    rw [hf]
    split at hl
    · split at hl
      · split at hl
        · rename_i h hd
          cases hl
          exact ⟨rfl, fun _ => ⟨h, rfl, hd⟩⟩
        · cases hl
      · cases hl
    · rename_i hslash
      cases hl
      exact ⟨rfl, fun h => absurd h hslash⟩

omit hs in
/-- What is opened is made or is a file. -/
theorem locateFile_of_createOrOpen {h : Handle} {u : Session}
    (ho : s.createOrOpen path = (.ok h, u)) : ∃ place, s.locateFile path = .ok place ∧
      ∀ i, place = .existing i → s.tree.isDirectory i = false := by
  unfold createOrOpen at ho
  split at ho
  · cases ho
  · rename_i place hl
    refine ⟨place, hl, ?_⟩
    rintro i rfl
    dsimp only at ho
    split at ho
    · rename_i content hc
      have hk := Tree.content?_eq_some_iff.mp hc
      simp [Tree.isDirectory_eq_kind?, hk]
    · cases ho

theorem openable_of_createOrOpen {h : Handle} {u : Session}
    (ho : s.createOrOpen path = (.ok h, u)) : Openable s.tree.kindAt path (s.segments path) := by
  obtain ⟨place, hl, hfile⟩ := locateFile_of_createOrOpen ho
  obtain ⟨hl, hdir⟩ := locateFile_eq_ok hl
  have hslash : Path.endsInSlash path = false := by
    refine Bool.eq_false_iff.mpr fun h => ?_
    obtain ⟨i, he, hd⟩ := hdir h
    simp [hfile i he] at hd
  obtain ⟨hp, rfl | ⟨front, name, p, hsegs, hw, hd, rfl⟩⟩ := locate_eq_ok hl
  · have hroot := hfile _ rfl
    simp [hs.root_isDirectory] at hroot
  · have hps := (hs.segmentsOf_of_walk hw).2
    have hat := hs.kindAt_concat hd name
    rw [hps] at hat
    rw [hsegs]
    refine ⟨hp, hslash, by simp, ?_, ?_⟩
    · rw [List.dropLast_concat, Tree.kindAt_of_walk hw, Tree.isDirectory_iff_kind?.mp hd]
    · rw [hat]
      cases hc : s.tree.child? p name with
      | none => simp
      | some i =>
        have hi := hfile i (by rw [hc]; rfl)
        simpa [Tree.isDirectory_eq_kind?] using hi

/-- A file is opened and changed exactly where the map says that it can be. -/
theorem modifyFile_exact (path : String) (f : Content → Content) :
    Openable s.tree.kindAt path (s.segments path) ∧
      (∃ h tree, s.modifyFile path f = (.ok h, { s with tree }) ∧ Tree.Grows s.tree tree ∧
        tree.kindAt = Function.update s.tree.kindAt (s.segments path)
          (some (.file (f (contentAt s.tree.kindAt (s.segments path)))))) ∨
    ¬ Openable s.tree.kindAt path (s.segments path) ∧
      ∃ e, s.createOrOpen path = (.error e, s) ∧ s.modifyFile path f = (.error e, s) := by
  by_cases ho : Openable s.tree.kindAt path (s.segments path)
  · obtain ⟨hp, hslash, hne, hfront, hd⟩ := ho
    refine .inl ⟨⟨hp, hslash, hne, hfront, hd⟩, ?_⟩
    have hsegs := (List.dropLast_concat_getLast hne).symm
    have hm := modifyFile_of_parent hs hp hslash hsegs hfront (hsegs ▸ hd) f
    rwa [← hsegs] at hm
  · refine .inr ⟨ho, ?_⟩
    have hout := createOrOpen_outcome path (s := s)
    generalize hr : s.createOrOpen path = r at hout
    cases hout with
    | failed e => exact ⟨e, rfl, by rw [modifyFile, hr]⟩
    | done h _ => exact absurd (openable_of_createOrOpen hs hr) ho

end Operations

/-- A session of a user who is at home. -/
structure AtHome (s : Session) (user : String) : Prop where
  sound : s.Sound
  user_eq : s.user = user
  cwd_eq : s.cwd = s.home

/-- Makes the directories that the front of a path names. -/
def makeFront (path : String) (s : Session) : Except FileError Unit × Session :=
  if (parentText path).isEmpty then (.ok (), s) else s.makeDirectories (parentText path)

theorem placeFile_of_makeFront_error {path : String} {s u : Session} {e : FileError}
    (hf : s.makeFront path = (.error e, u)) (content : Content) :
    s.placeFile path content = (.error e, u) := by
  rw [makeFront] at hf
  rw [placeFile, hf]

theorem placeFile_of_makeFront {path : String} {s u : Session}
    (hf : s.makeFront path = (.ok (), u)) (content : Content) :
    s.placeFile path content =
      (u.modifyFile path fun _ => content).map (·.map fun _ => ()) id := by
  rw [makeFront] at hf
  rw [placeFile, hf]
  dsimp only
  obtain ⟨answer, v⟩ := u.modifyFile path fun _ => content
  cases answer <;> rfl

theorem Sound.kindAt_home {s : Session} (hs : s.Sound) {names : List String}
    (hn : names <+: homeNames s.user) : s.tree.kindAt names = some .directory := by
  obtain ⟨h, hw, hd, -⟩ := hs.walk_prefix hn
  rw [Tree.kindAt_of_walk hw, Tree.isDirectory_iff_kind?.mp hd]

namespace AtHome

variable {s : Session} {user : String} (h : AtHome s user)
include h

theorem segments_eq (path : String) : s.segments path = Manifest.place user path := by
  have hhome : s.tree.segmentsOf s.home = homeNames user := by rw [h.sound.home_segments, h.user_eq]
  rw [segments, Manifest.place]
  cases hp : Path.anchor path with
  | mk anchor rest => cases anchor <;> simp [anchorNames, h.cwd_eq, hhome]

theorem grown {tree : Tree} (hg : Tree.Grows s.tree tree) : AtHome { s with tree } user :=
  ⟨(Step.grow ⟨tree, hg, rfl⟩).sound h.sound, h.user_eq, h.cwd_eq⟩

/-- The front of a path without a parent text exists already. -/
theorem makeFront_cases (path : String) :
    Blocks s.tree.kindAt (Manifest.frontPlace user path) ∧
        (∃ e, s.makeFront path = (.error e, s)) ∨
      ¬ Blocks s.tree.kindAt (Manifest.frontPlace user path) ∧ ∃ tree,
        s.makeFront path = (.ok (), { s with tree }) ∧ Tree.Grows s.tree tree ∧
          tree.kindAt = withDirectories s.tree.kindAt (Manifest.frontPlace user path) := by
  by_cases hp : parentText path = ""
  · have hk : ∀ first, first <+: Manifest.frontPlace user path →
        s.tree.kindAt first = some .directory := by
      intro first hfirst
      refine h.sound.kindAt_home (hfirst.trans ?_)
      rw [h.user_eq]
      obtain he | he := Manifest.frontPlace_of_parentText user hp
      · exact he ▸ List.nil_prefix
      · exact he ▸ List.prefix_rfl
    refine .inr ⟨?_, s.tree, by simp [makeFront, hp], .refl, ?_⟩
    · rintro ⟨first, content, hfirst, hf⟩
      simp [hk first hfirst] at hf
    · exact (withDirectories_self fun first hfirst => by simp [hk first hfirst]).symm
  · have hf : s.makeFront path = s.makeDirectories (parentText path) := by simp [makeFront, hp]
    rw [← Manifest.place_parentText user hp, ← h.segments_eq, hf]
    exact makeDirectories_cases h.sound.linked hp

/-- A tilde alone has a name for its last part, but leads home. -/
theorem place_of_ordinary {path : String} (ho : Path.lastPart path ∉ ["", ".", ".."]) :
    Manifest.place user path = Manifest.frontPlace user path ++ [Path.lastPart path] ∨
      s.tree.kindAt (Manifest.place user path) = some .directory := by
  by_cases ht : path = "~"
  · rw [ht, Manifest.place_tilde, ← h.user_eq]
    exact .inr (h.sound.kindAt_home List.prefix_rfl)
  · exact .inl (Manifest.place_of_ordinary user ht ho)

/-- Once the front of a path is a directory, only a directory at its place refuses a file. -/
theorem modifyFile_cases {path : String}
    (hfront : s.tree.kindAt (Manifest.frontPlace user path) = some .directory)
    (content : Content) :
    s.tree.kindAt (Manifest.place user path) = some .directory ∧
      (∃ e u, s.modifyFile path (fun _ => content) = (.error e, u)) ∨
    s.tree.kindAt (Manifest.place user path) ≠ some .directory ∧
      Path.lastPart path ∉ ["", ".", ".."] ∧
      Manifest.place user path = Manifest.frontPlace user path ++ [Path.lastPart path] ∧
      ∃ i tree, s.modifyFile path (fun _ => content) = (.ok i, { s with tree }) ∧
        Tree.Grows s.tree tree ∧ tree.kindAt =
          Function.update s.tree.kindAt (Manifest.place user path) (some (.file content)) := by
  have hsegs := h.segments_eq path
  by_cases hd : s.tree.kindAt (Manifest.place user path) = some .directory
  · obtain ⟨ho, -⟩ | ⟨-, e, -, he⟩ :=
      modifyFile_exact h.sound.linked path fun _ => content
    · exact absurd (hsegs ▸ hd) ho.no_directory
    · exact .inl ⟨hd, e, s, he⟩
  · have ho : Path.lastPart path ∉ ["", ".", ".."] := fun ho =>
      hd (h.sound.linked.kindAt_of_prefix (Manifest.place_prefix_of_dots user ho) hfront)
    obtain ⟨hne, hslash⟩ := Path.not_endsInSlash_of_ordinary ho
    have hp := (h.place_of_ordinary ho).resolve_right hd
    rw [hp] at hsegs hd ⊢
    exact .inr ⟨hd, ho, rfl,
      modifyFile_of_parent h.sound.linked hne hslash hsegs hfront hd fun _ => content⟩

/-- A file is placed exactly where its last part is a name and the map admits it. -/
theorem placeFile_cases (path : String) (content : Content) :
    (Path.lastPart path ∉ ["", ".", ".."] ∧
        Admits s.tree.kindAt (Manifest.place user path)) ∧
      (∃ tree, s.placeFile path content = (.ok (), { s with tree }) ∧ Tree.Grows s.tree tree ∧
        tree.kindAt = withFile s.tree.kindAt (Manifest.place user path) content) ∨
    ¬ (Path.lastPart path ∉ ["", ".", ".."] ∧
        Admits s.tree.kindAt (Manifest.place user path)) ∧
      ∃ e u, s.placeFile path content = (.error e, u) := by
  obtain ⟨hb, e, hf⟩ | ⟨hb, tree, hf, hg, hk⟩ := h.makeFront_cases path
  · refine .inr ⟨?_, e, s, placeFile_of_makeFront_error hf content⟩
    rintro ⟨ho, ha, hd⟩
    rw [(h.place_of_ordinary ho).resolve_right hd, List.dropLast_concat] at ha
    exact ha hb
  · have hfront : tree.kindAt (Manifest.frontPlace user path) = some .directory :=
      hk ▸ withDirectories_above hb List.prefix_rfl
    rw [placeFile_of_makeFront hf]
    obtain ⟨hd, e, u, hm⟩ | ⟨hd, ho, hp, i, tree', hm, hg', hk'⟩ :=
      (h.grown hg).modifyFile_cases hfront content
    · refine .inr ⟨?_, e, u, by rw [hm]; rfl⟩
      rintro ⟨ho, -, hnd⟩
      have hp := (h.place_of_ordinary ho).resolve_right hnd
      have hout : ¬ Manifest.place user path <+: Manifest.frontPlace user path := fun hpre => by
        simpa [hp] using hpre.length_le
      exact hnd ((withDirectories_elsewhere hout).symm.trans (hk ▸ hd))
    · refine .inl ⟨⟨ho, ?_, fun hold => hd (hk ▸ withDirectories_of_eq_some hold)⟩, tree',
        by rw [hm]; rfl, hg.trans hg', ?_⟩
      · rwa [hp, List.dropLast_concat]
      · rw [withFile, hk', hp, List.dropLast_concat, hk]

end AtHome

end Session

end TreeShell
