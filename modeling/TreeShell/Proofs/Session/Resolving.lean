import TreeShell.Proofs.Session.Placing

/-! Why a path leads nowhere, told by the map of the tree: a file stands above its place, or the
first name that is missing is missing in a directory. A path is followed to its end to find what
it names, and to the directory before its end to find a place for something new. Both ways fail
for the same reason. -/

namespace TreeShell

namespace KindMap

/-- A file stands above the place of the names. -/
def Obstructs (m : KindMap) (names : List String) : Prop :=
  ∃ first content, first <+: names ∧ first ≠ names ∧ m first = some (.file content)

/-- The first of the names that is missing is missing in a directory. -/
def Lacks (m : KindMap) (names : List String) : Prop :=
  ∃ front name, front ++ [name] <+: names ∧ m front = some .directory ∧ m (front ++ [name]) = none

theorem Lacks.of_prefix {m : KindMap} {names more : List String} (h : m.Lacks names)
    (hp : names <+: more) : m.Lacks more := by
  obtain ⟨front, name, hn, hk⟩ := h
  exact ⟨front, name, hn.trans hp, hk⟩

theorem Obstructs.of_prefix {m : KindMap} {names more : List String} (h : m.Obstructs names)
    (hp : names <+: more) : m.Obstructs more := by
  obtain ⟨first, content, hn, hne, hk⟩ := h
  refine ⟨first, content, hn.trans hp, ?_, hk⟩
  rintro rfl
  exact hne (hn.eq_of_length_le hp.length_le)

theorem Obstructs.blocks {m : KindMap} {names : List String} (h : m.Obstructs names) :
    m.Blocks names := by
  obtain ⟨first, content, hn, -, hk⟩ := h
  exact ⟨first, content, hn, hk⟩

theorem blocks_iff {m : KindMap} {names : List String} :
    m.Blocks names ↔ m.Obstructs names ∨ ∃ content, m names = some (.file content) := by
  constructor
  · rintro ⟨first, content, hn, hk⟩
    by_cases hne : first = names
    · exact .inr ⟨content, hne ▸ hk⟩
    · exact .inl ⟨first, content, hn, hne, hk⟩
  · rintro (ho | ⟨content, hk⟩)
    · exact ho.blocks
    · exact ⟨names, content, List.prefix_rfl, hk⟩

end KindMap

open KindMap

namespace Tree

/-- The node lives, and its names are these. -/
def IsAt (t : Tree) (names : List String) (h : Handle) : Prop :=
  (t.node? h).isSome ∧ t.segmentsOf h = names

variable {t : Tree} {names : List String}

theorem Linked.isAt_iff (ht : t.Linked) {h : Handle} :
    t.IsAt names h ↔ t.walk root names = .ok h := by
  rw [IsAt, isSome_node?_iff, ht.walk_eq_ok_iff]

/-- A walk that ends at no directory ends at a file. -/
theorem Linked.exists_file_of_walk (ht : t.Linked) {h : Handle} (hw : t.walk root names = .ok h)
    (hd : t.isDirectory h = false) : ∃ content, t.kindAt names = some (.file content) := by
  obtain ⟨kind, hk⟩ := exists_kind?_iff.mpr (ht.segmentsOf_of_walk hw).1
  rw [kindAt_of_walk hw, hk]
  cases kind with
  | directory => simp [isDirectory_eq_kind?, hk] at hd
  | file content => exact ⟨content, rfl⟩

theorem isDirectory_of_kindAt_file {h : Handle} {content : Content}
    (hw : t.walk root names = .ok h) (hk : t.kindAt names = some (.file content)) :
    t.isDirectory h = false := by
  rw [kindAt_of_walk hw] at hk
  simp [isDirectory_eq_kind?, hk]

theorem Linked.walk_cases (ht : t.Linked) (names : List String) :
    (∃ h, t.walk root names = .ok h) ∨
    Lacks t.kindAt names ∧ (∃ i, t.walk root names = .error (.missing i)) ∨
    Obstructs t.kindAt names ∧ ∃ i, t.walk root names = .error (.notDirectory i) := by
  obtain hok | ⟨front, name, rest, d, hn, hfront, ⟨hd, hc, hw⟩ | ⟨hd, hw⟩⟩ :=
    walkFrom_cases t 0 root names
  · exact .inl hok
  · have hseg : t.segmentsOf d = front := (ht.segmentsOf_of_walk hfront).2
    have hnone := (ht.child?_eq_none_iff hd).mp hc
    rw [hseg] at hnone
    have hdir : t.kindAt front = some .directory := by
      rw [kindAt_of_walk hfront, isDirectory_iff_kind?.mp hd]
    exact .inr (.inl ⟨⟨front, name, ⟨rest, by simp [hn]⟩, hdir, hnone⟩, _, hw⟩)
  · obtain ⟨content, hk⟩ := ht.exists_file_of_walk hfront hd
    exact .inr (.inr ⟨⟨front, content, ⟨name :: rest, hn.symm⟩, by simp [hn], hk⟩, _, hw⟩)

theorem Linked.kindAt_of_lacks (ht : t.Linked) (hl : Lacks t.kindAt names) :
    t.kindAt names = none := by
  obtain ⟨front, name, hp, -, hk⟩ := hl
  exact Classical.byContradiction fun hne => ht.kindAt_ne_none_of_prefix hp hne hk

theorem Linked.kindAt_of_obstructs (ht : t.Linked) (ho : Obstructs t.kindAt names) :
    t.kindAt names = none := by
  obtain ⟨first, content, ⟨rest, rfl⟩, hne, hk⟩ := ho
  have hrest : rest ≠ [] := by
    rintro rfl
    exact hne (List.append_nil first).symm
  refine Classical.byContradiction fun hsome => ?_
  rw [ht.kindAt_of_append hrest hsome] at hk
  cases hk

/-- What is missing in a directory has no file above it. -/
theorem Linked.not_obstructs_of_lacks (ht : t.Linked) (hl : Lacks t.kindAt names) :
    ¬ Obstructs t.kindAt names := by
  rintro ⟨first, content, hfirst, -, hfile⟩
  obtain ⟨front, name, hfront, hdir, hnone⟩ := hl
  obtain hp | hp := List.prefix_or_prefix_of_prefix hfirst hfront
  · rw [List.prefix_concat_iff] at hp
    obtain rfl | hp := hp
    · rw [hnone] at hfile
      cases hfile
    · rw [ht.kindAt_of_prefix hp hdir] at hfile
      cases hfile
  · exact ht.kindAt_ne_none_of_prefix hp (by simp [hfile]) hnone

theorem Linked.kindAt_ne_none_of_walk (ht : t.Linked) {h : Handle} (hw : t.walk root names = .ok h) :
    t.kindAt names ≠ none := by
  obtain ⟨kind, hk⟩ := exists_kind?_iff.mpr (ht.segmentsOf_of_walk hw).1
  simp [kindAt_of_walk hw, hk]

end Tree

namespace Session

section Paths

variable {s : Session} (hs : s.tree.Linked) {path : String} (hp : path ≠ "")
include hs hp

theorem resolve_cases :
    (∃ h, s.resolve path = .ok h ∧ s.tree.walk Tree.root (s.segments path) = .ok h ∧
      (Path.endsInSlash path = true → s.tree.isDirectory h = true)) ∨
    s.resolve path = .error (.notADirectory path) ∧
      (Obstructs s.tree.kindAt (s.segments path) ∨
        (∃ content, s.tree.kindAt (s.segments path) = some (.file content)) ∧
          Path.endsInSlash path = true) ∨
    s.resolve path = .error (.noSuchFileOrDirectory path) ∧
      Lacks s.tree.kindAt (s.segments path) := by
  have hpe : path.isEmpty = false := by simpa using hp
  obtain ⟨h, hw⟩ | ⟨hl, i, hw⟩ | ⟨ho, i, hw⟩ := hs.walk_cases (s.segments path)
  · simp only [resolve, hpe, hw]
    cases hslash : Path.endsInSlash path with
    | false => exact .inl ⟨h, by simp, rfl, by simp⟩
    | true =>
      cases hd : s.tree.isDirectory h with
      | true => exact .inl ⟨h, by simp, rfl, fun _ => hd⟩
      | false =>
        exact .inr (.inl ⟨by simp, .inr ⟨hs.exists_file_of_walk hw hd, rfl⟩⟩)
  · exact .inr (.inr ⟨by simp [resolve, hpe, hw, walkFault], hl⟩)
  · exact .inr (.inl ⟨by simp [resolve, hpe, hw, walkFault], .inl ho⟩)

theorem locate_cases :
    (∃ h, s.locate path = .ok (.existing h) ∧
      s.tree.walk Tree.root (s.segments path) = .ok h) ∨
    (∃ front name p, s.locate path = .ok (.vacant p name) ∧ s.segments path = front ++ [name] ∧
      s.tree.walk Tree.root front = .ok p ∧ s.tree.isDirectory p = true ∧
      s.tree.child? p name = none) ∨
    s.locate path = .error (.notADirectory path) ∧
      Obstructs s.tree.kindAt (s.segments path) ∨
    s.locate path = .error (.noSuchFileOrDirectory path) ∧
      Lacks s.tree.kindAt (s.segments path) := by
  have hpe : path.isEmpty = false := by simpa using hp
  obtain hnil | ⟨front, name, hsegs⟩ := List.eq_nil_or_concat (s.segments path)
  · exact .inl ⟨Tree.root, by simp [locate, hpe, hnil], by rw [hnil]; rfl⟩
  · rw [List.concat_eq_append] at hsegs
    have hpre : front <+: s.segments path := ⟨[name], hsegs.symm⟩
    simp only [locate, hpe, hsegs, List.getLast?_concat, List.dropLast_concat]
    rw [← hsegs]
    obtain ⟨p, hw⟩ | ⟨hl, i, hw⟩ | ⟨ho, i, hw⟩ := hs.walk_cases front
    · cases hd : s.tree.isDirectory p with
      | true =>
        cases hc : s.tree.child? p name with
        | some h =>
          refine .inl ⟨h, by simp [hw, hd, hc], ?_⟩
          rw [hsegs]
          exact Tree.walkFrom_concat_eq_ok.mpr ⟨p, hw, hc⟩
        | none =>
          exact .inr (.inl ⟨front, name, p, by simp [hw, hd, hc], hsegs, hw, hd, hc⟩)
      | false =>
        obtain ⟨content, hk⟩ := hs.exists_file_of_walk hw hd
        exact .inr (.inr (.inl ⟨by simp [hw, hd], front, content, hpre, by simp [hsegs], hk⟩))
    · exact .inr (.inr (.inr ⟨by simp [hw, walkFault], hl.of_prefix hpre⟩))
    · exact .inr (.inr (.inl ⟨by simp [hw, walkFault], ho.of_prefix hpre⟩))

theorem resolve_eq_ok_iff {h : Handle} : s.resolve path = .ok h ↔
    s.tree.walk Tree.root (s.segments path) = .ok h ∧
      (Path.endsInSlash path = true → s.tree.isDirectory h = true) := by
  have hpe : path.isEmpty = false := by simpa using hp
  constructor
  · intro hr
    obtain ⟨i, hi, hw, hd⟩ | ⟨he, -⟩ | ⟨he, -⟩ := resolve_cases hs hp
    · obtain rfl : h = i := Except.ok.inj (hr.symm.trans hi)
      exact ⟨hw, hd⟩
    · simp [hr] at he
    · simp [hr] at he
  · rintro ⟨hw, hd⟩
    simp only [resolve, hpe, hw]
    cases hslash : Path.endsInSlash path with
    | false => rfl
    | true => simp [hd hslash]

theorem resolve_eq_notADirectory_iff : s.resolve path = .error (.notADirectory path) ↔
    Obstructs s.tree.kindAt (s.segments path) ∨
      (∃ content, s.tree.kindAt (s.segments path) = some (.file content)) ∧
        Path.endsInSlash path = true := by
  obtain ⟨h, hr, hw, hd⟩ | ⟨hr, hfile⟩ | ⟨hr, hl⟩ := resolve_cases hs hp
  · rw [hr]
    refine ⟨fun he => (by cases he), ?_⟩
    rintro (ho | ⟨⟨content, hk⟩, hslash⟩)
    · exact absurd (hs.kindAt_of_obstructs ho) (hs.kindAt_ne_none_of_walk hw)
    · have hfile := Tree.isDirectory_of_kindAt_file hw hk
      simp [hd hslash] at hfile
  · exact ⟨fun _ => hfile, fun _ => hr⟩
  · rw [hr]
    refine ⟨fun he => (by cases he), ?_⟩
    rintro (ho | ⟨⟨content, hk⟩, -⟩)
    · exact absurd ho (hs.not_obstructs_of_lacks hl)
    · simp [hs.kindAt_of_lacks hl] at hk

theorem resolve_eq_noSuchFileOrDirectory_iff :
    s.resolve path = .error (.noSuchFileOrDirectory path) ↔
      Lacks s.tree.kindAt (s.segments path) := by
  obtain ⟨h, hr, hw, -⟩ | ⟨hr, ho | ⟨⟨content, hk⟩, -⟩⟩ | ⟨hr, hl⟩ := resolve_cases hs hp
  · rw [hr]
    refine ⟨fun he => (by cases he), fun hl => ?_⟩
    exact absurd (hs.kindAt_of_lacks hl) (hs.kindAt_ne_none_of_walk hw)
  · rw [hr]
    exact ⟨fun he => (by cases he), fun hl => absurd ho (hs.not_obstructs_of_lacks hl)⟩
  · rw [hr]
    exact ⟨fun he => (by cases he), fun hl => by simp [hs.kindAt_of_lacks hl] at hk⟩
  · exact ⟨fun _ => hl, fun _ => hr⟩

theorem locate_eq_existing_iff {h : Handle} : s.locate path = .ok (.existing h) ↔
    s.tree.walk Tree.root (s.segments path) = .ok h := by
  obtain ⟨i, hl, hw⟩ | ⟨front, name, p, hl, hsegs, hw, hd, hc⟩ | ⟨hl, ho⟩ | ⟨hl, hm⟩ :=
    locate_cases hs hp
  · simp [hl, hw]
  · rw [hl, hsegs, Tree.walk, Tree.walkFrom_concat_eq_ok]
    refine ⟨fun he => (by cases he), ?_⟩
    rintro ⟨q, hq, hqc⟩
    obtain rfl : p = q := Except.ok.inj (hw.symm.trans hq)
    simp [hc] at hqc
  · rw [hl]
    refine ⟨fun he => (by cases he), fun hw => ?_⟩
    exact absurd (hs.kindAt_of_obstructs ho) (hs.kindAt_ne_none_of_walk hw)
  · rw [hl]
    refine ⟨fun he => (by cases he), fun hw => ?_⟩
    exact absurd (hs.kindAt_of_lacks hm) (hs.kindAt_ne_none_of_walk hw)

theorem locate_eq_vacant_iff {p : Handle} {name : String} :
    s.locate path = .ok (.vacant p name) ↔ s.tree.kindAt (s.segments path) = none ∧
      ∃ front, s.segments path = front ++ [name] ∧ s.tree.walk Tree.root front = .ok p ∧
        s.tree.isDirectory p = true := by
  have hpe : path.isEmpty = false := by simpa using hp
  constructor
  · intro hv
    obtain ⟨i, hl, -⟩ | ⟨front, x, q, hl, hsegs, hw, hd, hc⟩ | ⟨hl, -⟩ | ⟨hl, -⟩ :=
      locate_cases hs hp
    · simp [hv] at hl
    · obtain ⟨rfl, rfl⟩ := Place.vacant.inj (Except.ok.inj (hv.symm.trans hl))
      refine ⟨?_, front, hsegs, hw, hd⟩
      rw [hsegs, ← (hs.segmentsOf_of_walk hw).2]
      exact (hs.child?_eq_none_iff hd).mp hc
    · simp [hv] at hl
    · simp [hv] at hl
  · rintro ⟨hk, front, hsegs, hw, hd⟩
    rw [hsegs, ← (hs.segmentsOf_of_walk hw).2] at hk
    have hc := (hs.child?_eq_none_iff hd).mpr hk
    simp [locate, hpe, hsegs, hw, hd, hc]

/-- No place is found for the reason that nothing is. -/
theorem resolve_of_locate_error {e : FileError} (hl : s.locate path = .error e) :
    s.resolve path = .error e := by
  obtain ⟨h, he, -⟩ | ⟨front, name, p, he, -⟩ | ⟨he, ho⟩ | ⟨he, hm⟩ := locate_cases hs hp
  · simp [hl] at he
  · simp [hl] at he
  · obtain rfl : e = .notADirectory path := Except.error.inj (hl.symm.trans he)
    exact (resolve_eq_notADirectory_iff hs hp).mpr (.inl ho)
  · obtain rfl : e = .noSuchFileOrDirectory path := Except.error.inj (hl.symm.trans he)
    exact (resolve_eq_noSuchFileOrDirectory_iff hs hp).mpr hm

theorem resolve_of_locate_vacant {p : Handle} {name : String}
    (hl : s.locate path = .ok (.vacant p name)) :
    s.resolve path = .error (.noSuchFileOrDirectory path) := by
  obtain ⟨hk, front, hsegs, hw, hd⟩ := (locate_eq_vacant_iff hs hp).mp hl
  refine (resolve_eq_noSuchFileOrDirectory_iff hs hp).mpr ⟨front, name, ?_, ?_, hsegs ▸ hk⟩
  · rw [hsegs]
  · rw [Tree.kindAt_of_walk hw, Tree.isDirectory_iff_kind?.mp hd]

theorem locateFile_cases :
    (∃ e, s.resolve path = .error e ∧ s.locateFile path = .error e) ∨
    (∃ h, s.tree.kindAt (s.segments path) ≠ none ∧ s.locateFile path = .ok (.existing h)) ∨
    ∃ p name, s.locate path = .ok (.vacant p name) ∧ s.tree.isDirectory p = true ∧
      s.tree.child? p name = none ∧ s.locateFile path =
        if Path.endsInSlash path = true then .error (.notADirectory path)
        else .ok (.vacant p name) := by
  obtain ⟨h, hl, hw⟩ | ⟨front, name, p, hl, hsegs, hw, hd, hc⟩ | ⟨hl, -⟩ | ⟨hl, -⟩ :=
    locate_cases hs hp
  · cases hslash : Path.endsInSlash path && !s.tree.isDirectory h with
    | true =>
      obtain ⟨hslash, hd⟩ := Bool.and_eq_true_iff.mp hslash
      have hd : s.tree.isDirectory h = false := by simpa using hd
      have hfile := hs.exists_file_of_walk hw hd
      exact .inl ⟨_, (resolve_eq_notADirectory_iff hs hp).mpr (.inr ⟨hfile, hslash⟩),
        by simp [locateFile, hl, hslash, hd]⟩
    | false =>
      refine .inr (.inl ⟨h, hs.kindAt_ne_none_of_walk hw, ?_⟩)
      cases he : Path.endsInSlash path <;> simp_all [locateFile]
  · refine .inr (.inr ⟨p, name, hl, hd, hc, ?_⟩)
    simp [locateFile, hl]
  · exact .inl ⟨_, resolve_of_locate_error hs hp hl, by simp [locateFile, hl]⟩
  · exact .inl ⟨_, resolve_of_locate_error hs hp hl, by simp [locateFile, hl]⟩

end Paths

variable {s : Session} {path : String}

theorem createOrOpen_of_vacant {p : Handle} {name : String}
    (hl : s.locateFile path = .ok (.vacant p name)) (hd : s.tree.isDirectory p = true)
    (hc : s.tree.child? p name = none) :
    s.createOrOpen path = (.ok s.tree.slots.size,
      { s with tree := s.tree.attach p name (.file .empty) }) := by
  have hk : (s.tree.attach p name (.file .empty)).content? s.tree.slots.size = some .empty :=
    Tree.content?_attach_file
  simp [createOrOpen, hl, Tree.create_of_vacant (.file .empty) hd hc, hk]

end Session

end TreeShell
