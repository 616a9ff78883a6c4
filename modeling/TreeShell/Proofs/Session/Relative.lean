import TreeShell.Proofs.Path.Joined
import TreeShell.Proofs.Session.Alike
import TreeShell.Proofs.Session.Names
import TreeShell.Proofs.Session.Resolving

/-! Going to a directory and using a path there is the same as using the two paths joined by a
slash. A path is told by its names, by the slash behind it and by its not being empty; what
becomes of it depends on nothing else, but that an error shows the path as it was typed. -/

namespace TreeShell

/-- The same error about another path. -/
def FileError.about (path : String) : FileError → FileError
  | .noSuchFileOrDirectory _ => .noSuchFileOrDirectory path
  | .notADirectory _ => .notADirectory path
  | .isADirectory _ => .isADirectory path
  | .fileExists _ => .fileExists path
  | .operationRefused _ => .operationRefused path

namespace Session

/-- Two paths, each in its session, that come to the same. -/
structure SamePath (s : Session) (path : String) (s' : Session) (path' : String) : Prop where
  tree_eq : s'.tree = s.tree
  segments_eq : s'.segments path' = s.segments path
  slash_eq : Path.endsInSlash path' = Path.endsInSlash path
  ne_empty : path ≠ ""
  ne_empty' : path' ≠ ""

/-- The same answer, but that an error is about `path`, and the same tree. -/
def SameOutcome {α : Type} (path : String) (r r' : Except FileError α × Session) : Prop :=
  r.1 = r'.1.mapError (FileError.about path) ∧ r.2.tree = r'.2.tree

namespace SamePath

variable {s s' : Session} {path path' : String} (h : SamePath s path s' path')
include h

theorem resolve : s.resolve path = (s'.resolve path').mapError (FileError.about path) := by
  have hp : path.isEmpty = false := by simpa using h.ne_empty
  have hp' : path'.isEmpty = false := by simpa using h.ne_empty'
  rw [Session.resolve, Session.resolve, hp, hp', h.segments_eq, h.slash_eq, h.tree_eq,
    if_neg Bool.false_ne_true, if_neg Bool.false_ne_true]
  cases s.tree.walk Tree.root (s.segments path) with
  | error e => cases e <;> rfl
  | ok i =>
    dsimp only
    split <;> rfl

theorem locate : s.locate path = (s'.locate path').mapError (FileError.about path) := by
  have hp : path.isEmpty = false := by simpa using h.ne_empty
  have hp' : path'.isEmpty = false := by simpa using h.ne_empty'
  rw [Session.locate, Session.locate, hp, hp', h.segments_eq, h.tree_eq,
    if_neg Bool.false_ne_true, if_neg Bool.false_ne_true]
  cases (s.segments path).getLast? with
  | none => rfl
  | some name =>
    dsimp only
    cases s.tree.walk Tree.root (s.segments path).dropLast with
    | error e => cases e <;> rfl
    | ok parent =>
      dsimp only
      split
      · cases s.tree.child? parent name <;> rfl
      · rfl

theorem locateFile :
    s.locateFile path = (s'.locateFile path').mapError (FileError.about path) := by
  rw [Session.locateFile, Session.locateFile, h.locate, h.slash_eq, h.tree_eq]
  cases s'.locate path' with
  | error e => rfl
  | ok place =>
    simp only [Except.mapError]
    split
    · cases place with
      | existing i =>
        dsimp only
        split <;> rfl
      | vacant parent name => rfl
    · rfl

theorem touch : SameOutcome path (s.touch path) (s'.touch path') := by
  rw [SameOutcome, Session.touch, Session.touch, h.locateFile]
  cases s'.locateFile path' with
  | error e => exact ⟨rfl, h.tree_eq.symm⟩
  | ok place =>
    cases place with
    | existing i => exact ⟨rfl, h.tree_eq.symm⟩
    | vacant parent name => exact ⟨rfl, by simp only [Except.mapError, h.tree_eq]⟩

theorem makeDirectory : SameOutcome path (s.makeDirectory path) (s'.makeDirectory path') := by
  rw [SameOutcome, Session.makeDirectory, Session.makeDirectory, h.locate]
  cases s'.locate path' with
  | error e => exact ⟨rfl, h.tree_eq.symm⟩
  | ok place =>
    cases place with
    | existing i => exact ⟨rfl, h.tree_eq.symm⟩
    | vacant parent name =>
      simp only [Except.mapError, h.tree_eq]
      obtain ⟨_ | i, tree⟩ := s.tree.create parent name .directory <;> exact ⟨rfl, rfl⟩

theorem makeDirectories :
    SameOutcome path (s.makeDirectories path) (s'.makeDirectories path') := by
  have hp : path.isEmpty = false := by simpa using h.ne_empty
  have hp' : path'.isEmpty = false := by simpa using h.ne_empty'
  rw [SameOutcome, Session.makeDirectories, Session.makeDirectories, hp, hp', h.segments_eq,
    h.tree_eq]
  cases s.tree.existingPart Tree.root (s.segments path) with
  | error rest => cases rest <;> exact ⟨rfl, h.tree_eq.symm⟩
  | ok found =>
    obtain ⟨i, missing⟩ := found
    dsimp only
    obtain ⟨_ | c, tree⟩ := s.tree.createChain i missing <;> exact ⟨rfl, rfl⟩

theorem mkdir (parents : Bool) :
    SameOutcome path (s.mkdir path parents) (s'.mkdir path' parents) := by
  cases parents with
  | false => exact h.makeDirectory
  | true => exact h.makeDirectories

theorem createOrOpen : SameOutcome path (s.createOrOpen path) (s'.createOrOpen path') := by
  have ho : ∀ r, SameOutcome path (opened path s r) (opened path' s' r) := by
    rintro ⟨_ | i, tree⟩
    · exact ⟨rfl, rfl⟩
    · rw [opened, opened]
      cases tree.content? i <;> exact ⟨rfl, rfl⟩
  rw [createOrOpen_eq_opened, createOrOpen_eq_opened, h.locateFile, h.tree_eq]
  cases s'.locateFile path' with
  | error e => exact ⟨rfl, h.tree_eq.symm⟩
  | ok place =>
    cases place with
    | existing i => exact ho _
    | vacant parent name => exact ho _

end SamePath

/-- The names of a joined path are those that the second path has from the first. -/
theorem segments_slash (s : Session) {front rest : List Char} (hf : front ≠ []) :
    s.segments (.ofList (front ++ '/' :: rest)) =
      Path.normalize (s.segments (.ofList front)) (.ofList rest) := by
  by_cases hroot : ∃ cs, front = '/' :: cs
  · obtain ⟨cs, rfl⟩ := hroot
    simpa [segments, Path.anchor] using Path.normalize_slash _ cs rest
  by_cases htilde : front = ['~']
  · subst htilde
    simp [segments, Path.anchor]
  by_cases hhome : ∃ cs, front = '~' :: '/' :: cs
  · obtain ⟨cs, rfl⟩ := hhome
    simpa [segments, Path.anchor] using Path.normalize_slash _ cs rest
  have hfront : Path.anchor (.ofList front) = (.here, .ofList front) :=
    Path.anchor_here (fun cs he => hroot ⟨cs, he⟩) htilde fun cs he => hhome ⟨cs, he⟩
  obtain ⟨c, front, rfl⟩ := List.exists_cons_of_ne_nil hf
  -- Only the first two characters tell where a path starts, and the front has at least one.
  have hjoined : Path.anchor (.ofList (c :: front ++ '/' :: rest)) =
      (.here, .ofList (c :: front ++ '/' :: rest)) := by
    refine Path.anchor_here ?_ (by simp) ?_
    · rintro cs he
      exact hroot ⟨front, by rw [(List.cons.inj he).1]⟩
    · rintro cs he
      obtain ⟨hc, hcs⟩ := List.cons.inj he
      cases front with
      | nil => exact htilde (by rw [hc])
      | cons d front => exact hhome ⟨front, by rw [hc, (List.cons.inj hcs).1]⟩
  rw [segments, segments, hjoined, hfront]
  exact Path.normalize_slash _ _ rest

theorem segments_join (s : Session) {p : String} (hp : p ≠ "") (q : String) :
    s.segments (p ++ "/" ++ q) = Path.normalize (s.segments p) q := by
  rw [Path.join_eq_ofList, segments_slash s (by simpa using hp), String.ofList_toList,
    String.ofList_toList]

/-- Where going to `p` succeeds, any path from there is the path that continues `p` behind a
slash. -/
theorem samePath_of_cd {s s' : Session} (hs : s.tree.Linked) {p q : String}
    (hcd : s.cd (some p) = (.ok (), s')) (hq : q ≠ "") (hroot : ¬ ['/'] <+: q.toList)
    (htilde : q ≠ "~") (hhome : ¬ ['~', '/'] <+: q.toList) : SamePath s (p ++ "/" ++ q) s' q := by
  obtain ⟨h, hr, hd, rfl⟩ : ∃ h, s.resolve p = .ok h ∧ s.tree.isDirectory h = true ∧
      { s with cwd := h } = s' := by
    rw [cd] at hcd
    split at hcd
    · cases hcd
    · rename_i h hr
      split at hcd
      · rename_i hd
        exact ⟨h, hr, hd, (Prod.mk.inj hcd).2⟩
      · cases hcd
  have hseg := (segmentsOf_of_resolve hs hr).2
  have hanchor : Path.anchor (.ofList q.toList) = (.here, .ofList q.toList) := by
    refine Path.anchor_here ?_ ?_ ?_
    · rintro rest he
      exact hroot ⟨rest, he.symm⟩
    · intro he
      exact htilde (String.toList_inj.mp he)
    · rintro rest he
      exact hhome ⟨rest, he.symm⟩
  rw [String.ofList_toList] at hanchor
  refine ⟨rfl, ?_, (Path.endsInSlash_join p hq).symm, Path.join_ne_empty p q, hq⟩
  rw [segments_join s (ne_empty_of_resolve hr), segments, hanchor, ← hseg]
  rfl

/-- After going to `p`, a path that starts there does what `p`, a slash and the path do from
where one was: it leads to the same node, and making a file or directories there or opening a
file has the same outcome and leaves the same tree; errors differ only in the path they show. -/
theorem cd_composes_with_paths {s s' : Session} (hs : s.Reachable) {p q : String}
    (hcd : s.cd (some p) = (.ok (), s')) (hq : q ≠ "") (hroot : ¬ ['/'] <+: q.toList)
    (htilde : q ≠ "~") (hhome : ¬ ['~', '/'] <+: q.toList) :
    s.resolve (p ++ "/" ++ q) = (s'.resolve q).mapError (.about (p ++ "/" ++ q)) ∧
    SameOutcome (p ++ "/" ++ q) (s.touch (p ++ "/" ++ q)) (s'.touch q) ∧
    (∀ parents, SameOutcome (p ++ "/" ++ q) (s.mkdir (p ++ "/" ++ q) parents)
      (s'.mkdir q parents)) ∧
    SameOutcome (p ++ "/" ++ q) (s.createOrOpen (p ++ "/" ++ q)) (s'.createOrOpen q) := by
  have h := samePath_of_cd hs.sound.linked hcd hq hroot htilde hhome
  exact ⟨h.resolve, h.touch, h.mkdir, h.createOrOpen⟩

/-- The seam lies between a name and two dots. -/
theorem cd_composes_with_paths_guest : ∃ s : Session,
    s = run [.mkdir "a/b" true] (withHome "guest") ∧ s.Reachable ∧
    s.cd (some "~//a/./b") = (.ok (), { s with cwd := 4 }) ∧
    ".././f//" ≠ "" ∧ ¬ ['/'] <+: ".././f//".toList ∧ ".././f//" ≠ "~" ∧
    ¬ ['~', '/'] <+: ".././f//".toList ∧
    SameOutcome "~//a/./b/.././f//" (s.touch "~//a/./b/.././f//")
      (touch ".././f//" { s with cwd := 4 }) ∧
    SameOutcome "~//a/./b/.././f//" (s.mkdir "~//a/./b/.././f//" false)
      (mkdir ".././f//" false { s with cwd := 4 }) := by
  obtain ⟨s, he⟩ : ∃ s, s = run [.mkdir "a/b" true] (withHome "guest") := ⟨_, rfl⟩
  have hs : s.Reachable := ⟨_, .withHome "guest", _, he⟩
  have hwalk : s.tree.walk Tree.root (s.segments "~//a/./b") = .ok 4 := by rw [he]; cbv
  have hd : s.tree.isDirectory 4 = true := by rw [he]; cbv
  have hp : "~//a/./b" ≠ "" := by decide
  have hcd := cd_of_resolve ((resolve_eq_ok_iff hs.sound.linked hp).mpr ⟨hwalk, fun _ => hd⟩) hd
  have hq : ".././f//" ≠ "" := by decide
  have hroot : ¬ ['/'] <+: ".././f//".toList := by decide
  have htilde : ".././f//" ≠ "~" := by decide
  have hhome : ¬ ['~', '/'] <+: ".././f//".toList := by decide
  obtain ⟨-, htouch, hmkdir, -⟩ := cd_composes_with_paths hs hcd hq hroot htilde hhome
  exact ⟨s, he, hs, hcd, hq, hroot, htilde, hhome, htouch, hmkdir false⟩

end Session

end TreeShell
