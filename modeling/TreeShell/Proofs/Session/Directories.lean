import TreeShell.Proofs.Session.Lookups
import TreeShell.Proofs.Tree.Additions

/-! Ways of making directories. A chain of directories can be looked for first and made where it
ends, or made while its names are followed, and the last of them can be made alone in a directory
that is there; where more than one way succeeds, the same tree is left. -/

namespace TreeShell.Session

open KindMap

section Ways

variable {s : Session} (hs : s.tree.Linked) {path : String}
include hs

/-- Looking first and making after is making while looking. -/
theorem makeDirectories_eq_createDirectories (hp : path ≠ "") :
    ((s.makeDirectories path).1 = .ok () ↔
        ∃ d, (s.tree.createDirectories (s.segments path)).1 = some d) ∧
      (s.makeDirectories path).2 =
        { s with tree := (s.tree.createDirectories (s.segments path)).2 } := by
  have hpe : path.isEmpty = false := by simpa using hp
  rw [makeDirectories, hpe, Tree.createDirectories, Tree.createMissing_eq _ hs.root_isDirectory]
  cases s.tree.existingPart Tree.root (s.segments path) with
  | error rest => cases rest <;> simp
  | ok found =>
    obtain ⟨d, missing⟩ := found
    dsimp only
    obtain ⟨_ | c, tree⟩ := s.tree.createChain d missing <;> simp

theorem makeDirectories_of_createDirectories (hp : path ≠ "") {d : Handle} {tree : Tree}
    (he : s.tree.createDirectories (s.segments path) = (some d, tree)) :
    s.makeDirectories path = (.ok (), { s with tree }) := by
  obtain ⟨hok, hleft⟩ := makeDirectories_eq_createDirectories hs hp
  rw [he] at hok hleft
  exact Prod.ext (hok.mpr ⟨d, rfl⟩) hleft

/-- Making directories fails where a file is at the end of the path or above it. -/
theorem makeDirectories_answer_iff (hp : path ≠ "") :
    ((s.makeDirectories path).1 = .error (.fileExists path) ↔
        ∃ content, s.tree.kindAt (s.segments path) = some (.file content)) ∧
    ((s.makeDirectories path).1 = .error (.notADirectory path) ↔
        Obstructs s.tree.kindAt (s.segments path)) ∧
    ((s.makeDirectories path).1 = .ok () ↔
      ¬ (∃ content, s.tree.kindAt (s.segments path) = some (.file content)) ∧
        ¬ Obstructs s.tree.kindAt (s.segments path)) := by
  have hapart : Obstructs s.tree.kindAt (s.segments path) →
      ¬ ∃ content, s.tree.kindAt (s.segments path) = some (.file content) := by
    rintro ho ⟨content, hk⟩
    simp [hs.kindAt_of_obstructs ho] at hk
  obtain ⟨ho, he⟩ | ⟨hf, he⟩ | ⟨hb, he⟩ := makeDirectories_answers hs hp
  · simp [he, ho, hapart ho]
  · simp [he, hf, mt hapart (not_not_intro hf)]
  · rw [blocks_iff, not_or] at hb
    simp [he, hb]

/-- A directory that can be made alone is the only one that is missing. -/
theorem makeDirectory_eq_makeDirectories (hok : (s.makeDirectory path).1 = .ok ()) :
    s.makeDirectory path = s.makeDirectories path := by
  have hp : path ≠ "" := by
    rintro rfl
    cases hok
  obtain ⟨h, hl, -⟩ | ⟨front, name, p, hl, hsegs, hw, hd, hc⟩ | ⟨hl, -⟩ | ⟨hl, -⟩ :=
    locate_cases hs hp
  · simp [makeDirectory, hl] at hok
  · have hone : s.makeDirectory path =
        (.ok (), { s with tree := s.tree.attach p name .directory }) := by
      simp [makeDirectory, hl, Tree.create_of_vacant .directory hd hc]
    have hmany := Tree.createDirectories_of_vacant hw hd hc
    rw [← hsegs] at hmany
    rw [hone, makeDirectories_of_createDirectories hs hp hmany]
  · simp [makeDirectory, hl] at hok
  · simp [makeDirectory, hl] at hok

end Ways

/-- Directories that were made are there when they are asked for again. -/
theorem Sound.makeDirectories_again {s : Session} (hs : s.Sound) {path : String} (hp : path ≠ "")
    (hok : (s.makeDirectories path).1 = .ok ()) :
    (s.makeDirectories path).2.makeDirectories path = (.ok (), (s.makeDirectories path).2) := by
  obtain ⟨hiff, hleft⟩ := makeDirectories_eq_createDirectories hs.linked hp
  obtain ⟨d, hd⟩ := hiff.mp hok
  have hg : Tree.Grows s.tree (s.tree.createDirectories (s.segments path)).2 :=
    s.tree.grows_createMissing Tree.root (s.segments path)
  obtain ⟨d', hagain⟩ := hs.linked.createDirectories_again hd
  rw [hleft]
  generalize (s.tree.createDirectories (s.segments path)).2 = tree at hg hagain
  have ht : tree.Linked := hg.leads.linked hs.linked
  rw [← hs.segments_of_grows hg] at hagain
  have hmade : makeDirectories path { s with tree } = (.ok (), { s with tree }) :=
    makeDirectories_of_createDirectories ht hp hagain
  exact hmade

/-- Making a path and what is missing above it fails where a file stands at the end of the path
or above it, each for its own reason, and nowhere else. It adds to the map the missing beginnings
of the path's names as directories, keeps every node as it was, and done again it changes
nothing. Making the same names while they are followed succeeds where this does and leaves the
same tree, and so does making the last directory alone wherever that succeeds. -/
theorem directory_makings_agree {s : Session} (hs : s.Reachable) {path : String}
    (hp : path ≠ "") :
    ((s.mkdir path true).1 = .error (.fileExists path) ↔
        ∃ content, s.tree.kindAt (s.segments path) = some (.file content)) ∧
    ((s.mkdir path true).1 = .error (.notADirectory path) ↔
        Obstructs s.tree.kindAt (s.segments path)) ∧
    ((s.mkdir path true).1 = .ok () ↔
      ¬ (∃ content, s.tree.kindAt (s.segments path) = some (.file content)) ∧
        ¬ Obstructs s.tree.kindAt (s.segments path)) ∧
    ((s.mkdir path true).1 = .ok () →
      (∃ tree, (s.mkdir path true).2 = { s with tree } ∧
        tree.kindAt = withDirectories s.tree.kindAt (s.segments path) ∧ s.tree.Keeps tree) ∧
      (s.mkdir path true).2.mkdir path true = (.ok (), (s.mkdir path true).2)) ∧
    ((∃ d, (s.tree.createDirectories (s.segments path)).1 = some d) ↔
      (s.mkdir path true).1 = .ok ()) ∧
    (s.tree.createDirectories (s.segments path)).2 = (s.mkdir path true).2.tree ∧
    ((s.mkdir path false).1 = .ok () → s.mkdir path false = s.mkdir path true) := by
  have hsound := hs.sound
  have ht := hsound.linked
  have hmany : s.mkdir path true = s.makeDirectories path := rfl
  have hone : s.mkdir path false = s.makeDirectory path := rfl
  obtain ⟨hiff, hleft⟩ := makeDirectories_eq_createDirectories ht hp
  obtain ⟨hfile, hobstructed, hsucceeds⟩ := makeDirectories_answer_iff ht hp
  rw [hmany, hone]
  refine ⟨hfile, hobstructed, hsucceeds, fun hok => ⟨?_, hsound.makeDirectories_again hp hok⟩,
    hiff.symm, by rw [hleft], makeDirectory_eq_makeDirectories ht⟩
  obtain ⟨d, hd⟩ := hiff.mp hok
  exact ⟨_, hleft, funext (ht.kindAt_createDirectories hd),
    ht.keeps_createDirectories (s.segments path)⟩

/-- Two directories are missing, or one, or a file is in the way. -/
theorem directory_makings_agree_guest : ∃ s : Session,
    s = run [.touch "f"] (withHome "guest") ∧ s.Reachable ∧ "a//b/" ≠ "" ∧ "a" ≠ "" ∧
    "f/x" ≠ "" ∧ (s.mkdir "a//b/" true).1 = .ok () ∧
    (s.mkdir "a//b/" true).2.mkdir "a//b/" true = (.ok (), (s.mkdir "a//b/" true).2) ∧
    (s.tree.createDirectories ["home", "guest", "a", "b"]).2 = (s.mkdir "a//b/" true).2.tree ∧
    s.mkdir "a" false = s.mkdir "a" true ∧
    (s.mkdir "f/x" true).1 = .error (.notADirectory "f/x") := by
  obtain ⟨s, he⟩ : ∃ s, s = run [.touch "f"] (withHome "guest") := ⟨_, rfl⟩
  have hs : s.Reachable := ⟨_, .withHome "guest", _, he⟩
  have hab : "a//b/" ≠ "" := by decide
  have ha : "a" ≠ "" := by decide
  have hfx : "f/x" ≠ "" := by decide
  have hsegs : s.segments "a//b/" = ["home", "guest", "a", "b"] := by rw [he]; cbv
  have hok : (s.mkdir "a//b/" true).1 = .ok () := by rw [he]; cbv
  have hone : (s.mkdir "a" false).1 = .ok () := by rw [he]; cbv
  have hf : s.segments "f/x" = ["home", "guest", "f", "x"] := by rw [he]; cbv
  have hk : s.tree.kindAt ["home", "guest", "f"] = some (.file .empty) := by rw [he]; cbv
  have ho : Obstructs s.tree.kindAt (s.segments "f/x") := by
    rw [hf]
    exact ⟨_, _, ⟨["x"], rfl⟩, by decide, hk⟩
  obtain ⟨-, -, -, hsuccess, -, htree, -⟩ := directory_makings_agree hs hab
  obtain ⟨-, -, -, -, -, -, halone⟩ := directory_makings_agree hs ha
  obtain ⟨-, hrefused, -⟩ := directory_makings_agree hs hfx
  exact ⟨s, he, hs, hab, ha, hfx, hok, (hsuccess hok).2, hsegs ▸ htree, halone hone,
    hrefused.mpr ho⟩

end TreeShell.Session
