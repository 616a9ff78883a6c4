import TreeShell.Proofs.Session.Resolving

/-! Operations that look a path up and operations that make what is missing at it agree on whether
it leads nowhere, and why. Only the slash behind a path is a reason of its own, and only for what
makes files: it refuses a place that is vacant. -/

namespace TreeShell.Session

open KindMap

/-- What looks a path up, without what it then answers. -/
inductive Lookup
  | cd
  | cat
  | rm (recursive : Bool)
  | list
  | openRequest

def Lookup.outcome (path : String) (s : Session) : Lookup → Except FileError Unit
  | .cd => (s.cd (some path)).1
  | .cat => (s.cat path).map fun _ => ()
  | .rm recursive => (s.rm path recursive).1
  | .list => (s.list (some path)).map fun _ => ()
  | .openRequest => (s.openRequest path).map fun _ => ()

/-- What makes something at a path where nothing is. -/
inductive Making
  | touch
  | mkdir (parents : Bool)
  | redirect (mode : RedirectMode) (data : List UInt8)

def Making.outcome (path : String) (s : Session) : Making → Except FileError Unit
  | .touch => (s.touch path).1
  | .mkdir parents => (s.mkdir path parents).1
  | .redirect mode data => (s.modifyFile path (.receive mode data)).1.map fun _ => ()

def Making.makesFile : Making → Bool
  | .touch | .redirect _ _ => true
  | .mkdir _ => false

/-- A file is not made at a path that ends in a slash. -/
def Making.Refuses (path : String) (s : Session) (making : Making) : Prop :=
  making.makesFile = true ∧ Path.endsInSlash path = true ∧
    ∃ p name, s.locate path = .ok (.vacant p name)

/-- The outcome does not say that the path leads nowhere, and what was missing is made. -/
structure Proceeds (path : String) (s : Session) (outcome : Except FileError Unit) : Prop where
  no_obstacle : ¬ Obstructs s.tree.kindAt (s.segments path)
  ne_missing : outcome ≠ .error (.noSuchFileOrDirectory path)
  ne_file : outcome ≠ .error (.notADirectory path)
  made : s.resolve path = .error (.noSuchFileOrDirectory path) → outcome = .ok ()

section Outcomes

variable {s : Session} {path : String}

theorem outcome_of_resolve_error {e : FileError} (hr : s.resolve path = .error e)
    (lookup : Lookup) : lookup.outcome path s = .error e := by
  cases lookup <;>
    simp [Lookup.outcome, cd, cat, rm, list, openRequest, hr, Except.map]

/-- What a path leads to is never said to be missing. -/
theorem resolve_of_outcome {lookup : Lookup}
    (h : lookup.outcome path s = .error (.noSuchFileOrDirectory path)) :
    s.resolve path = .error (.noSuchFileOrDirectory path) := by
  cases hr : s.resolve path with
  | error e => rw [Except.error.inj ((outcome_of_resolve_error hr lookup).symm.trans h)]
  | ok i =>
    exfalso
    cases lookup with
    | cd =>
      simp only [Lookup.outcome, cd, hr] at h
      split at h <;> cases h
    | cat =>
      simp only [Lookup.outcome, cat, hr] at h
      split at h <;> cases h
    | rm recursive =>
      simp only [Lookup.outcome, rm, hr] at h
      split at h
      · cases h
      · split at h <;> cases h
    | list =>
      simp only [Lookup.outcome, list, Option.elim, hr] at h
      split at h <;> cases h
    | openRequest =>
      simp only [Lookup.outcome, openRequest, hr] at h
      split at h <;> cases h

theorem modifyFile_fst (path : String) (f : Content → Content) (s : Session) :
    (s.modifyFile path f).1 = (s.createOrOpen path).1 := by
  rw [modifyFile]
  obtain ⟨_ | _, u⟩ := s.createOrOpen path <;> rfl

theorem outcome_of_refuses {making : Making} (h : making.Refuses path s) :
    making.outcome path s = .error (.notADirectory path) := by
  obtain ⟨hfile, hslash, p, name, hl⟩ := h
  have hf : s.locateFile path = .error (.notADirectory path) := by simp [locateFile, hl, hslash]
  cases making with
  | touch => simp [Making.outcome, touch, hf]
  | redirect => simp [Making.outcome, modifyFile_fst, createOrOpen, hf, Except.map]
  | mkdir => cases hfile

theorem makeDirectory_of_vacant {p : Handle} {name : String}
    (hl : s.locate path = .ok (.vacant p name)) (hd : s.tree.isDirectory p = true)
    (hc : s.tree.child? p name = none) : (s.makeDirectory path).1 = .ok () := by
  simp [makeDirectory, hl, Tree.create_of_vacant .directory hd hc]

end Outcomes

section Makings

variable {s : Session} (hs : s.tree.Linked) {path : String} (hp : path ≠ "")
include hs hp

/-- A file above the place of the last directory and a file at it are refused for reasons of their
own; nothing else is refused. -/
theorem makeDirectories_answers :
    Obstructs s.tree.kindAt (s.segments path) ∧
        (s.makeDirectories path).1 = .error (.notADirectory path) ∨
      (∃ content, s.tree.kindAt (s.segments path) = some (.file content)) ∧
        (s.makeDirectories path).1 = .error (.fileExists path) ∨
      ¬ Blocks s.tree.kindAt (s.segments path) ∧ (s.makeDirectories path).1 = .ok () := by
  have hpe : path.isEmpty = false := by simpa using hp
  obtain ⟨hb, -⟩ | ⟨hb, tree, hm, -⟩ := makeDirectories_cases hs hp
  · obtain ⟨rest, he⟩ := hs.exists_existingPart_error_iff.mpr hb
    obtain ⟨first, content, hne, hn, hk⟩ :=
      (hs.existingPart_eq_error_iff hs.root_isDirectory).mp he
    rw [hs.segmentsOf_root, List.nil_append] at hk
    cases rest with
    | nil =>
      rw [List.append_nil] at hn
      exact .inr (.inl ⟨⟨content, hn ▸ hk⟩, by simp [makeDirectories, hpe, he]⟩)
    | cons name rest =>
      refine .inl ⟨⟨first, content, ⟨_, hn.symm⟩, ?_, hk⟩, by simp [makeDirectories, hpe, he]⟩
      simp [hn]
  · exact .inr (.inr ⟨hb, by rw [hm]⟩)

theorem proceeds_of_kindAt {outcome : Except FileError Unit}
    (hk : s.tree.kindAt (s.segments path) ≠ none)
    (hm : outcome ≠ .error (.noSuchFileOrDirectory path))
    (hf : outcome ≠ .error (.notADirectory path)) : Proceeds path s outcome where
  no_obstacle ho := hk (hs.kindAt_of_obstructs ho)
  ne_missing := hm
  ne_file := hf
  made hr :=
    absurd (hs.kindAt_of_lacks ((resolve_eq_noSuchFileOrDirectory_iff hs hp).mp hr)) hk

theorem proceeds_of_vacant {p : Handle} {name : String}
    (hl : s.locate path = .ok (.vacant p name)) : Proceeds path s (.ok ()) where
  no_obstacle :=
    hs.not_obstructs_of_lacks
      ((resolve_eq_noSuchFileOrDirectory_iff hs hp).mp (resolve_of_locate_vacant hs hp hl))
  ne_missing he := by cases he
  ne_file he := by cases he
  made _ := rfl

/-- Making fails as looking the path up does, or for the slash behind it, or it proceeds. -/
theorem making_cases (making : Making) :
    (∃ e, s.resolve path = .error e ∧ making.outcome path s = .error e) ∨
    making.Refuses path s ∨ Proceeds path s (making.outcome path s) := by
  cases making with
  | touch =>
    rw [Making.outcome, touch]
    obtain ⟨e, hr, hl⟩ | ⟨h, hk, hl⟩ | ⟨p, name, hl, hd, hc, hf⟩ := locateFile_cases hs hp
    · exact .inl ⟨e, hr, by rw [hl]⟩
    · rw [hl]
      exact .inr (.inr (proceeds_of_kindAt hs hp hk (by simp) (by simp)))
    · split at hf
      · exact .inr (.inl ⟨rfl, ‹_›, p, name, hl⟩)
      · rw [hf]
        exact .inr (.inr (proceeds_of_vacant hs hp hl))
  | redirect mode data =>
    rw [Making.outcome, modifyFile_fst]
    obtain ⟨e, hr, hl⟩ | ⟨h, hk, hl⟩ | ⟨p, name, hl, hd, hc, hf⟩ := locateFile_cases hs hp
    · exact .inl ⟨e, hr, by simp [createOrOpen, hl, Except.map]⟩
    · refine .inr (.inr (proceeds_of_kindAt hs hp hk ?_ ?_)) <;>
        cases hcont : s.tree.content? h <;> simp [createOrOpen, hl, hcont, Except.map]
    · split at hf
      · exact .inr (.inl ⟨rfl, ‹_›, p, name, hl⟩)
      · rw [createOrOpen_of_vacant hf hd hc]
        exact .inr (.inr (proceeds_of_vacant hs hp hl))
  | mkdir parents =>
    cases parents with
    | false =>
      have hm : Making.outcome path s (.mkdir false) = (s.makeDirectory path).1 := rfl
      rw [hm]
      obtain ⟨h, hl, hw⟩ | ⟨front, name, p, hl, hsegs, hw, hd, hc⟩ | ⟨hl, -⟩ | ⟨hl, -⟩ :=
        locate_cases hs hp
      · have hk := hs.kindAt_ne_none_of_walk hw
        exact .inr (.inr (proceeds_of_kindAt hs hp hk (by simp [makeDirectory, hl])
          (by simp [makeDirectory, hl])))
      · rw [makeDirectory_of_vacant hl hd hc]
        exact .inr (.inr (proceeds_of_vacant hs hp hl))
      · exact .inl ⟨_, resolve_of_locate_error hs hp hl, by simp [makeDirectory, hl]⟩
      · exact .inl ⟨_, resolve_of_locate_error hs hp hl, by simp [makeDirectory, hl]⟩
    | true =>
      have hm : Making.outcome path s (.mkdir true) = (s.makeDirectories path).1 := rfl
      rw [hm]
      obtain ⟨ho, he⟩ | ⟨⟨content, hk⟩, he⟩ | ⟨hb, he⟩ := makeDirectories_answers hs hp
      · exact .inl ⟨_, (resolve_eq_notADirectory_iff hs hp).mpr (.inl ho), he⟩
      · rw [he]
        exact .inr (.inr (proceeds_of_kindAt hs hp (by simp [hk]) (by simp) (by simp)))
      · rw [he]
        exact .inr (.inr ⟨fun ho => hb ho.blocks, by simp, by simp, fun _ => rfl⟩)

end Makings

/-- A path that is not empty names the node at its names, unless a slash behind it asks for a
directory that the node is not. Otherwise it is said not to be a directory where a file stands
above its place, or at its place before a slash, and to be missing where the first missing name
is missing in a directory. A place for it is found at its node or, where there is none, in the
directory that all names but the last lead to; elsewhere the reason is the same. What looks the
path up fails for that reason, and what makes something at it calls it missing, or no directory,
for no other. Only a file that is to be made at a path with a slash behind it is refused though
its place is vacant. -/
theorem lookups_and_places_agree {s : Session} (hs : s.Reachable) {path : String}
    (hp : path ≠ "") :
    ((∀ h, s.resolve path = .ok h ↔ s.tree.IsAt (s.segments path) h ∧
        (Path.endsInSlash path = true → s.tree.isDirectory h = true)) ∧
      (s.resolve path = .error (.notADirectory path) ↔
        Obstructs s.tree.kindAt (s.segments path) ∨
          (∃ content, s.tree.kindAt (s.segments path) = some (.file content)) ∧
            Path.endsInSlash path = true) ∧
      (s.resolve path = .error (.noSuchFileOrDirectory path) ↔
        Lacks s.tree.kindAt (s.segments path)) ∧
      ∀ e, s.resolve path = .error e →
        e = .notADirectory path ∨ e = .noSuchFileOrDirectory path) ∧
    ((∀ h, s.locate path = .ok (.existing h) ↔ s.tree.IsAt (s.segments path) h) ∧
      (∀ p name, s.locate path = .ok (.vacant p name) ↔
        s.tree.kindAt (s.segments path) = none ∧ ∃ front, s.segments path = front ++ [name] ∧
          s.tree.IsAt front p ∧ s.tree.isDirectory p = true) ∧
      ∀ e, s.locate path = .error e → s.resolve path = .error e) ∧
    (∀ lookup : Lookup,
      (∀ e, s.resolve path = .error e → lookup.outcome path s = .error e) ∧
      (lookup.outcome path s = .error (.noSuchFileOrDirectory path) →
        s.resolve path = .error (.noSuchFileOrDirectory path))) ∧
    ∀ making : Making,
      (making.Refuses path s → making.outcome path s = .error (.notADirectory path) ∧
        s.resolve path = .error (.noSuchFileOrDirectory path)) ∧
      (¬ making.Refuses path s →
        (∀ e, e = .noSuchFileOrDirectory path ∨ e = .notADirectory path →
          making.outcome path s = .error e → s.resolve path = .error e) ∧
        (s.resolve path = .error (.noSuchFileOrDirectory path) →
          making.outcome path s = .error (.noSuchFileOrDirectory path) ∨
            making.outcome path s = .ok ())) ∧
      (Obstructs s.tree.kindAt (s.segments path) →
        making.outcome path s = .error (.notADirectory path)) := by
  have ht := hs.sound.linked
  simp only [ht.isAt_iff]
  refine ⟨⟨fun h => resolve_eq_ok_iff ht hp, resolve_eq_notADirectory_iff ht hp,
    resolve_eq_noSuchFileOrDirectory_iff ht hp, fun e he => ?_⟩,
    ⟨fun h => locate_eq_existing_iff ht hp, fun p name => locate_eq_vacant_iff ht hp,
      fun e he => resolve_of_locate_error ht hp he⟩,
    fun lookup => ⟨fun e he => outcome_of_resolve_error he lookup, resolve_of_outcome⟩,
    fun making => ?_⟩
  · obtain ⟨h, hr, -⟩ | ⟨hr, -⟩ | ⟨hr, -⟩ := resolve_cases ht hp
    · simp [hr] at he
    · exact .inl (Except.error.inj (he.symm.trans hr))
    · exact .inr (Except.error.inj (he.symm.trans hr))
  · refine ⟨fun hr => ?_, fun hnot => ?_, fun ho => ?_⟩
    · obtain ⟨-, -, p, name, hl⟩ := id hr
      exact ⟨outcome_of_refuses hr, resolve_of_locate_vacant ht hp hl⟩
    · obtain ⟨e, hr, he⟩ | hrefuses | hgoes := making_cases ht hp making
      · refine ⟨fun e' _ he' => ?_, fun hr' => .inl ?_⟩
        · rw [hr, ← Except.error.inj (he.symm.trans he')]
        · rw [he, Except.error.inj (hr.symm.trans hr')]
      · exact absurd hrefuses hnot
      · refine ⟨fun e he he' => ?_, fun hr => .inr (hgoes.made hr)⟩
        rcases he with rfl | rfl
        · exact absurd he' hgoes.ne_missing
        · exact absurd he' hgoes.ne_file
    · have hr' := (resolve_eq_notADirectory_iff ht hp).mpr (.inl ho)
      obtain ⟨e, hr, he⟩ | hrefuses | hgoes := making_cases ht hp making
      · rw [he, Except.error.inj (hr.symm.trans hr')]
      · exact outcome_of_refuses hrefuses
      · exact absurd ho hgoes.no_obstacle

/-- A file stands above the one path; to the other, nothing but the slash is an obstacle. -/
theorem lookups_and_places_agree_guest : ∃ s : Session,
    s = run [.touch "f"] (withHome "guest") ∧ s.Reachable ∧ "f/x/" ≠ "" ∧ "g/" ≠ "" ∧
    s.resolve "f/x/" = .error (.notADirectory "f/x/") ∧
    (∀ lookup : Lookup, lookup.outcome "f/x/" s = .error (.notADirectory "f/x/")) ∧
    (∀ making : Making, making.outcome "f/x/" s = .error (.notADirectory "f/x/")) ∧
    (Making.redirect .append []).outcome "g/" s = .error (.notADirectory "g/") ∧
    s.resolve "g/" = .error (.noSuchFileOrDirectory "g/") := by
  obtain ⟨s, he⟩ : ∃ s, s = run [.touch "f"] (withHome "guest") := ⟨_, rfl⟩
  have hs : s.Reachable := ⟨_, .withHome "guest", _, he⟩
  have hf : s.segments "f/x/" = ["home", "guest", "f", "x"] := by rw [he]; cbv
  have hk : s.tree.kindAt ["home", "guest", "f"] = some (.file .empty) := by rw [he]; cbv
  have ho : Obstructs s.tree.kindAt (s.segments "f/x/") := by
    rw [hf]
    exact ⟨_, _, ⟨["x"], rfl⟩, by decide, hk⟩
  have hplace : s.locate "g/" = .ok (.vacant 2 "g") := by rw [he]; cbv
  have hg : (Making.redirect .append []).Refuses "g/" s := ⟨rfl, by decide, 2, "g", hplace⟩
  have hfx : "f/x/" ≠ "" := by decide
  have hgs : "g/" ≠ "" := by decide
  obtain ⟨⟨-, hdir, -, -⟩, -, hlook, hmake⟩ := lookups_and_places_agree hs hfx
  obtain ⟨-, -, -, hmake'⟩ := lookups_and_places_agree hs hgs
  have hr := hdir.mpr (.inl ho)
  exact ⟨s, he, hs, hfx, hgs, hr, fun lookup => (hlook lookup).1 _ hr,
    fun making => (hmake making).2.2 ho, (hmake' _).1 hg⟩

/-- A slash behind the name of nothing: what looks the path up misses it, what makes files says
that it is no directory. -/
theorem lookup_and_touch_disagree_guest :
    Reachable (withHome "guest") ∧
    (withHome "guest").cat "x/" = .error (.noSuchFileOrDirectory "x/") ∧
    ((withHome "guest").touch "x/").1 = .error (.notADirectory "x/") :=
  ⟨⟨_, .withHome "guest", [], rfl⟩, by cbv, by cbv⟩

end TreeShell.Session
