import TreeShell.Proofs.Path.Names
import TreeShell.Proofs.Session.Resolving

/-! Removal from a session. Which node a path leads to decides together with the path's text
whether the node can go. What goes is the node with all below it, and a session whose working
directory goes with it moves up to the first directory that stays. -/

namespace TreeShell

namespace Path

/-- A path without the slashes it ends in. -/
def withoutSlashes (path : String) : String :=
  .ofList (path.toList.rdropWhile (· = '/'))

theorem components_withoutSlashes (path : String) :
    components (withoutSlashes path) = components path := by
  have hcs : ∀ cs : List Char,
      components (.ofList (cs.rdropWhile (· = '/'))) = components (.ofList cs) := by
    intro cs
    induction cs using List.reverseRecOn with
    | nil => rfl
    | append_singleton cs c ih =>
      by_cases hc : c = '/'
      · rw [List.rdropWhile_concat_pos _ _ _ (by simpa using hc), ih, hc, components_slash]
        exact (List.append_nil _).symm
      · rw [List.rdropWhile_concat_neg _ _ _ (by simpa using hc)]
  simpa [withoutSlashes] using hcs path.toList

theorem getLast?_components_withoutSlashes (path : String) :
    (components path).getLast? = none ∧ lastPart (withoutSlashes path) = "" ∨
      (components path).getLast? = some (lastPart (withoutSlashes path)) := by
  obtain ⟨front, last, hpath, hf, hl, hlast, -⟩ := exists_front (withoutSlashes path)
  have hc := components_withoutSlashes path
  rw [← String.ofList_toList (s := withoutSlashes path), hpath, components_append hf,
    components_last hl] at hc
  rw [← hc, hlast]
  split
  · rename_i hnil
    subst hnil
    -- A front that is not empty would end in a slash.
    obtain rfl | ⟨dir, rfl⟩ := hf
    · exact .inl ⟨rfl, rfl⟩
    · exfalso
      have hne : path.toList.rdropWhile (· = '/') ≠ [] := by
        intro he
        simp [withoutSlashes, he] at hpath
      refine List.rdropWhile_last_not _ _ hne ?_
      simp_all [withoutSlashes]
  · exact .inr (by simp)

theorem endsInDots_iff {path : String} :
    endsInDots path = true ↔ lastPart (withoutSlashes path) ∈ [".", ".."] := by
  obtain ⟨hc, hl⟩ | hc := getLast?_components_withoutSlashes path
  · simp [endsInDots, hc, hl]
  · simp [endsInDots, hc]

end Path

namespace Tree

variable {t : Tree}

/-- Going up from a node, the first that outlives a removal is the node itself, or what held the
node that was removed. -/
theorem Linked.find?_lineage_remove (ht : t.Linked) {h p i : Handle} {name : String}
    (hl : t.link? h = some (name, some p)) {link : String × Option Handle}
    (hi : t.link? i = some link) :
    (t.lineage i).find? (fun j => ((t.remove h).2.node? j).isSome) =
      some (if t.contains h i = true then p else i) := by
  have hlive : ∀ j link, t.link? j = some link →
      ((t.remove h).2.node? j).isSome = !t.contains h j := by
    intro j link hj
    rw [Bool.eq_iff_iff, isSome_node?_iff, ht.link?_remove hl]
    cases t.contains h j <;> simp [hj]
  refine ht.induction_down (motive := fun i => (t.lineage i).find?
    (fun j => ((t.remove h).2.node? j).isSome) = some (if t.contains h i = true then p else i))
    ?_ ?_ hi
  · have hout : t.contains h root = false :=
      Bool.eq_false_iff.mpr fun hh => ht.ne_root hl (ht.contains_root.mp hh)
    rw [ht.lineage_root, List.find?_cons_of_pos (by simp [hlive _ _ ht.root_link, hout]), hout]
    rfl
  · intro c q x hlc ih
    rw [ht.lineage_of_link? hlc]
    cases hc : t.contains h c with
    | false =>
      rw [List.find?_cons_of_pos (by simp [hlive _ _ hlc, hc])]
      rfl
    | true =>
      -- What went is `h`, and its directory stays, or its directory went as well.
      rw [List.find?_cons_of_neg (by simp [hlive _ _ hlc, hc]), ih]
      rcases (ht.contains_of_link? hlc).mp hc with rfl | hq
      · obtain ⟨rfl, hp⟩ := Prod.mk.inj (Option.some.inj (hl.symm.trans hlc))
        obtain rfl := Option.some.inj hp
        simp
      · simp [hq]

end Tree

namespace Session

variable {s : Session}

/-- The nodes that are kept are those on the way to home. -/
theorem Sound.isProtected_iff (hs : s.Sound) {h : Handle} {link : String × Option Handle}
    (hl : s.tree.link? h = some link) : s.isProtected h = true ↔
      s.tree.segmentsOf h ∈ [[], ["home"], homeNames s.user] := by
  obtain ⟨link', hl'⟩ := Tree.link?_of_isDirectory hs.home_isDirectory
  have hp : s.isProtected h = true ↔ s.tree.segmentsOf h <+: homeNames s.user := by
    rw [← hs.contains_home, ← hs.home_segments]
    exact ⟨hs.linked.prefix_of_contains hl', hs.linked.contains_of_prefix hl hl'⟩
  rw [hp, ← List.mem_inits]
  rfl

theorem rm_ok_iff {path : String} {recursive : Bool} : (s.rm path recursive).1 = .ok () ↔
    ∃ n, s.resolve path = .ok n ∧ s.isProtected n = false ∧ Path.endsInDots path = false ∧
      (s.tree.isDirectory n = false ∨ recursive = true) := by
  rw [rm]
  cases s.resolve path with
  | error e => simp
  | ok n =>
    cases hp : s.isProtected n <;> cases hd : Path.endsInDots path <;>
      cases hn : s.tree.isDirectory n <;> cases recursive <;> simp [hp, hn]

/-- What a removal leaves, where it succeeds. -/
theorem rm_of_ok {path : String} {recursive : Bool} {n : Handle} (hr : s.resolve path = .ok n)
    (hok : (s.rm path recursive).1 = .ok ()) : (s.rm path recursive).2 =
      { s with
        tree := (s.tree.remove n).2
        cwd := if s.tree.contains n s.cwd then (s.tree.parent? n).getD s.home else s.cwd } := by
  obtain ⟨m, hm, hp, hdots, hd⟩ := rm_ok_iff.mp hok
  obtain rfl : n = m := Except.ok.inj (hr.symm.trans hm)
  rcases hd with hd | hd <;> simp [rm, hr, hp, hdots, hd]

/-- A removal succeeds exactly where the path leads to a node that is not the root, the
directory of all homes or home, its text does not end in dots, and a directory is removed with
all below it; where only that protection or the dots stand in the way, it is refused. It takes
from the map what lies at or below the node, leaves every other node its names and what it
holds, and the session stays in its working directory or goes to the nearest one above it that
is left. -/
theorem rm_takes_one_subtree {s : Session} (hs : s.Reachable) (path : String)
    (recursive : Bool) :
    ((s.rm path recursive).1 = .ok () ↔ ∃ n, s.resolve path = .ok n ∧
      s.tree.segmentsOf n ∉ [[], ["home"], homeNames s.user] ∧
      Path.lastPart (Path.withoutSlashes path) ∉ [".", ".."] ∧
      (s.tree.isDirectory n = false ∨ recursive = true)) ∧
    ∀ n, s.resolve path = .ok n →
      (s.tree.segmentsOf n ∈ [[], ["home"], homeNames s.user] ∨
          Path.lastPart (Path.withoutSlashes path) ∈ [".", ".."] →
        (s.rm path recursive).1 = .error (.operationRefused path)) ∧
      ((s.rm path recursive).1 = .ok () →
        (∀ names, (s.rm path recursive).2.tree.kindAt names =
          if s.tree.segmentsOf n <+: names then none else s.tree.kindAt names) ∧
        (∀ h, (s.tree.node? h).isSome →
          if s.tree.segmentsOf n <+: s.tree.segmentsOf h then
            (s.rm path recursive).2.tree.node? h = none
          else
            (s.rm path recursive).2.tree.IsAt (s.tree.segmentsOf h) h ∧
              (s.rm path recursive).2.tree.kind? h = s.tree.kind? h) ∧
        (s.tree.lineage s.cwd).find?
            (fun h => ((s.rm path recursive).2.tree.node? h).isSome) =
          some (s.rm path recursive).2.cwd) := by
  have hsound := hs.sound
  have ht := hsound.linked
  refine ⟨?_, fun n hr => ⟨fun hno => ?_, fun hok => ?_⟩⟩
  · rw [rm_ok_iff]
    refine exists_congr fun n => and_congr_right fun hr => ?_
    obtain ⟨link, hl⟩ := (ht.segmentsOf_of_walk (resolve_eq_ok hr)).1
    rw [← hsound.isProtected_iff hl, ← Path.endsInDots_iff, Bool.not_eq_true, Bool.not_eq_true]
  · obtain ⟨link, hl⟩ := (ht.segmentsOf_of_walk (resolve_eq_ok hr)).1
    rw [← hsound.isProtected_iff hl, ← Path.endsInDots_iff] at hno
    simp [rm, hr, hno]
  · obtain ⟨m, hm, hp, -⟩ := rm_ok_iff.mp hok
    obtain rfl : n = m := Except.ok.inj (hr.symm.trans hm)
    obtain ⟨name, p, hl⟩ := link?_of_resolve ht hr hp
    obtain ⟨lc, hlc⟩ := Tree.link?_of_isDirectory hsound.cwd_isDirectory
    rw [rm_of_ok hr hok, Tree.parent?_of_link? hl, Option.getD_some]
    refine ⟨ht.kindAt_remove hl, fun h hh => ?_, ht.find?_lineage_remove hl hlc⟩
    obtain ⟨lh, hlh⟩ := Tree.isSome_node?_iff.mp hh
    split
    · rename_i hpre
      have hin := ht.contains_of_prefix hl hlh hpre
      simp [ht.node?_remove hl, hin]
    · rename_i hpre
      have hout : s.tree.contains n h = false :=
        Bool.eq_false_iff.mpr fun hin => hpre (ht.prefix_of_contains hlh hin)
      have hlh' : (s.tree.remove n).2.link? h = some lh := by simp [ht.link?_remove hl, hout, hlh]
      have hseg := ht.segmentsOf_of_ages (ht.remove n) ((Tree.Step.remove n).ages ht) hlh hlh'
      refine ⟨⟨Tree.isSome_node?_iff.mpr ⟨lh, hlh'⟩, hseg⟩, ?_⟩
      simp [ht.kind?_remove hl, hout]

/-- The working directory goes with the directory above it; a path with dots behind it is
refused. -/
theorem rm_takes_one_subtree_guest : ∃ s : Session,
    s = run [.mkdir "a/b" true, .cd (some "a/b")] (withHome "guest") ∧ s.Reachable ∧
    s.resolve "../../a/" = .ok 3 ∧ (s.rm "../../a/" true).1 = .ok () ∧
    (s.rm "../../a/" true).2.tree.kindAt ["home", "guest", "a", "b"] = none ∧
    (s.tree.lineage 4).find? (fun h => ((s.rm "../../a/" true).2.tree.node? h).isSome) =
      some (s.rm "../../a/" true).2.cwd ∧
    s.resolve ".././" = .ok 3 ∧
    (s.rm ".././" true).1 = .error (.operationRefused ".././") := by
  obtain ⟨s, he⟩ : ∃ s, s = run [.mkdir "a/b" true, .cd (some "a/b")] (withHome "guest") :=
    ⟨_, rfl⟩
  have hs : s.Reachable := ⟨_, .withHome "guest", _, he⟩
  have hr : s.resolve "../../a/" = .ok 3 := by rw [he]; decide +kernel
  have hdots : s.resolve ".././" = .ok 3 := by rw [he]; decide +kernel
  have hseg : s.tree.segmentsOf 3 = ["home", "guest", "a"] := by rw [he]; decide +kernel
  have hcwd : s.cwd = 4 := by rw [he]; decide +kernel
  have hfree : s.tree.segmentsOf 3 ∉ [[], ["home"], homeNames s.user] := by
    rw [he]
    decide +kernel
  obtain ⟨hiff, hall⟩ := rm_takes_one_subtree hs "../../a/" true
  have hok := hiff.mpr ⟨3, hr, hfree, by decide +kernel, .inr rfl⟩
  obtain ⟨hmap, -, hup⟩ := (hall 3 hr).2 hok
  have hrefused := ((rm_takes_one_subtree hs ".././" true).2 3 hdots).1
  refine ⟨s, he, hs, hr, hok, ?_, hcwd ▸ hup, hdots, hrefused (.inr (by decide +kernel))⟩
  rw [hmap, hseg, if_pos ⟨["b"], rfl⟩]

end Session

end TreeShell
