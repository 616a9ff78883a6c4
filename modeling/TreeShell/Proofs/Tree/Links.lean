import Mathlib
import TreeShell.Tree.Change

/-! A link between a directory and its entry is kept at both ends. In a linked tree the ends
agree and every parent is older than what it holds, so that the way up ends at the root.
New entries and new contents keep a tree linked. -/

namespace TreeShell.Tree

/-- Entries and parents agree, and the root alone has no parent. -/
structure Linked (t : Tree) : Prop where
  root_isDirectory : t.isDirectory root = true
  root_link : t.link? root = some ("", none)
  /-- What is not the root is, under its name, an entry of an older directory. -/
  up : ∀ {h name parent}, t.link? h = some (name, parent) → h ≠ root →
    ∃ p, parent = some p ∧ p < h ∧ t.child? p name = some h
  /-- The node of an entry knows its name and the directory it is in. -/
  down : ∀ {d name c}, t.child? d name = some c → t.link? c = some (name, some d)

theorem link?_eq_none_of_size_le {t : Tree} {h : Handle} (hh : t.slots.size ≤ h) :
    t.link? h = none := by
  simp [link?, node?, hh]

theorem child?_of_isDirectory_eq_false {t : Tree} {d : Handle} (hd : t.isDirectory d = false)
    (name : String) : t.child? d name = none := by
  cases hc : t.child? d name with
  | none => rfl
  | some c => simp [isDirectory_of_child? hc] at hd

theorem lt_size_of_isDirectory {t : Tree} {d : Handle} (hd : t.isDirectory d = true) :
    d < t.slots.size := by
  obtain ⟨entries, he⟩ := isDirectory_iff.mp hd
  obtain ⟨n, hn, _⟩ := Option.bind_eq_some_iff.mp he
  exact lt_size_of_node? hn

theorem link?_of_isDirectory {t : Tree} {d : Handle} (hd : t.isDirectory d = true) :
    ∃ link, t.link? d = some link := by
  obtain ⟨entries, he⟩ := isDirectory_iff.mp hd
  obtain ⟨n, hn, _⟩ := Option.bind_eq_some_iff.mp he
  exact ⟨n.link, by simp [link?, hn]⟩

section Attach

variable {t : Tree} {p i d : Handle} {name x : String} {kind : Kind}

theorem link?_attach : (t.attach p name kind).link? i =
    if i = t.slots.size then some (name, some p) else t.link? i := by
  rw [attach, link?_modify, link?_push]
  rfl

theorem isDirectory_attach (hp : t.isDirectory p = true) :
    (t.attach p name kind).isDirectory i =
      if i = t.slots.size then decide (kind = .directory) else t.isDirectory i := by
  have hlt := lt_size_of_isDirectory hp
  simp only [isDirectory_eq_isSome, attach, entries?_modify_mapEntries, entries?_push] at hp ⊢
  by_cases hi : i = p
  · subst hi
    simp [hp, Nat.ne_of_lt hlt]
  · by_cases hs : i = t.slots.size
    · subst hs
      cases kind <;> simp [hi, Node.entries?, Kind.payload]
    · simp [hi, hs]

theorem child?_attach (hp : t.isDirectory p = true) :
    (t.attach p name kind).child? d x =
      if d = p ∧ x = name then some t.slots.size else t.child? d x := by
  have hlt := lt_size_of_isDirectory hp
  obtain ⟨entries, he⟩ := isDirectory_iff.mp hp
  simp only [child?, attach, entries?_modify_mapEntries, entries?_push]
  by_cases hd : d = p
  · subst hd
    by_cases hx : x = name
    · simp [Nat.ne_of_lt hlt, he, hx]
    · simp [Nat.ne_of_lt hlt, he, hx, Std.ExtTreeMap.getElem?_insert, Ne.symm hx]
  · by_cases hs : d = t.slots.size
    · subst hs
      have hnone : t.entries? t.slots.size = none := by simp [entries?, node?]
      cases kind <;> simp [hd, hnone, Node.entries?, Kind.payload]
    · simp [hd, hs]

theorem content?_attach_file {content : Content} :
    (t.attach p name (.file content)).content? t.slots.size = some content := by
  rw [attach, content?_modify_mapEntries]
  simp [content?, node?_push, Node.content?, Kind.payload]

end Attach

theorem child?_empty (d : Handle) (name : String) : empty.child? d name = none := by
  cases hd : empty.isDirectory d with
  | false => exact child?_of_isDirectory_eq_false hd name
  | true =>
    obtain rfl : d = root := Nat.lt_one_iff.mp (lt_size_of_isDirectory hd)
    simp [child?, entries?, node?_empty_root, Node.entries?]

theorem Linked.empty : empty.Linked where
  root_isDirectory := rfl
  root_link := rfl
  up := by
    intro h name parent hl hh
    exact absurd hl (by rw [link?_eq_none_of_size_le (Nat.one_le_iff_ne_zero.mpr hh)]; simp)
  down := by
    intro d name c hc
    rw [child?_empty] at hc
    cases hc

namespace Linked

variable {t : Tree}

theorem attach (ht : t.Linked) {p : Handle} {name : String} {kind : Kind}
    (hp : t.isDirectory p = true) (hc : t.child? p name = none) :
    (t.attach p name kind).Linked := by
  have hlt := lt_size_of_isDirectory hp
  have hroot : Tree.root ≠ t.slots.size := Nat.ne_of_lt (lt_size_of_isDirectory ht.root_isDirectory)
  refine ⟨?_, ?_, ?_, ?_⟩
  · rw [isDirectory_attach hp, if_neg hroot]
    exact ht.root_isDirectory
  · rw [link?_attach, if_neg hroot]
    exact ht.root_link
  · intro h x parent hl hh
    rw [link?_attach] at hl
    by_cases hs : h = t.slots.size
    · rw [if_pos hs] at hl
      obtain ⟨rfl, rfl⟩ := Prod.mk.inj (Option.some.inj hl)
      exact ⟨p, rfl, hs ▸ hlt, by rw [child?_attach hp, if_pos ⟨rfl, rfl⟩, hs]⟩
    · rw [if_neg hs] at hl
      obtain ⟨q, rfl, hq, hqc⟩ := ht.up hl hh
      refine ⟨q, rfl, hq, ?_⟩
      have hne : ¬ (q = p ∧ x = name) := by
        rintro ⟨rfl, rfl⟩
        simp [hc] at hqc
      rw [child?_attach hp, if_neg hne]
      exact hqc
  · intro d x c hdc
    rw [child?_attach hp] at hdc
    by_cases hd : d = p ∧ x = name
    · rw [if_pos hd] at hdc
      obtain ⟨rfl, rfl⟩ := hd
      rw [link?_attach, if_pos (Option.some.inj hdc).symm]
    · rw [if_neg hd] at hdc
      have hl := ht.down hdc
      -- The slot is new, so that no entry led to it before.
      have hs : c ≠ t.slots.size := by
        rintro rfl
        simp [link?_eq_none_of_size_le] at hl
      rw [link?_attach, if_neg hs]
      exact hl

theorem modifyContent (ht : t.Linked) (h : Handle) (f : Content → Content) :
    (t.modifyContent h f).Linked where
  root_isDirectory := by
    simpa only [Tree.modifyContent, isDirectory_eq_isSome, entries?_modify_mapContent] using
      ht.root_isDirectory
  root_link := by simpa only [Tree.modifyContent, link?_modify] using ht.root_link
  up := by
    simp only [Tree.modifyContent, link?_modify, child?, entries?_modify_mapContent]
    exact ht.up
  down := by
    simp only [Tree.modifyContent, link?_modify, child?, entries?_modify_mapContent]
    exact ht.down

theorem ne_root (ht : t.Linked) {h p : Handle} {name : String}
    (hl : t.link? h = some (name, some p)) : h ≠ Tree.root := by
  rintro rfl
  simp [ht.root_link] at hl

theorem child?_eq_some_iff (ht : t.Linked) {d c : Handle} {name : String} :
    t.child? d name = some c ↔ t.link? c = some (name, some d) := by
  refine ⟨ht.down, fun hl => ?_⟩
  obtain ⟨p, hp, _, hc⟩ := ht.up hl (ht.ne_root hl)
  rw [Option.some.inj hp]
  exact hc

theorem parent_lt (ht : t.Linked) {h p : Handle} {name : String}
    (hl : t.link? h = some (name, some p)) : p < h := by
  obtain ⟨q, hq, hlt, _⟩ := ht.up hl (ht.ne_root hl)
  rw [Option.some.inj hq]
  exact hlt

/-- The parent of a node is a node. -/
theorem parent_link (ht : t.Linked) {h p : Handle} {name : String}
    (hl : t.link? h = some (name, some p)) : ∃ link, t.link? p = some link :=
  link?_of_isDirectory (isDirectory_of_child? (ht.child?_eq_some_iff.mpr hl))

theorem eq_root (ht : t.Linked) {h : Handle} {name : String}
    (hl : t.link? h = some (name, none)) : h = Tree.root := by
  refine Decidable.byContradiction fun hh => ?_
  obtain ⟨p, hp, _⟩ := ht.up hl hh
  cases hp

theorem parent?_lt (ht : t.Linked) {h p : Handle} (hp : t.parent? h = some p) : p < h := by
  rw [parent?_eq_link?] at hp
  obtain ⟨⟨name, parent⟩, hl, hn⟩ := Option.bind_eq_some_iff.mp hp
  obtain rfl : parent = some p := hn
  exact ht.parent_lt hl

/-- The way up is followed to its end: no link is left out for leading to a newer slot. -/
theorem lineage_eq (ht : t.Linked) (h : Handle) :
    t.lineage h = h :: (t.parent? h).elim [] t.lineage := by
  rw [lineage]
  cases hp : t.parent? h with
  | none => rfl
  | some p => simp [ht.parent?_lt hp]

/-- Following parents from any handle comes to an end. -/
theorem climb_ends (ht : t.Linked) (h : Handle) :
    ∃ n, (fun current => current.bind t.parent?)^[n] (some h) = none := by
  induction h using Nat.strongRecOn with
  | _ h ih =>
    cases hp : t.parent? h with
    | none => exact ⟨1, hp⟩
    | some p =>
      obtain ⟨n, hn⟩ := ih p (ht.parent?_lt hp)
      refine ⟨n + 1, ?_⟩
      rw [Function.iterate_succ_apply, Option.bind_some, hp]
      exact hn

theorem lineage_of_link? (ht : t.Linked) {h p : Handle} {name : String}
    (hl : t.link? h = some (name, some p)) : t.lineage h = h :: t.lineage p := by
  rw [ht.lineage_eq, parent?_of_link? hl]
  rfl

theorem lineage_root (ht : t.Linked) : t.lineage Tree.root = [Tree.root] := by
  rw [ht.lineage_eq, parent?_of_link? ht.root_link]
  rfl

/-- Every node is reached from the root by going down one link at a time. -/
theorem induction_down (ht : t.Linked) {motive : Handle → Prop} (hroot : motive Tree.root)
    (hdown : ∀ h p name, t.link? h = some (name, some p) → motive p → motive h) {h : Handle}
    {link : String × Option Handle} (hl : t.link? h = some link) : motive h := by
  induction h using Nat.strongRecOn generalizing link with
  | _ h ih =>
    obtain ⟨name, _ | p⟩ := link
    · exact ht.eq_root hl ▸ hroot
    · obtain ⟨link, hp⟩ := ht.parent_link hl
      exact hdown h p name hl (ih p (ht.parent_lt hl) hp)

theorem segmentsOf_root (ht : t.Linked) : t.segmentsOf Tree.root = [] := by
  obtain ⟨n, hn, hl⟩ := Option.map_eq_some_iff.mp ht.root_link
  have hp : n.parent = none := congrArg Prod.snd hl
  simp [segmentsOf, ht.lineage_root, hn, hp]

theorem segmentsOf_of_link? (ht : t.Linked) {h p : Handle} {name : String}
    (hl : t.link? h = some (name, some p)) : t.segmentsOf h = t.segmentsOf p ++ [name] := by
  obtain ⟨n, hn, hlink⟩ := Option.map_eq_some_iff.mp hl
  have hp : n.parent = some p := congrArg Prod.snd hlink
  have hname : n.name = name := congrArg Prod.fst hlink
  simp [segmentsOf, ht.lineage_of_link? hl, hn, hp, hname]

theorem contains_iff (ht : t.Linked) {a h : Handle} : t.contains a h = true ↔
    a = h ∨ ∃ p, t.parent? h = some p ∧ t.contains a p = true := by
  rw [contains, ht.lineage_eq]
  cases t.parent? h <;> simp [contains]

theorem contains_root (ht : t.Linked) {a : Handle} :
    t.contains a Tree.root = true ↔ a = Tree.root := by
  simp [contains, ht.lineage_root]

theorem contains_of_link? (ht : t.Linked) {a h p : Handle} {name : String}
    (hl : t.link? h = some (name, some p)) :
    t.contains a h = true ↔ a = h ∨ t.contains a p = true := by
  simp [contains, ht.lineage_of_link? hl]

theorem le_of_contains (ht : t.Linked) {a h : Handle} (hc : t.contains a h = true) : a ≤ h := by
  induction h using Nat.strongRecOn with
  | _ h ih =>
    rcases ht.contains_iff.mp hc with rfl | ⟨p, hp, hap⟩
    · exact Nat.le_refl _
    · have hlt := ht.parent?_lt hp
      exact Nat.le_trans (ih p hlt hap) (Nat.le_of_lt hlt)

theorem contains_trans (ht : t.Linked) {a b c : Handle} (hab : t.contains a b = true)
    (hbc : t.contains b c = true) : t.contains a c = true := by
  induction c using Nat.strongRecOn with
  | _ c ih =>
    rcases ht.contains_iff.mp hbc with rfl | ⟨p, hp, hbp⟩
    · exact hab
    · exact ht.contains_iff.mpr (.inr ⟨p, hp, ih p (ht.parent?_lt hp) hbp⟩)

end Linked

end TreeShell.Tree
