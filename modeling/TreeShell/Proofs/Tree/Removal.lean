import TreeShell.Proofs.Tree.Links

/-! Removing a node empties its slot and the slots of the nodes below it, and no others. What
the list of pending handles will take is described on any tree by the entries that lead on from
it; in a linked tree those are the handles whose way up passes the removed node. -/

namespace TreeShell.Tree

/-- What entries lead to from the given handles. -/
inductive Reached (t : Tree) (seeds : List Handle) : Handle → Prop
  | seed {h : Handle} : h ∈ seeds → Reached t seeds h
  | entry {d c : Handle} {name : String} :
    Reached t seeds d → t.child? d name = some c → Reached t seeds c

theorem child?_clear {t : Tree} {h d : Handle} {name : String} :
    (t.clear h).child? d name = if d = h then none else t.child? d name := by
  simp only [child?, entries?_clear]
  split <;> rfl

theorem not_reached_nil {t : Tree} {i : Handle} : ¬ Reached t [] i := by
  intro hi
  induction hi with
  | seed h => cases h
  | entry _ _ ih => exact ih

theorem Reached.of_clear {t : Tree} {h i : Handle} {pending : List Handle}
    (hi : Reached (t.clear h) ((t.childHandles h).reverse ++ pending) i) :
    Reached t (h :: pending) i := by
  induction hi with
  | seed hs =>
    rcases List.mem_append.mp hs with hs | hs
    · obtain ⟨name, hc⟩ := mem_childHandles.mp (List.mem_reverse.mp hs)
      exact .entry (.seed List.mem_cons_self) hc
    · exact .seed (List.mem_cons_of_mem h hs)
  | entry _ hc ih =>
    rw [child?_clear] at hc
    split at hc
    · cases hc
    · exact .entry ih hc

theorem Reached.clear {t : Tree} {h i : Handle} {pending : List Handle}
    (hi : Reached t (h :: pending) i) (hne : i ≠ h) :
    Reached (t.clear h) ((t.childHandles h).reverse ++ pending) i := by
  induction hi with
  | seed hs => exact .seed (List.mem_append_right _ ((List.mem_cons.mp hs).resolve_left hne))
  | @entry d c name _ hc ih =>
    by_cases hd : d = h
    · subst hd
      exact .seed (List.mem_append_left _
        (List.mem_reverse.mpr (mem_childHandles.mpr ⟨name, hc⟩)))
    · exact .entry (ih hd) (by rw [child?_clear, if_neg hd]; exact hc)

open Classical in
/-- The loop over pending handles empties what entries lead to from them. -/
theorem node?_clearAll (t : Tree) (pending : List Handle) (i : Handle) :
    (t.clearAll pending).node? i = if Reached t pending i then none else t.node? i := by
  fun_induction clearAll t pending with
  | case1 => rw [if_neg not_reached_nil]
  | case2 t h pending ih =>
    rw [ih, node?_clear]
    by_cases hi : i = h
    · subst hi
      simp [Reached.seed]
    · by_cases hr : Reached t (h :: pending) i
      · rw [if_pos (hr.clear hi), if_pos hr]
      · rw [if_neg (fun hh => hr hh.of_clear), if_neg hr, if_neg hi]

/-- One round of the loop over pending handles. -/
def clearRound : Tree × List Handle → Tree × List Handle
  | (t, []) => (t, [])
  | (t, h :: pending) => (t.clear h, (t.childHandles h).reverse ++ pending)

/-- On any tree the loop runs out of pending handles. -/
theorem clearRound_ends (t : Tree) (pending : List Handle) :
    ∃ n, clearRound^[n] (t, pending) = (t.clearAll pending, []) := by
  fun_induction clearAll t pending with
  | case1 t => exact ⟨0, rfl⟩
  | case2 t h pending ih =>
    obtain ⟨n, hn⟩ := ih
    exact ⟨n + 1, hn⟩

theorem size_clearAll (t : Tree) (pending : List Handle) :
    (t.clearAll pending).slots.size = t.slots.size := by
  fun_induction clearAll t pending with
  | case1 => rfl
  | case2 t h pending ih => simpa [clear] using ih

theorem child?_detach {t : Tree} {p d : Handle} {name x : String} :
    (t.detach p name).child? d x = if d = p ∧ x = name then none else t.child? d x := by
  simp only [child?, detach, entries?_modify_mapEntries]
  by_cases hd : d = p
  · subst hd
    by_cases hx : x = name
    · cases t.entries? d <;> simp [hx]
    · cases t.entries? d <;> simp [hx, Ne.symm hx, Std.ExtTreeMap.getElem?_erase]
  · simp [hd]

theorem isDirectory_detach {t : Tree} {p i : Handle} {name : String} :
    (t.detach p name).isDirectory i = t.isDirectory i := by
  simp only [isDirectory_eq_isSome, detach, entries?_modify_mapEntries]
  split <;> simp

theorem remove_cases (t : Tree) (h : Handle) :
    t.remove h = (false, t) ∨ ∃ name p, t.link? h = some (name, some p) ∧
      t.remove h = (true, (t.detach p name).clearAll [h]) := by
  unfold remove
  split
  · exact .inr ⟨_, _, ‹_›, rfl⟩
  · exact .inl rfl

theorem remove_of_link? {t : Tree} {h p : Handle} {name : String}
    (hl : t.link? h = some (name, some p)) :
    t.remove h = (true, (t.detach p name).clearAll [h]) := by
  simp only [remove, hl]

theorem contains_self (t : Tree) (h : Handle) : t.contains h h = true := by
  rw [contains, lineage]
  cases t.parent? h with
  | none => simp
  | some p =>
    dsimp only
    split <;> simp

namespace Linked

variable {t : Tree} {h p i d : Handle} {name x : String}

theorem reached_iff_contains (ht : t.Linked) (hl : t.link? h = some (name, some p)) :
    Reached (t.detach p name) [h] i ↔ t.contains h i = true := by
  constructor
  · intro hi
    induction hi with
    | seed hs =>
      rw [List.mem_singleton.mp hs]
      exact t.contains_self h
    | entry _ hc ih =>
      rw [child?_detach] at hc
      split at hc
      · cases hc
      · exact (ht.contains_of_link? (ht.down hc)).mpr (.inr ih)
  · intro hi
    cases hli : t.link? i with
    | none =>
      -- From an empty slot no way leads up: only `i` itself can be meant.
      have hp : t.parent? i = none := by rw [parent?_eq_link?, hli]; rfl
      have he : h = i := by simpa [contains, ht.lineage_eq i, hp] using hi
      exact .seed (by simp [he])
    | some link =>
      revert hi
      refine ht.induction_down
        (motive := fun i => t.contains h i = true → Reached (t.detach p name) [h] i) ?_ ?_ hli
      · intro hi
        exact absurd (ht.contains_root.mp hi) (ht.ne_root hl)
      · intro c q x hlc ih hc
        by_cases hne : h = c
        · exact .seed (by simp [hne])
        · have hq := ((ht.contains_of_link? hlc).mp hc).resolve_left hne
          -- The entry that was taken out is that of `h` and no other.
          have hother : ¬ (q = p ∧ x = name) := by
            rintro ⟨rfl, rfl⟩
            have hh := ht.child?_eq_some_iff.mpr hl
            rw [ht.child?_eq_some_iff.mpr hlc] at hh
            exact hne (Option.some.inj hh).symm
          have hqc : (t.detach p name).child? q x = some c := by
            rw [child?_detach, if_neg hother]
            exact ht.child?_eq_some_iff.mpr hlc
          exact .entry (ih hq) hqc

/-- Removal empties the slots of what the node contains; beside that, its directory loses the
entry. -/
theorem node?_remove (ht : t.Linked) (hl : t.link? h = some (name, some p)) :
    (t.remove h).2.node? i =
      if t.contains h i = true then none else (t.detach p name).node? i := by
  rw [remove_of_link? hl, node?_clearAll]
  simp only [ht.reached_iff_contains hl]

theorem link?_remove (ht : t.Linked) (hl : t.link? h = some (name, some p)) :
    (t.remove h).2.link? i = if t.contains h i = true then none else t.link? i := by
  rw [link?, ht.node?_remove hl]
  split
  · rfl
  · exact link?_modify

theorem entries?_remove (ht : t.Linked) (hl : t.link? h = some (name, some p)) :
    (t.remove h).2.entries? i =
      if t.contains h i = true then none else (t.detach p name).entries? i := by
  rw [entries?, ht.node?_remove hl]
  split <;> rfl

theorem child?_remove (ht : t.Linked) (hl : t.link? h = some (name, some p)) :
    (t.remove h).2.child? d x =
      if t.contains h d = true ∨ d = p ∧ x = name then none else t.child? d x := by
  rw [child?, ht.entries?_remove hl]
  by_cases hd : t.contains h d = true
  · simp [hd]
  · simp only [hd, Bool.false_eq_true, if_false, false_or]
    exact child?_detach

theorem isDirectory_remove (ht : t.Linked) (hl : t.link? h = some (name, some p)) :
    (t.remove h).2.isDirectory i = (!t.contains h i && t.isDirectory i) := by
  rw [isDirectory_eq_isSome, ht.entries?_remove hl]
  cases t.contains h i with
  | true => rfl
  | false => exact (isDirectory_eq_isSome _ i).symm.trans isDirectory_detach

theorem remove (ht : t.Linked) (h : Handle) : (t.remove h).2.Linked := by
  rcases t.remove_cases h with he | ⟨name, p, hl, _⟩
  · rw [he]
    exact ht
  · have hroot : t.contains h Tree.root = false :=
      Bool.eq_false_iff.mpr fun hh => ht.ne_root hl (ht.contains_root.mp hh)
    refine ⟨?_, ?_, ?_, ?_⟩
    · rw [ht.isDirectory_remove hl, hroot]
      exact ht.root_isDirectory
    · rw [ht.link?_remove hl, hroot]
      exact ht.root_link
    · intro c x parent hlc hc
      rw [ht.link?_remove hl] at hlc
      split at hlc
      · cases hlc
      · rename_i hnot
        obtain ⟨q, rfl, hq, hqc⟩ := ht.up hlc hc
        -- A node that stays is not `h`, and what holds it is not below `h`.
        have hor := (not_congr (ht.contains_of_link? hlc)).mp hnot
        refine ⟨q, rfl, hq, ?_⟩
        rw [ht.child?_remove hl, if_neg]
        · exact hqc
        · rintro (hin | ⟨rfl, rfl⟩)
          · exact hor (.inr hin)
          · rw [ht.child?_eq_some_iff.mpr hl] at hqc
            exact hor (.inl (Option.some.inj hqc))
    · intro d x c hc
      rw [ht.child?_remove hl] at hc
      split at hc
      · cases hc
      · rename_i hnot
        have hlc := ht.down hc
        rw [ht.link?_remove hl, if_neg]
        · exact hlc
        · intro hin
          rcases (ht.contains_of_link? hlc).mp hin with rfl | hd
          · rw [hl] at hlc
            obtain ⟨rfl, hp⟩ := Prod.mk.inj (Option.some.inj hlc)
            exact hnot (.inr ⟨(Option.some.inj hp).symm, rfl⟩)
          · exact hnot (.inl hd)

end Linked

end TreeShell.Tree
