import TreeShell.Proofs.Tree.Runs

/-! Going down by names and going up by parents are inverse to each other in a linked tree: each
node has one list of names, and containment is the prefix order on those lists. -/

namespace TreeShell.Tree

variable {t : Tree}

theorem walkFrom_cons {index : Nat} {h : Handle} {name : String} {names : List String} :
    t.walkFrom index h (name :: names) =
      if t.isDirectory h = true then
        match t.child? h name with
        | none => .error (.missing index)
        | some c => t.walkFrom (index + 1) c names
      else .error (.notDirectory (index - 1)) := by
  rw [walkFrom, isDirectory_eq_isSome, child?]
  cases t.entries? h with
  | none => rfl
  | some entries => cases hc : entries[name]? <;> simp [hc]

theorem walkFrom_cons_eq_ok {index : Nat} {h c : Handle} {name : String} {names : List String} :
    t.walkFrom index h (name :: names) = .ok c ↔
      ∃ d, t.child? h name = some d ∧ t.walkFrom (index + 1) d names = .ok c := by
  rw [walkFrom, child?]
  cases t.entries? h with
  | none => simp
  | some entries => cases hd : entries[name]? <;> simp [hd]

theorem walkFrom_append_eq_ok {names more : List String} {index : Nat} {h c : Handle} :
    t.walkFrom index h (names ++ more) = .ok c ↔ ∃ d,
      t.walkFrom index h names = .ok d ∧ t.walkFrom (index + names.length) d more = .ok c := by
  induction names generalizing index h with
  | nil => simp [walkFrom]
  | cons x names ih =>
    simp only [List.cons_append, walkFrom_cons_eq_ok, ih, List.length_cons,
      Nat.add_right_comm index 1, ← Nat.add_assoc]
    constructor
    · rintro ⟨b, hb, d, hd, hc⟩
      exact ⟨d, ⟨b, hb, hd⟩, hc⟩
    · rintro ⟨d, ⟨b, hb, hd⟩, hc⟩
      exact ⟨b, hb, d, hd, hc⟩

theorem walkFrom_concat_eq_ok {names : List String} {name : String} {index : Nat}
    {h c : Handle} : t.walkFrom index h (names ++ [name]) = .ok c ↔
      ∃ d, t.walkFrom index h names = .ok d ∧ t.child? d name = some c := by
  simp only [walkFrom_append_eq_ok, walkFrom_cons_eq_ok]
  simp [walkFrom]

/-- A walk that does not arrive stops in a node that some first names lead to: a directory
without the next name, or a file. -/
theorem walkFrom_cases (t : Tree) (index : Nat) (h : Handle) (names : List String) :
    (∃ c, t.walkFrom index h names = .ok c) ∨
    ∃ front name rest d, names = front ++ name :: rest ∧ t.walkFrom index h front = .ok d ∧
      (t.isDirectory d = true ∧ t.child? d name = none ∧
          t.walkFrom index h names = .error (.missing (index + front.length)) ∨
        t.isDirectory d = false ∧
          t.walkFrom index h names = .error (.notDirectory (index + front.length - 1))) := by
  induction names generalizing index h with
  | nil => exact .inl ⟨h, rfl⟩
  | cons name names ih =>
    rw [walkFrom_cons]
    by_cases hd : t.isDirectory h = true
    · rw [if_pos hd]
      cases hc : t.child? h name with
      | none => exact .inr ⟨[], name, names, h, rfl, rfl, .inl ⟨hd, hc, rfl⟩⟩
      | some c =>
        obtain hok | ⟨front, x, rest, d, hn, hw, hstop⟩ := ih (index + 1) c
        · exact .inl hok
        · have hfront : t.walkFrom index h (name :: front) = .ok d :=
            walkFrom_cons_eq_ok.mpr ⟨c, hc, hw⟩
          have hlen : index + (name :: front).length = index + 1 + front.length := by
            simp only [List.length_cons]
            omega
          refine .inr ⟨name :: front, x, rest, d, by rw [hn, List.cons_append], hfront, ?_⟩
          rw [hlen]
          exact hstop
    · have hfile : t.isDirectory h = false := Bool.eq_false_iff.mpr hd
      rw [if_neg hd]
      exact .inr ⟨[], name, names, h, rfl, rfl, .inr ⟨hfile, rfl⟩⟩

namespace Linked

theorem segmentsOf_of_walk (ht : t.Linked) {names : List String} {h : Handle}
    (hw : t.walk Tree.root names = .ok h) :
    (∃ link, t.link? h = some link) ∧ t.segmentsOf h = names := by
  induction names using List.reverseRecOn generalizing h with
  | nil =>
    obtain rfl : Tree.root = h := by simpa [walk, walkFrom] using hw
    exact ⟨⟨_, ht.root_link⟩, ht.segmentsOf_root⟩
  | append_singleton names name ih =>
    obtain ⟨d, hd, hc⟩ := walkFrom_concat_eq_ok.mp hw
    have hl := ht.down hc
    exact ⟨⟨_, hl⟩, by rw [ht.segmentsOf_of_link? hl, (ih hd).2]⟩

theorem walk_segmentsOf (ht : t.Linked) {h : Handle} {link : String × Option Handle}
    (hl : t.link? h = some link) : t.walk Tree.root (t.segmentsOf h) = .ok h := by
  refine ht.induction_down (motive := fun h => t.walk Tree.root (t.segmentsOf h) = .ok h)
    ?_ ?_ hl
  · rw [ht.segmentsOf_root]
    rfl
  · intro c p name hlc ih
    rw [ht.segmentsOf_of_link? hlc]
    exact walkFrom_concat_eq_ok.mpr ⟨p, ih, ht.child?_eq_some_iff.mpr hlc⟩

theorem walk_eq_ok_iff (ht : t.Linked) {names : List String} {h : Handle} :
    t.walk Tree.root names = .ok h ↔ (∃ link, t.link? h = some link) ∧ t.segmentsOf h = names := by
  refine ⟨ht.segmentsOf_of_walk, ?_⟩
  rintro ⟨⟨link, hl⟩, rfl⟩
  exact ht.walk_segmentsOf hl

theorem segmentsOf_injective (ht : t.Linked) {a b : Handle} {la lb : String × Option Handle}
    (ha : t.link? a = some la) (hb : t.link? b = some lb)
    (he : t.segmentsOf a = t.segmentsOf b) : a = b := by
  have hh := (ht.walk_segmentsOf ha).symm.trans (he ▸ ht.walk_segmentsOf hb)
  exact Except.ok.inj hh

theorem prefix_of_contains (ht : t.Linked) {a b : Handle} {lb : String × Option Handle}
    (hb : t.link? b = some lb) (hab : t.contains a b = true) :
    t.segmentsOf a <+: t.segmentsOf b := by
  revert hab
  refine ht.induction_down
    (motive := fun b => t.contains a b = true → t.segmentsOf a <+: t.segmentsOf b) ?_ ?_ hb
  · intro hr
    rw [ht.contains_root.mp hr]
  · intro c p name hlc ih hc
    rcases (ht.contains_of_link? hlc).mp hc with rfl | hp
    · exact List.prefix_refl _
    · rw [ht.segmentsOf_of_link? hlc]
      exact (ih hp).trans (List.prefix_append _ _)

theorem contains_of_prefix (ht : t.Linked) {a b : Handle} {la lb : String × Option Handle}
    (ha : t.link? a = some la) (hb : t.link? b = some lb)
    (hab : t.segmentsOf a <+: t.segmentsOf b) : t.contains a b = true := by
  revert hab
  refine ht.induction_down
    (motive := fun b => t.segmentsOf a <+: t.segmentsOf b → t.contains a b = true) ?_ ?_ hb
  · intro hr
    rw [ht.segmentsOf_root, List.prefix_nil, ← ht.segmentsOf_root] at hr
    exact ht.contains_root.mpr (ht.segmentsOf_injective ha ht.root_link hr)
  · intro c p name hlc ih hc
    rw [ht.segmentsOf_of_link? hlc, List.prefix_concat_iff] at hc
    refine (ht.contains_of_link? hlc).mpr (hc.imp (fun he => ?_) ih)
    exact ht.segmentsOf_injective ha hlc (by rw [he, ht.segmentsOf_of_link? hlc])

/-- A node that stays keeps its names. -/
theorem segmentsOf_of_ages {t' : Tree} (ht : t.Linked) (ht' : t'.Linked) (ha : Ages t t')
    {h : Handle} {link link' : String × Option Handle} (hl : t.link? h = some link)
    (hl' : t'.link? h = some link') : t'.segmentsOf h = t.segmentsOf h := by
  revert hl'
  refine ht.induction_down (motive := fun h => ∀ {link'}, t'.link? h = some link' →
    t'.segmentsOf h = t.segmentsOf h) ?_ ?_ hl
  · intro _ _
    rw [ht.segmentsOf_root, ht'.segmentsOf_root]
  · intro c p name hlc ih link' hl'
    obtain rfl := (ha.link_eq hlc hl').1
    obtain ⟨lp, hlp⟩ := ht'.parent_link hl'
    rw [ht.segmentsOf_of_link? hlc, ht'.segmentsOf_of_link? hl', ih hlp]

end Linked

/-- In every tree that operations build, the names of a node and the walk along names from the
root are inverse, and a node contains another if its names are the beginning of the other's. -/
theorem walk_segmentsOf_bijection (ops : List Operation) :
    (∀ names h, (run ops empty).walk root names = .ok h ↔
      ((run ops empty).node? h).isSome ∧ (run ops empty).segmentsOf h = names) ∧
    ∀ a b, ((run ops empty).node? a).isSome → ((run ops empty).node? b).isSome →
      ((run ops empty).contains a b = true ↔
        (run ops empty).segmentsOf a <+: (run ops empty).segmentsOf b) := by
  have ht := (leads_run ops empty).linked .empty
  simp only [isSome_node?_iff]
  refine ⟨fun names h => ht.walk_eq_ok_iff, ?_⟩
  rintro a b ⟨la, ha⟩ ⟨lb, hb⟩
  exact ⟨ht.prefix_of_contains hb, ht.contains_of_prefix ha hb⟩

theorem contains_nested_directory :
    ((run [.createDirectories ["a", "b"]] empty).node? 1).isSome ∧
    ((run [.createDirectories ["a", "b"]] empty).node? 2).isSome ∧
    ((run [.createDirectories ["a", "b"]] empty).contains 1 2 = true ↔
      (run [.createDirectories ["a", "b"]] empty).segmentsOf 1 <+:
        (run [.createDirectories ["a", "b"]] empty).segmentsOf 2) := by
  have ha : ((run [.createDirectories ["a", "b"]] empty).node? 1).isSome := by cbv
  have hb : ((run [.createDirectories ["a", "b"]] empty).node? 2).isSome := by cbv
  exact ⟨ha, hb, (walk_segmentsOf_bijection _).2 1 2 ha hb⟩

end TreeShell.Tree
