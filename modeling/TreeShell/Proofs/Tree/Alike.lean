import TreeShell.Proofs.Tree.FreeName
import TreeShell.Proofs.Tree.PathMap

/-! Two trees with the same map from names to kinds, whatever their slots and however they came
about. Handles that the same names lead to are twins, and what is asked of a handle or done with
it has the same answer for its twin and leaves trees with the same map again. -/

namespace TreeShell

/-- The same failure, or two results that correspond. -/
inductive Corresponds {ε α β : Type} (R : α → β → Prop) : Except ε α → Except ε β → Prop
  | error (e : ε) : Corresponds R (.error e) (.error e)
  | ok {a : α} {b : β} : R a b → Corresponds R (.ok a) (.ok b)

namespace Tree

/-- Handles in two trees to which the same names lead. -/
def Twins (t t' : Tree) (h h' : Handle) : Prop :=
  ∃ names, t.walk root names = .ok h ∧ t'.walk root names = .ok h'

structure Alike (t t' : Tree) : Prop where
  linked : t.Linked
  linked' : t'.Linked
  kindAt_eq : t.kindAt = t'.kindAt

theorem Twins.symm {t t' : Tree} {h h' : Handle} (hh : Twins t t' h h') : Twins t' t h' h := by
  obtain ⟨names, hw, hw'⟩ := hh
  exact ⟨names, hw', hw⟩

theorem Alike.symm {t t' : Tree} (ha : Alike t t') : Alike t' t :=
  ⟨ha.linked', ha.linked, ha.kindAt_eq.symm⟩

theorem Twins.root (t t' : Tree) : Twins t t' Tree.root Tree.root :=
  ⟨[], rfl, rfl⟩

/-- Twins are the root, or entries of one name in directories that are twins. -/
theorem Twins.cases {t t' : Tree} {h h' : Handle} (hh : Twins t t' h h') :
    h = Tree.root ∧ h' = Tree.root ∨ ∃ d d' name, Twins t t' d d' ∧
      t.child? d name = some h ∧ t'.child? d' name = some h' := by
  obtain ⟨names, hw, hw'⟩ := hh
  induction names using List.reverseRecOn with
  | nil => exact .inl ⟨(Except.ok.inj hw).symm, (Except.ok.inj hw').symm⟩
  | append_singleton names name _ =>
    obtain ⟨d, hd, hc⟩ := walkFrom_concat_eq_ok.mp hw
    obtain ⟨d', hd', hc'⟩ := walkFrom_concat_eq_ok.mp hw'
    exact .inr ⟨d, d', name, ⟨names, hd, hd'⟩, hc, hc'⟩

namespace Alike

variable {t t' : Tree} {a a' h h' : Handle}

theorem twins_iff (ha : Alike t t') : Twins t t' h h' ↔ (∃ link, t.link? h = some link) ∧
    (∃ link, t'.link? h' = some link) ∧ t.segmentsOf h = t'.segmentsOf h' := by
  constructor
  · rintro ⟨names, hw, hw'⟩
    obtain ⟨hl, hs⟩ := ha.linked.segmentsOf_of_walk hw
    obtain ⟨hl', hs'⟩ := ha.linked'.segmentsOf_of_walk hw'
    exact ⟨hl, hl', hs.trans hs'.symm⟩
  · rintro ⟨⟨l, hl⟩, ⟨l', hl'⟩, hs⟩
    exact ⟨t.segmentsOf h, ha.linked.walk_segmentsOf hl, hs ▸ ha.linked'.walk_segmentsOf hl'⟩

theorem segmentsOf_eq (ha : Alike t t') (hh : Twins t t' h h') :
    t.segmentsOf h = t'.segmentsOf h' :=
  (ha.twins_iff.mp hh).2.2

theorem kind?_eq (ha : Alike t t') (hh : Twins t t' h h') : t.kind? h = t'.kind? h' := by
  obtain ⟨names, hw, hw'⟩ := hh
  rw [← kindAt_of_walk hw, ← kindAt_of_walk hw', ha.kindAt_eq]

theorem isDirectory_eq (ha : Alike t t') (hh : Twins t t' h h') :
    t.isDirectory h = t'.isDirectory h' := by
  rw [isDirectory_eq_kind?, isDirectory_eq_kind?, ha.kind?_eq hh]

theorem content?_eq (ha : Alike t t') (hh : Twins t t' h h') : t.content? h = t'.content? h' :=
  Option.ext fun content => by rw [content?_eq_some_iff, content?_eq_some_iff, ha.kind?_eq hh]

/-- What names lead to in one tree has a twin in the other. -/
theorem exists_twin (ha : Alike t t') {names : List String} (hw : t.walk root names = .ok h) :
    ∃ h', t'.walk root names = .ok h' := by
  obtain ⟨kind, hk⟩ := exists_kind?_iff.mpr (ha.linked.segmentsOf_of_walk hw).1
  have hk' : t'.kindAt names = some kind := by rw [← ha.kindAt_eq, kindAt_of_walk hw, hk]
  obtain ⟨h', hw', -⟩ := exists_walk_of_kindAt hk'
  exact ⟨h', hw'⟩

theorem exists_child (ha : Alike t t') (hh : Twins t t' h h') {name : String} {c : Handle}
    (hc : t.child? h name = some c) : ∃ c', t'.child? h' name = some c' ∧ Twins t t' c c' := by
  obtain ⟨names, hw, hw'⟩ := hh
  have hwc : t.walk root (names ++ [name]) = .ok c := walkFrom_concat_eq_ok.mpr ⟨h, hw, hc⟩
  obtain ⟨c', hwc'⟩ := ha.exists_twin hwc
  obtain ⟨d, hd, hc'⟩ := walkFrom_concat_eq_ok.mp hwc'
  obtain rfl : h' = d := Except.ok.inj (hw'.symm.trans hd)
  exact ⟨c', hc', names ++ [name], hwc, hwc'⟩

theorem child? (ha : Alike t t') (hh : Twins t t' h h') (name : String) :
    Option.Rel (Twins t t') (t.child? h name) (t'.child? h' name) := by
  cases hc : t.child? h name with
  | some c =>
    obtain ⟨c', hc', hcc⟩ := ha.exists_child hh hc
    rw [hc']
    exact .some hcc
  | none =>
    cases hc' : t'.child? h' name with
    | none => exact .none
    | some c' =>
      obtain ⟨c, hc₁, _⟩ := ha.symm.exists_child hh.symm hc'
      simp [hc] at hc₁

theorem child?_eq_none_iff (ha : Alike t t') (hh : Twins t t' h h') {name : String} :
    t.child? h name = none ↔ t'.child? h' name = none := by
  have hc := ha.child? hh name
  generalize t.child? h name = x, t'.child? h' name = x' at hc
  cases hc <;> simp

theorem walkFrom (ha : Alike t t') (hh : Twins t t' h h') (index : Nat) (names : List String) :
    Corresponds (Twins t t') (t.walkFrom index h names) (t'.walkFrom index h' names) := by
  induction names generalizing index h h' with
  | nil => exact .ok hh
  | cons name names ih =>
    rw [walkFrom_cons, walkFrom_cons, ha.isDirectory_eq hh]
    split
    · have hc := ha.child? hh name
      generalize t.child? h name = x, t'.child? h' name = x' at hc
      cases hc with
      | none => exact .error _
      | some hc => exact ih hc (index + 1)
    · exact .error _

theorem parent? (ha : Alike t t') (hh : Twins t t' h h') :
    Option.Rel (Twins t t') (t.parent? h) (t'.parent? h') := by
  rcases hh.cases with ⟨rfl, rfl⟩ | ⟨d, d', name, hd, hc, hc'⟩
  · rw [parent?_of_link? ha.linked.root_link, parent?_of_link? ha.linked'.root_link]
    exact .none
  · rw [parent?_of_link? (ha.linked.down hc), parent?_of_link? (ha.linked'.down hc')]
    exact .some hd

theorem name_eq (ha : Alike t t') (hh : Twins t t' h h') :
    (t.link? h).map Prod.fst = (t'.link? h').map Prod.fst := by
  rcases hh.cases with ⟨rfl, rfl⟩ | ⟨d, d', name, hd, hc, hc'⟩
  · rw [ha.linked.root_link, ha.linked'.root_link]
  · rw [ha.linked.down hc, ha.linked'.down hc']
    rfl

theorem contains_eq (ha : Alike t t') (hk : Twins t t' a a') (hh : Twins t t' h h') :
    t.contains a h = t'.contains a' h' := by
  obtain ⟨⟨l, hl⟩, ⟨l', hl'⟩, hs⟩ := ha.twins_iff.mp hk
  obtain ⟨⟨m, hm⟩, ⟨m', hm'⟩, hs'⟩ := ha.twins_iff.mp hh
  rw [Bool.eq_iff_iff]
  constructor
  · intro hc
    have hp := ha.linked.prefix_of_contains hm hc
    exact ha.linked'.contains_of_prefix hl' hm' (hs ▸ hs' ▸ hp)
  · intro hc
    have hp := ha.linked'.prefix_of_contains hm' hc
    exact ha.linked.contains_of_prefix hl hm (hs ▸ hs' ▸ hp)

/-- Directories that are twins list the same names. -/
theorem map_fst_entries_eq (ha : Alike t t') (hh : Twins t t' h h') :
    (t.entries h).map Prod.fst = (t'.entries h').map Prod.fst := by
  have hsorted : ∀ (u : Tree) d, ((u.entries d).map Prod.fst).Pairwise (· < ·) :=
    fun u d => List.pairwise_map.mpr (u.entries_sorted d)
  have hmem : ∀ {u : Tree} {d : Handle} {name : String},
      name ∈ (u.entries d).map Prod.fst ↔ u.child? d name ≠ none := by
    intro u d name
    simp [Option.ne_none_iff_exists', mem_entries_iff]
  refine (hsorted t h).eq_of_mem_iff (hsorted t' h') fun name => ?_
  rw [hmem, hmem]
  exact not_congr (ha.child?_eq_none_iff hh)

/-- What is said of the entries by their names and by whether they are directories. -/
theorem map_entries_eq {α : Type} (ha : Alike t t') (hh : Twins t t' h h')
    (f : String → Bool → α) :
    ((t.entries h).map fun (name, c) => f name (t.isDirectory c)) =
      (t'.entries h').map fun (name, c) => f name (t'.isDirectory c) := by
  have hnames : ∀ (u : Tree) d, ((u.entries d).map fun (name, c) => f name (u.isDirectory c)) =
      ((u.entries d).map Prod.fst).map fun name =>
        f name ((u.child? d name).any u.isDirectory) := by
    intro u d
    rw [List.map_map]
    refine List.map_congr_left fun ⟨name, c⟩ hm => ?_
    simp [mem_entries_iff.mp hm]
  have hany : ∀ name, (t.child? h name).any t.isDirectory =
      (t'.child? h' name).any t'.isDirectory := by
    intro name
    have hc := ha.child? hh name
    generalize t.child? h name = x, t'.child? h' name = x' at hc
    cases hc with
    | none => rfl
    | some hc => exact ha.isDirectory_eq hc
  rw [hnames, hnames, ha.map_fst_entries_eq hh]
  simp only [hany]

theorem freeName?_eq (ha : Alike t t') (hh : Twins t t' h h') (name : String) :
    t.freeName? h name = t'.freeName? h' name := by
  obtain ⟨n, hn, hfree, hmin⟩ := ha.linked.freeName?_eq h name
  obtain ⟨n', hn', hfree', hmin'⟩ := ha.linked'.freeName?_eq h' name
  have hle : ¬ n' < n := fun hlt => hmin n' hlt ((ha.child?_eq_none_iff hh).mpr hfree')
  have hge : ¬ n < n' := fun hlt => hmin' n hlt ((ha.child?_eq_none_iff hh).mp hfree)
  have he : n = n' := by omega
  rw [hn, hn', he]

theorem existingPart (ha : Alike t t') (hh : Twins t t' h h') (names : List String) :
    Corresponds (fun r r' => Twins t t' r.1 r'.1 ∧ r.2 = r'.2) (t.existingPart h names)
      (t'.existingPart h' names) := by
  induction names generalizing h h' with
  | nil => exact .ok ⟨hh, rfl⟩
  | cons name names ih =>
    rw [Tree.existingPart, Tree.existingPart]
    have hc := ha.child? hh name
    generalize t.child? h name = x, t'.child? h' name = x' at hc
    cases hc with
    | none => exact .ok ⟨hh, rfl⟩
    | some hc =>
      dsimp only
      rw [ha.isDirectory_eq hc]
      split
      · exact ih hc
      · exact .error names

end Alike

/-- Handles that keep their nodes stay twins. -/
theorem Twins.of_ages {t t' u u' : Tree} {h h' : Handle} (ha : Alike t t') (hu : Alike u u')
    (hh : Twins t t' h h') (hg : Ages t u) (hg' : Ages t' u')
    (hl : ∃ link, u.link? h = some link) (hl' : ∃ link, u'.link? h' = some link) :
    Twins u u' h h' := by
  obtain ⟨⟨l, hlt⟩, ⟨l', hlt'⟩, hs⟩ := ha.twins_iff.mp hh
  refine hu.twins_iff.mpr ⟨hl, hl', ?_⟩
  obtain ⟨m, hm⟩ := hl
  obtain ⟨m', hm'⟩ := hl'
  rw [ha.linked.segmentsOf_of_ages hu.linked hg hlt hm,
    ha.linked'.segmentsOf_of_ages hu.linked' hg' hlt' hm', hs]

/-- Two changes that add nodes and leave trees with the same map, and their answers. -/
structure GrowAlike (t t' : Tree) (r r' : Option Handle × Tree) : Prop where
  grows : Grows t r.2
  grows' : Grows t' r'.2
  alike : Alike r.2 r'.2
  twins : Option.Rel (Twins r.2 r'.2) r.1 r'.1

theorem Twins.of_grows {t t' u u' : Tree} {h h' : Handle} (ha : Alike t t') (hu : Alike u u')
    (hh : Twins t t' h h') (hg : Grows t u) (hg' : Grows t' u') : Twins u u' h h' := by
  obtain ⟨⟨l, hl⟩, ⟨l', hl'⟩, _⟩ := ha.twins_iff.mp hh
  exact hh.of_ages ha hu (hg.leads.ages ha.linked) (hg'.leads.ages ha.linked')
    ⟨l, (hg.link? hl).1⟩ ⟨l', (hg'.link? hl').1⟩

namespace Alike

variable {t t' : Tree} {h h' : Handle}

theorem create (ha : Alike t t') (hh : Twins t t' h h') (name : String) (kind : Kind) :
    GrowAlike t t' (t.create h name kind) (t'.create h' name kind) := by
  have hd := ha.isDirectory_eq hh
  have hc : t.child? h name = none ↔ t'.child? h' name = none := ha.child?_eq_none_iff hh
  by_cases hv : t.isDirectory h = true ∧ t.child? h name = none
  · obtain ⟨hp, hfree⟩ := hv
    have hp' := hd ▸ hp
    have hfree' := hc.mp hfree
    have hu : Alike (t.attach h name kind) (t'.attach h' name kind) := by
      refine ⟨ha.linked.attach hp hfree, ha.linked'.attach hp' hfree', ?_⟩
      rw [ha.linked.kindAt_attach hp hfree, ha.linked'.kindAt_attach hp' hfree',
        ha.segmentsOf_eq hh, ha.kindAt_eq]
    have hnew : ∀ (u : Tree) p, ∃ link, (u.attach p name kind).link? u.slots.size = some link :=
      fun u p => ⟨(name, some p), by rw [link?_attach, if_pos rfl]⟩
    rw [create_of_vacant kind hp hfree, create_of_vacant kind hp' hfree']
    refine ⟨.single (.attach kind hp hfree), .single (.attach kind hp' hfree'), hu, .some ?_⟩
    refine hu.twins_iff.mpr ⟨hnew t h, hnew t' h', ?_⟩
    rw [ha.linked.segmentsOf_attach_new hp hfree, ha.linked'.segmentsOf_attach_new hp' hfree',
      ha.segmentsOf_eq hh]
  · have hr : t.create h name kind = (none, t) :=
      (t.create_cases h name kind).resolve_right fun ⟨hp, hfree, _⟩ => hv ⟨hp, hfree⟩
    have hr' : t'.create h' name kind = (none, t') :=
      (t'.create_cases h' name kind).resolve_right fun ⟨hp, hfree, _⟩ =>
        hv ⟨hd ▸ hp, hc.mpr hfree⟩
    rw [hr, hr']
    exact ⟨.refl, .refl, ha, .none⟩

theorem createChain (ha : Alike t t') (hh : Twins t t' h h') (names : List String) :
    GrowAlike t t' (t.createChain h names) (t'.createChain h' names) := by
  induction names generalizing t t' h h' with
  | nil => exact ⟨.refl, .refl, ha, .some hh⟩
  | cons name names ih =>
    have hc := ha.create hh name .directory
    rw [Tree.createChain, Tree.createChain]
    generalize t.create h name .directory = r, t'.create h' name .directory = r' at hc
    obtain ⟨answer, u⟩ := r
    obtain ⟨answer', u'⟩ := r'
    obtain ⟨hg, hg', hu, ht⟩ := hc
    cases ht with
    | none => exact ⟨hg, hg', hu, .none⟩
    | some hcc =>
      obtain ⟨hm, hm', hv, ht⟩ := ih hu hcc
      exact ⟨hg.trans hm, hg'.trans hm', hv, ht⟩

theorem modifyContent (ha : Alike t t') (hh : Twins t t' h h') (f : Content → Content) :
    Alike (t.modifyContent h f) (t'.modifyContent h' f) := by
  obtain ⟨⟨l, hl⟩, ⟨l', hl'⟩, hs⟩ := ha.twins_iff.mp hh
  refine ⟨ha.linked.modifyContent h f, ha.linked'.modifyContent h' f, ?_⟩
  rw [ha.linked.kindAt_modifyContent hl, ha.linked'.kindAt_modifyContent hl', hs,
    ha.kind?_eq hh, ha.kindAt_eq]

theorem remove (ha : Alike t t') (hh : Twins t t' h h') :
    Alike (t.remove h).2 (t'.remove h').2 := by
  refine ⟨ha.linked.remove h, ha.linked'.remove h', ?_⟩
  rcases hh.cases with ⟨rfl, rfl⟩ | ⟨d, d', name, hd, hc, hc'⟩
  · have hroot : ∀ {u : Tree}, u.Linked → u.remove root = (false, u) := fun hu => by
      simp only [Tree.remove, hu.root_link]
    rw [hroot ha.linked, hroot ha.linked']
    exact ha.kindAt_eq
  · funext names
    rw [ha.linked.kindAt_remove (ha.linked.down hc), ha.linked'.kindAt_remove (ha.linked'.down hc'),
      ha.segmentsOf_eq hh, ha.kindAt_eq]

end Alike

end Tree

end TreeShell
