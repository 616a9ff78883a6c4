import TreeShell.Proofs.Tree.PathMap

/-! Additions to a tree. Whatever entries are added, every node stays where it was and holds what
it held. Directories that are made along names of which the first lead to a directory are those
made behind it; along names that all lead to directories nothing is made. -/

namespace TreeShell.Tree

/-- Every node stays, under the same names, and is what it was, with the same content. -/
structure Keeps (t t' : Tree) : Prop where
  stays : ∀ {h}, (t.node? h).isSome = true → (t'.node? h).isSome = true
  segmentsOf_eq : ∀ {h}, (t.node? h).isSome = true → t'.segmentsOf h = t.segmentsOf h
  kind?_eq : ∀ {h}, (t.node? h).isSome = true → t'.kind? h = t.kind? h

variable {t t' : Tree}

theorem Adds.kind? {allowed : String → Prop} (ha : Adds allowed t t') {h : Handle}
    {link : String × Option Handle} (hl : t.link? h = some link) : t'.kind? h = t.kind? h := by
  induction ha with
  | refl => rfl
  | tail hr hstep ih =>
    have hlt := lt_size_of_link? ((Adds.grows hr).link? hl).1
    cases hstep with
    | attach kind hp hc _ => rw [kind?_attach, if_neg (Nat.ne_of_lt hlt), ih]

theorem Adds.keeps {allowed : String → Prop} (ha : Adds allowed t t') (ht : t.Linked) :
    Keeps t t' := by
  have hleads := ha.grows.leads
  have hstays : ∀ h link, t.link? h = some link → t'.link? h = some link :=
    fun h link hl => (ha.grows.link? hl).1
  refine ⟨fun {h} hh => ?_, fun {h} hh => ?_, fun {h} hh => ?_⟩
  all_goals obtain ⟨link, hl⟩ := isSome_node?_iff.mp hh
  · exact isSome_node?_iff.mpr ⟨link, hstays h link hl⟩
  · exact ht.segmentsOf_of_ages (hleads.linked ht) (hleads.ages ht) hl (hstays h link hl)
  · exact ha.kind? hl

section Chains

variable {index : Nat} {h d : Handle} {front names : List String}

/-- On the way to a directory there are directories. -/
theorem isDirectory_of_walkFrom (hw : t.walkFrom index h names = .ok d)
    (hd : t.isDirectory d = true) : t.isDirectory h = true := by
  cases names with
  | nil =>
    cases hw
    exact hd
  | cons name names =>
    obtain ⟨c, hc, _⟩ := walkFrom_cons_eq_ok.mp hw
    exact isDirectory_of_child? hc

/-- What exists is passed before anything is made. -/
theorem createMissing_append (hw : t.walkFrom index h front = .ok d)
    (hd : t.isDirectory d = true) (names : List String) :
    t.createMissing h (front ++ names) = t.createMissing d names := by
  induction front generalizing index h with
  | nil =>
    cases hw
    rfl
  | cons name front ih =>
    obtain ⟨c, hc, hrest⟩ := walkFrom_cons_eq_ok.mp hw
    have hcd := isDirectory_of_walkFrom hrest hd
    rw [List.cons_append, createMissing, hc]
    simpa only [hcd, if_true] using ih hrest

theorem createDirectories_of_walk (hw : t.walk root names = .ok d)
    (hd : t.isDirectory d = true) : t.createDirectories names = (some d, t) := by
  have he := createMissing_append hw hd []
  rwa [List.append_nil] at he

/-- In a directory that has no entry of its name, one more directory is made. -/
theorem createDirectories_of_vacant {name : String} (hw : t.walk root front = .ok d)
    (hd : t.isDirectory d = true) (hc : t.child? d name = none) :
    t.createDirectories (front ++ [name]) = (some t.slots.size, t.attach d name .directory) := by
  rw [createDirectories, createMissing_append hw hd, createMissing_of_vacant hd (by simpa using hc),
    createChain_cons hd hc]
  rfl

end Chains

namespace Linked

theorem keeps_createDirectories (ht : t.Linked) (names : List String) :
    Keeps t (t.createDirectories names).2 := by
  have ha : Adds (fun _ => True) t (t.createDirectories names).2 :=
    adds_createMissing t root fun _ _ => trivial
  exact ha.keeps ht

/-- Made again, directories are found. -/
theorem createDirectories_again (ht : t.Linked) {names : List String} {d : Handle}
    (hd : (t.createDirectories names).1 = some d) :
    ∃ d', (t.createDirectories names).2.createDirectories names =
      (some d', (t.createDirectories names).2) := by
  have hk : (t.createDirectories names).2.kindAt names = some .directory := by
    rw [ht.kindAt_createDirectories hd]
    obtain ⟨-, he⟩ | ⟨hnot, -⟩ := ht.createDirectories_cases names
    · simp [he] at hd
    · cases hn : t.kindAt names with
      | none => simp
      | some kind =>
        cases kind with
        | directory => simp
        | file content =>
          refine absurd ⟨names, content, ?_, List.prefix_rfl, hn⟩ hnot
          rintro rfl
          simp [ht.kindAt_nil] at hn
  obtain ⟨d', hw, hkind⟩ := exists_walk_of_kindAt hk
  exact ⟨d', createDirectories_of_walk hw (isDirectory_iff_kind?.mpr hkind)⟩

end Linked

end TreeShell.Tree
