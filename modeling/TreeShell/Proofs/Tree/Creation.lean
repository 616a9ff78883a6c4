import TreeShell.Proofs.Tree.Segments

/-! Making several directories at once. The names that exist are followed first; where they lead
to a directory, those that are missing can all be made, and where they meet a file nothing is. -/

namespace TreeShell.Tree

/-- Where the part of the names that exists ends, there is a directory without the next name. -/
theorem existingPart_eq_ok {t : Tree} {h d : Handle} {names missing : List String}
    (hd : t.isDirectory h = true) (he : t.existingPart h names = .ok (d, missing)) :
    t.isDirectory d = true ∧ ∀ name ∈ missing.head?, t.child? d name = none := by
  fun_induction existingPart t h names with
  | case1 h =>
    cases he
    exact ⟨hd, by simp⟩
  | case2 h name names hc =>
    cases he
    exact ⟨hd, by simpa using hc⟩
  | case3 h name names c hc hcd ih => exact ih hcd he
  | case4 => cases he

theorem suffix_of_existingPart {t : Tree} {h d : Handle} {names missing : List String}
    (he : t.existingPart h names = .ok (d, missing)) : missing <:+ names := by
  fun_induction existingPart t h names with
  | case1 | case2 =>
    cases he
    exact List.suffix_rfl
  | case3 h name names c hc hcd ih => exact (ih he).trans (List.suffix_cons name names)
  | case4 => cases he

section Chain

variable {t : Tree} {h : Handle} {name : String} {names : List String}

theorem isDirectory_attach_new (hd : t.isDirectory h = true) :
    (t.attach h name .directory).isDirectory t.slots.size = true := by
  simp [isDirectory_attach hd]

theorem child?_attach_new (hd : t.isDirectory h = true) (x : String) :
    (t.attach h name .directory).child? t.slots.size x = none := by
  have hne : t.slots.size ≠ h := Nat.ne_of_gt (lt_size_of_isDirectory hd)
  have hnone : t.child? t.slots.size x = none := by simp [child?, entries?, node?]
  rw [child?_attach hd, if_neg (fun hh => hne hh.1), hnone]

theorem createChain_cons (hd : t.isDirectory h = true) (hc : t.child? h name = none) :
    t.createChain h (name :: names) =
      (t.attach h name .directory).createChain t.slots.size names := by
  rw [createChain, create_of_vacant .directory hd hc]

/-- A new directory has no entries, so that the next one can be made in it. -/
theorem createChain_of_vacant (hd : t.isDirectory h = true)
    (hv : ∀ name ∈ names.head?, t.child? h name = none) :
    ∃ c, (t.createChain h names).1 = some c := by
  induction names generalizing t h with
  | nil => exact ⟨h, rfl⟩
  | cons name names ih =>
    rw [createChain_cons hd (hv name rfl)]
    exact ih (isDirectory_attach_new hd) fun x _ => child?_attach_new hd x

theorem createMissing_of_vacant (hd : t.isDirectory h = true)
    (hv : ∀ name ∈ names.head?, t.child? h name = none) :
    t.createMissing h names = t.createChain h names := by
  induction names generalizing t h with
  | nil => rfl
  | cons name names ih =>
    have hc := hv name rfl
    rw [createChain_cons hd hc, createMissing, hc, create_of_vacant .directory hd hc]
    exact ih (isDirectory_attach_new hd) fun x _ => child?_attach_new hd x

end Chain

/-- Making directories while following names is the same as following them first. -/
theorem createMissing_eq {t : Tree} {h : Handle} (names : List String)
    (hd : t.isDirectory h = true) :
    t.createMissing h names = match t.existingPart h names with
      | .ok (d, missing) => t.createChain d missing
      | .error _ => (none, t) := by
  induction names generalizing h with
  | nil => rfl
  | cons name names ih =>
    cases hc : t.child? h name with
    | none =>
      rw [createMissing_of_vacant hd (by simpa using hc), existingPart, hc]
    | some c =>
      by_cases hcd : t.isDirectory c = true
      · simpa only [createMissing, existingPart, hc, hcd, if_true] using ih hcd
      · simp [createMissing, existingPart, hc, hcd]

theorem walkFrom_of_createChain {t t' : Tree} (ht : t.Linked) {h c : Handle}
    {names : List String} (hd : t.isDirectory h = true)
    (hv : ∀ name ∈ names.head?, t.child? h name = none)
    (he : t.createChain h names = (some c, t')) (index : Nat) :
    t'.isDirectory c = true ∧ t'.walkFrom index h names = .ok c := by
  induction names generalizing t h index with
  | nil =>
    cases he
    exact ⟨hd, rfl⟩
  | cons name names ih =>
    have hc := hv name rfl
    rw [createChain_cons hd hc] at he
    have ht₁ : (t.attach h name .directory).Linked := ht.attach hd hc
    have hentry : (t.attach h name .directory).child? h name = some t.slots.size := by
      rw [child?_attach hd, if_pos ⟨rfl, rfl⟩]
    have hg := (t.attach h name .directory).grows_createChain t.slots.size names
    rw [he] at hg
    have hh := ih ht₁ (isDirectory_attach_new hd) (fun x _ => child?_attach_new hd x) he (index + 1)
    exact ⟨hh.1, walkFrom_cons_eq_ok.mpr ⟨_, hg.child? ht₁ hentry, hh.2⟩⟩

end TreeShell.Tree
