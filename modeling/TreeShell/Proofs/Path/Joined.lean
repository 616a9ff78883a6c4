import TreeShell.Proofs.Path.Names

/-! Paths joined by slashes. A path that continues another leads from where that one leads, and
names joined by slashes are a path that leads to them, so that every list of names that a path
leads to is read back from its text. -/

namespace TreeShell.Path

theorem normalize_slash (base : List String) (front rest : List Char) :
    normalize base (.ofList (front ++ '/' :: rest)) =
      normalize (normalize base (.ofList front)) (.ofList rest) := by
  rw [normalize, components_slash, List.foldl_append]
  rfl

theorem join_eq_ofList (p q : String) :
    p ++ "/" ++ q = .ofList (p.toList ++ '/' :: q.toList) := by
  rw [← String.toList_inj]
  simp

theorem join_ne_empty (p q : String) : p ++ "/" ++ q ≠ "" := by
  simp [join_eq_ofList]

theorem endsInSlash_join (p : String) {q : String} (hq : q ≠ "") :
    endsInSlash (p ++ "/" ++ q) = endsInSlash q := by
  have hne : q.toList ≠ [] := by simpa using hq
  rw [join_eq_ofList, List.append_cons, endsInSlash, String.toList_ofList,
    List.getLast?_append_of_ne_nil _ hne, endsInSlash]

theorem normalize_join (base : List String) (p q : String) :
    normalize base (p ++ "/" ++ q) = normalize (normalize base p) q := by
  rw [join_eq_ofList, normalize_slash, String.ofList_toList, String.ofList_toList]

theorem normalize_intercalate {names : List String} (h : ∀ name ∈ names, Ordinary name)
    (base : List String) : normalize base ("/".intercalate names) = base ++ names := by
  have htext : "/".intercalate names = .ofList (['/'].intercalate (names.map String.toList)) := by
    rw [← String.toList_inj, String.toList_ofList, String.toList_intercalate]
    rfl
  rw [htext, normalize, components_intercalate h, foldl_follow_ordinary h]

/-- Paths act on lists of names: a path behind a slash acts after the one before it, and ordinary
names joined by slashes are appended as they are. What acts on ordinary names gives ordinary
names, which their own text gives back from the root. -/
theorem normalize_acts_on_names (base : List String) :
    (∀ p q, normalize base (p ++ "/" ++ q) = normalize (normalize base p) q) ∧
    (∀ names : List String, (∀ name ∈ names, Ordinary name) →
      normalize base ("/".intercalate names) = base ++ names) ∧
    ((∀ name ∈ base, Ordinary name) → ∀ p,
      (∀ name ∈ normalize base p, Ordinary name) ∧
      normalize [] ("/".intercalate (normalize base p)) = normalize base p) := by
  refine ⟨normalize_join base, fun names h => normalize_intercalate h base, fun hb p => ?_⟩
  have hp : ∀ name ∈ normalize base p, Ordinary name := normalize_ordinary hb p
  exact ⟨hp, (normalize_intercalate hp []).trans (List.nil_append _)⟩

/-- Up past the root and down again, with slashes and dots that lead nowhere. -/
theorem normalize_acts_on_names_past_root :
    (∀ name ∈ ["a"], Ordinary name) ∧ (∀ name ∈ ["c d", "e"], Ordinary name) ∧
    normalize ["a"] "../..//c d/./e" = ["c d", "e"] ∧
    normalize [] ("/".intercalate (normalize ["a"] "../..//c d/./e")) =
      normalize ["a"] "../..//c d/./e" ∧
    normalize ["a"] ("/".intercalate ["c d", "e"]) = ["a", "c d", "e"] ∧
    normalize ["a"] ("b//." ++ "/" ++ "../../..//e") =
      normalize (normalize ["a"] "b//.") "../../..//e" := by
  have hb : ∀ name ∈ ["a"], Ordinary name :=
    List.forall_mem_singleton.mpr ⟨by decide, by decide, by decide, by decide⟩
  have hn : ∀ name ∈ ["c d", "e"], Ordinary name :=
    List.forall_mem_cons.mpr ⟨⟨by decide, by decide, by decide, by decide⟩,
      List.forall_mem_singleton.mpr ⟨by decide, by decide, by decide, by decide⟩⟩
  obtain ⟨hjoin, hnames, hback⟩ := normalize_acts_on_names ["a"]
  exact ⟨hb, hn, by decide, (hback hb _).2, hnames _ hn, hjoin _ _⟩

end TreeShell.Path
