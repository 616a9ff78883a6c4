import TreeShell.Proofs.Tree.PathMap
import TreeShell.Session.Operations

/-! The first free name for a download. All candidates differ and a directory has at most as many
entries as there are slots, so that one of the candidates that are tried is free. Trying them one
after another without a bound ends at the same name. -/

namespace TreeShell

theorem Download.candidate_injective (name : String) : Function.Injective (candidate name) := by
  have hne : ∀ n : Nat, name ≠ name ++ "." ++ toString n := by
    intro n he
    have hl := congrArg String.length he
    simp only [String.length_append] at hl
    have hdot : ".".length = 1 := by decide
    omega
  intro m n h
  unfold candidate at h
  split at h
  · split at h
    · omega
    · exact absurd h (hne n)
  · split at h
    · exact absurd h.symm (hne m)
    · rw [← String.toList_inj, String.toList_append, String.toList_append (s := name ++ ".")] at h
      exact Nat.repr_injective (String.toList_inj.mp (List.append_cancel_left h))

namespace Tree

variable {t : Tree}

/-- Entries of a directory with different names are different nodes. -/
theorem Linked.child?_injective (ht : t.Linked) {d c : Handle} {a b : String}
    (ha : t.child? d a = some c) (hb : t.child? d b = some c) : a = b := by
  have hl := (ht.down ha).symm.trans (ht.down hb)
  simpa using hl

/-- Among one more candidates than slots there is a free one. -/
theorem Linked.exists_candidate_free (ht : t.Linked) (d : Handle) (name : String) :
    ∃ n ≤ t.slots.size, t.child? d (Download.candidate name n) = none := by
  by_contra hnone
  have hsome : ∀ n ≤ t.slots.size, ∃ c, t.child? d (Download.candidate name n) = some c :=
    fun n hn => Option.ne_none_iff_exists'.mp fun hc => hnone ⟨n, hn, hc⟩
  have hmaps : Set.MapsTo (fun n => (t.child? d (Download.candidate name n)).getD 0)
      (Finset.range (t.slots.size + 1)) (Finset.range t.slots.size) := by
    intro n hn
    obtain ⟨c, hc⟩ := hsome n (Nat.lt_succ_iff.mp (Finset.mem_range.mp hn))
    have hlt : c < t.slots.size := Nat.lt_of_not_le fun hle => by
      simpa [link?_eq_none_of_size_le hle] using ht.down hc
    simpa [hc] using hlt
  obtain ⟨m, hm, n, hn, hmn, he⟩ :=
    Finset.exists_ne_map_eq_of_card_lt_of_maps_to (by simp) hmaps
  obtain ⟨c, hc⟩ := hsome m (Nat.lt_succ_iff.mp (Finset.mem_range.mp hm))
  obtain ⟨c', hc'⟩ := hsome n (Nat.lt_succ_iff.mp (Finset.mem_range.mp hn))
  obtain rfl : c = c' := by simpa [hc, hc'] using he
  exact hmn (Download.candidate_injective name (ht.child?_injective hc hc'))

/-- The name for a download is the first candidate that no entry has. -/
theorem Linked.freeName?_eq (ht : t.Linked) (d : Handle) (name : String) : ∃ n,
    t.freeName? d name = some (Download.candidate name n) ∧
      t.child? d (Download.candidate name n) = none ∧
        ∀ m < n, t.child? d (Download.candidate name m) ≠ none := by
  classical
  have hex : ∃ n, t.child? d (Download.candidate name n) = none := by
    obtain ⟨n, _, hn⟩ := ht.exists_candidate_free d name
    exact ⟨n, hn⟩
  obtain ⟨k, hk, hfree⟩ := ht.exists_candidate_free d name
  have hfirst := Nat.find_spec hex
  have hmin : ∀ m < Nat.find hex, t.child? d (Download.candidate name m) ≠ none :=
    fun m hm => Nat.find_min hex hm
  refine ⟨Nat.find hex, ?_, hfirst, hmin⟩
  have hle : Nat.find hex ≤ t.slots.size := (Nat.find_min' hex hfree).trans hk
  rw [freeName?, List.find?_map]
  have hf : (List.range (t.slots.size + 1)).find?
      ((fun candidate => (t.child? d candidate).isNone) ∘ Download.candidate name) =
        some (Nat.find hex) := by
    rw [List.find?_range_eq_some]
    refine ⟨by simp [hfirst], List.mem_range.mpr (Nat.lt_succ_of_le hle), fun m hm => ?_⟩
    simpa [Option.isSome_iff_ne_none] using hmin m hm
  rw [hf]
  rfl

/-- One round of the search for a free name: behind a name that is taken the next number is
tried. -/
def probeRound (t : Tree) (d : Handle) (name : String) : String × Nat → String × Nat
  | (candidate, n) =>
    if (t.child? d candidate).isSome then (name ++ "." ++ toString (n + 1), n + 1)
    else (candidate, n)

variable {d : Handle} {name : String} {n : Nat}

theorem probeRound_of_taken (ht : t.child? d (Download.candidate name n) ≠ none) :
    t.probeRound d name (Download.candidate name n, n) =
      (Download.candidate name (n + 1), n + 1) := by
  rw [probeRound, if_pos (Option.isSome_iff_ne_none.mpr ht), Download.candidate,
    if_neg (Nat.succ_ne_zero n)]

theorem probeRound_of_free (hf : t.child? d (Download.candidate name n) = none) :
    t.probeRound d name (Download.candidate name n, n) = (Download.candidate name n, n) := by
  rw [probeRound, if_neg (by simp [hf])]

/-- As long as names are taken, each round passes to the next candidate. -/
theorem probeRound_iterate (ht : ∀ m < n, t.child? d (Download.candidate name m) ≠ none) :
    (t.probeRound d name)^[n] (name, 0) = (Download.candidate name n, n) := by
  induction n with
  | zero => rfl
  | succ n ih =>
    have hn := ih fun m hm => ht m (Nat.lt_succ_of_lt hm)
    rw [Function.iterate_succ_apply', hn]
    exact probeRound_of_taken (ht n (Nat.lt_succ_self n))

/-- At the first name that is free the search stands still. -/
theorem probeRound_iterate_of_le
    (hn : IsLeast {m | t.child? d (Download.candidate name m) = none} n) {rounds : Nat}
    (hr : n ≤ rounds) :
    (t.probeRound d name)^[rounds] (name, 0) = (Download.candidate name n, n) := by
  obtain ⟨more, rfl⟩ := Nat.exists_eq_add_of_le' hr
  rw [Function.iterate_add_apply,
    probeRound_iterate fun m hm hf => Nat.not_le_of_lt hm (hn.2 hf)]
  exact Function.iterate_fixed (probeRound_of_free hn.1) more

/-- There are no more candidates taken than entries to take them. -/
theorem le_length_entries (hn : IsLeast {m | t.child? d (Download.candidate name m) = none} n) :
    n ≤ (t.entries d).length := by
  -- The candidates before the free one are names of entries, and no two of them are the same.
  have hnodup : ((List.range n).map (Download.candidate name)).Nodup :=
    List.nodup_range.map (Download.candidate_injective name)
  have hsub : (List.range n).map (Download.candidate name) ⊆ (t.entries d).map Prod.fst := by
    intro candidate hmem
    obtain ⟨m, hm, rfl⟩ := List.mem_map.mp hmem
    have htaken : t.child? d (Download.candidate name m) ≠ none := fun hf =>
      Nat.not_le_of_lt (List.mem_range.mp hm) (hn.2 hf)
    obtain ⟨c, hc⟩ := Option.ne_none_iff_exists'.mp htaken
    exact List.mem_map.mpr ⟨_, mem_entries_iff.mpr hc, rfl⟩
  have hlen := (hnodup.subperm hsub).length_le
  simpa only [List.length_map, List.length_range] using hlen

end Tree

end TreeShell
