import TreeShell.Proofs.Tree.PathMap

/-! Where a walk ends. Names lead down from one node to the next; a walk arrives where they do, and
else it tells how many of them it followed: to a directory that has no entry of the next name, or
to a file with names left to follow. -/

namespace TreeShell.Tree

/-- Each of the names is that of an entry of the node before, the first of an entry of `h`. -/
inductive Descends (t : Tree) : Handle → List String → Handle → Prop
  | here {h : Handle} : Descends t h [] h
  | down {h c d : Handle} {name : String} {names : List String} : t.child? h name = some c →
    Descends t c names d → Descends t h (name :: names) d

/-- The names before this index lead to a directory without an entry of the name at it. -/
def LacksAt (t : Tree) (start : Handle) (names : List String) (i : Nat) : Prop :=
  ∃ (hi : i < names.length) (d : Handle), t.Descends start (names.take i) d ∧
    t.kind? d = some .directory ∧ t.child? d names[i] = none

/-- The names up to this index lead to a file, and more names follow. -/
def BlockedAt (t : Tree) (start : Handle) (names : List String) (i : Nat) : Prop :=
  i + 1 < names.length ∧ ∃ (f : Handle) (content : Content),
    t.Descends start (names.take (i + 1)) f ∧ t.kind? f = some (.file content)

variable {t : Tree} {index i : Nat} {start h d : Handle} {front names : List String}

theorem walkFrom_eq_ok_iff : t.walkFrom index h names = .ok d ↔ t.Descends h names d := by
  induction names generalizing index h with
  | nil =>
    constructor
    · intro hw
      cases hw
      exact .here
    · intro hd
      cases hd
      rfl
  | cons name names ih =>
    rw [walkFrom_cons_eq_ok]
    constructor
    · rintro ⟨c, hc, hw⟩
      exact .down hc (ih.mp hw)
    · intro hd
      cases hd with
      | down hc hd => exact ⟨_, hc, ih.mpr hd⟩

/-- A walk goes on from the node that its first names lead to. -/
theorem Descends.walkFrom_append (hd : t.Descends h front d) (index : Nat)
    (names : List String) :
    t.walkFrom index h (front ++ names) = t.walkFrom (index + front.length) d names := by
  induction hd generalizing index with
  | here => rfl
  | @down h c d name front hc hd ih =>
    rw [List.cons_append, walkFrom_cons, if_pos (isDirectory_of_child? hc), hc]
    dsimp only
    rw [ih, List.length_cons, Nat.add_assoc, Nat.add_comm 1]

theorem walk_of_lacksAt (h : t.LacksAt start names i) :
    t.walk start names = .error (.missing i) := by
  obtain ⟨hi, d, hd, hk, hc⟩ := h
  have hlen : (names.take i).length = i := List.length_take_of_le hi.le
  rw [walk, ← List.take_append_drop i names, hd.walkFrom_append, List.drop_eq_getElem_cons hi,
    walkFrom_cons, if_pos (isDirectory_iff_kind?.mpr hk), hc, hlen, Nat.zero_add]

theorem walk_of_blockedAt (h : t.BlockedAt start names i) :
    t.walk start names = .error (.notDirectory i) := by
  obtain ⟨hi, f, content, hd, hk⟩ := h
  have hlen : (names.take (i + 1)).length = i + 1 := List.length_take_of_le hi.le
  have hfile : ¬ t.isDirectory f = true := by simp [isDirectory_iff_kind?, hk]
  rw [walk, ← List.take_append_drop (i + 1) names, hd.walkFrom_append,
    List.drop_eq_getElem_cons hi, walkFrom_cons, if_neg hfile, hlen, Nat.zero_add,
    Nat.add_sub_cancel]

/-- Names lead only to nodes. -/
theorem Linked.exists_kind?_of_descends (ht : t.Linked) (hd : t.Descends h names d)
    (hn : names ≠ []) : ∃ kind, t.kind? d = some kind := by
  induction hd with
  | here => exact absurd rfl hn
  | @down h c d name names hc hd ih =>
    cases hd with
    | here => exact exists_kind?_iff.mpr ⟨_, ht.down hc⟩
    | down hc' hd' => exact ih (List.cons_ne_nil _ _)

/-- From a directory a walk arrives, or there is one place where it has to stop. -/
theorem Linked.walk_stops (ht : t.Linked) (hstart : t.isDirectory start = true)
    (names : List String) : (∃ h, t.walk start names = .ok h) ∨
      (∃ i, t.LacksAt start names i) ∨ ∃ i, t.BlockedAt start names i := by
  obtain hok | ⟨front, name, rest, d, rfl, hfront, ⟨hd, hc, -⟩ | ⟨hd, -⟩⟩ :=
    walkFrom_cases t 0 start names
  · exact .inl hok
  · have hlacks : t.child? d (front ++ name :: rest)[front.length] = none := by simpa using hc
    refine .inr (.inl ⟨front.length, by simp, d, ?_, isDirectory_iff_kind?.mp hd, hlacks⟩)
    rw [List.take_left]
    exact walkFrom_eq_ok_iff.mp hfront
  · -- The walk starts at a directory, so it has followed a name to the file.
    cases front with
    | nil =>
      cases hfront
      rw [hstart] at hd
      cases hd
    | cons first front =>
      have hdown : t.Descends start (first :: front) d := walkFrom_eq_ok_iff.mp hfront
      obtain ⟨kind, hk⟩ := ht.exists_kind?_of_descends hdown (List.cons_ne_nil first front)
      cases kind with
      | directory => simp [isDirectory_eq_kind?, hk] at hd
      | file content =>
        refine .inr (.inr ⟨front.length, by simp, d, content, ?_, hk⟩)
        rw [← List.length_cons (a := first), List.take_left]
        exact hdown

section Linked

variable (ht : t.Linked) (hstart : t.isDirectory start = true)
include ht hstart

theorem Linked.walk_eq_missing_iff :
    t.walk start names = .error (.missing i) ↔ t.LacksAt start names i := by
  refine ⟨fun hw => ?_, walk_of_lacksAt⟩
  obtain ⟨h, hok⟩ | ⟨j, hj⟩ | ⟨j, hj⟩ := ht.walk_stops hstart names
  · cases hw.symm.trans hok
  · cases hw.symm.trans (walk_of_lacksAt hj)
    exact hj
  · cases hw.symm.trans (walk_of_blockedAt hj)

theorem Linked.walk_eq_notDirectory_iff :
    t.walk start names = .error (.notDirectory i) ↔ t.BlockedAt start names i := by
  refine ⟨fun hw => ?_, walk_of_blockedAt⟩
  obtain ⟨h, hok⟩ | ⟨j, hj⟩ | ⟨j, hj⟩ := ht.walk_stops hstart names
  · cases hw.symm.trans hok
  · cases hw.symm.trans (walk_of_lacksAt hj)
  · cases hw.symm.trans (walk_of_blockedAt hj)
    exact hj

end Linked

/-- A walk from a directory tells exactly where it stops: at the index of the name that a
directory lacks, or at that of the name of a file with more names behind it. Everywhere else it
arrives at the node that the names lead to. -/
theorem walk_tells_where_it_stops (ops : List Operation) {start : Handle}
    (hstart : (run ops empty).isDirectory start = true) (names : List String) :
    let t := run ops empty
    (∀ i, t.walk start names = .error (.missing i) ↔ t.LacksAt start names i) ∧
    (∀ i, t.walk start names = .error (.notDirectory i) ↔ t.BlockedAt start names i) ∧
    ((∃ h, t.walk start names = .ok h) ↔
      (¬ ∃ i, t.LacksAt start names i) ∧ ¬ ∃ i, t.BlockedAt start names i) ∧
    ∀ h, t.walk start names = .ok h ↔ t.Descends start names h := by
  intro t
  have ht : t.Linked := (leads_run ops empty).linked .empty
  refine ⟨fun i => ht.walk_eq_missing_iff hstart, fun i => ht.walk_eq_notDirectory_iff hstart, ?_,
    fun h => walkFrom_eq_ok_iff⟩
  simp only [← ht.walk_eq_missing_iff hstart, ← ht.walk_eq_notDirectory_iff hstart]
  cases t.walk start names with
  | ok h => simp
  | error e => cases e <;> simp

/-- From a directory below the root, past a file and past a name that is not there. -/
theorem walk_tells_where_it_stops_nested :
    let t := run [.create root "d" .directory, .create 1 "f" (.file .empty)] empty
    t.isDirectory 1 = true ∧ t.BlockedAt 1 ["f", "x", "y"] 0 ∧ t.LacksAt 1 ["g", "x"] 0 := by
  intro t
  have hd : t.isDirectory 1 = true := by cbv
  have hfile : t.walk 1 ["f", "x", "y"] = .error (.notDirectory 0) := by cbv
  have hlacks : t.walk 1 ["g", "x"] = .error (.missing 0) := by cbv
  exact ⟨hd, ((walk_tells_where_it_stops _ hd _).2.1 0).mp hfile,
    ((walk_tells_where_it_stops _ hd _).1 0).mp hlacks⟩

end TreeShell.Tree
