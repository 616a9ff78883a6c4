import TreeShell.Tree

/-! Changes to a tree. A change that is refused leaves the tree as it was; a new node takes a
slot that no node had before, and a node that is removed takes the nodes below it along. -/

namespace TreeShell.Tree

/-- Puts a node into a slot of its own. -/
def push (t : Tree) (n : Node) : Tree :=
  ⟨t.slots.push (some n)⟩

/-- Empties a slot. -/
def clear (t : Tree) (h : Handle) : Tree :=
  ⟨t.slots.setIfInBounds h none⟩

/-- Changes what a node holds; an empty slot stays empty. -/
def modify (t : Tree) (h : Handle) (f : Payload → Payload) : Tree :=
  ⟨t.slots.modify h (Option.map (Node.mapPayload f))⟩

theorem node?_eq_some_iff {t : Tree} {h : Handle} {n : Node} :
    t.node? h = some n ↔ t.slots[h]? = some (some n) := by
  simp [node?, Option.join_eq_some_iff]

theorem lt_size_of_node? {t : Tree} {h : Handle} {n : Node} (hn : t.node? h = some n) :
    h < t.slots.size :=
  (Array.getElem?_eq_some_iff.mp (node?_eq_some_iff.mp hn)).1

theorem node?_push {t : Tree} {n : Node} {i : Handle} :
    (t.push n).node? i = if i = t.slots.size then some n else t.node? i := by
  simp only [node?, push, Array.getElem?_push]
  split <;> rfl

theorem node?_clear {t : Tree} {h i : Handle} :
    (t.clear h).node? i = if i = h then none else t.node? i := by
  simp only [node?, clear, Array.getElem?_setIfInBounds]
  by_cases hi : i = h
  · subst hi
    simp only [if_true]
    split <;> rfl
  · simp [hi, Ne.symm hi]

theorem node?_modify {t : Tree} {h : Handle} {f : Payload → Payload} {i : Handle} :
    (t.modify h f).node? i =
      if i = h then (t.node? i).map (Node.mapPayload f) else t.node? i := by
  simp only [node?, modify, Array.getElem?_modify]
  by_cases hi : i = h
  · subst hi
    cases hs : t.slots[i]? <;> simp
  · simp [hi, Ne.symm hi]

theorem entries?_push {t : Tree} {n : Node} {i : Handle} :
    (t.push n).entries? i = if i = t.slots.size then n.entries? else t.entries? i := by
  simp only [entries?, node?_push]
  split <;> rfl

theorem link?_push {t : Tree} {n : Node} {i : Handle} :
    (t.push n).link? i = if i = t.slots.size then some n.link else t.link? i := by
  simp only [link?, node?_push]
  split <;> rfl

theorem link?_modify {t : Tree} {h : Handle} {f : Payload → Payload} {i : Handle} :
    (t.modify h f).link? i = t.link? i := by
  simp only [link?, node?_modify]
  split
  · cases t.node? i <;> rfl
  · rfl

theorem entries?_modify_mapEntries {t : Tree} {h : Handle} {f : Entries → Entries} {i : Handle} :
    (t.modify h (.mapEntries f)).entries? i =
      if i = h then (t.entries? i).map f else t.entries? i := by
  simp only [entries?, node?_modify]
  split
  · obtain _ | ⟨_, _, _ | _⟩ := t.node? i <;> rfl
  · rfl

theorem entries?_modify_mapContent {t : Tree} {h : Handle} {f : Content → Content} {i : Handle} :
    (t.modify h (.mapContent f)).entries? i = t.entries? i := by
  simp only [entries?, node?_modify]
  split
  · obtain _ | ⟨_, _, _ | _⟩ := t.node? i <;> rfl
  · rfl

theorem content?_modify_mapEntries {t : Tree} {h : Handle} {f : Entries → Entries} {i : Handle} :
    (t.modify h (.mapEntries f)).content? i = t.content? i := by
  simp only [content?, node?_modify]
  split
  · obtain _ | ⟨_, _, _ | _⟩ := t.node? i <;> rfl
  · rfl

theorem entries?_clear {t : Tree} {h i : Handle} :
    (t.clear h).entries? i = if i = h then none else t.entries? i := by
  simp only [entries?, node?_clear]
  split <;> rfl

theorem clear_eq_self {t : Tree} {h : Handle} (hn : t.node? h = none) : t.clear h = t := by
  obtain ⟨slots⟩ := t
  simp only [clear, Tree.mk.injEq]
  apply Array.ext (by simp)
  intro i _ hi
  by_cases he : h = i
  · subst he
    have hs : slots[h] = none := by simpa [node?, hi] using hn
    rw [Array.getElem_setIfInBounds_self, hs]
  · rw [Array.getElem_setIfInBounds_ne hi he]

/-- The number of nodes. -/
def liveCount (t : Tree) : Nat :=
  t.slots.countP Option.isSome

theorem liveCount_clear_lt {t : Tree} {h : Handle} {n : Node} (hn : t.node? h = some n) :
    (t.clear h).liveCount < t.liveCount := by
  obtain ⟨hh, he⟩ := Array.getElem?_eq_some_iff.mp (node?_eq_some_iff.mp hn)
  have hpos : 0 < t.slots.countP Option.isSome :=
    Array.countP_pos_iff.mpr ⟨some n, he ▸ Array.getElem_mem hh, rfl⟩
  simp only [clear, liveCount, Array.setIfInBounds_def, hh, dif_pos, Array.countP_set, he,
    Option.isSome_some, Option.isSome_none, if_true]
  simp only [Bool.false_eq_true, if_false]
  omega

/-- Puts a new node into a slot of its own and enters it in a directory. -/
def attach (t : Tree) (parent : Handle) (name : String) (kind : Kind) : Tree :=
  (t.push ⟨name, some parent, kind.payload⟩).modify parent
    (.mapEntries (·.insert name t.slots.size))

/-- Adds an entry to a directory. Refused unless `parent` is a directory without an entry of
this name. -/
def create (t : Tree) (parent : Handle) (name : String) (kind : Kind) : Option Handle × Tree :=
  match t.entries? parent with
  | none => (none, t)
  | some entries =>
    if name ∈ entries then (none, t)
    else (some t.slots.size, t.attach parent name kind)

/-- Makes each name a new directory in the one before it, the first in `h`. -/
def createChain (t : Tree) (h : Handle) : List String → Option Handle × Tree
  | [] => (some h, t)
  | name :: names =>
    match t.create h name .directory with
    | (some c, t) => t.createChain c names
    | (none, t) => (none, t)

/-- Follows names from `h` and makes directories of those that are missing. Refused where a
name belongs to a file. -/
def createMissing (t : Tree) (h : Handle) : List String → Option Handle × Tree
  | [] => (some h, t)
  | name :: names =>
    match t.child? h name with
    | some c => if t.isDirectory c then t.createMissing c names else (none, t)
    | none =>
      match t.create h name .directory with
      | (some c, t) => t.createMissing c names
      | (none, t) => (none, t)

/-- The directory with the given names, made if need be. -/
def createDirectories (t : Tree) (names : List String) : Option Handle × Tree :=
  t.createMissing root names

/-- The handles of a directory's entries in the order of the names. -/
def childHandles (t : Tree) (d : Handle) : List Handle :=
  (t.entries d).map Prod.snd

theorem mem_childHandles {t : Tree} {d c : Handle} :
    c ∈ t.childHandles d ↔ ∃ name, t.child? d name = some c := by
  cases he : t.entries? d with
  | none => simp [childHandles, entries, child?, he]
  | some entries => simp [childHandles, Tree.entries, child?, he]

theorem childHandles_of_node?_eq_none {t : Tree} {h : Handle} (hn : t.node? h = none) :
    t.childHandles h = [] := by
  simp [childHandles, entries, entries?, hn]

/-- Empties the slots of the pending nodes and of those below them. What was put down last is
taken up first. -/
def clearAll (t : Tree) : List Handle → Tree
  | [] => t
  | h :: pending => (t.clear h).clearAll ((t.childHandles h).reverse ++ pending)
termination_by pending => (t.liveCount, pending.length)
decreasing_by
  -- A pending handle without a node changes nothing but makes the list shorter.
  cases hn : t.node? h with
  | none =>
    rw [clear_eq_self hn, childHandles_of_node?_eq_none hn]
    exact Prod.Lex.right _ (by simp)
  | some n => exact Prod.Lex.left _ _ (liveCount_clear_lt hn)

/-- Takes a name out of a directory. -/
def detach (t : Tree) (parent : Handle) (name : String) : Tree :=
  t.modify parent (.mapEntries (·.erase name))

/-- Takes a node out of the directory that holds it and empties its slot and those of the nodes
below it. Refused for the root and for a slot that is empty already. -/
def remove (t : Tree) (h : Handle) : Bool × Tree :=
  match t.link? h with
  | some (name, some parent) => (true, (t.detach parent name).clearAll [h])
  | _ => (false, t)

/-- Changes the content of a file; what is no file stays as it is. -/
def modifyContent (t : Tree) (h : Handle) (f : Content → Content) : Tree :=
  t.modify h (.mapContent f)

theorem create_of_vacant {t : Tree} {parent : Handle} {name : String} (kind : Kind)
    (hd : t.isDirectory parent = true) (hc : t.child? parent name = none) :
    t.create parent name kind = (some t.slots.size, t.attach parent name kind) := by
  obtain ⟨entries, he⟩ := isDirectory_iff.mp hd
  have hn : name ∉ entries := by simpa [child?, he] using hc
  simp [create, he, hn]

theorem create_cases (t : Tree) (parent : Handle) (name : String) (kind : Kind) :
    t.create parent name kind = (none, t) ∨
      t.isDirectory parent = true ∧ t.child? parent name = none ∧
        t.create parent name kind = (some t.slots.size, t.attach parent name kind) := by
  cases he : t.entries? parent with
  | none => exact .inl (by simp [create, he])
  | some entries =>
    by_cases hn : name ∈ entries
    · exact .inl (by simp [create, he, hn])
    · have hd := isDirectory_iff.mpr ⟨entries, he⟩
      have hc : t.child? parent name = none := by simpa [child?, he] using hn
      exact .inr ⟨hd, hc, create_of_vacant kind hd hc⟩

theorem create_snd_of_refused {t : Tree} {parent : Handle} {name : String} {kind : Kind}
    (h : (t.create parent name kind).1 = none) : (t.create parent name kind).2 = t := by
  rcases t.create_cases parent name kind with he | ⟨_, _, he⟩
  · rw [he]
  · simp [he] at h

theorem remove_snd_of_refused {t : Tree} {h : Handle} (hr : (t.remove h).1 = false) :
    (t.remove h).2 = t := by
  unfold remove at hr ⊢
  split <;> simp_all

end TreeShell.Tree
