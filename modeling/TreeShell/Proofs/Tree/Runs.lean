import TreeShell.Proofs.Tree.Removal

/-! Trees as they arise from the empty one. Every operation is a sequence of steps of three
kinds; a step keeps a tree linked, never fills a slot that was emptied, and leaves a node that
stays its name, its parent and its kind. -/

namespace TreeShell.Tree

/-- A new entry or a new content: no node goes. -/
inductive Grow (t : Tree) : Tree → Prop
  | attach {p : Handle} {name : String} (kind : Kind) (hp : t.isDirectory p = true)
    (hc : t.child? p name = none) : Grow t (t.attach p name kind)
  | modifyContent (h : Handle) (f : Content → Content) : Grow t (t.modifyContent h f)

/-- What operations on a tree are made of. -/
inductive Step (t : Tree) : Tree → Prop
  | grow {t' : Tree} : Grow t t' → Step t t'
  | remove (h : Handle) : Step t (t.remove h).2

abbrev Grows := Relation.ReflTransGen Grow

/-- A new entry under an allowed name. -/
inductive AddsOne (allowed : String → Prop) (t : Tree) : Tree → Prop
  | attach {p : Handle} {name : String} (kind : Kind) : t.isDirectory p = true →
    t.child? p name = none → allowed name → AddsOne allowed t (t.attach p name kind)

/-- New entries under allowed names, and nothing else. -/
abbrev Adds (allowed : String → Prop) := Relation.ReflTransGen (AddsOne allowed)

abbrev Leads := Relation.ReflTransGen Step

theorem Grows.leads {t t' : Tree} (hg : Grows t t') : Leads t t' :=
  hg.lift id fun _ _ => .grow

theorem Grow.linked {t t' : Tree} (hg : Grow t t') (ht : t.Linked) : t'.Linked := by
  cases hg with
  | attach kind hp hc => exact ht.attach hp hc
  | modifyContent h f => exact ht.modifyContent h f

theorem Step.linked {t t' : Tree} (hs : Step t t') (ht : t.Linked) : t'.Linked := by
  cases hs with
  | grow hg => exact hg.linked ht
  | remove h => exact ht.remove h

theorem Leads.linked {t t' : Tree} (hs : Leads t t') (ht : t.Linked) : t'.Linked := by
  induction hs with
  | refl => exact ht
  | tail _ hs ih => exact hs.linked ih

/-- What time does to slots: there are ever more of them, an empty one stays empty, and a node
keeps its name, its parent and its kind. -/
structure Ages (t t' : Tree) : Prop where
  size_le : t.slots.size ≤ t'.slots.size
  stays_empty : ∀ {h}, h < t.slots.size → t.link? h = none → t'.link? h = none
  link_eq : ∀ {h link link'}, t.link? h = some link → t'.link? h = some link' →
    link' = link ∧ t'.isDirectory h = t.isDirectory h

theorem lt_size_of_link? {t : Tree} {h : Handle} {link : String × Option Handle}
    (hl : t.link? h = some link) : h < t.slots.size := by
  obtain ⟨n, hn, _⟩ := Option.map_eq_some_iff.mp hl
  exact lt_size_of_node? hn

theorem link?_eq_none_iff {t : Tree} {h : Handle} : t.link? h = none ↔ t.node? h = none := by
  simp [link?]

theorem isSome_node?_iff {t : Tree} {h : Handle} :
    (t.node? h).isSome = true ↔ ∃ link, t.link? h = some link := by
  rw [← Option.isSome_iff_exists, link?, Option.isSome_map]

theorem Ages.refl (t : Tree) : Ages t t where
  size_le := Nat.le_refl _
  stays_empty _ h := h
  link_eq h h' := ⟨Option.some.inj (h'.symm.trans h), rfl⟩

theorem Ages.trans {t t' t'' : Tree} (h : Ages t t') (h' : Ages t' t'') : Ages t t'' where
  size_le := Nat.le_trans h.size_le h'.size_le
  stays_empty hh hn := h'.stays_empty (Nat.lt_of_lt_of_le hh h.size_le) (h.stays_empty hh hn)
  link_eq := by
    intro i link link'' hl hl''
    have hi := Nat.lt_of_lt_of_le (lt_size_of_link? hl) h.size_le
    cases hl' : t'.link? i with
    | none => simp [h'.stays_empty hi hl'] at hl''
    | some link' =>
      have hh := h.link_eq hl hl'
      have hh' := h'.link_eq hl' hl''
      exact ⟨hh'.1.trans hh.1, hh'.2.trans hh.2⟩

theorem Grow.link? {t t' : Tree} (hg : Grow t t') {h : Handle} (hh : h < t.slots.size) :
    t'.link? h = t.link? h ∧ t'.isDirectory h = t.isDirectory h := by
  cases hg with
  | attach kind hp hc =>
    rw [link?_attach, isDirectory_attach hp, if_neg (Nat.ne_of_lt hh), if_neg (Nat.ne_of_lt hh)]
    exact ⟨rfl, rfl⟩
  | modifyContent i f =>
    simp only [Tree.modifyContent, link?_modify, isDirectory_eq_isSome,
      entries?_modify_mapContent, and_self]

theorem Grow.size_le {t t' : Tree} (hg : Grow t t') : t.slots.size ≤ t'.slots.size := by
  cases hg with
  | attach => simp [Tree.attach, push, modify]
  | modifyContent => simp [Tree.modifyContent, modify]

theorem Grow.ages {t t' : Tree} (hg : Grow t t') : Ages t t' where
  size_le := hg.size_le
  stays_empty hh hn := (hg.link? hh).1.trans hn
  link_eq hl hl' := by
    have hh := hg.link? (lt_size_of_link? hl)
    exact ⟨Option.some.inj (hl'.symm.trans (hh.1.trans hl)), hh.2⟩

theorem Step.ages {t t' : Tree} (hs : Step t t') (ht : t.Linked) : Ages t t' := by
  cases hs with
  | grow hg => exact hg.ages
  | remove h =>
    rcases t.remove_cases h with he | ⟨name, p, hl, he⟩
    · rw [he]
      exact .refl t
    · refine ⟨?_, ?_, ?_⟩
      · simp [he, size_clearAll, detach, modify]
      · intro i _ hn
        rw [ht.link?_remove hl, hn, ite_self]
      · intro i link link' hi hi'
        rw [ht.link?_remove hl] at hi'
        split at hi'
        · cases hi'
        · rename_i hnot
          rw [hi] at hi'
          exact ⟨(Option.some.inj hi').symm, by simp [ht.isDirectory_remove hl, hnot]⟩

/-- Where no node goes, each stays with its link and its kind. -/
theorem Grows.link? {t t' : Tree} (hg : Grows t t') {h : Handle}
    {link : String × Option Handle} (hl : t.link? h = some link) :
    t'.link? h = some link ∧ t'.isDirectory h = t.isDirectory h := by
  induction hg with
  | refl => exact ⟨hl, rfl⟩
  | tail _ hg ih =>
    have hh := hg.link? (lt_size_of_link? ih.1)
    exact ⟨hh.1.trans ih.1, hh.2.trans ih.2⟩

theorem Grows.isDirectory {t t' : Tree} (hg : Grows t t') {h : Handle}
    (hd : t.isDirectory h = true) : t'.isDirectory h = true := by
  obtain ⟨link, hl⟩ := link?_of_isDirectory hd
  rw [(hg.link? hl).2]
  exact hd

theorem Grows.child? {t t' : Tree} (hg : Grows t t') (ht : t.Linked) {d c : Handle}
    {name : String} (hc : t.child? d name = some c) : t'.child? d name = some c :=
  (hg.leads.linked ht).child?_eq_some_iff.mpr (hg.link? (ht.down hc)).1

theorem Leads.ages {t t' : Tree} (hs : Leads t t') (ht : t.Linked) : Ages t t' := by
  induction hs with
  | refl => exact .refl t
  | tail hr hs ih => exact ih.trans (hs.ages (Leads.linked hr ht))

theorem Adds.grows {allowed : String → Prop} {t t' : Tree} (ha : Adds allowed t t') :
    Grows t t' := by
  refine ha.lift id fun _ _ h => ?_
  cases h with
  | attach kind hp hc _ => exact .attach kind hp hc

theorem adds_of_create {allowed : String → Prop} {t t' : Tree} {p : Handle} {name : String}
    {kind : Kind} {answer : Option Handle} (hn : allowed name)
    (he : t.create p name kind = (answer, t')) : Adds allowed t t' := by
  rcases t.create_cases p name kind with hr | ⟨hp, hc, hr⟩
  · obtain rfl : t = t' := congrArg Prod.snd (hr.symm.trans he)
    exact .refl
  · obtain rfl : t.attach p name kind = t' := congrArg Prod.snd (hr.symm.trans he)
    exact .single (.attach kind hp hc hn)

theorem adds_createChain {allowed : String → Prop} (t : Tree) (h : Handle) {names : List String}
    (hn : ∀ name ∈ names, allowed name) : Adds allowed t (t.createChain h names).2 := by
  fun_induction createChain t h names with
  | case1 => exact .refl
  | case2 t h name names c t' he ih =>
    obtain ⟨hname, hnames⟩ := List.forall_mem_cons.mp hn
    exact (adds_of_create hname he).trans (ih hnames)
  | case3 t h name names t' he => exact adds_of_create (List.forall_mem_cons.mp hn).1 he

theorem grows_of_create {t t' : Tree} {p : Handle} {name : String} {kind : Kind}
    {answer : Option Handle} (he : t.create p name kind = (answer, t')) : Grows t t' := by
  have ha : Adds (fun _ => True) t t' := adds_of_create trivial he
  exact ha.grows

theorem grows_createChain (t : Tree) (h : Handle) (names : List String) :
    Grows t (t.createChain h names).2 := by
  have ha : Adds (fun _ => True) t (t.createChain h names).2 :=
    adds_createChain t h fun _ _ => trivial
  exact ha.grows

theorem adds_createMissing {allowed : String → Prop} (t : Tree) (h : Handle)
    {names : List String} (hn : ∀ name ∈ names, allowed name) :
    Adds allowed t (t.createMissing h names).2 := by
  fun_induction createMissing t h names with
  | case1 => exact .refl
  | case2 t h name names c hc hd ih => exact ih (List.forall_mem_cons.mp hn).2
  | case3 => exact .refl
  | case4 t h name names hc c t' he ih =>
    obtain ⟨hname, hnames⟩ := List.forall_mem_cons.mp hn
    exact (adds_of_create hname he).trans (ih hnames)
  | case5 t h name names hc t' he => exact adds_of_create (List.forall_mem_cons.mp hn).1 he

theorem grows_createMissing (t : Tree) (h : Handle) (names : List String) :
    Grows t (t.createMissing h names).2 := by
  have ha : Adds (fun _ => True) t (t.createMissing h names).2 :=
    adds_createMissing t h fun _ _ => trivial
  exact ha.grows

theorem grows_modifyContent (t : Tree) (h : Handle) (f : Content → Content) :
    Grows t (t.modifyContent h f) :=
  .single (.modifyContent h f)

/-- The operations on a tree with their arguments, which need not make sense. -/
inductive Operation
  | create (parent : Handle) (name : String) (kind : Kind)
  | createDirectories (names : List String)
  | remove (h : Handle)
  | modifyContent (h : Handle) (f : Content → Content)

namespace Operation

def apply : Operation → Tree → Tree
  | .create parent name kind, t => (t.create parent name kind).2
  | .createDirectories names, t => (t.createDirectories names).2
  | .remove h, t => (t.remove h).2
  | .modifyContent h f, t => t.modifyContent h f

theorem leads (op : Operation) (t : Tree) : Leads t (op.apply t) := by
  cases op with
  | create parent name kind =>
    have hg : Grows t (t.create parent name kind).2 := grows_of_create rfl
    exact hg.leads
  | createDirectories names => exact (t.grows_createMissing Tree.root names).leads
  | remove h => exact .single (.remove h)
  | modifyContent h f => exact (t.grows_modifyContent h f).leads

end Operation

/-- The tree after some operations. -/
def run (ops : List Operation) (t : Tree) : Tree :=
  ops.foldl (fun t op => op.apply t) t

theorem leads_run (ops : List Operation) (t : Tree) : Leads t (run ops t) := by
  induction ops generalizing t with
  | nil => exact .refl
  | cons op ops ih => exact (op.leads t).trans (ih (op.apply t))

/-- The handles that name a node of `t'` and none of `t`. -/
def newHandles (t t' : Tree) : List Handle :=
  (List.range t'.slots.size).filter fun h => (t'.link? h).isSome && (t.link? h).isNone

/-- The handles that operations give to new nodes, in turn. -/
def issued : List Operation → Tree → List Handle
  | [], _ => []
  | op :: ops, t => newHandles t (op.apply t) ++ issued ops (op.apply t)

theorem mem_newHandles {t t' : Tree} {h : Handle} (ha : Ages t t') (hh : h ∈ newHandles t t') :
    t.slots.size ≤ h ∧ h < t'.slots.size := by
  obtain ⟨hr, hl⟩ := List.mem_filter.mp hh
  obtain ⟨hs, hn⟩ := Bool.and_eq_true_iff.mp hl
  refine ⟨Nat.le_of_not_lt fun hlt => ?_, List.mem_range.mp hr⟩
  rw [ha.stays_empty hlt (Option.isNone_iff_eq_none.mp hn)] at hs
  cases hs

theorem mem_issued {ops : List Operation} {t : Tree} (ht : t.Linked) {h : Handle}
    (hh : h ∈ issued ops t) : t.slots.size ≤ h ∧ h < (run ops t).slots.size := by
  induction ops generalizing t with
  | nil => cases hh
  | cons op ops ih =>
    have hl := op.leads t
    have ha := hl.ages ht
    have hr := (leads_run ops (op.apply t)).ages (hl.linked ht)
    rcases List.mem_append.mp hh with hn | hi
    · have hm := mem_newHandles ha hn
      exact ⟨hm.1, Nat.lt_of_lt_of_le hm.2 hr.size_le⟩
    · have hm := ih (hl.linked ht) hi
      exact ⟨Nat.le_trans ha.size_le hm.1, hm.2⟩

theorem issued_nodup (ops : List Operation) {t : Tree} (ht : t.Linked) :
    (issued ops t).Nodup := by
  induction ops generalizing t with
  | nil => exact List.nodup_nil
  | cons op ops ih =>
    have hl := op.leads t
    refine List.nodup_append.mpr ⟨List.nodup_range.filter _, ih (hl.linked ht), ?_⟩
    intro a ha b hb hab
    have hlt := (mem_newHandles (hl.ages ht) ha).2
    have hle := (mem_issued (hl.linked ht) hb).1
    exact Nat.not_lt_of_le hle (hab ▸ hlt)

/-- Whatever operations are tried on the empty tree: links agree at both ends and lead to older
slots, a slot that was emptied stays empty, no handle is given out twice, and the ways up and
the loop of a removal come to their ends. -/
theorem operations_keep_tree_linked (ops : List Operation) :
    (run ops empty).Linked ∧
    (∀ h < (run ops empty).slots.size, (run ops empty).node? h = none →
      ∀ more, (run more (run ops empty)).node? h = none) ∧
    (root :: issued ops empty).Nodup ∧
    (∀ p name kind c, ((run ops empty).create p name kind).1 = some c →
      c ∉ root :: issued ops empty) ∧
    (∀ h, ∃ n, (fun current => current.bind (run ops empty).parent?)^[n] (some h) = none) ∧
    (∀ h, (run ops empty).lineage h =
      h :: ((run ops empty).parent? h).elim [] (run ops empty).lineage) ∧
    ∀ t pending, ∃ n, clearRound^[n] (t, pending) = (t.clearAll pending, []) := by
  have ht := (leads_run ops empty).linked .empty
  refine ⟨ht, ?_, ?_, ?_, ht.climb_ends, ht.lineage_eq, clearRound_ends⟩
  · intro h hh hn more
    have ha := (leads_run more (run ops empty)).ages ht
    exact link?_eq_none_iff.mp (ha.stays_empty hh (link?_eq_none_iff.mpr hn))
  · refine List.nodup_cons.mpr ⟨fun hr => ?_, issued_nodup ops .empty⟩
    exact Nat.not_succ_le_zero 0 (mem_issued .empty hr).1
  · intro p name kind c hc
    rcases (run ops empty).create_cases p name kind with he | ⟨_, _, he⟩
    · rw [he] at hc
      cases hc
    · rw [he] at hc
      obtain rfl := Option.some.inj hc
      intro hm
      rcases List.mem_cons.mp hm with hr | hi
      · exact Nat.ne_of_gt (lt_size_of_isDirectory ht.root_isDirectory) hr
      · exact Nat.lt_irrefl _ (mem_issued .empty hi).2

/-- The slot of a file that went with its directory, and a directory of the same name after. -/
theorem removed_file_slot_stays_empty :
    2 < (run [.create root "a" .directory, .create 1 "b" (.file .empty), .remove 1]
      empty).slots.size ∧
    (run [.create root "a" .directory, .create 1 "b" (.file .empty), .remove 1]
      empty).node? 2 = none ∧
    (run [.create root "a" .directory] (run [.create root "a" .directory,
      .create 1 "b" (.file .empty), .remove 1] empty)).node? 2 = none := by
  have hh : 2 < (run [.create root "a" .directory, .create 1 "b" (.file .empty), .remove 1]
      empty).slots.size := by cbv
  have hn : (run [.create root "a" .directory, .create 1 "b" (.file .empty), .remove 1]
      empty).node? 2 = none := by cbv
  exact ⟨hh, hn, (operations_keep_tree_linked _).2.1 2 hh hn _⟩

end TreeShell.Tree
