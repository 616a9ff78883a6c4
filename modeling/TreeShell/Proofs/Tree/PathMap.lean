import TreeShell.Proofs.Tree.Creation
import TreeShell.Proofs.Text.Order

/-! A tree as a map from names to what they lead to. In a linked tree every node is one key, and
each operation on handles is an operation on keys: creation adds one, removal erases those that
continue a list of names, and directories made at once add the beginnings that were missing. -/

namespace TreeShell

def Payload.kind : Payload → Kind
  | .directory _ => .directory
  | .file content => .file content

/-- Changes the content of a file. -/
def Kind.mapContent (f : Content → Content) : Kind → Kind
  | .directory => .directory
  | .file content => .file (f content)

namespace Tree

/-- What a handle names. -/
def kind? (t : Tree) (h : Handle) : Option Kind :=
  (t.node? h).map fun n => n.payload.kind

/-- What names lead to from the root. -/
def kindAt (t : Tree) (names : List String) : Option Kind :=
  match t.walk root names with
  | .ok h => t.kind? h
  | .error _ => none

theorem kindAt_of_walk {t : Tree} {names : List String} {h : Handle}
    (hw : t.walk root names = .ok h) : t.kindAt names = t.kind? h := by
  simp only [kindAt, hw]

theorem exists_walk_of_kindAt {t : Tree} {names : List String} {kind : Kind}
    (hk : t.kindAt names = some kind) :
    ∃ h, t.walk root names = .ok h ∧ t.kind? h = some kind := by
  unfold kindAt at hk
  split at hk
  · exact ⟨_, ‹_›, hk⟩
  · cases hk

/-- Some first names of a list lead to a file, and `rest` are the names behind them. -/
def MeetsFile (t : Tree) (base names rest : List String) : Prop :=
  ∃ first content, first ≠ [] ∧ names = first ++ rest ∧
    t.kindAt (base ++ first) = some (.file content)

section Kind

variable {t : Tree} {h i : Handle}

theorem kind?_eq_none_iff : t.kind? h = none ↔ t.link? h = none := by
  rw [kind?, link?, Option.map_eq_none_iff, Option.map_eq_none_iff]

theorem exists_kind?_iff : (∃ k, t.kind? h = some k) ↔ ∃ link, t.link? h = some link := by
  rw [← Option.isSome_iff_exists, ← Option.isSome_iff_exists, kind?, link?, Option.isSome_map,
    Option.isSome_map]

theorem isDirectory_eq_kind? : t.isDirectory h = decide (t.kind? h = some .directory) := by
  rw [isDirectory, kind?]
  obtain _ | ⟨_, _, _ | _⟩ := t.node? h <;> rfl

theorem isDirectory_iff_kind? : t.isDirectory h = true ↔ t.kind? h = some .directory := by
  rw [isDirectory_eq_kind?, decide_eq_true_eq]

theorem content?_eq_some_iff {content : Content} :
    t.content? h = some content ↔ t.kind? h = some (.file content) := by
  rw [content?, kind?]
  obtain _ | ⟨_, _, _ | _⟩ := t.node? h <;> simp [Node.content?, Payload.kind]

theorem kind?_push {n : Node} :
    (t.push n).kind? i = if i = t.slots.size then some n.payload.kind else t.kind? i := by
  simp only [kind?, node?_push]
  split <;> rfl

theorem kind?_modify_mapEntries {f : Entries → Entries} :
    (t.modify h (.mapEntries f)).kind? i = t.kind? i := by
  simp only [kind?, node?_modify]
  split
  · obtain _ | ⟨_, _, _ | _⟩ := t.node? i <;> rfl
  · rfl

theorem kind?_modifyContent {f : Content → Content} :
    (t.modifyContent h f).kind? i =
      if i = h then (t.kind? i).map (.mapContent f) else t.kind? i := by
  simp only [modifyContent, kind?, node?_modify]
  split
  · obtain _ | ⟨_, _, _ | _⟩ := t.node? i <;> rfl
  · rfl

theorem kind?_attach {p : Handle} {name : String} {kind : Kind} :
    (t.attach p name kind).kind? i = if i = t.slots.size then some kind else t.kind? i := by
  rw [attach, kind?_modify_mapEntries, kind?_push]
  cases kind <;> rfl

theorem Linked.kind?_remove (ht : t.Linked) {p : Handle} {name : String}
    (hl : t.link? h = some (name, some p)) :
    (t.remove h).2.kind? i = if t.contains h i = true then none else t.kind? i := by
  rw [kind?, ht.node?_remove hl]
  split
  · rfl
  · exact kind?_modify_mapEntries

end Kind

namespace Linked

variable {t t' : Tree}

/-- The keys of the map are the names of the nodes. -/
theorem kindAt_eq_some_iff (ht : t.Linked) {names : List String} {kind : Kind} :
    t.kindAt names = some kind ↔ ∃ h, t.segmentsOf h = names ∧ t.kind? h = some kind := by
  constructor
  · intro hk
    obtain ⟨h, hw, hk⟩ := exists_walk_of_kindAt hk
    exact ⟨h, (ht.segmentsOf_of_walk hw).2, hk⟩
  · rintro ⟨h, rfl, hk⟩
    obtain ⟨link, hl⟩ := exists_kind?_iff.mp ⟨kind, hk⟩
    rw [kindAt_of_walk (ht.walk_segmentsOf hl), hk]

theorem kindAt_segmentsOf (ht : t.Linked) {h : Handle} {link : String × Option Handle}
    (hl : t.link? h = some link) : t.kindAt (t.segmentsOf h) = t.kind? h :=
  kindAt_of_walk (ht.walk_segmentsOf hl)

theorem kindAt_nil (ht : t.Linked) : t.kindAt [] = some .directory :=
  isDirectory_iff_kind?.mp ht.root_isDirectory

/-- One name more is one entry more. -/
theorem kindAt_concat (ht : t.Linked) {d : Handle} (hd : t.isDirectory d = true)
    (name : String) : t.kindAt (t.segmentsOf d ++ [name]) = (t.child? d name).bind t.kind? := by
  obtain ⟨link, hl⟩ := link?_of_isDirectory hd
  cases hc : t.child? d name with
  | some c =>
    have hlc := ht.down hc
    rw [← ht.segmentsOf_of_link? hlc, ht.kindAt_segmentsOf hlc]
    rfl
  | none =>
    refine Option.eq_none_iff_forall_ne_some.mpr fun kind hk => ?_
    obtain ⟨c, hs, hkc⟩ := ht.kindAt_eq_some_iff.mp hk
    obtain ⟨lc, hlc⟩ := exists_kind?_iff.mp ⟨kind, hkc⟩
    obtain ⟨p, hw, hcp⟩ := walkFrom_concat_eq_ok.mp (hs ▸ ht.walk_segmentsOf hlc)
    obtain rfl : p = d := Except.ok.inj (hw.symm.trans (ht.walk_segmentsOf hl))
    simp [hc] at hcp

theorem child?_eq_none_iff (ht : t.Linked) {d : Handle} (hd : t.isDirectory d = true)
    {name : String} : t.child? d name = none ↔ t.kindAt (t.segmentsOf d ++ [name]) = none := by
  rw [ht.kindAt_concat hd]
  cases hc : t.child? d name with
  | none => simp
  | some c =>
    have hk : t.kind? c ≠ none := fun hk => by simp [kind?_eq_none_iff, ht.down hc] at hk
    simpa using hk

/-- Above what exists there are directories. -/
theorem kindAt_of_append (ht : t.Linked) {names more : List String} (hm : more ≠ [])
    (hk : t.kindAt (names ++ more) ≠ none) : t.kindAt names = some .directory := by
  obtain ⟨kind, hk⟩ := Option.ne_none_iff_exists'.mp hk
  obtain ⟨c, hs, hkc⟩ := ht.kindAt_eq_some_iff.mp hk
  obtain ⟨lc, hlc⟩ := exists_kind?_iff.mp ⟨kind, hkc⟩
  obtain ⟨d, hw, hmore⟩ := walkFrom_append_eq_ok.mp (hs ▸ ht.walk_segmentsOf hlc)
  obtain ⟨x, more, rfl⟩ := List.exists_cons_of_ne_nil hm
  obtain ⟨b, hb, _⟩ := walkFrom_cons_eq_ok.mp hmore
  obtain ⟨⟨link, hl⟩, hd⟩ := ht.segmentsOf_of_walk hw
  rw [← hd, ht.kindAt_segmentsOf hl]
  exact isDirectory_iff_kind?.mp (isDirectory_of_child? hb)

theorem kindAt_of_prefix (ht : t.Linked) {names more : List String} (hp : names <+: more)
    (hk : t.kindAt more = some .directory) : t.kindAt names = some .directory := by
  obtain ⟨rest, rfl⟩ := hp
  cases rest with
  | nil => rwa [List.append_nil] at hk
  | cons x rest => exact ht.kindAt_of_append (List.cons_ne_nil x rest) (by simp [hk])

theorem kindAt_ne_none_of_prefix (ht : t.Linked) {names more : List String}
    (hp : names <+: more) (hk : t.kindAt more ≠ none) : t.kindAt names ≠ none := by
  obtain ⟨rest, rfl⟩ := hp
  cases rest with
  | nil => simpa using hk
  | cons x rest => simp [ht.kindAt_of_append (List.cons_ne_nil x rest) hk]

/-- Names lead to the same where the nodes that have these names are the same. -/
theorem kindAt_congr (ht : t.Linked) (ht' : t'.Linked) (ha : Ages t t') {names : List String}
    (hold : ∀ i k, t.segmentsOf i = names → t.kind? i = some k → t'.kind? i = some k)
    (hnew : ∀ i k, t'.segmentsOf i = names → t'.kind? i = some k → t.kind? i = some k) :
    t'.kindAt names = t.kindAt names := by
  have hs : ∀ i k, t.kind? i = some k → t'.kind? i = some k →
      t'.segmentsOf i = t.segmentsOf i := by
    intro i k hk hk'
    obtain ⟨l, hl⟩ := exists_kind?_iff.mp ⟨k, hk⟩
    obtain ⟨l', hl'⟩ := exists_kind?_iff.mp ⟨k, hk'⟩
    exact ht.segmentsOf_of_ages ht' ha hl hl'
  refine Option.ext fun k => ?_
  rw [ht.kindAt_eq_some_iff, ht'.kindAt_eq_some_iff]
  constructor
  · rintro ⟨i, he, hk'⟩
    have hk := hnew i k he hk'
    exact ⟨i, by rw [← hs i k hk hk', he], hk⟩
  · rintro ⟨i, he, hk⟩
    have hk' := hold i k he hk
    exact ⟨i, by rw [hs i k hk hk', he], hk'⟩

theorem segmentsOf_attach_new (ht : t.Linked) {p : Handle} {name : String} {kind : Kind}
    (hp : t.isDirectory p = true) (hc : t.child? p name = none) :
    (t.attach p name kind).segmentsOf t.slots.size = t.segmentsOf p ++ [name] := by
  have ht' : (t.attach p name kind).Linked := ht.attach hp hc
  obtain ⟨lp, hlp⟩ := link?_of_isDirectory hp
  have hlp' : (t.attach p name kind).link? p = some lp := by
    rw [link?_attach, if_neg (Nat.ne_of_lt (lt_size_of_isDirectory hp)), hlp]
  have hnew : (t.attach p name kind).link? t.slots.size = some (name, some p) := by
    rw [link?_attach, if_pos rfl]
  rw [ht'.segmentsOf_of_link? hnew,
    ht.segmentsOf_of_ages ht' (Grow.attach kind hp hc).ages hlp hlp']

theorem kindAt_attach (ht : t.Linked) {p : Handle} {name : String} {kind : Kind}
    (hp : t.isDirectory p = true) (hc : t.child? p name = none) :
    (t.attach p name kind).kindAt =
      Function.update t.kindAt (t.segmentsOf p ++ [name]) (some kind) := by
  have ht' : (t.attach p name kind).Linked := ht.attach hp hc
  have ha : Ages t (t.attach p name kind) := (Grow.attach kind hp hc).ages
  have hnew : (t.attach p name kind).link? t.slots.size = some (name, some p) := by
    rw [link?_attach, if_pos rfl]
  have hsnew : (t.attach p name kind).segmentsOf t.slots.size = t.segmentsOf p ++ [name] :=
    ht.segmentsOf_attach_new hp hc
  funext names
  by_cases hn : names = t.segmentsOf p ++ [name]
  · rw [hn, Function.update_self, ← hsnew, ht'.kindAt_segmentsOf hnew, kind?_attach, if_pos rfl]
  · rw [Function.update_of_ne hn]
    refine ht.kindAt_congr ht' ha (fun i k _ hk => ?_) (fun i k he hk => ?_)
    · obtain ⟨l, hl⟩ := exists_kind?_iff.mp ⟨k, hk⟩
      rw [kind?_attach, if_neg (Nat.ne_of_lt (lt_size_of_link? hl)), hk]
    · have hi : i ≠ t.slots.size := by
        rintro rfl
        exact hn (he.symm.trans hsnew)
      rwa [kind?_attach, if_neg hi] at hk

theorem kindAt_remove (ht : t.Linked) {h p : Handle} {name : String}
    (hl : t.link? h = some (name, some p)) (names : List String) :
    (t.remove h).2.kindAt names = if t.segmentsOf h <+: names then none else t.kindAt names := by
  have ht' : (t.remove h).2.Linked := ht.remove h
  have ha : Ages t (t.remove h).2 := (Step.remove h).ages ht
  split
  · rename_i hpre
    refine Option.eq_none_iff_forall_ne_some.mpr fun k hk => ?_
    obtain ⟨i, he, hk⟩ := ht'.kindAt_eq_some_iff.mp hk
    obtain ⟨l', hl'⟩ := exists_kind?_iff.mp ⟨k, hk⟩
    rw [ht.kind?_remove hl] at hk
    split at hk
    · cases hk
    · rename_i hout
      obtain ⟨l, hli⟩ := exists_kind?_iff.mp ⟨k, hk⟩
      rw [← he, ht.segmentsOf_of_ages ht' ha hli hl'] at hpre
      exact hout (ht.contains_of_prefix hl hli hpre)
  · rename_i hpre
    refine ht.kindAt_congr ht' ha (fun i k he hk => ?_) (fun i k _ hk => ?_)
    · obtain ⟨l, hli⟩ := exists_kind?_iff.mp ⟨k, hk⟩
      have hout : ¬ t.contains h i = true := fun hin => hpre (he ▸ ht.prefix_of_contains hli hin)
      rw [ht.kind?_remove hl, if_neg hout, hk]
    · rw [ht.kind?_remove hl] at hk
      split at hk
      · cases hk
      · exact hk

theorem kindAt_modifyContent (ht : t.Linked) {h : Handle} {link : String × Option Handle}
    (hl : t.link? h = some link) (f : Content → Content) :
    (t.modifyContent h f).kindAt =
      Function.update t.kindAt (t.segmentsOf h) ((t.kind? h).map (.mapContent f)) := by
  have ht' : (t.modifyContent h f).Linked := ht.modifyContent h f
  have ha : Ages t (t.modifyContent h f) := (Grow.modifyContent h f).ages
  have hl' : (t.modifyContent h f).link? h = some link := by
    rw [Tree.modifyContent, link?_modify, hl]
  have hs := ht.segmentsOf_of_ages ht' ha hl hl'
  funext names
  by_cases hn : names = t.segmentsOf h
  · rw [hn, Function.update_self, ← hs, ht'.kindAt_segmentsOf hl', kind?_modifyContent, if_pos rfl]
  · rw [Function.update_of_ne hn]
    refine ht.kindAt_congr ht' ha (fun i k he hk => ?_) (fun i k he hk => ?_)
    · have hi : i ≠ h := by
        rintro rfl
        exact hn he.symm
      rw [kind?_modifyContent, if_neg hi, hk]
    · have hi : i ≠ h := by
        rintro rfl
        exact hn (he.symm.trans hs)
      rwa [kind?_modifyContent, if_neg hi] at hk

theorem meetsFile_cons_iff (ht : t.Linked) {base names rest : List String} {name : String} :
    t.MeetsFile base (name :: names) rest ↔
      (rest = names ∧ ∃ content, t.kindAt (base ++ [name]) = some (.file content)) ∨
        (t.kindAt (base ++ [name]) = some .directory ∧
          t.MeetsFile (base ++ [name]) names rest) := by
  constructor
  · rintro ⟨_ | ⟨_, first⟩, content, hf, hn, hk⟩
    · exact absurd rfl hf
    · obtain ⟨rfl, rfl⟩ := List.cons.inj hn
      cases first with
      | nil => exact .inl ⟨rfl, content, hk⟩
      | cons x first =>
        rw [List.append_cons] at hk
        have hx : x :: first ≠ [] := List.cons_ne_nil x first
        have hd := ht.kindAt_of_append hx (by rw [hk]; exact Option.some_ne_none _)
        exact .inr ⟨hd, x :: first, content, hx, rfl, hk⟩
  · rintro (⟨rfl, content, hk⟩ | ⟨_, first, content, _, rfl, hk⟩)
    · exact ⟨[name], content, List.cons_ne_nil _ _, rfl, hk⟩
    · rw [← List.append_cons] at hk
      exact ⟨name :: first, content, List.cons_ne_nil _ _, rfl, hk⟩

/-- Following names stops at a file where some first names of them lead to it. -/
theorem existingPart_eq_error_iff (ht : t.Linked) {h : Handle} (hd : t.isDirectory h = true)
    {names rest : List String} :
    t.existingPart h names = .error rest ↔ t.MeetsFile (t.segmentsOf h) names rest := by
  induction names generalizing h with
  | nil =>
    refine ⟨fun he => (by cases he), ?_⟩
    rintro ⟨first, content, hf, hn, _⟩
    exact absurd (List.append_eq_nil_iff.mp hn.symm).1 hf
  | cons name names ih =>
    have hk := ht.kindAt_concat hd name
    rw [ht.meetsFile_cons_iff]
    cases hc : t.child? h name with
    | none =>
      rw [hc, Option.bind_none] at hk
      simp [existingPart, hc, hk]
    | some c =>
      rw [hc, Option.bind_some] at hk
      obtain ⟨kind, hkc⟩ := exists_kind?_iff.mpr ⟨_, ht.down hc⟩
      rw [hk, hkc, existingPart, hc]
      cases kind with
      | directory =>
        have hcd := isDirectory_iff_kind?.mpr hkc
        simpa [hcd, ht.segmentsOf_of_link? (ht.down hc)] using ih hcd
      | file content =>
        simp [isDirectory_eq_kind?, hkc, eq_comm]

/-- Directories are made for the beginnings that were missing. -/
theorem kindAt_createMissing (ht : t.Linked) {h d : Handle} (hd : t.isDirectory h = true)
    {names : List String} (he : t.createMissing h names = (some d, t')) (key : List String) :
    t'.kindAt key = if key <+: t.segmentsOf h ++ names ∧ t.kindAt key = none
      then some .directory else t.kindAt key := by
  induction names generalizing t h with
  | nil =>
    cases he
    obtain ⟨link, hl⟩ := link?_of_isDirectory hd
    rw [if_neg]
    rintro ⟨hp, hk⟩
    rw [List.append_nil] at hp
    exact ht.kindAt_ne_none_of_prefix hp (by simp [ht.kindAt_segmentsOf hl,
      isDirectory_iff_kind?.mp hd]) hk
  | cons name names ih =>
    rw [List.append_cons]
    rw [createMissing] at he
    cases hc : t.child? h name with
    | some c =>
      rw [hc] at he
      dsimp only at he
      split at he
      · rename_i hcd
        rw [ih ht hcd he, ht.segmentsOf_of_link? (ht.down hc)]
      · cases he
    | none =>
      have hlink : (t.attach h name .directory).Linked := ht.attach hd hc
      rw [hc, create_of_vacant .directory hd hc] at he
      rw [ih hlink (isDirectory_attach_new hd) he, ht.segmentsOf_attach_new hd hc,
        ht.kindAt_attach hd hc]
      by_cases hkey : key = t.segmentsOf h ++ [name]
      · have hnone := (ht.child?_eq_none_iff hd).mp hc
        simp [hkey, hnone]
      · simp [Function.update_of_ne hkey]

/-- Directories can be made along names that meet no file; else nothing is made. -/
theorem createMissing_cases (ht : t.Linked) {h : Handle} (hd : t.isDirectory h = true)
    (names : List String) :
    (∃ rest, t.MeetsFile (t.segmentsOf h) names rest) ∧ t.createMissing h names = (none, t) ∨
      (¬ ∃ rest, t.MeetsFile (t.segmentsOf h) names rest) ∧
        ∃ d, (t.createMissing h names).1 = some d := by
  simp only [← ht.existingPart_eq_error_iff hd, createMissing_eq names hd]
  cases he : t.existingPart h names with
  | error rest => exact .inl ⟨⟨rest, rfl⟩, rfl⟩
  | ok found =>
    obtain ⟨hfd, hv⟩ := existingPart_eq_ok hd he
    exact .inr ⟨by simp, createChain_of_vacant hfd hv⟩

end Linked

section Keeps

variable {t : Tree} {h : Handle} {link : String × Option Handle}

theorem kind?_create (hl : t.link? h = some link) {t' : Tree} {p : Handle} {name : String}
    {kind : Kind} {answer : Option Handle} (he : t.create p name kind = (answer, t')) :
    t'.kind? h = t.kind? h := by
  rcases t.create_cases p name kind with hr | ⟨_, _, hr⟩
  · obtain rfl : t = t' := congrArg Prod.snd (hr.symm.trans he)
    rfl
  · obtain rfl : t.attach p name kind = t' := congrArg Prod.snd (hr.symm.trans he)
    rw [kind?_attach, if_neg (Nat.ne_of_lt (lt_size_of_link? hl))]

theorem kind?_createMissing (hl : t.link? h = some link) (d : Handle) (names : List String) :
    (t.createMissing d names).2.kind? h = t.kind? h := by
  fun_induction createMissing t d names with
  | case1 => rfl
  | case2 t d name names c hc hd ih => exact ih hl
  | case3 => rfl
  | case4 t d name names hc c t' he ih =>
    have hl' := ((grows_of_create he).link? hl).1
    exact (ih hl').trans (kind?_create hl he)
  | case5 t d name names hc t' he => exact kind?_create hl he

/-- Only a written content changes what a node is. -/
theorem Operation.kind?_apply (ht : t.Linked) (hl : t.link? h = some link) (op : Operation)
    (hop : ∀ i f, op ≠ .modifyContent i f) {k : Kind} (hk : (op.apply t).kind? h = some k) :
    t.kind? h = some k := by
  cases op with
  | create p name kind => exact (kind?_create hl rfl).symm.trans hk
  | createDirectories names => exact (kind?_createMissing hl root names).symm.trans hk
  | remove i =>
    rcases t.remove_cases i with he | ⟨name, p, hli, _⟩
    · rwa [Operation.apply, he] at hk
    · rw [Operation.apply, ht.kind?_remove hli] at hk
      split at hk
      · cases hk
      · exact hk
  | modifyContent i f => exact absurd rfl (hop i f)

end Keeps

theorem mem_entries_iff {t : Tree} {d c : Handle} {name : String} :
    (name, c) ∈ t.entries d ↔ t.child? d name = some c := by
  cases he : t.entries? d with
  | none => simp [entries, child?, he]
  | some entries => simp [Tree.entries, child?, he]

theorem entries_sorted (t : Tree) (d : Handle) :
    (t.entries d).Pairwise fun a b => a.1 < b.1 := by
  cases he : t.entries? d with
  | none => simp [entries, he]
  | some entries =>
    simp only [Tree.entries, he, Option.elim_some]
    refine entries.ordered_keys_toList.imp fun {a b} h => ?_
    exact compareOfLessAndEq_eq_lt.mp h

theorem create_fst_iff {t : Tree} {p : Handle} {name : String} {kind : Kind} :
    (∃ c, (t.create p name kind).1 = some c) ↔
      t.isDirectory p = true ∧ t.child? p name = none := by
  refine ⟨fun ⟨c, hc⟩ => ?_, fun ⟨hp, hc⟩ => ⟨_, by rw [create_of_vacant kind hp hc]⟩⟩
  rcases t.create_cases p name kind with he | ⟨hp, hv, _⟩
  · simp [he] at hc
  · exact ⟨hp, hv⟩

namespace Linked

variable {t : Tree}

theorem kindAt_create (ht : t.Linked) {p c : Handle} {name : String} {kind : Kind}
    (hc : (t.create p name kind).1 = some c) :
    t.kindAt (t.segmentsOf p ++ [name]) = none ∧
      (t.create p name kind).2.segmentsOf c = t.segmentsOf p ++ [name] ∧
      (t.create p name kind).2.kindAt =
        Function.update t.kindAt (t.segmentsOf p ++ [name]) (some kind) := by
  obtain ⟨hp, hv⟩ := create_fst_iff.mp ⟨c, hc⟩
  rw [create_of_vacant kind hp hv] at hc ⊢
  obtain rfl := Option.some.inj hc
  exact ⟨(ht.child?_eq_none_iff hp).mp hv, ht.segmentsOf_attach_new hp hv, ht.kindAt_attach hp hv⟩

theorem remove_fst_iff (ht : t.Linked) {h : Handle} :
    (t.remove h).1 = true ↔ (t.node? h).isSome = true ∧ h ≠ root := by
  rw [isSome_node?_iff]
  constructor
  · intro hr
    rcases t.remove_cases h with he | ⟨name, p, hl, _⟩
    · simp [he] at hr
    · exact ⟨⟨_, hl⟩, ht.ne_root hl⟩
  · rintro ⟨⟨⟨name, parent⟩, hl⟩, hh⟩
    obtain ⟨p, rfl, _⟩ := ht.up hl hh
    rw [remove_of_link? hl]

/-- A list of names meets a file if one of its beginnings leads to it. -/
theorem exists_meetsFile_root_iff (ht : t.Linked) {names : List String} :
    (∃ rest, t.MeetsFile (t.segmentsOf root) names rest) ↔ ∃ first content,
      first ≠ [] ∧ first <+: names ∧ t.kindAt first = some (.file content) := by
  rw [ht.segmentsOf_root]
  constructor
  · rintro ⟨rest, first, content, hf, rfl, hk⟩
    exact ⟨first, content, hf, List.prefix_append _ _, hk⟩
  · rintro ⟨first, content, hf, ⟨rest, rfl⟩, hk⟩
    exact ⟨rest, first, content, hf, rfl, hk⟩

theorem createDirectories_cases (ht : t.Linked) (names : List String) :
    (∃ first content, first ≠ [] ∧ first <+: names ∧ t.kindAt first = some (.file content)) ∧
        t.createDirectories names = (none, t) ∨
      (¬ ∃ first content, first ≠ [] ∧ first <+: names ∧
        t.kindAt first = some (.file content)) ∧ ∃ d, (t.createDirectories names).1 = some d := by
  rw [← ht.exists_meetsFile_root_iff]
  exact ht.createMissing_cases ht.root_isDirectory names

theorem kindAt_createDirectories (ht : t.Linked) {names : List String} {d : Handle}
    (hd : (t.createDirectories names).1 = some d) (key : List String) :
    (t.createDirectories names).2.kindAt key =
      if key <+: names ∧ t.kindAt key = none then some .directory else t.kindAt key := by
  have he : t.createMissing root names = (some d, (t.createDirectories names).2) :=
    Prod.ext hd rfl
  have hk := ht.kindAt_createMissing ht.root_isDirectory he key
  rwa [ht.segmentsOf_root, List.nil_append] at hk

theorem mem_entries_iff_held (ht : t.Linked) {d c : Handle} {name : String} :
    (name, c) ∈ t.entries d ↔ (t.node? c).isSome = true ∧ t.parent? c = some d ∧
      t.segmentsOf c = t.segmentsOf d ++ [name] := by
  rw [mem_entries_iff, isSome_node?_iff]
  constructor
  · intro hc
    have hl := ht.down hc
    exact ⟨⟨_, hl⟩, parent?_of_link? hl, ht.segmentsOf_of_link? hl⟩
  · rintro ⟨⟨⟨x, parent⟩, hl⟩, hp, hs⟩
    rw [parent?_of_link? hl] at hp
    subst hp
    rw [ht.segmentsOf_of_link? hl] at hs
    obtain rfl : x = name := by simpa using hs
    exact ht.child?_eq_some_iff.mpr hl

end Linked

/-- How the operations on a tree act on the map from names to kinds. -/
structure FollowsPathMap (t : Tree) : Prop where
  /-- The map holds each node at its names, and nothing else. -/
  kindAt_iff : ∀ names kind,
    t.kindAt names = some kind ↔ ∃ h, t.segmentsOf h = names ∧ t.kind? h = some kind
  /-- A node is created in a directory that has no entry of its name. -/
  create_iff : ∀ p name kind, (∃ c, (t.create p name kind).1 = some c) ↔
    t.isDirectory p = true ∧ t.child? p name = none
  /-- A created node is one key more. -/
  kindAt_create : ∀ p name kind c, (t.create p name kind).1 = some c →
    t.kindAt (t.segmentsOf p ++ [name]) = none ∧
      (t.create p name kind).2.segmentsOf c = t.segmentsOf p ++ [name] ∧
      (t.create p name kind).2.kindAt =
        Function.update t.kindAt (t.segmentsOf p ++ [name]) (some kind)
  create_refused : ∀ p name kind, (t.create p name kind).1 = none →
    (t.create p name kind).2 = t
  /-- Every node but the root can be removed. -/
  remove_iff : ∀ h, (t.remove h).1 = true ↔ (t.node? h).isSome = true ∧ h ≠ root
  /-- With a node go the keys that continue its names. -/
  kindAt_remove : ∀ h, (t.remove h).1 = true → ∀ names, (t.remove h).2.kindAt names =
    if t.segmentsOf h <+: names then none else t.kindAt names
  remove_refused : ∀ h, (t.remove h).1 = false → (t.remove h).2 = t
  /-- Directories cannot be made through or over a file. -/
  createDirectories_eq_none_iff : ∀ names, (t.createDirectories names).1 = none ↔
    ∃ first content, first ≠ [] ∧ first <+: names ∧ t.kindAt first = some (.file content)
  createDirectories_refused : ∀ names, (t.createDirectories names).1 = none →
    (t.createDirectories names).2 = t
  /-- Directories made at once are those beginnings of the names that were missing. -/
  kindAt_createDirectories : ∀ names d, (t.createDirectories names).1 = some d → ∀ key,
    (t.createDirectories names).2.kindAt key =
      if key <+: names ∧ t.kindAt key = none then some .directory else t.kindAt key
  /-- The entries of a directory are the nodes that it holds. -/
  mem_entries_iff : ∀ d name c, (name, c) ∈ t.entries d ↔ (t.node? c).isSome = true ∧
    t.parent? c = some d ∧ t.segmentsOf c = t.segmentsOf d ++ [name]
  /-- Entries are listed in the order of their names' bytes. -/
  entries_sorted : ∀ d, (t.entries d).Pairwise fun a b =>
    Text.utf8 a.1.toList < Text.utf8 b.1.toList
  /-- A node that stays keeps its names, and its kind and content unless content is written. -/
  keeps : ∀ (op : Operation) h, (t.node? h).isSome = true →
    ((op.apply t).node? h).isSome = true → (op.apply t).segmentsOf h = t.segmentsOf h ∧
      ((∀ i f, op ≠ .modifyContent i f) → (op.apply t).kind? h = t.kind? h)

/-- Every tree that operations build follows the map of its paths. -/
theorem followsPathMap_run (ops : List Operation) : (run ops empty).FollowsPathMap := by
  have ht := (leads_run ops empty).linked .empty
  generalize run ops empty = t at ht
  refine
    { kindAt_iff := fun names kind => ht.kindAt_eq_some_iff
      create_iff := fun p name kind => ?_
      kindAt_create := fun p name kind c hc => ?_
      create_refused := fun p name kind => create_snd_of_refused
      remove_iff := fun h => ?_
      kindAt_remove := fun h hr names => ?_
      remove_refused := fun h => remove_snd_of_refused
      createDirectories_eq_none_iff := fun names => ?_
      createDirectories_refused := fun names hn => ?_
      kindAt_createDirectories := fun names d hd key => ?_
      mem_entries_iff := fun d name c => ht.mem_entries_iff_held
      entries_sorted := fun d => ?_
      keeps := fun op h hh hh' => ?_ }
  · exact create_fst_iff
  · exact ht.kindAt_create hc
  · exact ht.remove_fst_iff
  · rcases t.remove_cases h with he | ⟨name, p, hl, _⟩
    · simp [he] at hr
    · exact ht.kindAt_remove hl names
  · rcases ht.createDirectories_cases names with ⟨hf, he⟩ | ⟨hf, d, he⟩
    · exact iff_of_true (by rw [he]) hf
    · exact iff_of_false (by simp [he]) hf
  · rcases ht.createDirectories_cases names with ⟨_, he⟩ | ⟨_, d, he⟩
    · rw [he]
    · simp [he] at hn
  · exact ht.kindAt_createDirectories hd key
  · exact (t.entries_sorted d).imp fun hlt => Text.utf8_lt_utf8 hlt
  · obtain ⟨l, hl⟩ := isSome_node?_iff.mp hh
    obtain ⟨l', hl'⟩ := isSome_node?_iff.mp hh'
    have hleads := op.leads t
    refine ⟨ht.segmentsOf_of_ages (hleads.linked ht) (hleads.ages ht) hl hl', fun hop => ?_⟩
    obtain ⟨k, hk⟩ := exists_kind?_iff.mpr ⟨l', hl'⟩
    rw [hk, op.kind?_apply ht hl hop hk]

end Tree

end TreeShell
