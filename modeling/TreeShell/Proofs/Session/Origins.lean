import TreeShell.Proofs.Session.Resolving

/-! Where the content of a file comes from. Of a run of operations one can say which of them set
the content of which file, without a look at what the files hold: a touch that makes a file, a
redirect that opens it, a download that is saved as it. What a file holds at the end tells its
source exactly if the last of these was a download. -/

namespace TreeShell

/-- The source that a content tells; what a user wrote tells none. -/
def Content.source? : Content → Option String
  | .own _ => none
  | .fetched _ source => some source

theorem Content.source?_receive (mode : RedirectMode) (data : List UInt8) (content : Content) :
    (content.receive mode data).source? = none := by
  cases mode <;> rfl

/-- How the content of a file was set. -/
inductive Origin
  | touched
  | redirected
  | downloaded (url : String)
  deriving DecidableEq, Repr

def Origin.source? : Origin → Option String
  | .downloaded url => some url
  | .touched | .redirected => none

theorem Origin.source?_eq_some_iff {o : Origin} {url : String} :
    o.source? = some url ↔ o = .downloaded url := by
  cases o <;> simp [source?]

/-- The last entry of a file in a record of what set contents. -/
def lastOrigin? (record : List (Handle × Origin)) (h : Handle) : Option Origin :=
  ((record.filter fun entry => entry.1 = h).getLast?).map Prod.snd

theorem lastOrigin?_append (record more : List (Handle × Origin)) (h : Handle) :
    lastOrigin? (record ++ more) h = (lastOrigin? more h).or (lastOrigin? record h) := by
  rw [lastOrigin?, List.filter_append, List.getLast?_append, lastOrigin?, lastOrigin?]
  cases (more.filter fun entry => entry.1 = h).getLast? <;> rfl

namespace Tree

variable {t : Tree} {i : Handle} {content : Content}

theorem content?_of_attach {p : Handle} {name : String} {kind : Kind}
    (hc : (t.attach p name kind).content? i = some content) :
    i = t.slots.size ∧ kind = .file content ∨ i ≠ t.slots.size ∧ t.content? i = some content := by
  rw [content?_eq_some_iff, kind?_attach] at hc
  split at hc
  · exact .inl ⟨‹_›, Option.some.inj hc⟩
  · exact .inr ⟨‹_›, content?_eq_some_iff.mpr hc⟩

theorem content?_of_createDirectory (p : Handle) (name : String)
    (hc : (t.create p name .directory).2.content? i = some content) :
    t.content? i = some content := by
  rcases t.create_cases p name .directory with he | ⟨_, _, he⟩
  · rwa [he] at hc
  · rw [he] at hc
    obtain ⟨-, hk⟩ | ⟨-, hc⟩ := content?_of_attach hc
    · cases hk
    · exact hc

theorem content?_of_createChain (d : Handle) (names : List String)
    (hc : (t.createChain d names).2.content? i = some content) : t.content? i = some content := by
  induction names generalizing t d with
  | nil => exact hc
  | cons name names ih =>
    rw [createChain] at hc
    have hfirst : (t.create d name .directory).2.content? i = some content →
        t.content? i = some content := content?_of_createDirectory d name
    generalize t.create d name .directory = r at hc hfirst
    obtain ⟨_ | c, t'⟩ := r
    · exact hfirst hc
    · exact hfirst (ih c hc)

theorem Linked.content?_of_remove (ht : t.Linked) {h : Handle}
    (hc : (t.remove h).2.content? i = some content) : t.content? i = some content := by
  rcases t.remove_cases h with he | ⟨name, p, hl, -⟩
  · rwa [he] at hc
  · rw [content?_eq_some_iff, ht.kind?_remove hl] at hc
    split at hc
    · cases hc
    · exact content?_eq_some_iff.mpr hc

end Tree

namespace Session

variable {s : Session} {path : String} {h : Handle} {content : Content}

/-- The file whose content an operation sets, and how. -/
def Operation.setting? (s : Session) : Operation → Option (Handle × Origin)
  | .touch path =>
    match s.locateFile path with
    | .ok (.vacant p name) => ((s.touch path).2.tree.child? p name).map fun h => (h, .touched)
    | _ => none
  | .modifyFile path _ =>
    match s.createOrOpen path with
    | (.ok h, _) => some (h, .redirected)
    | (.error _, _) => none
  | .saveDownload name bytes source =>
    match s.saveDownload name bytes source with
    | (.ok saved, u) => (u.tree.child? s.cwd saved).map fun h => (h, .downloaded source)
    | (.error _, _) => none
  | .cd _ | .mkdir _ _ | .rm _ _ => none

/-- What a run of operations set, in its order. -/
def settings : List Operation → Session → List (Handle × Origin)
  | [], _ => []
  | op :: ops, s => (op.setting? s).toList ++ settings ops (op.run s).2

/-- An operation that leaves the user's own content where it opens a file. -/
def Operation.Owns : Operation → Prop
  | .modifyFile _ f => ∀ content, (f content).source? = none
  | _ => True

theorem vacant_of_locateFile {p : Handle} {name : String}
    (hl : s.locateFile path = .ok (.vacant p name)) :
    s.tree.isDirectory p = true ∧ s.tree.child? p name = none := by
  obtain ⟨-, he | ⟨front, x, q, -, -, hd, he⟩⟩ := locate_eq_ok (locateFile_eq_ok hl).1
  · cases he
  · cases hc : s.tree.child? q x with
    | none =>
      rw [hc] at he
      obtain ⟨rfl, rfl⟩ := Place.vacant.inj he
      exact ⟨hd, hc⟩
    | some i =>
      rw [hc] at he
      cases he

/-- Each content behind an operation is one that it set, as it says, or was there before. -/
def Operation.Accounts (op : Operation) (s : Session) : Prop :=
  ∀ h content, (op.run s).2.tree.content? h = some content →
    (∃ o, op.setting? s = some (h, o) ∧ content.source? = o.source?) ∨
      (∀ o, op.setting? s ≠ some (h, o)) ∧ s.tree.content? h = some content

theorem accounts_of_keeps {op : Operation} (hset : op.setting? s = none)
    (hkeep : ∀ h content, (op.run s).2.tree.content? h = some content →
      s.tree.content? h = some content) : op.Accounts s :=
  fun h content hc => .inr ⟨fun o => by simp [hset], hkeep h content hc⟩

theorem accounts_of_attach {op : Operation} (p : Handle) (name : String) (new : Content)
    (o : Origin) (hd : s.tree.isDirectory p = true)
    (hrun : (op.run s).2.tree = s.tree.attach p name (.file new))
    (hset : op.setting? s = ((op.run s).2.tree.child? p name).map fun h => (h, o))
    (hnew : new.source? = o.source?) : op.Accounts s := by
  intro h content hc
  have hset : op.setting? s = some (s.tree.slots.size, o) := by
    rw [hset, hrun, Tree.child?_attach hd, if_pos ⟨rfl, rfl⟩]
    rfl
  rw [hrun] at hc
  obtain ⟨rfl, hk⟩ | ⟨hne, hc⟩ := Tree.content?_of_attach hc
  · obtain rfl := Kind.file.inj hk
    exact .inl ⟨o, hset, hnew⟩
  · refine .inr ⟨fun o' he => ?_, hc⟩
    rw [hset] at he
    exact hne (Prod.mk.inj (Option.some.inj he)).1.symm

theorem touch_accounts (path : String) (s : Session) : (Operation.touch path).Accounts s := by
  have hrun : ((Operation.touch path).run s) = s.touch path := rfl
  cases hl : s.locateFile path with
  | error e =>
    refine accounts_of_keeps (by simp [Operation.setting?, hl]) fun h content hc => ?_
    rwa [hrun, touch, hl] at hc
  | ok place =>
    cases place with
    | existing i =>
      refine accounts_of_keeps (by simp [Operation.setting?, hl]) fun h content hc => ?_
      rwa [hrun, touch, hl] at hc
    | vacant p name =>
      obtain ⟨hd, hv⟩ := vacant_of_locateFile hl
      refine accounts_of_attach p name .empty .touched hd ?_ ?_ rfl
      · simp [hrun, touch, hl, Tree.create_of_vacant _ hd hv]
      · simp [hrun, Operation.setting?, hl]

theorem createOrOpen_cases (path : String) (s : Session) :
    (∃ e, s.createOrOpen path = (.error e, s)) ∨ (∃ i, s.createOrOpen path = (.ok i, s)) ∨
    ∃ p name, s.tree.isDirectory p = true ∧ s.createOrOpen path =
      (.ok s.tree.slots.size, { s with tree := s.tree.attach p name (.file .empty) }) := by
  cases hl : s.locateFile path with
  | error e => exact .inl ⟨e, by simp [createOrOpen, hl]⟩
  | ok place =>
    cases place with
    | existing i =>
      cases hc : s.tree.content? i with
      | none => exact .inl ⟨.isADirectory path, by simp [createOrOpen, hl, hc]⟩
      | some content => exact .inr (.inl ⟨i, by simp [createOrOpen, hl, hc]⟩)
    | vacant p name =>
      obtain ⟨hd, hv⟩ := vacant_of_locateFile hl
      exact .inr (.inr ⟨p, name, hd, createOrOpen_of_vacant hl hd hv⟩)

theorem content?_of_createOrOpen {i : Handle} {u : Session}
    (ho : s.createOrOpen path = (.ok i, u)) (hne : h ≠ i)
    (hc : u.tree.content? h = some content) : s.tree.content? h = some content := by
  obtain ⟨e, he⟩ | ⟨j, hj⟩ | ⟨p, name, hd, hj⟩ := createOrOpen_cases path s
  · cases he.symm.trans ho
  · obtain rfl := (Prod.mk.inj (hj.symm.trans ho)).2
    exact hc
  · obtain ⟨hi, rfl⟩ := Prod.mk.inj (hj.symm.trans ho)
    obtain rfl := Except.ok.inj hi
    obtain ⟨rfl, -⟩ | ⟨-, hc⟩ := Tree.content?_of_attach hc
    · exact absurd rfl hne
    · exact hc

theorem modifyFile_accounts (path : String) {f : Content → Content}
    (hf : ∀ content, (f content).source? = none) (s : Session) :
    (Operation.modifyFile path f).Accounts s := by
  have hrun : ((Operation.modifyFile path f).run s).2 = (s.modifyFile path f).2 := rfl
  rcases ho : s.createOrOpen path with ⟨e | i, u⟩
  · have hu : u = s := by
      have hout := createOrOpen_outcome path (s := s)
      rw [ho] at hout
      exact hout.eq_of_error rfl
    refine accounts_of_keeps (by simp [Operation.setting?, ho]) fun h content hc => ?_
    rwa [hrun, modifyFile, ho, hu] at hc
  · have hset : (Operation.modifyFile path f).setting? s = some (i, .redirected) := by
      simp [Operation.setting?, ho]
    intro h content hc
    rw [hrun, modifyFile, ho] at hc
    rw [Tree.content?_eq_some_iff, Tree.kind?_modifyContent] at hc
    by_cases hi : h = i
    · subst hi
      rw [if_pos rfl] at hc
      obtain ⟨_ | old, -, hk⟩ := Option.map_eq_some_iff.mp hc
      · cases hk
      · obtain rfl := Kind.file.inj hk
        exact .inl ⟨.redirected, hset, hf old⟩
    · rw [if_neg hi, ← Tree.content?_eq_some_iff] at hc
      refine .inr ⟨fun o he => ?_, content?_of_createOrOpen ho hi hc⟩
      rw [hset] at he
      exact hi (Prod.mk.inj (Option.some.inj he)).1.symm

theorem saveDownload_accounts (name : String) (bytes : List UInt8) (source : String)
    (s : Session) : (Operation.saveDownload name bytes source).Accounts s := by
  have hrun : ((Operation.saveDownload name bytes source).run s).2 =
      (s.saveDownload name bytes source).2 := rfl
  cases hd : s.tree.isDirectory s.cwd with
  | false =>
    refine accounts_of_keeps (by simp [Operation.setting?, saveDownload, hd]) fun h content hc => ?_
    simpa [hrun, saveDownload, hd] using hc
  | true =>
    generalize hx : (s.tree.freeName? s.cwd name).getD name = saved
    rcases s.tree.create_cases s.cwd saved (.file (.fetched bytes source)) with he | ⟨-, -, he⟩
    · refine accounts_of_keeps (by simp [Operation.setting?, saveDownload, hd, hx, he])
        fun h content hc => ?_
      simpa [hrun, saveDownload, hd, hx, he] using hc
    · exact accounts_of_attach s.cwd saved (.fetched bytes source) (.downloaded source) hd
        (by simp [hrun, saveDownload, hd, hx, he])
        (by simp [hrun, Operation.setting?, saveDownload, hd, hx, he]) rfl

theorem mkdir_accounts (path : String) (parents : Bool) (s : Session) :
    (Operation.mkdir path parents).Accounts s := by
  refine accounts_of_keeps rfl fun h content hc => ?_
  have hrun : (Operation.mkdir path parents).run s = s.mkdir path parents := rfl
  rw [hrun, mkdir] at hc
  split at hc
  · rw [makeDirectories] at hc
    split at hc
    · exact hc
    · split at hc
      · exact hc
      · exact hc
      · rename_i d missing _
        refine Tree.content?_of_createChain d missing ?_
        split at hc <;> (rename_i he; rwa [he])
  · rw [makeDirectory] at hc
    split at hc
    · exact hc
    · exact hc
    · rename_i p name _
      refine Tree.content?_of_createDirectory p name ?_
      split at hc <;> (rename_i he; rwa [he])

theorem rm_accounts (path : String) (recursive : Bool) (hs : s.tree.Linked) :
    (Operation.rm path recursive).Accounts s := by
  refine accounts_of_keeps rfl fun h content hc => ?_
  have hrun : (Operation.rm path recursive).run s = s.rm path recursive := rfl
  rw [hrun, rm] at hc
  split at hc
  · exact hc
  · split at hc
    · exact hc
    · split at hc
      · exact hc
      · exact hs.content?_of_remove hc

theorem cd_accounts (path : Option String) (s : Session) : (Operation.cd path).Accounts s := by
  refine accounts_of_keeps rfl fun h content hc => ?_
  have htree : (s.cd path).2.tree = s.tree := by
    unfold cd
    split
    · rfl
    · split
      · rfl
      · split <;> rfl
  rwa [Operation.run, htree] at hc

theorem Operation.accounts {op : Operation} (ho : op.Owns) (hs : s.tree.Linked) :
    op.Accounts s := by
  cases op with
  | cd path => exact cd_accounts path s
  | mkdir path parents => exact mkdir_accounts path parents s
  | touch path => exact touch_accounts path s
  | modifyFile path f => exact modifyFile_accounts path ho s
  | rm path recursive => exact rm_accounts path recursive hs
  | saveDownload name bytes source => exact saveDownload_accounts name bytes source s

/-- The content of a file at the end of a run was set by the last operation that is recorded for
the file, or it is the content that the file began with. -/
theorem Sound.content_of_settings {ops : List Operation} (ho : ∀ op ∈ ops, op.Owns)
    (hs : s.Sound) (hc : (Session.run ops s).tree.content? h = some content) :
    (∃ o, lastOrigin? (settings ops s) h = some o ∧ content.source? = o.source?) ∨
      lastOrigin? (settings ops s) h = none ∧ s.tree.content? h = some content := by
  induction ops generalizing s with
  | nil => exact .inr ⟨rfl, hc⟩
  | cons op ops ih =>
    obtain ⟨hop, hops⟩ := List.forall_mem_cons.mp ho
    have hnext : (op.run s).2.Sound := (hs.run [op]).1
    rw [settings, lastOrigin?_append]
    -- What the operations behind the first record for the file counts before what this one does.
    obtain ⟨o, hl, hsource⟩ | ⟨hl, hc⟩ := ih hops hnext hc
    · exact .inl ⟨o, by rw [hl]; rfl, hsource⟩
    · rw [hl, Option.none_or]
      obtain ⟨o, hset, hsource⟩ | ⟨hset, hc⟩ := op.accounts hop hs.linked h content hc
      · exact .inl ⟨o, by simp [hset, lastOrigin?], hsource⟩
      · refine .inr ⟨?_, hc⟩
        cases hset' : op.setting? s with
        | none => rfl
        | some entry =>
          obtain ⟨i, o⟩ := entry
          have hne : i ≠ h := by
            rintro rfl
            exact hset o hset'
          simp [lastOrigin?, hne]

end Session

end TreeShell
