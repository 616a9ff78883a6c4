import TreeShell.Proofs.Tree.Creation
import TreeShell.Session.Bootstrap

/-! Sessions as they arise: one is started, and then operations are tried on it in any order,
whether they succeed or not. Each operation amounts to one step of four kinds. -/

namespace TreeShell.Session

/-- What a user can try to do with files. -/
inductive Operation
  | cd (path : Option String)
  | mkdir (path : String) (parents : Bool)
  | touch (path : String)
  /-- Opens a file, makes it if need be, and changes its content. -/
  | modifyFile (path : String) (f : Content → Content)
  | rm (path : String) (recursive : Bool)
  | saveDownload (name : String) (bytes : List UInt8) (source : String)

/-- The outcome of an operation, and the session it leaves. -/
def Operation.run : Operation → Session → Except FileError Unit × Session
  | .cd path, s => s.cd path
  | .mkdir path parents, s => s.mkdir path parents
  | .touch path, s => s.touch path
  | .modifyFile path f, s => (s.modifyFile path f).map (·.map fun _ => ()) id
  | .rm path recursive, s => s.rm path recursive
  | .saveDownload name bytes source, s =>
    (s.saveDownload name bytes source).map (·.map fun _ => ()) id

/-- The session after some operations. -/
def run (ops : List Operation) (s : Session) : Session :=
  ops.foldl (fun s op => (op.run s).2) s

/-- Some run of operations leads from one session to the other. -/
def Leads (s s' : Session) : Prop :=
  ∃ ops, s' = run ops s

/-- Some run of operations that are all allowed leads from one session to the other. -/
def LeadsBy (allowed : Operation → Prop) (s s' : Session) : Prop :=
  ∃ ops, (∀ op ∈ ops, allowed op) ∧ s' = run ops s

/-- The operations by which a manifest's tree is built. -/
def Operation.Builds : Operation → Prop
  | .mkdir .. | .modifyFile .. => True
  | _ => False

/-- How a session can begin: over a tree that was built before, over a fresh one, or over the
one that a manifest describes. -/
inductive Start : Session → Prop
  | ofTree {ops : List Tree.Operation} {user : String} {s : Session} :
    ofTree? (Tree.run ops Tree.empty) user = some s → Start s
  | withHome (user : String) : Start (withHome user)
  | bootstrap {manifest : Manifest} {user : String} {fetch : Fetcher} {s : Session} :
    bootstrap manifest user fetch = .ok s → Start s

def Reachable (s : Session) : Prop :=
  ∃ s₀, Start s₀ ∧ Leads s₀ s

/-- The same session over a tree that entries with allowed names were added to. -/
def Added (allowed : String → Prop) (s s' : Session) : Prop :=
  ∃ tree, Tree.Adds allowed s.tree tree ∧ s' = { s with tree }

/-- The names under which an operation can make entries. -/
def Operation.Names (s : Session) : Operation → String → Prop
  | .mkdir path _ | .touch path | .modifyFile path _ => (· ∈ s.segments path)
  | .saveDownload wanted _ _ => fun name => ∃ n, name = Download.candidate wanted n
  | .cd _ | .rm _ _ => fun _ => False

/-- What an operation does to a session where it succeeds. -/
inductive Operation.Changes (s : Session) : Operation → Session → Prop
  | added {op : Operation} {s' : Session} : Added (op.Names s) s s' → Changes s op s'
  | written {path : String} {f : Content → Content} {h : Handle} {s' : Session} :
    s.createOrOpen path = (.ok h, s') → Added (· ∈ s.segments path) s s' →
    Changes s (.modifyFile path f) { s' with tree := s'.tree.modifyContent h f }
  | wentTo {path : String} {h : Handle} : s.resolve path = .ok h →
    s.tree.isDirectory h = true → Changes s (.cd (some path)) { s with cwd := h }
  | wentHome : Changes s (.cd none) { s with cwd := s.home }
  | removed {path : String} {recursive : Bool} {h p : Handle} {name : String} :
    s.resolve path = .ok h → s.tree.link? h = some (name, some p) → s.isProtected h = false →
    Changes s (.rm path recursive) { s with
      tree := (s.tree.remove h).2
      cwd := if s.tree.contains h s.cwd then p else s.cwd }

/-- The same session over a tree that nodes were added to. -/
def Grown (s s' : Session) : Prop :=
  ∃ tree, Tree.Grows s.tree tree ∧ s' = { s with tree }

/-- What an operation can do to a session. -/
inductive Step (s : Session) : Session → Prop
  | grow {s' : Session} : Grown s s' → Step s s'
  | goTo {h : Handle} : s.tree.isDirectory h = true → Step s { s with cwd := h }
  | goHome : Step s { s with cwd := s.home }
  | remove {h p : Handle} {name : String} : s.tree.link? h = some (name, some p) →
    s.isProtected h = false → Step s { s with
      tree := (s.tree.remove h).2
      cwd := if s.tree.contains h s.cwd then p else s.cwd }

/-- An attempt either fails and leaves the session as it was, or succeeds and changes it as
`R` allows. -/
inductive Outcome {α : Type} (R : Session → Prop) (s : Session) :
    Except FileError α × Session → Prop
  | failed (e : FileError) : Outcome R s (.error e, s)
  | done (a : α) {s' : Session} : R s' → Outcome R s (.ok a, s')

theorem Outcome.mono {α : Type} {R R' : Session → Prop} {s : Session}
    {r : Except FileError α × Session} (h : Outcome R s r) (hR : ∀ s', R s' → R' s') :
    Outcome R' s r := by
  cases h with
  | failed e => exact .failed e
  | done a h => exact .done a (hR _ h)

theorem Outcome.forget {α : Type} {R : Session → Prop} {s : Session}
    {r : Except FileError α × Session} (h : Outcome R s r) :
    Outcome R s (r.map (·.map fun _ => ()) id) := by
  cases h with
  | failed e => exact .failed e
  | done a h => exact .done () h

theorem Outcome.eq_of_error {α : Type} {R : Session → Prop} {s : Session}
    {r : Except FileError α × Session} (h : Outcome R s r) {e : FileError}
    (he : r.1 = .error e) : r.2 = s := by
  cases h with
  | failed e => rfl
  | done a h => cases he

section Outcomes

variable (path : String) {s : Session}

theorem Added.refl {allowed : String → Prop} : Added allowed s s :=
  ⟨s.tree, .refl, rfl⟩

theorem mem_segments_of_locate {path name : String} {parent : Handle}
    (h : s.locate path = .ok (.vacant parent name)) : name ∈ s.segments path := by
  unfold locate at h
  split at h
  · cases h
  · split at h
    · cases h
    · rename_i hl
      split at h
      · cases h
      · split at h
        · split at h <;> cases h
          exact List.mem_of_getLast? hl
        · cases h

theorem mem_segments_of_locateFile {path name : String} {parent : Handle}
    (h : s.locateFile path = .ok (.vacant parent name)) : name ∈ s.segments path := by
  unfold locateFile at h
  split at h
  · cases h
  · rename_i place hp
    split at h
    · split at h
      · split at h <;> cases h
      · cases h
    · cases h
      exact mem_segments_of_locate hp

theorem makeDirectory_adds :
    Outcome (Added (· ∈ s.segments path) s) s (s.makeDirectory path) := by
  unfold makeDirectory
  split
  · exact .failed _
  · exact .failed _
  · rename_i parent name hp
    rcases s.tree.create_cases parent name .directory with he | ⟨_, _, he⟩
    · rw [he]
      exact .failed _
    · rw [he]
      exact .done () ⟨_, Tree.adds_of_create (mem_segments_of_locate hp) he, rfl⟩

/-- All that can stand in the way is found before the first directory is made. -/
theorem makeDirectories_adds (hs : s.tree.Linked) :
    Outcome (Added (· ∈ s.segments path) s) s (s.makeDirectories path) := by
  unfold makeDirectories
  split
  · exact .failed _
  · split
    · exact .failed _
    · exact .failed _
    · rename_i h missing he
      obtain ⟨hd, hv⟩ := Tree.existingPart_eq_ok hs.root_isDirectory he
      obtain ⟨c, hc⟩ := Tree.createChain_of_vacant hd hv
      have ha := s.tree.adds_createChain h fun _ hn => (Tree.suffix_of_existingPart he).mem hn
      rw [← Prod.eta (s.tree.createChain h missing), hc]
      exact .done () ⟨_, ha, rfl⟩

theorem mkdir_adds (hs : s.tree.Linked) (parents : Bool) :
    Outcome (Added (· ∈ s.segments path) s) s (s.mkdir path parents) := by
  unfold mkdir
  split
  · exact makeDirectories_adds path hs
  · exact makeDirectory_adds path

theorem touch_adds : Outcome (Added (· ∈ s.segments path) s) s (s.touch path) := by
  unfold touch
  split
  · exact .failed _
  · exact .done () .refl
  · rename_i hp
    exact .done () ⟨_, Tree.adds_of_create (mem_segments_of_locateFile hp) rfl, rfl⟩

theorem createOrOpen_outcome :
    Outcome (Added (· ∈ s.segments path) s) s (s.createOrOpen path) := by
  unfold createOrOpen
  split
  · exact .failed _
  · rename_i place hp
    cases place with
    | existing h =>
      dsimp only
      split
      · exact .done h .refl
      · exact .failed _
    | vacant parent name =>
      dsimp only
      rcases s.tree.create_cases parent name (.file .empty) with he | ⟨hd, hc, he⟩
      · rw [he]
        exact .failed _
      · rw [he]
        have hnew : (s.tree.attach parent name (.file .empty)).content? s.tree.slots.size =
            some .empty := Tree.content?_attach_file
        simp only [hnew]
        exact .done _ ⟨_, Tree.adds_of_create (mem_segments_of_locateFile hp) he, rfl⟩

theorem modifyFile_changes (f : Content → Content) :
    Outcome (Operation.Changes s (.modifyFile path f)) s (s.modifyFile path f) := by
  have ho := createOrOpen_outcome path (s := s)
  unfold modifyFile
  generalize hr : s.createOrOpen path = r at ho
  cases ho with
  | failed e => exact .failed e
  | done h ha => exact .done h (.written hr ha)

theorem saveDownload_adds (name : String) (bytes : List UInt8) (source : String) :
    Outcome (Added (fun x => ∃ n, x = Download.candidate name n) s) s
      (s.saveDownload name bytes source) := by
  unfold saveDownload
  split
  · have hn : ∃ n, (s.tree.freeName? s.cwd name).getD name = Download.candidate name n := by
      cases hf : s.tree.freeName? s.cwd name with
      | none => exact ⟨0, rfl⟩
      | some x =>
        obtain ⟨n, -, rfl⟩ := List.mem_map.mp (List.mem_of_find?_eq_some hf)
        exact ⟨n, rfl⟩
    dsimp only
    generalize (s.tree.freeName? s.cwd name).getD name = candidate at hn
    rcases s.tree.create_cases s.cwd candidate (.file (.fetched bytes source)) with
      he | ⟨_, _, he⟩
    · rw [he]
      exact .failed _
    · rw [he]
      exact .done _ ⟨_, Tree.adds_of_create hn he, rfl⟩
  · exact .failed _

theorem cd_changes (path : Option String) :
    Outcome (Operation.Changes s (.cd path)) s (s.cd path) := by
  unfold cd
  split
  · exact .done () .wentHome
  · split
    · exact .failed _
    · rename_i hr
      split
      · rename_i hd
        exact .done () (.wentTo hr hd)
      · exact .failed _

theorem resolve_eq_ok {path : String} {h : Handle} (hr : s.resolve path = .ok h) :
    s.tree.walk Tree.root (s.segments path) = .ok h := by
  unfold resolve at hr
  split at hr
  · cases hr
  · split at hr
    · cases hr
    · rename_i he
      split at hr
      · cases hr
      · rw [he, Except.ok.inj hr]

theorem ne_empty_of_resolve {path : String} {h : Handle} (hr : s.resolve path = .ok h) :
    path ≠ "" := by
  rintro rfl
  cases hr

theorem segmentsOf_of_resolve (hs : s.tree.Linked) {path : String} {h : Handle}
    (hr : s.resolve path = .ok h) :
    (∃ link, s.tree.link? h = some link) ∧ s.tree.segmentsOf h = s.segments path :=
  hs.segmentsOf_of_walk (resolve_eq_ok hr)

/-- What a path resolves to and what is not protected has a parent. -/
theorem link?_of_resolve (hs : s.tree.Linked) {path : String} {h : Handle}
    (hr : s.resolve path = .ok h) (hp : s.isProtected h = false) :
    ∃ name p, s.tree.link? h = some (name, some p) := by
  obtain ⟨⟨name, _ | p⟩, hl⟩ := (segmentsOf_of_resolve hs hr).1
  · simp [isProtected, hs.eq_root hl] at hp
  · exact ⟨name, p, hl⟩

theorem rm_changes (hs : s.tree.Linked) (recursive : Bool) :
    Outcome (Operation.Changes s (.rm path recursive)) s (s.rm path recursive) := by
  unfold rm
  split
  · exact .failed _
  · rename_i h hr
    split
    · exact .failed _
    · rename_i hp
      split
      · exact .failed _
      · have hp := (Bool.or_eq_false_iff.mp (Bool.eq_false_iff.mpr hp)).1
        obtain ⟨name, p, hl⟩ := link?_of_resolve hs hr hp
        simp only [Tree.parent?_of_link? hl, Option.getD_some]
        exact .done () (.removed hr hl hp)

end Outcomes

namespace Operation

variable {s s' : Session}

/-- Every operation fails and changes nothing, or changes what it is about. -/
theorem changes (op : Operation) (hs : s.tree.Linked) :
    Outcome (op.Changes s) s (op.run s) := by
  cases op with
  | cd path => exact cd_changes path
  | mkdir path parents => exact (mkdir_adds path hs parents).mono fun _ ha => .added ha
  | touch path => exact (touch_adds path).mono fun _ ha => .added ha
  | modifyFile path f => exact (modifyFile_changes path f).forget
  | rm path recursive => exact rm_changes path hs recursive
  | saveDownload name bytes source =>
    exact ((saveDownload_adds name bytes source).mono fun _ ha => .added ha).forget

theorem run_cases (op : Operation) (hs : s.tree.Linked) :
    (op.run s).2 = s ∨ (op.run s).1 = .ok () ∧ op.Changes s (op.run s).2 := by
  have ho := op.changes hs
  generalize op.run s = r at ho ⊢
  cases ho with
  | failed e => exact .inl rfl
  | done a h => exact .inr ⟨rfl, h⟩

theorem Changes.step {op : Operation} (h : op.Changes s s') : Step s s' := by
  cases h with
  | added ha =>
    obtain ⟨tree, ha, rfl⟩ := ha
    exact .grow ⟨tree, ha.grows, rfl⟩
  | @written path f i u he ha =>
    obtain ⟨tree, ha, rfl⟩ := ha
    exact .grow ⟨_, ha.grows.trans (tree.grows_modifyContent i f), rfl⟩
  | wentTo _ hd => exact .goTo hd
  | wentHome => exact .goHome
  | removed _ hl hp => exact .remove hl hp

/-- Every operation fails and changes nothing, or makes one step. -/
theorem outcome (op : Operation) (hs : s.tree.Linked) : Outcome (Step s) s (op.run s) :=
  (op.changes hs).mono fun _ h => h.step

end Operation

theorem rm_outcome (path : String) {s : Session} (hs : s.tree.Linked) (recursive : Bool) :
    Outcome (Step s) s (s.rm path recursive) :=
  (rm_changes path hs recursive).mono fun _ h => h.step

theorem run_append (ops more : List Operation) (s : Session) :
    run (ops ++ more) s = run more (run ops s) :=
  List.foldl_append

section LeadsBy

variable {allowed : Operation → Prop} {s s' s'' : Session}

theorem LeadsBy.refl : LeadsBy allowed s s :=
  ⟨[], fun _ h => absurd h List.not_mem_nil, rfl⟩

theorem LeadsBy.single {op : Operation} (h : allowed op) (s : Session) :
    LeadsBy allowed s (op.run s).2 :=
  ⟨[op], List.forall_mem_singleton.mpr h, rfl⟩

theorem LeadsBy.trans (h : LeadsBy allowed s s') (h' : LeadsBy allowed s' s'') :
    LeadsBy allowed s s'' := by
  obtain ⟨ops, ha, rfl⟩ := h
  obtain ⟨more, hm, rfl⟩ := h'
  exact ⟨ops ++ more, List.forall_mem_append.mpr ⟨ha, hm⟩, (run_append ops more s).symm⟩

theorem LeadsBy.leads (h : LeadsBy allowed s s') : Leads s s' := by
  obtain ⟨ops, -, rfl⟩ := h
  exact ⟨ops, rfl⟩

/-- What every allowed operation preserves. -/
theorem LeadsBy.preserves {P : Session → Prop} (hP : ∀ op, allowed op → ∀ t, P t → P (op.run t).2)
    (h : LeadsBy allowed s s') (hs : P s) : P s' := by
  obtain ⟨ops, ha, rfl⟩ := h
  induction ops generalizing s with
  | nil => exact hs
  | cons op ops ih =>
    obtain ⟨hop, hops⟩ := List.forall_mem_cons.mp ha
    exact ih (hP op hop s hs) hops

end LeadsBy

theorem Leads.trans {s s' s'' : Session} (h : Leads s s') (h' : Leads s' s'') :
    Leads s s'' := by
  obtain ⟨ops, rfl⟩ := h
  obtain ⟨more, rfl⟩ := h'
  exact ⟨ops ++ more, (run_append ops more s).symm⟩

theorem built_of_makeDirectories {path : String} {s s' : Session}
    {answer : Except FileError Unit} (h : s.makeDirectories path = (answer, s')) :
    LeadsBy Operation.Builds s s' := by
  obtain rfl : (Operation.run (.mkdir path true) s).2 = s' := congrArg Prod.snd h
  exact .single trivial s

theorem built_of_placeFile {path : String} {content : Content} {s s' : Session}
    (h : s.placeFile path content = (.ok (), s')) : LeadsBy Operation.Builds s s' := by
  unfold placeFile at h
  split at h
  · cases h
  · rename_i s₁ hm
    have hl : LeadsBy Operation.Builds s s₁ := by
      split at hm
      · cases hm
        exact .refl
      · exact built_of_makeDirectories hm
    split at h
    · cases h
    · rename_i s₂ hf
      cases h
      obtain rfl : (Operation.run (.modifyFile path fun _ => content) s₁).2 = s' :=
        congrArg Prod.snd hf
      exact hl.trans (.single trivial s₁)

theorem built_of_placeDirectories {paths : List String} {s s' : Session}
    (h : s.placeDirectories paths = .ok s') : LeadsBy Operation.Builds s s' := by
  induction paths generalizing s with
  | nil =>
    cases h
    exact .refl
  | cons path paths ih =>
    unfold placeDirectories at h
    split at h
    · cases h
    · rename_i hm
      exact (built_of_makeDirectories hm).trans (ih h)

theorem built_of_placeFiles {fetch : Fetcher} {files : List ManifestFile} {s s' : Session}
    (h : s.placeFiles fetch files = .ok s') : LeadsBy Operation.Builds s s' := by
  induction files generalizing s with
  | nil =>
    cases h
    exact .refl
  | cons f files ih =>
    unfold placeFiles at h
    split at h
    · cases h
    · split at h
      · cases h
      · rename_i hp
        exact (built_of_placeFile hp).trans (ih h)

theorem built_of_bootstrap {manifest : Manifest} {user : String} {fetch : Fetcher}
    {s : Session} (h : bootstrap manifest user fetch = .ok s) :
    LeadsBy Operation.Builds (withHome user) s := by
  unfold bootstrap at h
  split at h
  · cases h
  · rename_i hd
    exact (built_of_placeDirectories hd).trans (built_of_placeFiles h)

/-- A manifest's tree is built by operations a user could have tried as well. -/
theorem leads_of_bootstrap {manifest : Manifest} {user : String} {fetch : Fetcher}
    {s : Session} (h : bootstrap manifest user fetch = .ok s) :
    Leads (withHome user) s :=
  (built_of_bootstrap h).leads

end TreeShell.Session
