import TreeShell.Proofs.Command.Effects

/-! The operations of a command one after another. A verb has operations in mind, one for each
argument, and tries them until one fails; so do the redirects. What is tried is what a command
does to a session, and a run of commands is one run of operations. -/

namespace TreeShell

namespace Session

/-- The operations up to the first that fails, and this one. -/
def tried : List Operation → Session → List Operation
  | [], _ => []
  | op :: ops, s =>
    match op.run s with
    | (.error _, _) => [op]
    | (.ok _, s) => op :: tried ops s

theorem mem_of_mem_tried {op : Operation} {ops : List Operation} {s : Session}
    (h : op ∈ tried ops s) : op ∈ ops := by
  induction ops generalizing s with
  | nil => exact h
  | cons first ops ih =>
    rw [tried] at h
    split at h
    · rw [List.mem_singleton.mp h]
      exact List.mem_cons_self
    · rcases List.mem_cons.mp h with rfl | h
      · exact List.mem_cons_self
      · exact List.mem_cons_of_mem first (ih h)

theorem run_tried_cons (op : Operation) (ops : List Operation) (s : Session) :
    run (tried (op :: ops) s) s = match op.run s with
      | (.error _, u) => u
      | (.ok _, u) => run (tried ops u) u := by
  have hcons : ∀ ops, run (op :: ops) s = run ops (op.run s).2 := fun ops => rfl
  rw [tried]
  rcases hr : op.run s with ⟨_ | _, u⟩
  · dsimp only
    rw [hcons, hr]
    rfl
  · dsimp only
    rw [hcons, hr]

/-- Acting on each item until one fails is trying the operations that the items stand for. -/
theorem run_tried_map {α β : Type} {act : α → Session → Except FileError β × Session}
    {toOperation : α → Operation}
    (h : ∀ a s, (toOperation a).run s = (act a s).map (·.map fun _ => ()) id) (as : List α)
    (s : Session) : run (tried (as.map toOperation) s) s = (forEach act as s).2 := by
  induction as generalizing s with
  | nil => rfl
  | cons a as ih =>
    rw [List.map_cons, run_tried_cons, forEach, h]
    obtain ⟨_ | b, u⟩ := act a s
    · rfl
    · dsimp only [Prod.map, Except.map, id]
      rw [ih u]
      obtain ⟨_ | _, v⟩ := forEach act as u <;> rfl

/-- The downloads that are saved, up to the first URL that cannot be fetched. -/
def downloads (fetch : Fetcher) : List String → List Operation
  | [] => []
  | url :: urls =>
    match fetch url with
    | .error _ => []
    | .ok bytes => .saveDownload (Download.nameOf url) bytes url :: downloads fetch urls

theorem run_tried_downloads (fetch : Fetcher) (urls : List String) (s : Session) :
    run (tried (downloads fetch urls) s) s = (forEach (download fetch) urls s).2 := by
  induction urls generalizing s with
  | nil => rfl
  | cons url urls ih =>
    rw [downloads, forEach, download]
    cases fetch url with
    | error e => rfl
    | ok bytes =>
      dsimp only
      rw [run_tried_cons, Operation.run]
      obtain ⟨_ | name, u⟩ := s.saveDownload (Download.nameOf url) bytes url
      · rfl
      · dsimp only [Prod.map, Except.map, id]
        rw [ih u]
        obtain ⟨_ | _, v⟩ := forEach (download fetch) urls u <;> rfl

end Session

open Session

/-- The operations that a verb has in mind for its arguments. -/
def Verb.operations (v : Verb) (fetch : Fetcher) (flags : List Flag) (args : List String) :
    List Operation :=
  match v with
  | .cd =>
    match args with
    | _ :: _ :: _ => []
    | _ => [.cd args.head?]
  | .mkdir => args.map fun path => .mkdir path (flags.contains .parents)
  | .touch => args.map .touch
  | .rm => args.map fun path => .rm path (flags.contains .recursive)
  | .wget => downloads fetch args
  | .pwd | .echo | .clear | .cat | .xdgOpen | .ls => []

theorem Session.forEach_snd_of_query {α β : Type} (query : α → Session → Except FileError β)
    (as : List α) (s : Session) : (forEach (fun a s => (query a s, s)) as s).2 = s := by
  induction as with
  | nil => rfl
  | cons a as ih =>
    rw [forEach]
    cases query a s with
    | error e => rfl
    | ok b =>
      dsimp only
      generalize forEach (fun a s => (query a s, s)) as s = r at ih
      obtain ⟨_ | _, u⟩ := r <;> exact ih

theorem Verb.run_operations (v : Verb) (fetch : Fetcher) (flags : List Flag) (args : List String)
    (s : Session) :
    Session.run (tried (v.operations fetch flags args) s) s = (v.perform fetch flags args s).2 := by
  have hunit : ∀ r : Except FileError Unit × Session, r = r.map (·.map fun _ => ()) id := by
    rintro ⟨_ | _, u⟩ <;> rfl
  cases v with
  | pwd | echo | clear => rfl
  | cat | xdgOpen =>
    rw [perform, report_snd, forEach_snd_of_query]
    rfl
  | ls =>
    rw [perform, report_snd]
    rfl
  | cd =>
    have hone : ∀ path, Session.run (tried [.cd path] s) s = (s.cd path).2 := by
      intro path
      rw [run_tried_cons, Operation.run]
      obtain ⟨_ | _, u⟩ := s.cd path <;> rfl
    rcases args with _ | ⟨path, _ | ⟨path', paths⟩⟩
    · exact (hone none).trans (report_snd _ _).symm
    · exact (hone (some path)).trans (report_snd _ _).symm
    · rfl
  | mkdir =>
    rw [perform, report_snd]
    exact run_tried_map (fun _ _ => hunit _) args s
  | touch =>
    rw [perform, report_snd]
    exact run_tried_map (fun _ _ => hunit _) args s
  | rm =>
    rw [perform, report_snd]
    exact run_tried_map (fun _ _ => hunit _) args s
  | wget =>
    rw [perform, operations, run_tried_downloads]
    obtain ⟨_ | _, u⟩ := forEach (download fetch) args s <;> rfl

namespace Command

variable {c : Command} {fetch : Fetcher} {s : Session}

/-- The operations that a command's verb tries. -/
def verbOperations (c : Command) (fetch : Fetcher) (s : Session) : List Operation :=
  match Verb.ofName? c.name with
  | none => []
  | some v =>
    match v.flags c with
    | .error _ => []
    | .ok flags =>
      if v.needsOperand && c.arguments.isEmpty then []
      else tried (v.operations fetch flags c.arguments) s

/-- The operations that a command tries, in their order. -/
def operations (c : Command) (fetch : Fetcher) (s : Session) : List Operation :=
  if c.isEmpty then []
  else c.verbOperations fetch s ++
    tried (c.redirects.map fun r => .modifyFile r.target (.receive r.mode (c.redirected fetch s)))
      (c.runVerb fetch s).2

/-- The operations that commands try one after another. -/
def operationsAll (fetch : Fetcher) : List Command → Session → List Operation
  | [], _ => []
  | c :: cs, s => c.operations fetch s ++ operationsAll fetch cs (c.execute fetch s).2

theorem run_verbOperations (c : Command) (fetch : Fetcher) (s : Session) :
    Session.run (c.verbOperations fetch s) s = (c.runVerb fetch s).2 := by
  rw [verbOperations, runVerb]
  cases Verb.ofName? c.name with
  | none => rfl
  | some v =>
    have hrun : Session.run (match v.flags c with
        | .error _ => []
        | .ok flags =>
          if v.needsOperand && c.arguments.isEmpty then []
          else tried (v.operations fetch flags c.arguments) s) s = (v.run fetch c s).2 := by
      rw [Verb.run]
      cases v.flags c with
      | error e => rfl
      | ok flags =>
        dsimp only
        split
        · rfl
        · exact v.run_operations fetch flags c.arguments s
    dsimp only
    rw [hrun]
    obtain ⟨_ | _, u⟩ := v.run fetch c s <;> rfl

/-- A command does what the operations do that it tries. -/
theorem run_operations (c : Command) (fetch : Fetcher) (s : Session) :
    Session.run (c.operations fetch s) s = (c.execute fetch s).2 := by
  rw [operations, execute]
  split
  · rfl
  · dsimp only
    rw [run_append, run_verbOperations, redirect_snd]
    exact run_tried_map (fun _ _ => rfl) c.redirects _

theorem run_operationsAll (fetch : Fetcher) (cs : List Command) (s : Session) :
    Session.run (operationsAll fetch cs s) s = (executeAll fetch cs s).2 := by
  induction cs generalizing s with
  | nil => rfl
  | cons c cs ih =>
    rw [operationsAll, run_append, run_operations, ih]
    rfl

end Command

end TreeShell
