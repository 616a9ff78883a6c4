import TreeShell.Proofs.Command.Frame

/-! Commands with several operands. The verb takes its operands in turn, each in the session
that the one before it left, so that such a command is a run of commands with one operand each,
up to the first that fails. Of a run that fails only the last result is left. Listings of several
paths are sections, one for each path. -/

namespace TreeShell

/-- Outputs shown one after another; silent where all of them are. -/
def Output.concat (outputs : List Output) : Output :=
  if outputs.all (· = .silent) then .silent else .text (String.join (outputs.map shown))

/-- Results one after another as one result. -/
def Result.concat (results : List Result) : Result :=
  ⟨.concat (results.map output), results.flatMap actions⟩

namespace Result

theorem concat_empties {β : Type} (bs : List β) : concat (bs.map fun _ => empty) = empty := by
  simp [concat, Output.concat, empty]

theorem concat_texts {texts : List String} (ht : texts ≠ []) :
    concat (texts.map ofText) = ofText (String.join texts) := by
  obtain ⟨line, texts, rfl⟩ := List.exists_cons_of_ne_nil ht
  have hshown : Output.shown ∘ output ∘ ofText = id := rfl
  simp [concat, Output.concat, ofText, List.flatMap_map, Output.shown, hshown]

theorem concat_actions (actions : List HostAction) :
    concat (actions.map fun action => ofActions [action]) = ofActions actions := by
  simp [concat, Output.concat, ofActions, List.flatMap_map]

end Result

section ForEach

variable {α β γ ε δ : Type} {act : α → Session → Except ε β × Session}

theorem forEach_map (f : β → γ) (g : ε → δ) (as : List α) (s : Session) :
    forEach (fun a s => (((act a s).1.mapError g).map f, (act a s).2)) as s =
      (((forEach act as s).1.mapError g).map (List.map f), (forEach act as s).2) := by
  induction as generalizing s with
  | nil => rfl
  | cons a as ih =>
    rw [forEach, forEach]
    obtain ⟨_ | b, t⟩ := act a s
    · rfl
    · dsimp only [Except.mapError, Except.map] at ih ⊢
      rw [ih]
      obtain ⟨_ | bs, u⟩ := forEach act as t <;> rfl

theorem length_of_forEach {as : List α} {s t : Session} {bs : List β}
    (h : forEach act as s = (.ok bs, t)) : bs.length = as.length := by
  induction as generalizing s bs with
  | nil =>
    cases h
    rfl
  | cons a as ih =>
    rw [forEach] at h
    split at h
    · cases h
    · split at h
      · cases h
      · cases h
        rw [List.length_cons, List.length_cons, ih ‹_›]

/-- What puts the answers for many items together can put the results for one item each
together, as far as there are items. -/
theorem forEach_gather (toError : ε → δ) (toResult : List β → Result)
    {run : List α → Session → Except δ Result × Session}
    (hjoin : ∀ bs, bs ≠ [] → .concat (bs.map fun b => toResult [b]) = toResult bs)
    (hrun : ∀ as s, run as s =
      (((forEach act as s).1.mapError toError).map toResult, (forEach act as s).2))
    {as : List α} (ha : as ≠ []) (s : Session) :
    run as s = ((forEach (fun a => run [a]) as s).1.map .concat,
      (forEach (fun a => run [a]) as s).2) := by
  -- The answer for one item is only wrapped, and `forEach_map` moves the wrapping to the end.
  have hone : (fun a => run [a]) = fun a s =>
      (((act a s).1.mapError toError).map fun b => toResult [b], (act a s).2) := by
    funext a s
    rw [hrun]
    simp only [forEach]
    obtain ⟨_ | b, t⟩ := act a s <;> rfl
  rw [hone, forEach_map, hrun]
  rcases hr : forEach act as s with ⟨_ | bs, t⟩
  · rfl
  · have hb : bs ≠ [] := List.ne_nil_of_length_pos
      (length_of_forEach hr ▸ List.length_pos_iff.mpr ha)
    dsimp only [Except.mapError, Except.map]
    rw [hjoin bs hb]

end ForEach

open Session

/-- A verb that needs operands does with several what it does with each in turn. -/
theorem Verb.perform_eq_forEach {v : Verb} (hv : v.needsOperand = true) (fetch : Fetcher)
    (flags : List Flag) {args : List String} (ha : args ≠ []) (s : Session) :
    v.perform fetch flags args s =
      ((forEach (fun a => v.perform fetch flags [a]) args s).1.map .concat,
        (forEach (fun a => v.perform fetch flags [a]) args s).2) := by
  have htexts : ∀ texts : List String, texts ≠ [] →
      .concat (texts.map fun text => .ofText (String.join [text])) =
        Result.ofText (String.join texts) := by
    intro texts ht
    have hone : ∀ text, String.join [text] = text := fun text => by simp [String.join]
    simpa only [hone] using Result.concat_texts ht
  have hrequests : ∀ requests : List OpenRequest, requests ≠ [] →
      .concat (requests.map fun request => .ofActions ([request].map .openFile)) =
        Result.ofActions (requests.map .openFile) := by
    intro requests _
    have ho := Result.concat_actions (requests.map .openFile)
    rwa [List.map_map] at ho
  cases v with
  | mkdir | touch | rm =>
    exact forEach_gather .file (fun _ => .empty) (fun answers _ => Result.concat_empties answers)
      (fun args s => report_eq _ (forEach _ args s)) ha s
  | cat =>
    exact forEach_gather .file (fun texts => .ofText (String.join texts)) htexts
      (fun args s => report_eq _ (forEach _ args s)) ha s
  | xdgOpen =>
    exact forEach_gather .file (fun requests => .ofActions (requests.map .openFile)) hrequests
      (fun args s => report_eq _ (forEach _ args s)) ha s
  | wget =>
    -- Its errors need not come from files, so that they stay as they are.
    have hlines : ∀ urls t, Verb.wget.perform fetch flags urls t =
        (((forEach (download fetch) urls t).1.mapError id).map fun lines =>
          .ofText (String.join lines), (forEach (download fetch) urls t).2) := by
      intro urls t
      rw [perform]
      obtain ⟨_ | _, u⟩ := forEach (download fetch) urls t <;> rfl
    exact forEach_gather id (fun lines => .ofText (String.join lines)) htexts hlines ha s
  | pwd | echo | clear | cd | ls => cases hv

section Sections

variable {ε α β : Type} {f : α → Except ε β}

theorem mapM_of_ok {g : α → β} {as : List α} (h : ∀ a ∈ as, f a = .ok (g a)) :
    as.mapM f = .ok (as.map g) := by
  induction as with
  | nil => rfl
  | cons a as ih =>
    obtain ⟨ha, has⟩ := List.forall_mem_cons.mp h
    rw [List.mapM_cons, ha, ih has]
    rfl

theorem mapM_of_error {g : α → β} {earlier later : List α} {a : α} {e : ε}
    (h : ∀ b ∈ earlier, f b = .ok (g b)) (ha : f a = .error e) :
    (earlier ++ a :: later).mapM f = .error e := by
  rw [List.mapM_append, mapM_of_ok h, List.mapM_cons, ha]
  rfl

end Sections

theorem Session.listings_eq {paths : List String} (hl : 2 ≤ paths.length) (all : Bool)
    (s : Session) : s.listings all paths =
      (paths.mapM fun path => (s.listing all (some path)).map (path ++ ":\n" ++ ·)).map
        "\n".intercalate := by
  have hsection : (fun path => do return path ++ ":\n" ++ (← s.listing all (some path))) =
      fun path => (s.listing all (some path)).map (path ++ ":\n" ++ ·) := by
    funext path
    cases s.listing all (some path) <;> rfl
  obtain ⟨first, second, rest, rfl⟩ : ∃ first second rest, paths = first :: second :: rest := by
    match paths, hl with
    | first :: second :: rest, _ => exact ⟨first, second, rest, rfl⟩
  rw [← hsection]
  rfl

/-- A verb's answer as a command shows it. -/
def Verb.conclude (v : Verb) : Except CommandError Result × Session → Result × Session
  | (.ok result, s) => (result, s)
  | (.error e, s) => (.ofError (v.name ++ ": " ++ e.message), s)

namespace Command

/-- The command with one operand in place of its own. -/
def withArgument (c : Command) (argument : String) : Command :=
  { c with arguments := [argument] }

/-- Runs commands one after another; none after one that fails. -/
def executeUntilFailure (fetch : Fetcher) : List Command → Session → List Result × Session
  | [], s => ([], s)
  | c :: cs, s =>
    match c.execute fetch s with
    | (result, s) =>
      if result.output.isError then ([result], s)
      else (executeUntilFailure fetch cs s).map (result :: ·) id

section Turns

variable {c : Command} {v : Verb} {flags : List Flag} (hv : c.name = v.name)
  (hf : v.flags c = .ok flags) (hr : c.redirects = []) (fetch : Fetcher)
include hv hf hr

theorem execute_eq_conclude (ha : v.needsOperand = true → c.arguments ≠ []) (s : Session) :
    c.execute fetch s = v.conclude (v.perform fetch flags c.arguments s) := by
  have hname : c.isEmpty = false := by
    rw [isEmpty, hv]
    cases v <;> decide
  have hrun : v.run fetch c s = v.perform fetch flags c.arguments s := by
    rw [Verb.run, hf]
    dsimp only
    rw [if_neg (by simpa using ha)]
  simp only [execute, hname, runVerb, ofName?_of_name_eq hv, hrun]
  obtain ⟨_ | _, t⟩ := v.perform fetch flags c.arguments s <;> simp [redirect, hr, Verb.conclude]

theorem execute_withArgument (a : String) (s : Session) :
    (c.withArgument a).execute fetch s = v.conclude (v.perform fetch flags [a] s) :=
  execute_eq_conclude (c := c.withArgument a) hv hf hr fetch (fun _ => List.cons_ne_nil a []) s

/-- The run of commands with one operand each and the turns of the operands go on, and stop,
together. -/
theorem executeUntilFailure_cases (as : List String) (s : Session) :
    (∃ results t, forEach (fun a => v.perform fetch flags [a]) as s = (.ok results, t) ∧
      executeUntilFailure fetch (as.map c.withArgument) s = (results, t) ∧
      ∀ r ∈ results, r.output.isError = false) ∨
    ∃ e earlier t, forEach (fun a => v.perform fetch flags [a]) as s = (.error e, t) ∧
      executeUntilFailure fetch (as.map c.withArgument) s =
        (earlier ++ [.ofError (v.name ++ ": " ++ e.message)], t) ∧
      ∀ r ∈ earlier, r.output.isError = false := by
  induction as generalizing s with
  | nil => exact .inl ⟨[], s, rfl, rfl, by simp⟩
  | cons a as ih =>
    rw [forEach, List.map_cons, executeUntilFailure, execute_withArgument hv hf hr]
    rcases hp : v.perform fetch flags [a] s with ⟨e | result, t⟩
    · exact .inr ⟨e, [], t, rfl, rfl, by simp⟩
    · have hok := Verb.isError_of_perform hp
      dsimp only [Verb.conclude]
      rw [hok]
      obtain ⟨results, u, hall, hrun, hno⟩ | ⟨e, earlier, u, hstop, hrun, hno⟩ := ih t
      · refine .inl ⟨result :: results, u, by rw [hall], by rw [hrun]; rfl, ?_⟩
        exact List.forall_mem_cons.mpr ⟨hok, hno⟩
      · refine .inr ⟨e, result :: earlier, u, by rw [hstop], by rw [hrun]; rfl, ?_⟩
        exact List.forall_mem_cons.mpr ⟨hok, hno⟩

theorem execute_eq_executeUntilFailure (hn : v.needsOperand = true) (ha : c.arguments ≠ [])
    (s : Session) :
    let runs := executeUntilFailure fetch (c.arguments.map c.withArgument) s
    (c.execute fetch s).2 = runs.2 ∧
    (∀ r ∈ runs.1, r.output.isError = true → (c.execute fetch s).1 = r) ∧
    ((∀ r ∈ runs.1, r.output.isError = false) → (c.execute fetch s).1 = .concat runs.1) := by
  intro runs
  rw [execute_eq_conclude hv hf hr fetch (fun _ => ha), v.perform_eq_forEach hn fetch flags ha]
  obtain ⟨results, t, hall, hruns, hno⟩ | ⟨e, earlier, t, hstop, hruns, hno⟩ :=
    executeUntilFailure_cases hv hf hr fetch c.arguments s
  · simp only [runs, hruns, hall]
    refine ⟨rfl, fun r hmem he => ?_, fun _ => rfl⟩
    rw [hno r hmem] at he
    cases he
  · simp only [runs, hruns, hstop]
    refine ⟨rfl, fun r hmem he => ?_, fun hnone => ?_⟩
    · obtain hmem | hmem := List.mem_append.mp hmem
      · rw [hno r hmem] at he
        cases he
      · exact (List.mem_singleton.mp hmem).symm
    · cases hnone _ (List.mem_append_right _ List.mem_cons_self)

end Turns

section Listings

variable {c : Command} {flags : List Flag} (hv : c.name = Verb.ls.name)
  (hf : Verb.ls.flags c = .ok flags) (hr : c.redirects = []) (fetch : Fetcher) (s : Session)
include hv hf hr

theorem execute_ls_withArgument (a : String) :
    (∃ text, s.listing (flags.contains .all) (some a) = .ok text ∧
      (c.withArgument a).execute fetch s = (.ofText text, s)) ∨
    ∃ e, s.listing (flags.contains .all) (some a) = .error e ∧
      (c.withArgument a).execute fetch s = Verb.ls.conclude (.error (.file e), s) := by
  have hone : (c.withArgument a).execute fetch s =
      Verb.ls.conclude (report .ofText (s.listing (flags.contains .all) (some a), s)) :=
    execute_withArgument hv hf hr fetch a s
  cases hl : s.listing (flags.contains .all) (some a) with
  | ok text => exact .inl ⟨text, rfl, by rw [hone, hl]; rfl⟩
  | error e => exact .inr ⟨e, rfl, by rw [hone, hl]; rfl⟩

theorem execute_ls_eq (hl : 2 ≤ c.arguments.length) :
    let single a := ((c.withArgument a).execute fetch s).1
    (c.execute fetch s).2 = s ∧
    ((∀ a ∈ c.arguments, (single a).output.isError = false) →
      (c.execute fetch s).1 = .ofText ("\n".intercalate
        (c.arguments.map fun a => a ++ ":\n" ++ (single a).output.shown))) ∧
    ∀ earlier a later, c.arguments = earlier ++ a :: later →
      (∀ b ∈ earlier, (single b).output.isError = false) → (single a).output.isError = true →
        (c.execute fetch s).1 = single a := by
  intro single
  have hmany : c.execute fetch s =
      Verb.ls.conclude (report .ofText (s.listings (flags.contains .all) c.arguments, s)) :=
    execute_eq_conclude hv hf hr fetch (fun h => by cases h) s
  have hsections : ∀ as : List String, (∀ a ∈ as, (single a).output.isError = false) → ∀ a ∈ as,
      (s.listing (flags.contains .all) (some a)).map (a ++ ":\n" ++ ·) =
        .ok (a ++ ":\n" ++ (single a).output.shown) := by
    intro as has a ha
    have hok := has a ha
    obtain ⟨text, hlist, he⟩ | ⟨e, -, he⟩ := execute_ls_withArgument hv hf hr fetch s a
    · simp only [single, hlist, he]
      rfl
    · simp only [single, he] at hok
      cases hok
  rw [hmany, listings_eq hl]
  refine ⟨?_, fun hall => ?_, fun earlier a later ha hearlier hfail => ?_⟩
  · obtain _ | _ := c.arguments.mapM _ <;> rfl
  · rw [mapM_of_ok (hsections _ hall)]
    rfl
  · obtain ⟨text, -, he⟩ | ⟨e, hlist, he⟩ := execute_ls_withArgument hv hf hr fetch s a
    · simp only [single, he] at hfail
      cases hfail
    · have hstop : (s.listing (flags.contains .all) (some a)).map (a ++ ":\n" ++ ·) = .error e := by
        rw [hlist]
        rfl
      rw [ha, mapM_of_error (hsections _ hearlier) hstop]
      exact congrArg Prod.fst he.symm

end Listings

/-- A command with operands leaves the session that commands with one operand each leave, run one
after another up to the first that fails. Where one fails, its result is all that is shown, and
nothing of the earlier ones; where none fails, their texts and their requests are put together
in their order. A listing of several paths changes nothing; it has a section for each path, with
what is listed for that path alone, or is the error of the first path that cannot be listed. -/
theorem execute_takes_operands_in_turn {c : Command} {v : Verb} (hv : c.name = v.name)
    {flags : List Flag} (hf : v.flags c = .ok flags) (hr : c.redirects = []) (fetch : Fetcher)
    (s : Session) :
    (v ∈ [.mkdir, .touch, .rm, .cat, .xdgOpen, .wget] → c.arguments ≠ [] →
      let runs := executeUntilFailure fetch (c.arguments.map c.withArgument) s
      (c.execute fetch s).2 = runs.2 ∧
      (∀ r ∈ runs.1, r.output.isError = true → (c.execute fetch s).1 = r) ∧
      ((∀ r ∈ runs.1, r.output.isError = false) → (c.execute fetch s).1 = .concat runs.1)) ∧
    (v = .ls → 2 ≤ c.arguments.length →
      let single a := ((c.withArgument a).execute fetch s).1
      (c.execute fetch s).2 = s ∧
      ((∀ a ∈ c.arguments, (single a).output.isError = false) →
        (c.execute fetch s).1 = .ofText ("\n".intercalate
          (c.arguments.map fun a => a ++ ":\n" ++ (single a).output.shown))) ∧
      ∀ earlier a later, c.arguments = earlier ++ a :: later →
        (∀ b ∈ earlier, (single b).output.isError = false) → (single a).output.isError = true →
          (c.execute fetch s).1 = single a) := by
  refine ⟨fun hn ha => ?_, ?_⟩
  · refine execute_eq_executeUntilFailure hv hf hr fetch ?_ ha s
    fin_cases hn <;> rfl
  · rintro rfl hl
    exact execute_ls_eq hv hf hr fetch s hl

/-- The first operand takes the working directory away, so that the second is looked for in
another one; a file is missing between two others; a directory and a file are listed. -/
theorem execute_takes_operands_in_turn_guest : ∃ (s : Session) (rm cat ls : Command),
    s = run [.mkdir "a/b" true, .touch "f", .cd (some "a/b")] (withHome "guest") ∧
    rm = ⟨"rm", ["r"], [], ["../../a", "f"], []⟩ ∧
    cat = ⟨"cat", [], [], ["~/f", "x", "~"], []⟩ ∧ ls = ⟨"ls", [], [], ["..", "~/f"], []⟩ ∧
    (rm.execute (.ofList []) s).2 = (executeUntilFailure (.ofList [])
      [rm.withArgument "../../a", rm.withArgument "f"] s).2 ∧
    (cat.execute (.ofList []) s).1 = .ofError "cat: x: No such file or directory" ∧
    (ls.execute (.ofList []) s).1 = .ofText "..:\nb/\n\n~/f:\n~/f\n" := by
  obtain ⟨s, hs⟩ : ∃ s, s = run [.mkdir "a/b" true, .touch "f", .cd (some "a/b")]
    (withHome "guest") := ⟨_, rfl⟩
  let rm : Command := ⟨"rm", ["r"], [], ["../../a", "f"], []⟩
  let cat : Command := ⟨"cat", [], [], ["~/f", "x", "~"], []⟩
  let ls : Command := ⟨"ls", [], [], ["..", "~/f"], []⟩
  have hrm : Verb.rm.flags rm = .ok [.recursive] := rfl
  have hcat : Verb.cat.flags cat = .ok [] := rfl
  have hls : Verb.ls.flags ls = .ok [] := rfl
  obtain ⟨hleft, -⟩ := (execute_takes_operands_in_turn rfl hrm rfl (.ofList []) s).1
    (by decide) (by simp [rm])
  obtain ⟨-, hstop, -⟩ := (execute_takes_operands_in_turn rfl hcat rfl (.ofList []) s).1
    (by decide) (by simp [cat])
  obtain ⟨-, hall, -⟩ := (execute_takes_operands_in_turn rfl hls rfl (.ofList []) s).2
    rfl (by simp [ls])
  have hx : Result.ofError "cat: x: No such file or directory" ∈
      (executeUntilFailure (.ofList []) (cat.arguments.map cat.withArgument) s).1 := by
    rw [hs]
    decide +kernel
  have hnone : ∀ a ∈ ls.arguments,
      ((ls.withArgument a).execute (.ofList []) s).1.output.isError = false := by
    rw [hs]
    decide +kernel
  refine ⟨s, rm, cat, ls, hs, rfl, rfl, rfl, hleft, hstop _ hx rfl, (hall hnone).trans ?_⟩
  rw [hs]
  decide +kernel

end Command

end TreeShell
