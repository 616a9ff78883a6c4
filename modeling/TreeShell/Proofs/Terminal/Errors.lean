import TreeShell.Proofs.Command.Effects
import TreeShell.Proofs.Command.Options
import TreeShell.Proofs.Command.Written
import TreeShell.Terminal

/-! Which errors the screen shows. An error is shown under the prompt its line was typed at,
wherever it comes from, unless the command clears the screen: `clear` itself has then succeeded,
and the error of its redirect is lost. -/

namespace TreeShell

open Session

theorem Verb.clear_mem_perform {v : Verb} {fetch : Fetcher} {flags : List Flag}
    {args : List String} {s t : Session} {result : Result}
    (h : v.perform fetch flags args s = (.ok result, t)) :
    .clear ∈ result.actions ↔ v = .clear := by
  obtain ⟨hv, rfl⟩ | ⟨hv, rfl | ⟨_, rfl⟩ | ⟨_, rfl⟩⟩ := perform_result h <;>
    simp [hv, Result.empty, Result.ofText, Result.ofActions]

theorem Verb.clear_mem_run {v : Verb} {fetch : Fetcher} {c : Command} {s t : Session}
    {result : Result} (h : v.run fetch c s = (.ok result, t)) :
    (∃ flags, v.flags c = .ok flags) ∧ (.clear ∈ result.actions ↔ v = .clear) := by
  unfold run at h
  split at h
  · cases h
  · rename_i flags hf
    split at h
    · cases h
    · exact ⟨⟨flags, hf⟩, clear_mem_perform h⟩

theorem Verb.run_clear {c : Command} {flags : List Flag} (hf : Verb.clear.flags c = .ok flags)
    (fetch : Fetcher) (s : Session) :
    Verb.clear.run fetch c s = (.ok (.ofActions [.clear]), s) := by
  simp [run, hf, needsOperand, perform]

namespace Command

/-- The command succeeds in clearing the screen. -/
def Clears (c : Command) : Prop :=
  c.name = "clear" ∧ c.shortOptions = [] ∧ c.longOptions = []

variable {c : Command}

theorem flags_clear (hc : c.OptionsNamed) :
    (∃ flags, Verb.clear.flags c = .ok flags) ↔ c.shortOptions = [] ∧ c.longOptions = [] := by
  rw [Verb.accepts_iff]
  constructor
  · rintro ⟨hletters, hwords⟩
    refine ⟨List.eq_nil_iff_forall_not_mem.mpr fun name hn => ?_,
      List.eq_nil_iff_forall_not_mem.mpr fun word hw => List.not_mem_nil (hwords word hw)⟩
    -- An option has a name, so its cluster has a letter to refuse.
    obtain ⟨letter, hl⟩ := List.exists_mem_of_ne_nil _ (toList_ne_nil (hc.1 name hn))
    exact List.not_mem_nil (hletters letter (List.mem_flatMap.mpr ⟨name, hn, hl⟩))
  · rintro ⟨hs, hl⟩
    exact ⟨by simp [letters, hs], by simp [hl]⟩

theorem clear_mem_runVerb (hc : c.OptionsNamed) (fetch : Fetcher) (s : Session) :
    .clear ∈ (c.runVerb fetch s).1.actions ↔ c.Clears := by
  rw [runVerb, Clears, ← flags_clear hc]
  cases hv : Verb.ofName? c.name with
  | none =>
    have hn : c.name ≠ "clear" := by
      intro hn
      rw [hn] at hv
      cases hv
    simp [Result.ofError, hn]
  | some v =>
    have hn : c.name = "clear" ↔ v = .clear := by
      rw [← Verb.name_of_ofName? hv]
      cases v <;> decide
    rw [hn]
    dsimp only
    rcases hr : v.run fetch c s with ⟨e | result, t⟩
    · have hclear : ¬ (v = .clear ∧ ∃ flags, Verb.clear.flags c = .ok flags) := by
        rintro ⟨rfl, flags, hf⟩
        rw [Verb.run_clear hf] at hr
        cases hr
      simpa [Result.ofError] using hclear
    · obtain ⟨hflags, hclear⟩ := Verb.clear_mem_run hr
      dsimp only
      rw [← hclear]
      refine (and_iff_left_of_imp fun h => ?_).symm
      exact hclear.mp h ▸ hflags

theorem actions_redirect (c : Command) (result : Result) (s : Session) :
    (c.redirect result s).1.actions = result.actions := by
  rw [redirect]
  split
  · rfl
  · split <;> rfl

theorem clear_mem_execute (hc : c.OptionsNamed) (fetch : Fetcher) (s : Session) :
    .clear ∈ (c.execute fetch s).1.actions ↔ c.Clears := by
  rw [execute]
  split
  · rename_i he
    have hn : c.name = "" := by simpa [isEmpty] using he
    simp [Result.empty, Clears, hn]
  · rw [← clear_mem_runVerb hc fetch s, actions_redirect]

/-- A command that clears the screen fails only with its redirects. -/
theorem Clears.execute_eq (hc : c.Clears) (fetch : Fetcher) (s : Session) :
    (c.execute fetch s).1.actions = [.clear] ∧
    (c.execute fetch s).1.output = match (feed "" c.redirects s).1 with
      | .ok () => .silent
      | .error e => .error (c.name ++ ": " ++ e.message) := by
  obtain ⟨hn, hs, hl⟩ := hc
  have hf : Verb.clear.flags c = .ok [] := by
    rw [Verb.flags, hs, hl]
    rfl
  have hv : c.runVerb fetch s = (.ofActions [.clear], s) := by
    have hname : Verb.ofName? c.name = some .clear := hn ▸ Verb.ofName?_name .clear
    simp only [runVerb, hname, Verb.run_clear hf]
  have he : c.execute fetch s = c.redirect (.ofActions [.clear]) s := by
    simp [execute, isEmpty, hn, hv]
  rw [he]
  refine ⟨actions_redirect c _ s, ?_⟩
  rw [redirect]
  split
  · rename_i hr
    rw [List.isEmpty_iff.mp hr]
    rfl
  · dsimp only [Result.ofActions, Output.redirected]
    obtain ⟨_ | _, t⟩ := feed "" c.redirects s <;> rfl

end Command

namespace Terminal

theorem resultActions_of_clear {result : Result} (ha : result.actions = [.clear])
    (prompt line : String) : resultActions prompt line result = [.clearHistory, .clearInput] := by
  simp [resultActions, ha, screenAction]

theorem shown_mem_resultActions {result : Result} (ha : .clear ∉ result.actions)
    (prompt line : String) :
    .addHistoryItem prompt line result.output.shown ∈ resultActions prompt line result := by
  simp [resultActions, ha]

/-- Every error is shown with the prompt and the line as they were, save the error of a redirect
of `clear`: of that command the screen is told nothing but to be cleared. -/
theorem runLine_shows_error (t : Terminal) (line : String) :
    (∀ e, Command.parse line = .error e →
      .addHistoryItem t.prompt line e.message ∈ (t.runLine line).1) ∧
    ∀ c message, Command.parse line = .ok c →
      (c.execute t.fetch t.session).1.output = .error message →
      (¬ c.Clears → .addHistoryItem t.prompt line message ∈ (t.runLine line).1) ∧
      (c.Clears → (t.runLine line).1 = [.clearHistory, .clearInput] ∧
        ∃ e, (Command.feed "" c.redirects t.session).1 = .error e ∧
          message = "clear: " ++ e.message) := by
  constructor
  · intro e he
    simp [runLine, he]
  · intro c message hp ho
    have hn := Command.optionsNamed_of_parse hp
    have hr : (t.runLine line).1 =
        resultActions t.prompt line (c.execute t.fetch t.session).1 := by
      rw [runLine, hp]
    rw [hr]
    constructor
    · intro hc
      have ha : .clear ∉ (c.execute t.fetch t.session).1.actions :=
        fun h => hc ((Command.clear_mem_execute hn _ _).mp h)
      have hm := shown_mem_resultActions ha t.prompt line
      rwa [ho] at hm
    · intro hc
      obtain ⟨ha, hf⟩ := hc.execute_eq t.fetch t.session
      refine ⟨resultActions_of_clear ha t.prompt line, ?_⟩
      rw [ho] at hf
      split at hf
      · cases hf
      · rename_i e he
        rw [hc.1] at hf
        exact ⟨e, he, Output.error.inj hf⟩

/-- The target of the redirect cannot be made, and nobody is told. -/
theorem not_runLine_shows_every_error :
    ¬ ∀ (t : Terminal) (line : String),
      (∀ e, Command.parse line = .error e →
        .addHistoryItem t.prompt line e.message ∈ (t.runLine line).1) ∧
      ∀ c message, Command.parse line = .ok c →
        (c.execute t.fetch t.session).1.output = .error message →
        .addHistoryItem t.prompt line message ∈ (t.runLine line).1 := by
  intro hall
  have hp : Command.parse "clear > missing/f" =
      .ok ⟨"clear", [], [], [], [⟨"missing/f", .write⟩]⟩ := by cbv
  have hf : (Command.feed "" [⟨"missing/f", .write⟩] (.withHome "guest")).1 =
      .error (.noSuchFileOrDirectory "missing/f") := by cbv
  have hc : Command.Clears ⟨"clear", [], [], [], [⟨"missing/f", .write⟩]⟩ := ⟨rfl, rfl, rfl⟩
  obtain ⟨ha, ho⟩ := hc.execute_eq (.ofList []) (.withHome "guest")
  rw [hf] at ho
  have hm := (hall (ofSession (.withHome "guest") (.ofList [])) _).2 _ _ hp ho
  rw [runLine, hp] at hm
  dsimp only [ofSession] at hm
  rw [resultActions_of_clear ha] at hm
  simp at hm

end Terminal

end TreeShell
