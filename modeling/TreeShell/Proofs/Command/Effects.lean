import TreeShell.Proofs.Command.Alike

/-! What a command tries. Its verb takes the arguments one after another, and then each redirect
opens its file; where one of these operations fails, those behind it have no turn. Nothing else
that a command does changes the session. -/

namespace TreeShell

namespace Session

open Relation

section Turns

variable {α β ε : Type} {act : α → Session → Except ε β × Session} {a b : α} {as : List α}
  {s t : Session}

/-- `a` has its turn in the session `t`: all items before it have succeeded. -/
def Turn (act : α → Session → Except ε β × Session) (as : List α) (s : Session) (a : α)
    (t : Session) : Prop :=
  ∃ earlier later answers, as = earlier ++ a :: later ∧ forEach act earlier s = (.ok answers, t)

theorem Turn.mem (h : Turn act as s a t) : a ∈ as := by
  obtain ⟨earlier, later, answers, rfl, -⟩ := h
  exact List.mem_append_right _ List.mem_cons_self

theorem Turn.head : Turn act (a :: as) s a s :=
  ⟨[], as, [], rfl, rfl⟩

theorem Turn.cons {answer : β} {u : Session} (hr : act b s = (.ok answer, u))
    (h : Turn act as u a t) : Turn act (b :: as) s a t := by
  obtain ⟨earlier, later, answers, rfl, he⟩ := h
  exact ⟨b :: earlier, later, answer :: answers, rfl, by simp only [forEach, hr, he]⟩

theorem forEach_turns (act : α → Session → Except ε β × Session) (as : List α) (s : Session) :
    ReflTransGen (fun t t' => ∃ a, Turn act as s a t ∧ t' = (act a t).2) s
      (forEach act as s).2 := by
  induction as generalizing s with
  | nil => exact .refl
  | cons a as ih =>
    have hfirst : ∃ b, Turn act (a :: as) s b s ∧ (act a s).2 = (act b s).2 := ⟨a, .head, rfl⟩
    rw [forEach]
    rcases hr : act a s with ⟨_ | answer, u⟩
    · rw [hr] at hfirst
      exact .single hfirst
    · rw [hr] at hfirst
      have hstep : ∀ t t', (∃ b, Turn act as u b t ∧ t' = (act b t).2) →
          ∃ b, Turn act (a :: as) s b t ∧ t' = (act b t).2 := by
        rintro t _ ⟨b, hb, rfl⟩
        exact ⟨b, hb.cons hr, rfl⟩
      have hrest := ReflTransGen.mono hstep _ _ (ih u)
      dsimp only
      generalize forEach act as u = r at hrest
      obtain ⟨_ | _, v⟩ := r <;> exact .head hfirst hrest

end Turns

section Report

variable {α : Type} {toResult : α → Result} {answer : Except FileError α × Session}
  {result : Result} {s : Session}

theorem report_eq (toResult : α → Result) (answer : Except FileError α × Session) :
    report toResult answer = ((answer.1.mapError .file).map toResult, answer.2) := by
  obtain ⟨_ | _, s⟩ := answer <;> rfl

theorem report_snd (toResult : α → Result) (answer : Except FileError α × Session) :
    (report toResult answer).2 = answer.2 := by
  rw [report_eq]

theorem exists_of_report (h : report toResult answer = (.ok result, s)) :
    ∃ a, result = toResult a := by
  obtain ⟨_ | a, t⟩ := answer
  · cases h
  · cases h
    exact ⟨a, rfl⟩

end Report

end Session

open Session Relation

/-- What comes of a verb that succeeds. -/
theorem Verb.perform_result {v : Verb} {fetch : Fetcher} {flags : List Flag}
    {args : List String} {s t : Session} {result : Result}
    (h : v.perform fetch flags args s = (.ok result, t)) :
    v = .clear ∧ result = .ofActions [.clear] ∨
      v ≠ .clear ∧ (result = .empty ∨ (∃ text, result = .ofText text) ∨
        ∃ requests : List OpenRequest, result = .ofActions (requests.map .openFile)) := by
  cases v with
  | clear =>
    cases h
    exact .inl ⟨rfl, rfl⟩
  | pwd | echo =>
    cases h
    exact .inr ⟨by decide, .inr (.inl ⟨_, rfl⟩)⟩
  | cd =>
    unfold perform at h
    dsimp only at h
    split at h
    · cases h
    · obtain ⟨_, rfl⟩ := exists_of_report h
      exact .inr ⟨by decide, .inl rfl⟩
  | mkdir | touch | rm =>
    obtain ⟨_, rfl⟩ := exists_of_report h
    exact .inr ⟨by decide, .inl rfl⟩
  | cat | ls =>
    obtain ⟨_, rfl⟩ := exists_of_report h
    exact .inr ⟨by decide, .inr (.inl ⟨_, rfl⟩)⟩
  | xdgOpen =>
    obtain ⟨_, rfl⟩ := exists_of_report h
    exact .inr ⟨by decide, .inr (.inr ⟨_, rfl⟩)⟩
  | wget =>
    unfold perform at h
    dsimp only at h
    split at h
    · cases h
    · cases h
      exact .inr ⟨by decide, .inr (.inl ⟨_, rfl⟩)⟩

theorem Verb.isError_of_perform {v : Verb} {fetch : Fetcher} {flags : List Flag}
    {args : List String} {s t : Session} {result : Result}
    (h : v.perform fetch flags args s = (.ok result, t)) : result.output.isError = false := by
  obtain ⟨-, rfl⟩ | ⟨-, rfl | ⟨_, rfl⟩ | ⟨_, rfl⟩⟩ := perform_result h <;> rfl

/-- A redirect's turn: its file receives the data. -/
def Redirect.receive (data : List UInt8) (r : Redirect) (s : Session) :
    Except FileError Handle × Session :=
  s.modifyFile r.target (.receive r.mode data)

namespace Command

variable {c : Command} {fetch : Fetcher} {s : Session}

/-- The bytes that the redirects of a command are given. -/
def redirected (c : Command) (fetch : Fetcher) (s : Session) : List UInt8 :=
  Text.utf8 (c.runVerb fetch s).1.output.redirected.toList

/-- The operations that a command tries, each with the session in which it has its turn. -/
inductive Tries (c : Command) (fetch : Fetcher) (s : Session) : Operation → Session → Prop
  | cd {flags : List Flag} : c.name = "cd" → Verb.cd.flags c = .ok flags →
    c.arguments.length ≤ 1 → Tries c fetch s (.cd c.arguments.head?) s
  | mkdir {flags : List Flag} {path : String} {t : Session} : c.name = "mkdir" →
    Verb.mkdir.flags c = .ok flags →
    Turn (fun path s => s.mkdir path (flags.contains .parents)) c.arguments s path t →
    Tries c fetch s (.mkdir path (flags.contains .parents)) t
  | touch {path : String} {t : Session} : c.name = "touch" →
    Turn Session.touch c.arguments s path t → Tries c fetch s (.touch path) t
  | rm {flags : List Flag} {path : String} {t : Session} : c.name = "rm" →
    Verb.rm.flags c = .ok flags →
    Turn (fun path s => s.rm path (flags.contains .recursive)) c.arguments s path t →
    Tries c fetch s (.rm path (flags.contains .recursive)) t
  | save {url : String} {bytes : List UInt8} {t : Session} : c.name = "wget" →
    Turn (Session.download fetch) c.arguments s url t → fetch url = .ok bytes →
    Tries c fetch s (.saveDownload (Download.nameOf url) bytes url) t
  | redirect {r : Redirect} {t : Session} : c.isEmpty = false →
    Turn (Redirect.receive (c.redirected fetch s)) c.redirects (c.runVerb fetch s).2 r t →
    Tries c fetch s (.modifyFile r.target (.receive r.mode (c.redirected fetch s))) t

/-- An operation that the command tries leads from one session to the other. -/
def Moves (c : Command) (fetch : Fetcher) (s t t' : Session) : Prop :=
  ∃ op, c.Tries fetch s op t ∧ t' = (op.run t).2

theorem moves_forEach {α β ε : Type} {act : α → Session → Except ε β × Session} {as : List α}
    {u : Session} (h : ∀ a t, Turn act as u a t → ReflTransGen (c.Moves fetch s) t (act a t).2) :
    ReflTransGen (c.Moves fetch s) u (forEach act as u).2 := by
  refine reflTransGen_closed ?_ _ _ (forEach_turns act as u)
  rintro t _ ⟨a, ht, rfl⟩
  exact h a t ht

theorem Tries.moves {op : Operation} {t : Session} (h : c.Tries fetch s op t) :
    ReflTransGen (c.Moves fetch s) t (op.run t).2 :=
  .single ⟨op, h, rfl⟩

theorem download_moves (hn : c.name = "wget") {url : String} {t : Session}
    (ht : Turn (Session.download fetch) c.arguments s url t) :
    ReflTransGen (c.Moves fetch s) t (t.download fetch url).2 := by
  rw [download]
  cases hf : fetch url with
  | error e => exact .refl
  | ok bytes =>
    have hm := (Tries.save hn ht hf).moves
    rw [Operation.run] at hm
    dsimp only
    generalize t.saveDownload (Download.nameOf url) bytes url = r at hm
    obtain ⟨_ | _, u⟩ := r <;> exact hm

theorem perform_moves {v : Verb} (hn : v.name = c.name) {flags : List Flag}
    (hf : v.flags c = .ok flags) :
    ReflTransGen (c.Moves fetch s) s (v.perform fetch flags c.arguments s).2 := by
  cases v with
  | pwd | echo | clear => exact .refl
  | ls => rw [Verb.perform, report_snd]
  | cd =>
    have hone : c.arguments.length ≤ 1 →
        ReflTransGen (c.Moves fetch s) s (s.cd c.arguments.head?).2 :=
      fun hl => (Tries.cd hn.symm hf hl).moves
    generalize c.arguments = paths at hone
    rcases paths with _ | ⟨path, _ | ⟨path', paths⟩⟩
    · have he : (Verb.perform .cd fetch flags [] s).2 = (s.cd none).2 := report_snd _ _
      exact he ▸ hone (Nat.zero_le 1)
    · have he : (Verb.perform .cd fetch flags [path] s).2 = (s.cd (some path)).2 :=
        report_snd _ _
      exact he ▸ hone (Nat.le_refl 1)
    · exact .refl
  | mkdir =>
    rw [Verb.perform, report_snd]
    exact moves_forEach fun path t ht => (Tries.mkdir hn.symm hf ht).moves
  | touch =>
    rw [Verb.perform, report_snd]
    exact moves_forEach fun path t ht => (Tries.touch hn.symm ht).moves
  | rm =>
    rw [Verb.perform, report_snd]
    exact moves_forEach fun path t ht => (Tries.rm hn.symm hf ht).moves
  | cat | xdgOpen =>
    rw [Verb.perform, report_snd]
    exact moves_forEach fun path t _ => .refl
  | wget =>
    have hm : ReflTransGen (c.Moves fetch s) s
        (forEach (Session.download fetch) c.arguments s).2 :=
      moves_forEach fun url t ht => download_moves hn.symm ht
    rw [Verb.perform]
    generalize forEach (Session.download fetch) c.arguments s = r at hm
    obtain ⟨_ | _, u⟩ := r <;> exact hm

theorem runVerb_moves : ReflTransGen (c.Moves fetch s) s (c.runVerb fetch s).2 := by
  rw [runVerb]
  cases hv : Verb.ofName? c.name with
  | none => exact .refl
  | some v =>
    have hm : ReflTransGen (c.Moves fetch s) s (v.run fetch c s).2 := by
      rw [Verb.run]
      cases hf : v.flags c with
      | error e => exact .refl
      | ok flags =>
        dsimp only
        split
        · exact .refl
        · exact perform_moves (Verb.name_of_ofName? hv) hf
    dsimp only
    generalize v.run fetch c s = r at hm
    obtain ⟨_ | _, u⟩ := r <;> exact hm

theorem feed_snd (text : String) (rs : List Redirect) (s : Session) :
    (feed text rs s).2 = (forEach (Redirect.receive (Text.utf8 text.toList)) rs s).2 := by
  induction rs generalizing s with
  | nil => rfl
  | cons r rs ih =>
    rw [feed, forEach, Redirect.receive]
    obtain ⟨_ | _, u⟩ := s.modifyFile r.target (.receive r.mode (Text.utf8 text.toList))
    · rfl
    · dsimp only
      rw [ih u]
      obtain ⟨_ | _, v⟩ := forEach (Redirect.receive (Text.utf8 text.toList)) rs u <;> rfl

theorem redirect_snd (c : Command) (result : Result) (s : Session) :
    (c.redirect result s).2 =
      (forEach (Redirect.receive (Text.utf8 result.output.redirected.toList)) c.redirects s).2 := by
  rw [← feed_snd, redirect]
  split
  · rename_i hr
    rw [List.isEmpty_iff.mp hr]
    rfl
  · obtain ⟨_ | _, u⟩ := feed result.output.redirected c.redirects s <;> rfl

/-- A command does to a session what the operations do that it tries, and no more. -/
theorem execute_moves : ReflTransGen (c.Moves fetch s) s (c.execute fetch s).2 := by
  rw [execute]
  split
  · exact .refl
  · rename_i he
    have he : c.isEmpty = false := Bool.eq_false_iff.mpr he
    refine runVerb_moves.trans ?_
    dsimp only
    rw [redirect_snd]
    refine moves_forEach fun r t ht => ?_
    have hm := (Tries.redirect he ht).moves
    rw [Operation.run] at hm
    exact hm

theorem moves_preserve {P : Session → Prop} {t u : Session}
    (hm : ReflTransGen (c.Moves fetch s) t u) (ht : P t)
    (hP : ∀ op t, c.Tries fetch s op t → P t → P (op.run t).2) : P u := by
  induction hm with
  | refl => exact ht
  | tail _ hstep ih =>
    obtain ⟨op, hop, rfl⟩ := hstep
    exact hP op _ hop ih

/-- What every operation preserves that the command tries is preserved by the command. -/
theorem execute_preserves {P : Session → Prop} (hs : P s)
    (hP : ∀ op t, c.Tries fetch s op t → P t → P (op.run t).2) : P (c.execute fetch s).2 :=
  moves_preserve execute_moves hs hP

theorem reachable_of_moves {t u : Session} (hm : ReflTransGen (c.Moves fetch s) t u)
    (ht : t.Reachable) : u.Reachable := by
  refine moves_preserve hm ht fun op t _ ht => ?_
  obtain ⟨s₀, h₀, hl⟩ := ht
  exact ⟨s₀, h₀, hl.trans ⟨[op], rfl⟩⟩

theorem executeAll_preserves {P : Session → Prop} (cs : List Command) (hs : P s)
    (hP : ∀ c op t u, Tries c fetch t op u → P u → P (op.run u).2) :
    P (executeAll fetch cs s).2 := by
  induction cs generalizing s with
  | nil => exact hs
  | cons c cs ih => exact ih (execute_preserves hs fun op u hop => hP c op s u hop)

end Command

end TreeShell
