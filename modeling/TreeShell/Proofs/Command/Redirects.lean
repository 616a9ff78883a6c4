import TreeShell.Proofs.Command.Effects
import TreeShell.Proofs.Session.Placing
import TreeShell.Proofs.Text.Utf8

/-! Where the text of a command goes, told by the map of the tree. The redirects are taken in
their order, each changes the file that its target stands for, and the first that cannot be
opened ends it. What a target stands for is settled by the session that the verb left. -/

namespace TreeShell

theorem Content.text_own_utf8 (text : String) :
    (Content.own (Text.utf8 text.toList)).text = text := by
  simp [Content.text, bytes, Text.decodeUtf8_utf8]

/-- A verb's output in two: the text that goes to the redirects, and what is still shown. -/
inductive Output.Divides : Output → String → Output → Prop
  | silent : Divides .silent "" .silent
  | text (line : String) : Divides (.text line) line .silent
  | error (message : String) : Divides (.error message) "" (.error message)

theorem Output.divides (output : Output) :
    output.Divides output.redirected output.withoutText := by
  cases output with
  | silent => exact .silent
  | text line => exact .text line
  | error message => exact .error message

namespace KindMap

/-- The bytes of the file at the names, its own or fetched; none if there is no file. -/
def bytesAt (m : KindMap) (names : List String) : List UInt8 :=
  match m names with
  | some (.file (.own bytes)) => bytes
  | some (.file (.fetched bytes _)) => bytes
  | _ => []

/-- The map after the file at the names took up some data, in place of its bytes or behind
them. -/
def receive (mode : RedirectMode) (data : List UInt8) (names : List String) (m : KindMap) :
    KindMap :=
  Function.update m names (some (.file (.own (match mode with
    | .write => data
    | .append => m.bytesAt names ++ data))))

theorem bytes_contentAt (m : KindMap) (names : List String) :
    (m.contentAt names).bytes = m.bytesAt names := by
  rw [contentAt, bytesAt]
  cases m names with
  | none => rfl
  | some kind =>
    cases kind with
    | directory => rfl
    | file content => cases content <;> rfl

theorem update_receive (mode : RedirectMode) (data : List UInt8) (names : List String)
    (m : KindMap) :
    Function.update m names (some (.file ((m.contentAt names).receive mode data))) =
      m.receive mode data names := by
  cases mode with
  | write => rfl
  | append => simp only [receive, Content.receive, Content.append, bytes_contentAt]

/-- The map after redirects took up the data in their order; `place` tells what their targets
stand for. -/
def receiveAll (place : String → List String) (data : List UInt8) (rs : List Redirect)
    (m : KindMap) : KindMap :=
  rs.foldl (fun m r => m.receive r.mode data (place r.target)) m

variable {place : String → List String} {data : List UInt8} {rs back : List Redirect}
  {r : Redirect}

theorem receiveAll_elsewhere {names : List String} (h : ∀ r ∈ rs, place r.target ≠ names)
    (m : KindMap) : m.receiveAll place data rs names = m names := by
  induction rs generalizing m with
  | nil => rfl
  | cons r rs ih =>
    obtain ⟨hr, hrs⟩ := List.forall_mem_cons.mp h
    have hrest := ih hrs (m.receive r.mode data (place r.target))
    exact hrest.trans (Function.update_of_ne hr.symm _ _)

/-- Behind the last redirect to a file that replaces what is there, the file holds the data. -/
theorem receiveAll_of_last_write (front : List Redirect) (hm : r.mode = .write)
    (hb : ∀ r' ∈ back, place r'.target ≠ place r.target) (m : KindMap) :
    m.receiveAll place data (front ++ r :: back) (place r.target) =
      some (.file (.own data)) := by
  have hsplit : m.receiveAll place data (front ++ r :: back) =
      ((m.receiveAll place data front).receive r.mode data (place r.target)).receiveAll
        place data back := by
    simp [receiveAll]
  rw [hsplit, receiveAll_elsewhere hb, hm]
  exact Function.update_self _ _ _

end KindMap

open KindMap

namespace Session

variable {s : Session} {path : String}

theorem cat_of_kindAt (hp : path ≠ "") (hslash : Path.endsInSlash path = false)
    {content : Content} (hk : s.tree.kindAt (s.segments path) = some (.file content)) :
    s.cat path = .ok content.text := by
  obtain ⟨h, hw, hkind⟩ := Tree.exists_walk_of_kindAt hk
  have hr : s.resolve path = .ok h := by simp [resolve, hp, hw, hslash]
  rw [cat, hr]
  simp [Tree.content?_eq_some_iff.mpr hkind]

end Session

namespace Command

open Session

/-- All these redirects have opened their files in turn, and nothing else has changed than that
each file took up the data. -/
structure Fed (data : List UInt8) (s : Session) (done : List Redirect) (s' : Session) :
    Prop where
  session_eq : s' = { s with tree := s'.tree }
  grows : Tree.Grows s.tree s'.tree
  opened : ∀ front r back, done = front ++ r :: back →
    Openable (receiveAll s.segments data front s.tree.kindAt) r.target (s.segments r.target)
  kindAt_eq : s'.tree.kindAt = receiveAll s.segments data done s.tree.kindAt

/-- The redirect cannot be opened in the session. -/
def Stops (s : Session) (r : Redirect) (e : FileError) : Prop :=
  ¬ Openable s.tree.kindAt r.target (s.segments r.target) ∧ s.createOrOpen r.target = (.error e, s)

variable {data : List UInt8} {s s' : Session} {done : List Redirect}

theorem Fed.nil (data : List UInt8) (s : Session) : Fed data s [] s where
  session_eq := rfl
  grows := .refl
  opened := by simp
  kindAt_eq := rfl

theorem Fed.cons {r : Redirect} {tree : Tree} (hs : s.Sound) (hg : Tree.Grows s.tree tree)
    (ho : Openable s.tree.kindAt r.target (s.segments r.target))
    (hk : tree.kindAt = receive r.mode data (s.segments r.target) s.tree.kindAt)
    (h : Fed data { s with tree } done s') : Fed data s (r :: done) s' where
  session_eq := h.session_eq
  grows := hg.trans h.grows
  opened := by
    rintro (_ | ⟨first, front⟩) r' back he
    · obtain ⟨rfl, rfl⟩ := List.cons.inj he
      exact ho
    · obtain ⟨rfl, rfl⟩ := List.cons.inj he
      -- The targets stand for the same names in the session that the first one left.
      have hopened := h.opened front r' back rfl
      rw [hs.segments_of_grows hg] at hopened
      dsimp only at hopened
      rwa [hk] at hopened
  kindAt_eq := by
    have he := h.kindAt_eq
    rw [hs.segments_of_grows hg] at he
    dsimp only at he
    rw [he, hk]
    rfl

theorem Fed.segments_eq (h : Fed data s done s') (hs : s.Sound) : s'.segments = s.segments := by
  rw [h.session_eq]
  exact hs.segments_of_grows h.grows

theorem Fed.cat_of_last_write {front back : List Redirect} {r : Redirect}
    (h : Fed data s (front ++ r :: back) s') (hs : s.Sound) (hm : r.mode = .write)
    (hb : ∀ r' ∈ back, s.segments r'.target ≠ s.segments r.target) :
    s'.cat r.target = .ok (Content.own data).text := by
  have ho := h.opened front r back rfl
  have hk : s'.tree.kindAt (s'.segments r.target) = some (.file (.own data)) := by
    rw [h.segments_eq hs, h.kindAt_eq, receiveAll_of_last_write front hm hb]
  exact cat_of_kindAt ho.path_ne ho.slash hk

theorem feed_cases (text : String) (rs : List Redirect) (hs : s.Sound) :
    ∃ done, Fed (Text.utf8 text.toList) s done (feed text rs s).2 ∧
      (rs = done ∧ (feed text rs s).1 = .ok () ∨
        ∃ r later e, rs = done ++ r :: later ∧ Stops (feed text rs s).2 r e ∧
          (feed text rs s).1 = .error e) := by
  induction rs generalizing s with
  | nil => exact ⟨[], .nil _ s, .inl ⟨rfl, rfl⟩⟩
  | cons r rs ih =>
    rw [feed]
    obtain ⟨ho, h, tree, hm, hg, hk⟩ | ⟨ho, e, he, hm⟩ := modifyFile_exact hs.linked r.target
      (.receive r.mode (Text.utf8 text.toList))
    · have hs' : Sound { s with tree } := (Step.grow ⟨tree, hg, rfl⟩).sound hs
      obtain ⟨done, hfed, hend⟩ := ih hs'
      rw [update_receive] at hk
      rw [hm]
      dsimp only
      refine ⟨r :: done, hfed.cons hs hg ho hk, ?_⟩
      obtain ⟨rfl, hok⟩ | ⟨r', later, e, rfl, hstop⟩ := hend
      · exact .inl ⟨rfl, hok⟩
      · exact .inr ⟨r', later, e, rfl, hstop⟩
    · rw [hm]
      exact ⟨[], .nil _ s, .inr ⟨r, rs, e, rfl, ⟨ho, he⟩, rfl⟩⟩

theorem redirect_eq {c : Command} (hr : c.redirects ≠ []) (result : Result) (s : Session) :
    c.redirect result s =
      ({ result with output := match (feed result.output.redirected c.redirects s).1 with
        | .ok () => result.output.withoutText
        | .error e => .error (c.name ++ ": " ++ e.message) },
      (feed result.output.redirected c.redirects s).2) := by
  rw [redirect, if_neg (by simpa using hr)]
  obtain ⟨_ | _, u⟩ := feed result.output.redirected c.redirects s <;> rfl

theorem execute_cat {path text : String} (h : s.cat path = .ok text) (fetch : Fetcher) :
    execute ⟨"cat", [], [], [path], []⟩ fetch s = (⟨.text text, []⟩, s) := by
  have hv : Verb.ofName? "cat" = some .cat := Verb.ofName?_name .cat
  have hf : Verb.cat.flags ⟨"cat", [], [], [path], []⟩ = .ok [] := rfl
  have hr : Verb.cat.run fetch ⟨"cat", [], [], [path], []⟩ s = (.ok ⟨.text text, []⟩, s) := by
    simp [Verb.run, hf, Verb.perform, forEach, h, report, Result.ofText]
  simp [execute, isEmpty, runVerb, hv, hr, redirect]

/-- The text of a verb goes to the redirects in their order, each changing what the earlier ones
left, up to the first that cannot be opened; that one's error is shown, and those behind it
change nothing. Where none fails, only an error of the verb is shown, and a file whose last
redirect replaces what is there reads back as the text. -/
theorem execute_redirects {s₀ : Session} (hs : s₀.Reachable) (fetch : Fetcher) {c : Command}
    (hn : c.name ≠ "") (hr : c.redirects ≠ []) :
    let result := (c.runVerb fetch s₀).1
    let s := (c.runVerb fetch s₀).2
    let final := c.execute fetch s₀
    ∃ text shown done, Output.Divides result.output text shown ∧
      Fed text.toUTF8.data.toList s done final.2 ∧ final.1.actions = result.actions ∧
      (c.redirects = done ∧ final.1.output = shown ∧
        (∀ front r back, c.redirects = front ++ r :: back → r.mode = .write →
          (∀ r' ∈ back, s.segments r'.target ≠ s.segments r.target) →
          execute ⟨"cat", [], [], [r.target], []⟩ fetch final.2 = (⟨.text text, []⟩, final.2)) ∨
      ∃ r later e, c.redirects = done ++ r :: later ∧ Stops final.2 r e ∧
        final.1.output = .error (c.name ++ ": " ++ e.message)) := by
  intro result s final
  have hsound : s.Sound := (reachable_of_moves runVerb_moves hs).sound
  have hfinal : final = c.redirect result s := by
    have he : c.isEmpty = false := by simpa [isEmpty] using hn
    simp [final, execute, he, result, s]
  rw [redirect_eq hr] at hfinal
  generalize ht : result.output.redirected = text at hfinal
  obtain ⟨done, hfed, hend⟩ := feed_cases text c.redirects hsound
  have hu : final.2 = (feed text c.redirects s).2 := by rw [hfinal]
  rw [← hu] at hfed hend
  refine ⟨text, result.output.withoutText, done, ht ▸ result.output.divides,
    Text.utf8_toList text ▸ hfed, by rw [hfinal], ?_⟩
  obtain ⟨hdone, hok⟩ | ⟨r, later, e, hrs, hstops, he⟩ := hend
  · refine .inl ⟨hdone, by rw [hfinal, hok], ?_⟩
    intro front r back hrs hm hb
    have hcat := Fed.cat_of_last_write (hrs ▸ hdone ▸ hfed) hsound hm hb
    exact execute_cat (hcat.trans (congrArg Except.ok (Content.text_own_utf8 text))) fetch
  · refine .inr ⟨r, later, e, hrs, hstops, ?_⟩
    rw [hfinal, he]

/-- One file under two spellings, and behind them a download that holds a byte. -/
theorem execute_redirects_two_spellings : ∃ (s s' : Session) (c : Command),
    s = run [.saveDownload "b" [120] "u"] (withHome "guest") ∧
    c = ⟨"echo", [], [], ["hi"], [⟨"a", .append⟩, ⟨"./a", .write⟩, ⟨"b", .append⟩]⟩ ∧
    s' = (c.execute (.ofList []) s).2 ∧ s.Reachable ∧ c.name ≠ "" ∧ c.redirects ≠ [] ∧
    (c.execute (.ofList []) s).1 = ⟨.silent, []⟩ ∧
    execute ⟨"cat", [], [], ["./a"], []⟩ (.ofList []) s' = (⟨.text "hi\n", []⟩, s') ∧
    s.tree.kindAt ["home", "guest", "b"] = some (.file (.fetched [120] "u")) ∧
    s'.tree.kindAt ["home", "guest", "b"] = some (.file (.own [120, 104, 105, 10])) := by
  obtain ⟨s, hs⟩ : ∃ s, s = run [.saveDownload "b" [120] "u"] (withHome "guest") := ⟨_, rfl⟩
  obtain ⟨c, hc⟩ : ∃ c : Command, c =
    ⟨"echo", [], [], ["hi"], [⟨"a", .append⟩, ⟨"./a", .write⟩, ⟨"b", .append⟩]⟩ := ⟨_, rfl⟩
  have hreach : s.Reachable := ⟨_, .withHome "guest", _, hs⟩
  have hn : c.name ≠ "" := by simp [hc]
  have hr : c.redirects ≠ [] := by simp [hc]
  have ha : s.segments "a" = ["home", "guest", "a"] := by rw [hs]; decide +kernel
  have ha' : s.segments "./a" = ["home", "guest", "a"] := by rw [hs]; decide +kernel
  have hb : s.segments "b" = ["home", "guest", "b"] := by rw [hs]; decide +kernel
  have hold : s.tree.kindAt ["home", "guest", "b"] = some (.file (.fetched [120] "u")) := by
    rw [hs]
    decide +kernel
  have hverb : c.runVerb (.ofList []) s = (⟨.text "hi\n", []⟩, s) := by rw [hc]; rfl
  have hsilent : (c.execute (.ofList []) s).1 = ⟨.silent, []⟩ := by
    rw [hc, hs]
    decide +kernel
  have hbytes : "hi\n".toUTF8.data.toList = [104, 105, 10] := by decide +kernel
  obtain ⟨text, shown, done, hdiv, hfed, -, ⟨hdone, -, hcat⟩ | ⟨r, later, e, -, -, he⟩⟩ :=
    execute_redirects hreach (.ofList []) hn hr
  · rw [hverb] at hdiv hfed hcat
    obtain ⟨-⟩ := hdiv
    have hlast : ∀ r ∈ [(⟨"b", .append⟩ : Redirect)], s.segments r.target ≠ s.segments "./a" := by
      simp [ha', hb]
    have hcut : c.redirects = [⟨"a", .append⟩] ++ ⟨"./a", .write⟩ :: [⟨"b", .append⟩] := by
      rw [hc]
      rfl
    refine ⟨s, _, c, hs, hc, rfl, hreach, hn, hr, hsilent, hcat _ _ _ hcut rfl hlast, hold, ?_⟩
    rw [hfed.kindAt_eq, ← hdone, hcut, hbytes]
    simp [receiveAll, receive, bytesAt, ha, ha', hb, hold]
  · rw [hsilent] at he
    cases he

end Command

end TreeShell
