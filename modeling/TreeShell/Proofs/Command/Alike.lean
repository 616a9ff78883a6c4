import TreeShell.Command.Execution
import TreeShell.Proofs.Session.Alike

/-! Commands on sessions that are alike: the results are the same, one after another, and the
sessions stay alike. What a session shows therefore depends on the map of its tree and on the
names of its working directory, and not on how either came about. -/

namespace TreeShell

namespace Session

theorem Agree.exists_eq {α : Type} {r r' : α × Session} (h : Agree r r') :
    ∃ a u u', r = (a, u) ∧ r' = (a, u') ∧ Alike u u' := by
  obtain ⟨a, u⟩ := r
  obtain ⟨a', u'⟩ := r'
  obtain ⟨rfl, hu⟩ := h
  exact ⟨a, u, u', rfl, rfl, hu⟩

theorem agree_forEach {α β ε : Type} {act : α → Session → Except ε β × Session}
    (hact : ∀ a {s s' : Session}, Alike s s' → Agree (act a s) (act a s')) (as : List α)
    {s s' : Session} (h : Alike s s') : Agree (forEach act as s) (forEach act as s') := by
  induction as generalizing s s' with
  | nil => exact ⟨rfl, h⟩
  | cons a as ih =>
    rw [forEach, forEach]
    obtain ⟨answer, u, u', hr, hr', hu⟩ := (hact a h).exists_eq
    rw [hr, hr']
    cases answer with
    | error e => exact ⟨rfl, hu⟩
    | ok b =>
      obtain ⟨answers, v, v', hr, hr', hv⟩ := (ih hu).exists_eq
      dsimp only
      rw [hr, hr']
      cases answers <;> exact ⟨rfl, hv⟩

theorem Agree.report {α : Type} (toResult : α → Result)
    {r r' : Except FileError α × Session} (h : Agree r r') :
    Agree (report toResult r) (report toResult r') := by
  obtain ⟨answer, u, u', rfl, rfl, hu⟩ := h.exists_eq
  cases answer <;> exact ⟨rfl, hu⟩

namespace Alike

variable {s s' : Session} (h : Alike s s')
include h

theorem listing_eq (all : Bool) (path : Option String) :
    s.listing all path = s'.listing all path := by
  have hd : s.isDirectory = s'.isDirectory := funext h.isDirectory_eq
  rw [listing, listing, h.list_eq, hd]

theorem listings_eq (all : Bool) (paths : List String) :
    s.listings all paths = s'.listings all paths := by
  unfold listings
  simp only [h.listing_eq]

theorem download (fetch : Fetcher) (url : String) :
    Agree (s.download fetch url) (s'.download fetch url) := by
  rw [Session.download, Session.download]
  cases fetch url with
  | error e => exact ⟨rfl, h⟩
  | ok bytes =>
    obtain ⟨answer, u, u', hr, hr', hu⟩ :=
      (h.saveDownload (Download.nameOf url) bytes url).exists_eq
    dsimp only
    rw [hr, hr']
    cases answer <;> exact ⟨rfl, hu⟩

end Alike

end Session

open Session

namespace Verb

variable {s s' : Session}

theorem perform_agree (v : Verb) (fetch : Fetcher) (flags : List Flag) (args : List String)
    (h : Alike s s') : Agree (v.perform fetch flags args s) (v.perform fetch flags args s') := by
  cases v with
  | pwd => exact ⟨by simp only [perform, h.workingPath_eq], h⟩
  | echo => exact ⟨rfl, h⟩
  | clear => exact ⟨rfl, h⟩
  | cd =>
    match args with
    | [] => exact (h.cd none).report _
    | [path] => exact (h.cd (some path)).report _
    | _ :: _ :: _ => exact ⟨rfl, h⟩
  | mkdir =>
    exact (agree_forEach (fun path _ _ h => (Operation.mkdir path _).agree h) args h).report _
  | touch => exact (agree_forEach (fun path _ _ h => h.touch path) args h).report _
  | rm => exact (agree_forEach (fun path _ _ h => h.rm path _) args h).report _
  | cat => exact (agree_forEach (fun path _ _ h => ⟨h.cat_eq path, h⟩) args h).report _
  | xdgOpen =>
    exact (agree_forEach (fun path _ _ h => ⟨h.openRequest_eq path, h⟩) args h).report _
  | ls =>
    have hl : Agree (s.listings (flags.contains .all) args, s)
        (s'.listings (flags.contains .all) args, s') := ⟨h.listings_eq _ args, h⟩
    exact hl.report _
  | wget =>
    obtain ⟨answer, u, u', hr, hr', hu⟩ :=
      (agree_forEach (fun url _ _ h => h.download fetch url) args h).exists_eq
    rw [perform, perform, hr, hr']
    cases answer <;> exact ⟨rfl, hu⟩

theorem run_agree (v : Verb) (fetch : Fetcher) (c : Command) (h : Alike s s') :
    Agree (v.run fetch c s) (v.run fetch c s') := by
  rw [run, run]
  cases v.flags c with
  | error e => exact ⟨rfl, h⟩
  | ok flags =>
    dsimp only
    split
    · exact ⟨rfl, h⟩
    · exact v.perform_agree fetch flags c.arguments h

end Verb

namespace Command

variable {s s' : Session}

theorem runVerb_agree (c : Command) (fetch : Fetcher) (h : Alike s s') :
    Agree (c.runVerb fetch s) (c.runVerb fetch s') := by
  rw [runVerb, runVerb]
  cases Verb.ofName? c.name with
  | none => exact ⟨rfl, h⟩
  | some v =>
    obtain ⟨answer, u, u', hr, hr', hu⟩ := (v.run_agree fetch c h).exists_eq
    dsimp only
    rw [hr, hr']
    cases answer <;> exact ⟨rfl, hu⟩

/-- A target is given its bytes by an operation whose outcome alone counts. -/
theorem feed_cons (text : String) (r : Redirect) (rs : List Redirect) (s : Session) :
    feed text (r :: rs) s =
      match (Operation.modifyFile r.target
        (.receive r.mode (Text.utf8 text.toList))).run s with
      | (.error e, s) => (.error e, s)
      | (.ok _, s) => feed text rs s := by
  rw [feed, Operation.run]
  obtain ⟨answer, u⟩ := s.modifyFile r.target (.receive r.mode (Text.utf8 text.toList))
  cases answer <;> rfl

theorem feed_agree (text : String) (rs : List Redirect) (h : Alike s s') :
    Agree (feed text rs s) (feed text rs s') := by
  induction rs generalizing s s' with
  | nil => exact ⟨rfl, h⟩
  | cons r rs ih =>
    rw [feed_cons, feed_cons]
    obtain ⟨answer, u, u', hr, hr', hu⟩ :=
      (h.modifyFile r.target (.receive r.mode (Text.utf8 text.toList))).exists_eq
    rw [hr, hr']
    cases answer with
    | error e => exact ⟨rfl, hu⟩
    | ok _ => exact ih hu

theorem redirect_agree (c : Command) (result : Result) (h : Alike s s') :
    Agree (c.redirect result s) (c.redirect result s') := by
  rw [redirect, redirect]
  split
  · exact ⟨rfl, h⟩
  · obtain ⟨answer, u, u', hr, hr', hu⟩ :=
      (feed_agree result.output.redirected c.redirects h).exists_eq
    rw [hr, hr']
    cases answer <;> exact ⟨rfl, hu⟩

theorem execute_agree (c : Command) (fetch : Fetcher) (h : Alike s s') :
    Agree (c.execute fetch s) (c.execute fetch s') := by
  rw [execute, execute]
  split
  · exact ⟨rfl, h⟩
  · obtain ⟨result, u, u', hr, hr', hu⟩ := (c.runVerb_agree fetch h).exists_eq
    rw [hr, hr']
    exact c.redirect_agree result hu

/-- The results of commands that are run one after another, and the session they leave. -/
def executeAll (fetch : Fetcher) : List Command → Session → List Result × Session
  | [], s => ([], s)
  | c :: cs, s =>
    match c.execute fetch s with
    | (result, s) => (executeAll fetch cs s).map (result :: ·) id

theorem executeAll_agree (fetch : Fetcher) (cs : List Command) (h : Alike s s') :
    Agree (executeAll fetch cs s) (executeAll fetch cs s') := by
  induction cs generalizing s s' with
  | nil => exact ⟨rfl, h⟩
  | cons c cs ih =>
    rw [executeAll, executeAll]
    obtain ⟨result, u, u', hr, hr', hu⟩ := (c.execute_agree fetch h).exists_eq
    rw [hr, hr']
    obtain ⟨results, v, v', hr, hr', hv⟩ := (ih hu).exists_eq
    dsimp only
    rw [hr, hr']
    exact ⟨rfl, hv⟩

end Command

namespace Session

/-- Sessions of one user with the same map of the tree, in the same working directory. -/
structure LooksLike (s s' : Session) : Prop where
  user_eq : s.user = s'.user
  kindAt_eq : ∀ names, s.tree.kindAt names = s'.tree.kindAt names
  cwd_eq : s.tree.segmentsOf s.cwd = s'.tree.segmentsOf s'.cwd

variable {s s' : Session}

theorem LooksLike.alike (h : LooksLike s s') (hs : s.Sound) (hs' : s'.Sound) : Alike s s' where
  sound := hs
  sound' := hs'
  user_eq := h.user_eq
  tree := ⟨hs.linked, hs'.linked, funext h.kindAt_eq⟩
  cwd := by
    have hw := hs.linked.walk_eq_ok_iff.mpr
      ⟨Tree.link?_of_isDirectory hs.cwd_isDirectory, h.cwd_eq⟩
    have hw' := hs'.linked.walk_eq_ok_iff.mpr
      ⟨Tree.link?_of_isDirectory hs'.cwd_isDirectory, rfl⟩
    exact ⟨_, hw, hw'⟩

theorem Alike.looksLike (h : Alike s s') : LooksLike s s' :=
  ⟨h.user_eq, congrFun h.tree.kindAt_eq, h.tree.segmentsOf_eq h.cwd⟩

end Session

namespace Command

/-- Sessions that look alike cannot be told apart, however their nodes are numbered and whatever
was removed on the way to them: commands have the same results, and after each of them the
working directory, the prompt, every completion and all that is to be seen are the same. -/
theorem executeAll_of_looksLike {s s' : Session} (hs : s.Reachable) (hs' : s'.Reachable)
    (h : LooksLike s s') (fetch : Fetcher) (cs : List Command) :
    (executeAll fetch cs s).1 = (executeAll fetch cs s').1 ∧
    ∀ n,
      let t := (executeAll fetch (cs.take n) s).2
      let t' := (executeAll fetch (cs.take n) s').2
      t.workingPath = t'.workingPath ∧ t.displayedPath = t'.displayedPath ∧
        (∀ input, complete input t = complete input t') ∧ LooksLike t t' := by
  have ha := h.alike hs.sound hs'.sound
  refine ⟨(executeAll_agree fetch cs ha).1, fun n => ?_⟩
  have hn := (executeAll_agree fetch (cs.take n) ha).2
  exact ⟨hn.workingPath_eq, hn.displayedPath_eq, hn.complete_eq, hn.looksLike⟩

/-- A session in which a file came and went looks like one in which nothing happened. -/
theorem executeAll_of_removed_file : ∃ s s₀ : Session, s₀ = withHome "guest" ∧
    s = run [.touch "x", .rm "x" false] s₀ ∧ LooksLike s s₀ ∧
    s.tree.slots.size = 4 ∧ s₀.tree.slots.size = 3 ∧
    ∀ cs, (executeAll (.ofList []) cs s).1 = (executeAll (.ofList []) cs s₀).1 := by
  obtain ⟨s₀, h₀⟩ : ∃ s₀, s₀ = withHome "guest" := ⟨_, rfl⟩
  obtain ⟨s, hs⟩ : ∃ s, s = run [.touch "x", .rm "x" false] s₀ := ⟨_, rfl⟩
  have ht : s₀.tree.Linked := h₀ ▸ (withHome_sound "guest").linked
  have hd : s₀.tree.isDirectory 2 = true := by rw [h₀]; cbv
  have hc : s₀.tree.child? 2 "x" = none := by rw [h₀]; cbv
  have hl : (s₀.tree.attach 2 "x" (.file .empty)).link? 3 = some ("x", some 2) := by rw [h₀]; cbv
  have htree : s.tree = ((s₀.tree.attach 2 "x" (.file .empty)).remove 3).2 := by
    rw [hs, h₀]
    cbv
  have hseg : (s₀.tree.attach 2 "x" (.file .empty)).segmentsOf 3 =
      s₀.tree.segmentsOf 2 ++ ["x"] := by
    have hnew : s₀.tree.slots.size = 3 := by rw [h₀]; cbv
    exact hnew ▸ ht.segmentsOf_attach_new hd hc
  have hlook : LooksLike s s₀ := by
    refine ⟨by rw [hs, h₀]; cbv, fun names => ?_, by rw [hs, h₀]; cbv⟩
    have hnone := (ht.child?_eq_none_iff hd).mp hc
    rw [htree, (ht.attach hd hc).kindAt_remove hl, hseg, ht.kindAt_attach hd hc]
    split
    · rename_i hpre
      by_contra hk
      exact ht.kindAt_ne_none_of_prefix hpre (Ne.symm hk) hnone
    · rename_i hpre
      refine Function.update_of_ne ?_ _ _
      rintro rfl
      exact hpre List.prefix_rfl
  refine ⟨s, s₀, h₀, hs, hlook, by rw [hs, h₀]; cbv, by rw [h₀]; cbv, fun cs => ?_⟩
  exact (executeAll_of_looksLike ⟨_, .withHome "guest", _, h₀ ▸ hs⟩
    ⟨_, .withHome "guest", [], h₀⟩ hlook _ cs).1

end Command

end TreeShell
