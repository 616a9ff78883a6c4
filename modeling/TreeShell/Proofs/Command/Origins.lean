import TreeShell.Proofs.Command.Frame
import TreeShell.Proofs.Command.Operations
import TreeShell.Proofs.Command.PrintedPaths
import TreeShell.Proofs.Command.Redirects
import TreeShell.Proofs.Manifest.Bootstrap
import TreeShell.Proofs.Session.Origins

/-! How a file is opened after a run of commands. What set its content last decides, back to the
manifest that the tree began with: a download is opened at its source, and all else as the bytes
that are there. -/

namespace TreeShell

/-- How the host is to open a file of this name with this content. -/
def Content.request (name : String) : Content → OpenRequest
  | .own bytes => .blob name (.ofList (Text.base64 bytes))
  | .fetched _ source => .url source

theorem Content.request_eq_url_iff {name url : String} {content : Content} :
    content.request name = .url url ↔ content.source? = some url := by
  cases content <;> simp [request, source?]

theorem Content.request_of_source?_eq_none {content : Content} (hc : content.source? = none)
    (name : String) : content.request name = .blob name (.ofList (Text.base64 content.bytes)) := by
  cases content with
  | own bytes => rfl
  | fetched bytes source => cases hc

theorem ManifestFile.Asks.source?_eq {fetch : Fetcher} {f : ManifestFile} {content : Content}
    (h : f.Asks fetch content) : content.source? = f.source := by
  cases h <;> rfl

namespace Session

variable {s : Session} {path : String} {h : Handle} {content : Content}

theorem openRequest_of_content (hr : s.resolve path = .ok h)
    (hc : s.tree.content? h = some content) : ∃ n, s.tree.node? h = some n ∧
      s.openRequest path = .ok (content.request n.name) := by
  obtain ⟨n, hn, hc⟩ := Option.bind_eq_some_iff.mp hc
  refine ⟨n, hn, ?_⟩
  obtain ⟨name, parent, entries | old⟩ := n
  · cases hc
  · obtain rfl := Option.some.inj hc
    cases old <;> simp [openRequest, hr, hn, Content.request]

theorem Sound.ages_run (hs : s.Sound) (ops : List Operation) :
    Tree.Ages s.tree (Session.run ops s).tree := by
  induction ops generalizing s with
  | nil => exact .refl s.tree
  | cons op ops ih =>
    have hrest := ih (hs.run [op]).1
    obtain he | ⟨-, hc⟩ := op.run_cases hs.linked
    · have hfirst : Tree.Ages s.tree (op.run s).2.tree := by rw [he]; exact .refl s.tree
      exact hfirst.trans hrest
    · exact (hc.step.ages hs).trans hrest

theorem Sound.resolve_of_grows (hs : s.Sound) {tree : Tree} (hg : Tree.Grows s.tree tree)
    (hr : s.resolve path = .ok h) : resolve { s with tree } path = .ok h := by
  have hp := ne_empty_of_resolve hr
  have ht' : tree.Linked := hg.leads.linked hs.linked
  obtain ⟨hw, hd⟩ := (resolve_eq_ok_iff hs.linked hp).mp hr
  obtain ⟨⟨link, hl⟩, hseg⟩ := hs.linked.segmentsOf_of_walk hw
  have hl' := (hg.link? hl).1
  refine (resolve_eq_ok_iff (s := { s with tree }) ht' hp).mpr
    ⟨?_, fun hslash => hg.isDirectory (hd hslash)⟩
  rw [hs.segments_of_grows hg, ht'.walk_eq_ok_iff]
  exact ⟨⟨link, hl'⟩, by rw [hs.linked.segmentsOf_of_ages ht' (hg.leads.ages hs.linked) hl hl', hseg]⟩

/-- A file that is there is opened as it is. -/
theorem createOrOpen_of_file (hs : s.tree.Linked) (hr : s.resolve path = .ok h)
    (hc : s.tree.content? h = some content) : s.createOrOpen path = (.ok h, s) := by
  have hp := ne_empty_of_resolve hr
  obtain ⟨hw, hd⟩ := (resolve_eq_ok_iff hs hp).mp hr
  have hl := (locate_eq_existing_iff hs hp).mpr hw
  have hslash : Path.endsInSlash path = false := by
    refine Bool.eq_false_iff.mpr fun hslash => ?_
    have hk := Tree.isDirectory_iff_kind?.mp (hd hslash)
    rw [Tree.content?_eq_some_iff.mp hc] at hk
    cases hk
  simp [createOrOpen, locateFile, hl, hslash, hc]

/-- A redirect that adds nothing to a file makes its bytes the user's own. -/
theorem Sound.receive_nothing (hs : s.Sound) {r : Redirect} (hm : r.mode = .append)
    (hr : s.resolve r.target = .ok h) (hc : s.tree.content? h = some content) :
    (r.receive [] s).2.tree.content? h = some (.own content.bytes) ∧
      (r.receive [] s).2.resolve r.target = .ok h := by
  have hrun : (r.receive [] s).2 =
      { s with tree := s.tree.modifyContent h (.receive .append []) } := by
    rw [Redirect.receive, modifyFile, createOrOpen_of_file hs.linked hr hc, hm]
  have hk := Tree.content?_eq_some_iff.mp hc
  rw [hrun]
  refine ⟨?_, hs.resolve_of_grows (s.tree.grows_modifyContent h _) hr⟩
  rw [Tree.content?_eq_some_iff, Tree.kind?_modifyContent, if_pos rfl, hk]
  simp [Kind.mapContent, Content.receive, Content.append]

end Session

open Session

theorem owns_of_mem_downloads {fetch : Fetcher} {urls : List String} {op : Operation}
    (h : op ∈ downloads fetch urls) : op.Owns := by
  induction urls with
  | nil => cases h
  | cons url urls ih =>
    unfold downloads at h
    split at h
    · cases h
    · rcases List.mem_cons.mp h with rfl | h
      · trivial
      · exact ih h

theorem Verb.owns_of_mem_operations (v : Verb) {fetch : Fetcher} {flags : List Flag}
    {args : List String} {op : Operation} (h : op ∈ v.operations fetch flags args) : op.Owns := by
  cases v with
  | pwd | echo | clear | cat | xdgOpen | ls => cases h
  | cd =>
    unfold operations at h
    dsimp only at h
    split at h
    · cases h
    · rw [List.mem_singleton.mp h]
      trivial
  | mkdir | touch | rm =>
    obtain ⟨path, -, rfl⟩ := List.mem_map.mp h
    trivial
  | wget => exact owns_of_mem_downloads h

namespace Command

variable {c : Command} {fetch : Fetcher} {s t : Session}

theorem owns_of_mem_verbOperations {op : Operation} (h : op ∈ c.verbOperations fetch s) :
    op.Owns := by
  unfold verbOperations at h
  split at h
  · cases h
  · rename_i v _
    split at h
    · cases h
    · split at h
      · cases h
      · exact v.owns_of_mem_operations (mem_of_mem_tried h)

theorem owns_of_mem_operations {op : Operation} (h : op ∈ c.operations fetch s) : op.Owns := by
  unfold operations at h
  split at h
  · cases h
  · rcases List.mem_append.mp h with h | h
    · exact owns_of_mem_verbOperations h
    · obtain ⟨r, -, rfl⟩ := List.mem_map.mp (mem_of_mem_tried h)
      exact Content.source?_receive r.mode _

theorem owns_of_mem_operationsAll {op : Operation} {cs : List Command}
    (h : op ∈ operationsAll fetch cs s) : op.Owns := by
  induction cs generalizing s with
  | nil => cases h
  | cons c cs ih =>
    rcases List.mem_append.mp h with h | h
    · exact owns_of_mem_operations h
    · exact ih h

/-- Where a redirect has its turn, operations led there. -/
theorem sound_of_turn (hs : s.Sound) {data : List UInt8} {r : Redirect}
    (ht : Turn (Redirect.receive data) c.redirects (c.runVerb fetch s).2 r t) : t.Sound := by
  obtain ⟨earlier, later, answers, -, he⟩ := ht
  have hrun : Session.run (tried (earlier.map fun r =>
      .modifyFile r.target (.receive r.mode data)) (c.runVerb fetch s).2) (c.runVerb fetch s).2 =
      (forEach (Redirect.receive data) earlier (c.runVerb fetch s).2).2 :=
    run_tried_map (fun _ _ => rfl) earlier _
  rw [he, ← run_verbOperations] at hrun
  have ht : t = Session.run _ _ := hrun.symm
  rw [ht]
  exact ((hs.run _).1.run _).1

theorem redirected_of_error {message : String}
    (h : (c.runVerb fetch s).1.output = .error message) : c.redirected fetch s = [] := by
  rw [redirected, h]
  rfl

/-- A file that no redirect opens is opened as before, wherever it is found. -/
theorem openRequest_execute (hs : s.Sound) {h : Handle} {content : Content}
    (hc : s.tree.content? h = some content)
    (hlive : ((c.execute fetch s).2.tree.node? h).isSome) (ho : ¬ c.Opens fetch s h) :
    ∀ path path', s.resolve path = .ok h → (c.execute fetch s).2.resolve path' = .ok h →
      (c.execute fetch s).2.openRequest path' = s.openRequest path := by
  intro path path' hr hr'
  obtain ⟨-, hf⟩ := @frame_execute c fetch s hs
  obtain ⟨link', hl'⟩ := Tree.isSome_node?_iff.mp hlive
  have hk' := (hf.kind_eq (Tree.content?_eq_some_iff.mp hc) hl').resolve_left ho
  obtain ⟨n, hn, hreq⟩ := openRequest_of_content hr hc
  obtain ⟨n', hn', hreq'⟩ := openRequest_of_content hr' (Tree.content?_eq_some_iff.mpr hk')
  have hl : s.tree.link? h = some n.link := by rw [Tree.link?, hn, Option.map_some]
  have hl' : (c.execute fetch s).2.tree.link? h = some n'.link := by
    rw [Tree.link?, hn', Option.map_some]
  have hname : n'.name = n.name := (Prod.mk.inj (hf.ages.link_eq hl hl').1).1
  rw [hreq, hreq', hname]

theorem isSome_node?_execute (hs : s.Sound) (hn : c.name ≠ "rm") {h : Handle}
    (hlive : (s.tree.node? h).isSome) : ((c.execute fetch s).2.tree.node? h).isSome := by
  obtain ⟨-, hf⟩ := @frame_execute c fetch s hs
  obtain ⟨link, hl⟩ := Tree.isSome_node?_iff.mp hlive
  rcases hf.stays hl with ⟨_, _, _, _, hrm, _⟩ | hl'
  · exact absurd hrm.1 hn
  · exact Tree.isSome_node?_iff.mpr ⟨link, hl'⟩

/-- A file that is still as the manifest made it tells the source that the manifest has for its
place. -/
theorem source?_iff_of_describes {m : Manifest} {user : String} {boot : Fetcher} {t₀ t : Tree}
    (ht₀ : t₀.Linked) (ht : t.Linked) (ha : Tree.Ages t₀ t)
    (hd : m.Describes user boot t₀.kindAt) {h : Handle} {content : Content}
    (hold : t₀.content? h = some content) (hc : t.content? h = some content) {url : String} :
    content.source? = some url ↔
      ∃ f, m.fileAt? user (t.segmentsOf h) = some f ∧ f.source = some url := by
  have hk := Tree.content?_eq_some_iff.mp hold
  obtain ⟨link, hl⟩ := Tree.exists_kind?_iff.mp ⟨_, hk⟩
  obtain ⟨link', hl'⟩ := Tree.exists_kind?_iff.mp ⟨_, Tree.content?_eq_some_iff.mp hc⟩
  rw [ht₀.segmentsOf_of_ages ht ha hl hl']
  obtain ⟨f, hf, hasks⟩ := (hd.file_iff _ content).mp ((ht₀.kindAt_segmentsOf hl).trans hk)
  rw [hf, hasks.source?_eq]
  simp

/-- What set a file's content last, operation by operation of a run of commands, decides how the
file is opened: at the source of a download, or of the manifest's last file at its place where
nothing since has set the content, and else under its name as the bytes it has. Only a removal
and a redirect that opens the file can change this, and a redirect in append mode that has
nothing to add, as behind a failing verb, keeps the bytes but not the source. -/
theorem openRequest_tells_origin {m : Manifest} {user : String} {boot : Fetcher} {s₀ : Session}
    (h₀ : bootstrap m user boot = .ok s₀ ∨ m = ⟨[], []⟩ ∧ s₀ = withHome user) (fetch : Fetcher)
    (cs : List Command) :
    let s := (executeAll fetch cs s₀).2
    let record := settings (operationsAll fetch cs s₀) s₀
    Session.run (operationsAll fetch cs s₀) s₀ = s ∧
    (∀ h content, s.tree.content? h = some content →
      (Path.Ordinary user → s.resolve (s.tree.pathOf h) = .ok h) ∧
      ∀ path, s.resolve path = .ok h →
        (∀ url, s.openRequest path = .ok (.url url) ↔
          lastOrigin? record h = some (.downloaded url) ∨ lastOrigin? record h = none ∧
            ∃ f, m.fileAt? user (s.tree.segmentsOf h) = some f ∧ f.source = some url) ∧
        ((∀ url, s.openRequest path ≠ .ok (.url url)) → ∃ n, s.tree.node? h = some n ∧
          s.openRequest path = .ok (.blob n.name (.ofList (Text.base64 content.bytes))))) ∧
    (∀ (c : Command) h content, s.tree.content? h = some content →
      (c.name ≠ "rm" → ((c.execute fetch s).2.tree.node? h).isSome) ∧
      (((c.execute fetch s).2.tree.node? h).isSome → ¬ c.Opens fetch s h → ∀ path path',
        s.resolve path = .ok h → (c.execute fetch s).2.resolve path' = .ok h →
          (c.execute fetch s).2.openRequest path' = s.openRequest path)) ∧
    ∀ c : Command,
      (∀ message, (c.runVerb fetch s).1.output = .error message → c.redirected fetch s = []) ∧
      ∀ r t h content,
        Turn (Redirect.receive (c.redirected fetch s)) c.redirects (c.runVerb fetch s).2 r t →
        c.redirected fetch s = [] → r.mode = .append → t.resolve r.target = .ok h →
        t.tree.content? h = some content →
        (r.receive [] t).2.tree.content? h = some (.own content.bytes) ∧
        ∃ n, (r.receive [] t).2.tree.node? h = some n ∧ (r.receive [] t).2.openRequest r.target =
          .ok (.blob n.name (.ofList (Text.base64 content.bytes))) := by
  intro s record
  have hboot : bootstrap m user boot = .ok s₀ := by
    obtain h₀ | ⟨rfl, rfl⟩ := h₀
    · exact h₀
    · rfl
  have hs₀ : s₀.Sound := (Start.bootstrap hboot).sound
  have hrun : Session.run (operationsAll fetch cs s₀) s₀ = s := run_operationsAll fetch cs s₀
  have hs : s.Sound := hrun ▸ (hs₀.run _).1
  have hages : Tree.Ages s₀.tree s.tree := hrun ▸ hs₀.ages_run _
  have hdescribes : m.Describes user boot s₀.tree.kindAt := by
    obtain ⟨-, u, hu, -, hk⟩ | ⟨-, e, he⟩ := bootstrap_cases m user boot
    · rwa [← Except.ok.inj (hu.symm.trans hboot)]
    · cases hboot.symm.trans he
  refine ⟨hrun, fun h content hc => ⟨fun hu => ?_, fun path hr => ?_⟩,
    fun c h content hc => ⟨fun hn => ?_, openRequest_execute hs hc⟩,
    fun c => ⟨fun message => redirected_of_error, fun r t h content ht _ hm hr hc => ?_⟩⟩
  · obtain ⟨link, hl⟩ := Tree.exists_kind?_iff.mp ⟨_, Tree.content?_eq_some_iff.mp hc⟩
    exact (executeAll_printable fetch cs (bootstrap_printable hu hboot)).resolve_pathOf hl
  · obtain ⟨n, hn, hreq⟩ := openRequest_of_content hr hc
    have hurl : ∀ url, s.openRequest path = .ok (.url url) ↔ content.source? = some url := by
      intro url
      rw [hreq, Except.ok.injEq, Content.request_eq_url_iff]
    have hset := hs₀.content_of_settings (fun op => owns_of_mem_operationsAll) (hrun ▸ hc)
    have hsource : ∀ url, s₀.tree.content? h = some content → (content.source? = some url ↔
        ∃ f, m.fileAt? user (s.tree.segmentsOf h) = some f ∧ f.source = some url) :=
      fun url hold => source?_iff_of_describes hs₀.linked hs.linked hages hdescribes hold hc
    refine ⟨fun url => ?_, fun hno => ⟨n, hn, ?_⟩⟩
    · rw [hurl]
      obtain ⟨o, hlast, ho⟩ | ⟨hlast, hold⟩ := hset
      · rw [hlast, ho, Origin.source?_eq_some_iff]
        simp
      · rw [hlast, hsource url hold]
        simp
    · have hnone : content.source? = none :=
        Option.eq_none_iff_forall_ne_some.mpr fun url he => hno url ((hurl url).mpr he)
      rw [hreq, Content.request_of_source?_eq_none hnone]
  · obtain ⟨link, hl⟩ := Tree.exists_kind?_iff.mp ⟨_, Tree.content?_eq_some_iff.mp hc⟩
    exact isSome_node?_execute hs hn (Tree.isSome_node?_iff.mpr ⟨link, hl⟩)
  · obtain ⟨hown, hres⟩ := (sound_of_turn hs ht).receive_nothing hm hr hc
    exact ⟨hown, openRequest_of_content hres hown⟩

/-- A file of the manifest and a download beside it, which a failing command's redirect makes
the user's own. -/
theorem openRequest_tells_origin_guest : ∃ (s₀ : Session) (fetch : Fetcher) (wget no : Command),
    bootstrap ⟨[], [⟨"~/m", some "src", none⟩]⟩ "guest" (.ofList [("src", .ok [7])]) = .ok s₀ ∧
    fetch = .ofList [("h/a", .ok [104, 105])] ∧ wget = ⟨"wget", [], [], ["h/a"], []⟩ ∧
    no = ⟨"no", [], [], [], [⟨"a", .append⟩]⟩ ∧
    openRequest "m" (executeAll fetch [wget] s₀).2 = .ok (.url "src") ∧
    openRequest "a" (executeAll fetch [wget] s₀).2 = .ok (.url "h/a") ∧
    openRequest "a" (executeAll fetch [wget, no] s₀).2 =
      .ok (.blob "a" (.ofList (Text.base64 [104, 105]))) := by
  let s₀ := run [.mkdir "~" true, .modifyFile "~/m" fun _ => .fetched [7] "src"] (withHome "guest")
  have h₀ : bootstrap ⟨[], [⟨"~/m", some "src", none⟩]⟩ "guest" (.ofList [("src", .ok [7])]) =
      .ok s₀ := by decide +kernel
  let fetch : Fetcher := .ofList [("h/a", .ok [104, 105])]
  let wget : Command := ⟨"wget", [], [], ["h/a"], []⟩
  let no : Command := ⟨"no", [], [], [], [⟨"a", .append⟩]⟩
  obtain ⟨-, hone, -⟩ := openRequest_tells_origin (.inl h₀) fetch [wget]
  obtain ⟨-, htwo, -⟩ := openRequest_tells_origin (.inl h₀) fetch [wget, no]
  refine ⟨s₀, fetch, wget, no, h₀, rfl, rfl, rfl, ?_, ?_, ?_⟩
  · exact (((hone 3 (.fetched [7] "src") (by decide +kernel)).2 "m" (by decide +kernel)).1
      "src").mpr (.inr ⟨by decide +kernel, ⟨"~/m", some "src", none⟩, by decide +kernel, rfl⟩)
  · exact (((hone 4 (.fetched [104, 105] "h/a") (by decide +kernel)).2 "a"
      (by decide +kernel)).1 "h/a").mpr (.inl (by decide +kernel))
  · obtain ⟨hurl, hblob⟩ := (htwo 4 (.own [104, 105]) (by decide +kernel)).2 "a" (by decide +kernel)
    have hlast : lastOrigin? (settings (operationsAll fetch [wget, no] s₀) s₀) 4 =
        some .redirected := by decide +kernel
    obtain ⟨n, hn, hreq⟩ := hblob fun url he => by
      rcases (hurl url).mp he with he | ⟨he, -⟩ <;> simp [hlast] at he
    have hname : ((executeAll fetch [wget, no] s₀).2.tree.node? 4).map Node.name = some "a" := by
      decide +kernel
    rw [hn] at hname
    rw [hreq, Option.some.inj hname]
    rfl

end Command

end TreeShell
