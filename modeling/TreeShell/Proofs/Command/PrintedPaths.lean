import TreeShell.Proofs.Command.Effects
import TreeShell.Proofs.Session.Names

/-! Commands keep the names of entries ordinary, so that every path which is printed in a
session leads back to the node it was printed for. -/

namespace TreeShell

namespace Session

theorem Operation.Builds.keepsNames {op : Operation} (h : op.Builds) : op.KeepsNames := by
  cases op with
  | saveDownload => exact h.elim
  | _ => trivial

theorem withHome_printable {user : String} (hu : Path.Ordinary user) :
    (withHome user).Printable :=
  ⟨withHome_sound user, withHome_named hu⟩

theorem bootstrap_printable {manifest : Manifest} {user : String} {fetch : Fetcher} {s : Session}
    (hu : Path.Ordinary user) (h : bootstrap manifest user fetch = .ok s) : s.Printable :=
  (built_of_bootstrap h).preserves (fun _ hop _ ht => Operation.run_printable hop.keepsNames ht)
    (withHome_printable hu)

end Session

open Session

namespace Command

theorem Tries.keepsNames {c : Command} {fetch : Fetcher} {s t : Session} {op : Operation}
    (h : c.Tries fetch s op t) : op.KeepsNames := by
  cases h with
  | save => exact (Download.nameOf_usable _).toOrdinary
  | _ => trivial

theorem executeAll_printable (fetch : Fetcher) (cs : List Command) {s : Session}
    (hs : s.Printable) : (executeAll fetch cs s).2.Printable :=
  executeAll_preserves cs hs fun _ _ _ _ hop hu => Operation.run_printable hop.keepsNames hu

/-- However a session of a user with an ordinary name was begun, and whatever was run in it. -/
theorem printable_of_start {user : String} (hu : Path.Ordinary user) {s₀ : Session}
    (h₀ : s₀ = withHome user ∨ ∃ manifest fetch, bootstrap manifest user fetch = .ok s₀)
    (fetch : Fetcher) (cs : List Command) : (executeAll fetch cs s₀).2.Printable := by
  refine executeAll_printable fetch cs ?_
  obtain rfl | ⟨manifest, fetch, h⟩ := h₀
  · exact withHome_printable hu
  · exact bootstrap_printable hu h

/-- Whatever commands are run in a session of a user with an ordinary name: entries have ordinary
names, the path of a node leads to it, going to the directory that is printed changes nothing,
and where the user goes by a path, the names of that path are printed. -/
theorem printed_paths_lead_back {user : String} (hu : Path.Ordinary user) {s₀ : Session}
    (h₀ : s₀ = withHome user ∨ ∃ manifest fetch, bootstrap manifest user fetch = .ok s₀)
    (fetch : Fetcher) (cs : List Command) :
    let s := (executeAll fetch cs s₀).2
    (∀ h n, s.tree.node? h = some n → h ≠ Tree.root → Path.Ordinary n.name) ∧
    (∀ h n, s.tree.node? h = some n → s.resolve (s.tree.pathOf h) = .ok h) ∧
    s.cd (some s.workingPath) = (.ok (), s) ∧ s.cd (some s.displayedPath) = (.ok (), s) ∧
    (s.displayedPath = "~" ↔ s.cwd = s.home) ∧
    ((∃ rest, s.displayedPath.toList = '~' :: '/' :: rest) ↔
      s.tree.contains s.home s.cwd = true ∧ s.cwd ≠ s.home) ∧
    ∀ path, (s.cd (some path)).1 = .ok () →
      (s.cd (some path)).2.workingPath = Path.absolute (s.segments path) := by
  intro s
  have hs₀ : s₀.Printable := by
    obtain rfl | ⟨manifest, fetch, h⟩ := h₀
    · exact withHome_printable hu
    · exact bootstrap_printable hu h
  have hs : s.Printable := executeAll_printable fetch cs hs₀
  have hlink : ∀ {h n}, s.tree.node? h = some n → s.tree.link? h = some n.link :=
    fun hn => by rw [Tree.link?, hn, Option.map_some]
  refine ⟨fun h n hn hroot => ?_, fun h n hn => hs.resolve_pathOf (hlink hn),
    hs.cd_workingPath, hs.cd_displayedPath, hs.displayedPath_eq_tilde_iff,
    hs.displayedPath_below_iff, fun path hp => workingPath_of_cd hs.sound.linked hp⟩
  obtain ⟨p, hp, -, -⟩ := hs.sound.linked.up (hlink hn) hroot
  have hl := hlink hn
  rw [Node.link, hp] at hl
  exact hs.named.ordinary hl

/-- A directory beside home whose name starts with the user's is not shown below home. -/
theorem printed_paths_lead_back_beside_home : ∃ s, s = (executeAll (.ofList [])
      [⟨"mkdir", [], [], ["/home/gb"], []⟩, ⟨"cd", [], [], ["../gb"], []⟩] (withHome "g")).2 ∧
    Path.Ordinary "g" ∧ s.displayedPath = "/home/gb" ∧
    s.cd (some "/home/gb") = (.ok (), s) ∧ ¬ s.tree.contains s.home s.cwd = true := by
  have hu : Path.Ordinary "g" := ⟨by decide, by decide, by decide, by decide⟩
  have hback := printed_paths_lead_back hu (.inl rfl) (.ofList [])
    [⟨"mkdir", [], [], ["/home/gb"], []⟩, ⟨"cd", [], [], ["../gb"], []⟩]
  have hp : (executeAll (.ofList []) [⟨"mkdir", [], [], ["/home/gb"], []⟩,
      ⟨"cd", [], [], ["../gb"], []⟩] (withHome "g")).2.displayedPath = "/home/gb" := by
    cbv
  refine ⟨_, rfl, hu, hp, ?_⟩
  generalize (executeAll (.ofList []) _ (withHome "g")).2 = s at hback hp ⊢
  obtain ⟨-, -, -, hcd, hhome, hbelow, -⟩ := hback
  rw [hp] at hcd hhome hbelow
  refine ⟨hcd, fun hc => ?_⟩
  have hne : s.cwd ≠ s.home := fun he => absurd (hhome.mpr he) (by decide)
  obtain ⟨rest, hr⟩ := hbelow.mpr ⟨hc, hne⟩
  cases hr

end Command

end TreeShell
