import TreeShell.Proofs.Session.Placing
import TreeShell.Session.Bootstrap

/-! A manifest is carried out exactly where it is consistent, and the tree is then the one that
it describes. After each entry the tree is the one that the entries so far describe; an entry is
refused exactly where it does not go together with those before it. -/

namespace TreeShell

namespace KindMap

variable {k : KindMap} {key names : List String}

theorem withDirectories_eq_directory_iff (hb : ¬ k.Blocks names) :
    k.withDirectories names key = some .directory ↔
      key <+: names ∨ k key = some .directory := by
  by_cases hp : key <+: names
  · simp [withDirectories_above hb hp, hp]
  · simp [withDirectories_elsewhere hp, hp]

theorem withDirectories_eq_file_iff {content : Content} :
    k.withDirectories names key = some (.file content) ↔ k key = some (.file content) := by
  rw [withDirectories]
  split
  · rename_i h
    simp [h.2]
  · rfl

end KindMap

open KindMap

theorem prefix_dropLast_iff {α : Type} {l names : List α} (hn : names ≠ []) :
    l <+: names.dropLast ↔ l <+: names ∧ l ≠ names := by
  obtain ⟨front, name, rfl⟩ := (List.eq_nil_or_concat names).resolve_left hn
  rw [List.concat_eq_append, List.dropLast_concat, List.prefix_concat_iff]
  constructor
  · intro hp
    refine ⟨.inr hp, ?_⟩
    rintro rfl
    simpa using hp.length_le
  · rintro ⟨rfl | hp, hne⟩
    · exact absurd rfl hne
    · exact hp

theorem Tree.kindAt_empty (names : List String) :
    Tree.empty.kindAt names = if names = [] then some .directory else none := by
  cases names with
  | nil => rfl
  | cons name names =>
    simp [kindAt, walk, walkFrom, entries?, node?, Tree.empty, root, Node.entries?]

namespace ManifestFile

variable {fetch : Fetcher} {f : ManifestFile}

theorem load_eq_ok_iff {content : Content} :
    f.load fetch = .ok content ↔ f.Asks fetch content := by
  obtain ⟨path, source, text⟩ := f
  constructor
  · intro hl
    cases source with
    | some source =>
      cases hf : fetch source with
      | ok bytes =>
        simp only [load, hf, Except.ok.injEq] at hl
        exact hl ▸ .fetched hf
      | error e => simp [load, hf] at hl
    | none =>
      cases text with
      | some text => exact Except.ok.inj hl ▸ .inline
      | none => exact Except.ok.inj hl ▸ .nothing
  · rintro (hf | _ | _)
    · simp [load, hf]
    · rfl
    · rfl

theorem exists_asks_iff : (∃ content, f.Asks fetch content) ↔
    ∀ source ∈ f.source, ∃ bytes, fetch source = .ok bytes := by
  obtain ⟨path, source, text⟩ := f
  constructor
  · rintro ⟨content, ha⟩ source hs
    cases ha with
    | fetched hf => exact Option.some.inj hs ▸ ⟨_, hf⟩
    | inline => cases hs
    | nothing => cases hs
  · intro hs
    cases source with
    | some source =>
      obtain ⟨bytes, hf⟩ := hs source rfl
      exact ⟨_, .fetched hf⟩
    | none =>
      cases text with
      | some text => exact ⟨_, .inline⟩
      | none => exact ⟨_, .nothing⟩

theorem Asks.unique {a b : Content} (ha : f.Asks fetch a) (hb : f.Asks fetch b) : a = b :=
  Except.ok.inj ((load_eq_ok_iff.mpr ha).symm.trans (load_eq_ok_iff.mpr hb))

end ManifestFile

namespace Manifest

variable {user : String} {fetch : Fetcher} {m : Manifest} {k : KindMap} {names : List String}
  {directories : List String} {files : List ManifestFile} {path : String} {f : ManifestFile}

theorem exists_fileAt? (hf : f ∈ m.files) : ∃ g, m.fileAt? user (place user f.path) = some g := by
  refine Option.ne_none_iff_exists'.mp fun hn => ?_
  have hnil := List.filter_eq_nil_iff.mp (List.getLast?_eq_none_iff.mp hn) f hf
  exact hnil (decide_eq_true rfl)

theorem mem_of_fileAt? (hf : m.fileAt? user names = some f) :
    f ∈ m.files ∧ place user f.path = names := by
  simpa using List.mem_of_getLast? hf

theorem fileAt?_concat : fileAt? ⟨directories, files ++ [f]⟩ user names =
    if place user f.path = names then some f else fileAt? ⟨directories, files⟩ user names := by
  rw [fileAt?, fileAt?, List.filter_append]
  split <;> simp_all

theorem mem_directoryPlaces_concat :
    names ∈ directoryPlaces ⟨directories ++ [path], files⟩ user ↔
      names = place user path ∨ names ∈ directoryPlaces ⟨directories, files⟩ user := by
  simp only [directoryPlaces, List.map_append, List.mem_cons, List.mem_append, List.map_cons,
    List.map_nil, List.not_mem_nil, or_false]
  tauto

namespace Describes

variable (hk : m.Describes user fetch k)
include hk

theorem blocks_iff (hf : ∀ f ∈ m.files, ∀ source ∈ f.source, ∃ bytes, fetch source = .ok bytes) :
    Blocks k names ↔ ∃ f ∈ m.files, place user f.path <+: names := by
  constructor
  · rintro ⟨first, content, hp, hfirst⟩
    obtain ⟨f, hat, -⟩ := (hk.file_iff first content).mp hfirst
    obtain ⟨hmem, rfl⟩ := mem_of_fileAt? hat
    exact ⟨f, hmem, hp⟩
  · rintro ⟨f, hmem, hp⟩
    obtain ⟨g, hat⟩ := exists_fileAt? hmem
    obtain ⟨content, ha⟩ := ManifestFile.exists_asks_iff.mpr (hf g (mem_of_fileAt? hat).1)
    exact ⟨_, content, hp, (hk.file_iff _ _).mpr ⟨g, hat, ha⟩⟩

/-- A place admits a file if no directory is wanted there or below, and no file elsewhere is on
the way to it or has it on its way. -/
theorem admits_iff (hc : m.Consistent user fetch) : Admits k names ↔
    (∀ dir ∈ m.directoryPlaces user, ¬ names <+: dir) ∧
      ∀ f ∈ m.files, (names <+: place user f.path → names = place user f.path) ∧
        (place user f.path <+: names → place user f.path = names) := by
  have hdir : k names ≠ some .directory ↔ (∀ dir ∈ m.directoryPlaces user, ¬ names <+: dir) ∧
      ∀ f ∈ m.files, names <+: place user f.path → names = place user f.path := by
    simp only [ne_eq, hk.directory_iff, not_or, not_exists, not_and, not_not]
  rw [Admits, hdir, hk.blocks_iff hc.fetches]
  by_cases hn : names = []
  · have hhome : Session.homeNames user ∈ m.directoryPlaces user := List.mem_cons_self ..
    simp only [hn]
    exact iff_of_false (fun h => h.2.1 _ hhome List.nil_prefix)
      fun h => h.1 _ hhome List.nil_prefix
  · simp only [prefix_dropLast_iff hn, not_exists, not_and, ne_eq, not_not, imp_and, forall_and]
    tauto

omit hk in
theorem concat_directory (hk : Describes ⟨directories, []⟩ user fetch k) (path : String) :
    ¬ Blocks k (place user path) ∧
      Describes ⟨directories ++ [path], []⟩ user fetch (withDirectories k (place user path)) := by
  have hb : ¬ Blocks k (place user path) := by simp [hk.blocks_iff]
  refine ⟨hb, fun names => ?_, fun names content => ?_⟩
  · rw [withDirectories_eq_directory_iff hb, hk.directory_iff]
    simp only [mem_directoryPlaces_concat, or_and_right, exists_or, exists_eq_left]
    exact or_assoc.symm
  · rw [withDirectories_eq_file_iff, hk.file_iff]
    rfl

omit hk in
theorem concat_file {content : Content}
    (hk : Describes ⟨directories, files⟩ user fetch k) (ha : f.Asks fetch content)
    (hm : Admits k (place user f.path)) :
    Describes ⟨directories, files ++ [f]⟩ user fetch (withFile k (place user f.path) content) := by
  have hne : place user f.path ≠ [] := by
    intro he
    refine hm.2 (he ▸ (hk.directory_iff []).mpr (.inl ?_))
    exact ⟨_, List.mem_cons_self .., List.nil_prefix⟩
  constructor
  · intro names
    by_cases hn : names = place user f.path
    · rw [hn, withFile, Function.update_self]
      refine iff_of_false (by simp) ?_
      rintro (⟨dir, hdir, hp⟩ | ⟨g, hg, hp, hne'⟩)
      · exact hm.2 ((hk.directory_iff _).mpr (.inl ⟨dir, hdir, hp⟩))
      · obtain hg | hg := List.mem_append.mp hg
        · exact hm.2 ((hk.directory_iff _).mpr (.inr ⟨g, hg, hp, hne'⟩))
        · exact hne' (by rw [List.mem_singleton.mp hg])
    · rw [withFile, Function.update_of_ne hn, withDirectories_eq_directory_iff hm.1,
        prefix_dropLast_iff hne, hk.directory_iff]
      simp only [directoryPlaces, List.mem_append, List.mem_singleton, or_and_right, exists_or,
        exists_eq_left]
      exact or_comm.trans or_assoc
  · intro names content'
    by_cases hn : names = place user f.path
    · rw [hn, withFile, Function.update_self, fileAt?_concat, if_pos rfl]
      constructor
      · intro he
        obtain rfl : content = content' := by simpa using he
        exact ⟨f, rfl, ha⟩
      · rintro ⟨g, hg, hg'⟩
        obtain rfl := Option.some.inj hg
        rw [ha.unique hg']
    · rw [withFile, Function.update_of_ne hn, withDirectories_eq_file_iff, hk.file_iff,
        fileAt?_concat, if_neg (Ne.symm hn)]

end Describes

namespace Consistent

theorem of_subset {m' : Manifest} (hc : m'.Consistent user fetch)
    (hd : m.directories ⊆ m'.directories) (hf : m.files ⊆ m'.files) :
    m.Consistent user fetch where
  directories_ne path hp := hc.directories_ne path (hd hp)
  lastPart_ne f hm := hc.lastPart_ne f (hf hm)
  apart f hm names hn :=
    hc.apart f (hf hm) names (List.cons_subset_cons _ (List.map_subset _ hd) hn)
  level f hm g hg := hc.level f (hf hm) g (hf hg)
  fetches f hm := hc.fetches f (hf hm)

/-- One file more goes together with a manifest that is carried out, if its last part is a name,
its place admits it, and its content can be had. -/
theorem concat_iff (hc : Consistent ⟨directories, files⟩ user fetch)
    (hk : Describes ⟨directories, files⟩ user fetch k) :
    Consistent ⟨directories, files ++ [f]⟩ user fetch ↔
      (Path.lastPart f.path ∉ ["", ".", ".."] ∧ Admits k (place user f.path)) ∧
        ∃ content, f.Asks fetch content := by
  rw [hk.admits_iff hc, ManifestFile.exists_asks_iff]
  have hf : f ∈ files ++ [f] := List.mem_concat_self
  have hold : ∀ g ∈ files, g ∈ files ++ [f] := fun g hg => List.mem_append_left _ hg
  constructor
  · intro h
    exact ⟨⟨h.lastPart_ne f hf, h.apart f hf, fun g hg =>
      ⟨h.level f hf g (hold g hg), h.level g (hold g hg) f hf⟩⟩, h.fetches f hf⟩
  · rintro ⟨⟨hlast, hdirs, hfiles⟩, hfetch⟩
    refine ⟨hc.directories_ne, ?_, ?_, ?_, ?_⟩
    · exact List.forall_mem_append.mpr ⟨hc.lastPart_ne, by simpa using hlast⟩
    · exact List.forall_mem_append.mpr ⟨hc.apart, List.forall_mem_singleton.mpr hdirs⟩
    · refine List.forall_mem_append.mpr ⟨fun g hg => ?_, ?_⟩
      · exact List.forall_mem_append.mpr ⟨hc.level g hg, by simpa using (hfiles g hg).2⟩
      · simp only [List.mem_singleton, forall_eq]
        exact List.forall_mem_append.mpr ⟨fun g hg => (hfiles g hg).1, by simp⟩
    · exact List.forall_mem_append.mpr ⟨hc.fetches, by simpa using hfetch⟩

end Consistent

end Manifest

namespace Session

open Manifest

variable {user : String} {fetch : Fetcher} {directories : List String}

theorem placeDirectories_cases {s : Session} (h : AtHome s user)
    (hk : Describes ⟨directories, []⟩ user fetch s.tree.kindAt) (paths : List String) :
    (∀ path ∈ paths, path ≠ "") ∧ (∃ u, s.placeDirectories paths = .ok u ∧ AtHome u user ∧
      Describes ⟨directories ++ paths, []⟩ user fetch u.tree.kindAt) ∨
    ¬ (∀ path ∈ paths, path ≠ "") ∧ ∃ e, s.placeDirectories paths = .error e := by
  induction paths generalizing s directories with
  | nil => exact .inl ⟨by simp, s, rfl, h, by simpa using hk⟩
  | cons path paths ih =>
    rw [placeDirectories]
    by_cases hp : path = ""
    · exact .inr ⟨by simp [hp], .conflict (.noSuchFileOrDirectory path),
        by simp [hp, makeDirectories]⟩
    · obtain ⟨hb, hk'⟩ := hk.concat_directory path
      rw [← h.segments_eq] at hb hk'
      obtain ⟨hb', -⟩ | ⟨-, tree, hm, hg, htree⟩ := makeDirectories_cases h.sound.linked hp
      · exact absurd hb' hb
      · rw [← htree] at hk'
        have hrest := ih (h.grown hg) hk'
        rw [hm]
        simpa [hp] using hrest

theorem placeFiles_cases {s : Session} (h : AtHome s user) {done : List ManifestFile}
    (hc : Consistent ⟨directories, done⟩ user fetch)
    (hk : Describes ⟨directories, done⟩ user fetch s.tree.kindAt) (files : List ManifestFile) :
    Consistent ⟨directories, done ++ files⟩ user fetch ∧
      (∃ u, s.placeFiles fetch files = .ok u ∧ AtHome u user ∧
        Describes ⟨directories, done ++ files⟩ user fetch u.tree.kindAt) ∨
    ¬ Consistent ⟨directories, done ++ files⟩ user fetch ∧
      ∃ e, s.placeFiles fetch files = .error e := by
  induction files generalizing s done with
  | nil => exact .inl ⟨by simpa using hc, s, rfl, h, by simpa using hk⟩
  | cons f files ih =>
    have happend : done ++ f :: files = (done ++ [f]) ++ files := by simp
    rw [happend, placeFiles]
    by_cases hcf : Consistent ⟨directories, done ++ [f]⟩ user fetch
    · obtain ⟨hadmits, content, ha⟩ := (hc.concat_iff hk).mp hcf
      rw [ManifestFile.load_eq_ok_iff.mpr ha]
      obtain ⟨-, tree, hp, hg, htree⟩ | ⟨hn, -⟩ := h.placeFile_cases f.path content
      · have hk' := Describes.concat_file hk ha hadmits.2
        rw [← htree] at hk'
        dsimp only
        rw [hp]
        exact ih (h.grown hg) hcf hk'
      · exact absurd hadmits hn
    · refine .inr ⟨fun hall => hcf (hall.of_subset (List.Subset.refl _)
        (List.subset_append_left _ _)), ?_⟩
      cases hl : f.load fetch with
      | error e => exact ⟨e, rfl⟩
      | ok content =>
        obtain ⟨hadmits, -⟩ | ⟨-, e, u, hp⟩ := h.placeFile_cases f.path content
        · have ha := ManifestFile.load_eq_ok_iff.mp hl
          exact absurd ((hc.concat_iff hk).mpr ⟨hadmits, content, ha⟩) hcf
        · exact ⟨.conflict e, by simp only [hp]⟩

theorem withHome_atHome (user : String) : AtHome (withHome user) user where
  sound := withHome_sound user
  user_eq := by
    unfold withHome
    split <;> rfl
  cwd_eq := by
    unfold withHome
    split <;> rfl

theorem tree_withHome (user : String) :
    (withHome user).tree = (Tree.empty.createDirectories (homeNames user)).2 := by
  unfold withHome
  split <;> (rename_i he; rw [he])

theorem kindAt_withHome (user : String) :
    (withHome user).tree.kindAt = withDirectories Tree.empty.kindAt (homeNames user) := by
  obtain ⟨⟨first, content, hf, -, hk⟩, -⟩ | ⟨-, d, hd⟩ :=
    Tree.Linked.empty.createDirectories_cases (homeNames user)
  · simp [Tree.kindAt_empty, hf] at hk
  · funext key
    rw [tree_withHome, Tree.Linked.empty.kindAt_createDirectories hd, withDirectories]

theorem withHome_describes (user : String) (fetch : Fetcher) :
    Describes ⟨[], []⟩ user fetch (withHome user).tree.kindAt := by
  rw [kindAt_withHome]
  have hb : ¬ Blocks Tree.empty.kindAt (homeNames user) := by
    rintro ⟨first, content, -, hk⟩
    rw [Tree.kindAt_empty] at hk
    split at hk <;> cases hk
  refine ⟨fun names => ?_, fun names content => ?_⟩
  · rw [withDirectories_eq_directory_iff hb, Tree.kindAt_empty]
    by_cases hn : names = []
    · simp [hn, directoryPlaces]
    · simp [hn, directoryPlaces]
  · rw [withDirectories_eq_file_iff, Tree.kindAt_empty]
    simp [fileAt?]

theorem bootstrap_cases (m : Manifest) (user : String) (fetch : Fetcher) :
    m.Consistent user fetch ∧ (∃ s, bootstrap m user fetch = .ok s ∧ AtHome s user ∧
      m.Describes user fetch s.tree.kindAt) ∨
    ¬ m.Consistent user fetch ∧ ∃ e, bootstrap m user fetch = .error e := by
  obtain ⟨directories, files⟩ := m
  rw [bootstrap]
  obtain ⟨hd, s, hp, h, hk⟩ | ⟨hd, e, hp⟩ :=
    placeDirectories_cases (withHome_atHome user) (withHome_describes user fetch) directories
  · have hc : Consistent ⟨directories, []⟩ user fetch := ⟨hd, by simp, by simp, by simp, by simp⟩
    simp only [hp]
    exact placeFiles_cases h hc hk files
  · exact .inr ⟨fun hc => hd hc.directories_ne, e, by simp only [hp]⟩

end Session

end TreeShell
