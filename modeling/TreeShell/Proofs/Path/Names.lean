import Mathlib
import TreeShell.Proofs.Manifest.Places

/-! Names that a path can give to an entry. A list of them is read back from the text of its
absolute path, and one such text continues another exactly where the names do. -/

namespace TreeShell.Path

/-- A name that stands for an entry and for nothing else, wherever a path has it. -/
structure Ordinary (name : String) : Prop where
  ne_empty : name ≠ ""
  no_slash : '/' ∉ name.toList
  ne_dot : name ≠ "."
  ne_dots : name ≠ ".."

theorem Ordinary.toList_ne_nil {name : String} (h : Ordinary name) : name.toList ≠ [] :=
  fun he => h.ne_empty (String.toList_eq_nil_iff.mp he)

theorem not_mem_of_mem_splitOn {cs piece : List Char} (h : piece ∈ cs.splitOn '/') :
    '/' ∉ piece := by
  induction cs generalizing piece with
  | nil =>
    obtain rfl : piece = [] := by simpa using h
    exact List.not_mem_nil
  | cons c cs ih =>
    rw [List.splitOn, List.splitOnP_cons_eq_if_modifyHead] at h
    split at h
    · rcases List.mem_cons.mp h with rfl | h
      · exact List.not_mem_nil
      · exact ih h
    · rename_i hc
      obtain ⟨first, more, hs⟩ :=
        List.exists_cons_of_ne_nil (List.splitOnP_ne_nil (fun c => c == '/') cs)
      rw [List.splitOn, hs] at ih
      rw [hs, List.modifyHead_cons] at h
      rcases List.mem_cons.mp h with rfl | h
      · have hfirst := ih List.mem_cons_self
        have hne : '/' ≠ c := fun he => hc (beq_iff_eq.mpr he.symm)
        exact List.not_mem_cons_of_ne_of_not_mem hne hfirst
      · exact ih (List.mem_cons_of_mem first h)

theorem mem_components {path part : String} (h : part ∈ components path) :
    part ≠ "" ∧ '/' ∉ part.toList := by
  obtain ⟨cs, hcs, rfl⟩ := List.mem_map.mp h
  obtain ⟨hsplit, hne⟩ := List.mem_filter.mp hcs
  rw [String.toList_ofList]
  refine ⟨fun he => ?_, not_mem_of_mem_splitOn hsplit⟩
  have hnil : cs = [] := by rw [← String.toList_ofList (l := cs), he, String.toList_empty]
  simp [hnil] at hne

section Follow

variable {base names : List String}

theorem follow_ordinary {name : String} (h : Ordinary name) :
    follow base name = base ++ [name] := by
  rw [follow, if_neg h.ne_dots, if_neg h.ne_dot]

theorem foldl_follow_ordinary (h : ∀ name ∈ names, Ordinary name) :
    names.foldl follow base = base ++ names := by
  induction names generalizing base with
  | nil => exact (List.append_nil base).symm
  | cons name names ih =>
    obtain ⟨hname, hnames⟩ := List.forall_mem_cons.mp h
    rw [List.foldl_cons, follow_ordinary hname, ih hnames, List.append_assoc]
    rfl

/-- Paths lead from ordinary names to ordinary names. -/
theorem normalize_ordinary (hb : ∀ name ∈ base, Ordinary name) (path : String) :
    ∀ name ∈ normalize base path, Ordinary name := by
  have hc : ∀ part ∈ components path, part ≠ "" ∧ '/' ∉ part.toList :=
    fun part hp => mem_components hp
  rw [normalize]
  generalize components path = parts at hc
  induction parts generalizing base with
  | nil => exact hb
  | cons part parts ih =>
    obtain ⟨hpart, hparts⟩ := List.forall_mem_cons.mp hc
    refine ih (fun name hn => ?_) hparts
    unfold follow at hn
    split at hn
    · exact hb name (List.mem_of_mem_dropLast hn)
    · rename_i hdots
      split at hn
      · exact hb name hn
      · rename_i hdot
        rcases List.mem_append.mp hn with hn | hn
        · exact hb name hn
        · obtain rfl := List.mem_singleton.mp hn
          exact ⟨hpart.1, hpart.2, hdot, hdots⟩

end Follow

section Absolute

variable {names more : List String}

theorem toList_absolute (names : List String) : (absolute names).toList =
    '/' :: ['/'].intercalate (names.map String.toList) := by
  rw [absolute, String.toList_append, String.toList_intercalate]
  rfl

theorem absolute_append (hn : names ≠ []) (hm : more ≠ []) :
    absolute (names ++ more) = absolute names ++ absolute more := by
  rw [absolute, String.intercalate_append_of_ne_nil hn hm, absolute, absolute]
  simp only [String.append_assoc]

/-- Ordinary names are read back from what follows the first slash of their path. -/
theorem components_intercalate (h : ∀ name ∈ names, Ordinary name) :
    components (.ofList (['/'].intercalate (names.map String.toList))) = names := by
  by_cases hn : names = []
  · rw [hn]
    rfl
  · have hslash : ∀ cs ∈ names.map String.toList, '/' ∉ cs :=
      List.forall_mem_map.mpr fun name hm => (h name hm).no_slash
    have hfull : ∀ cs ∈ names.map String.toList, (!cs.isEmpty) = true :=
      List.forall_mem_map.mpr fun name hm => by simp [(h name hm).toList_ne_nil]
    have hne : names.map String.toList ≠ [] := fun he => hn (List.map_eq_nil_iff.mp he)
    rw [components, String.toList_ofList, List.splitOn_intercalate '/' hslash hne,
      List.filter_eq_self.mpr hfull, List.map_map]
    simp [Function.comp_def]

theorem normalize_absolute (h : ∀ name ∈ names, Ordinary name) (base : List String) :
    ∃ rest, (absolute names).toList = '/' :: rest ∧
      normalize base (.ofList rest) = base ++ names := by
  refine ⟨_, toList_absolute names, ?_⟩
  rw [normalize, components_intercalate h, foldl_follow_ordinary h]

theorem absolute_injective (hn : ∀ name ∈ names, Ordinary name)
    (hm : ∀ name ∈ more, Ordinary name) (he : absolute names = absolute more) :
    names = more := by
  have hl := congrArg String.toList he
  rw [toList_absolute, toList_absolute] at hl
  rw [← components_intercalate hn, (List.cons.inj hl).2, components_intercalate hm]

theorem exists_absolute_concat (names : List String) (last : String) :
    ∃ cs, (absolute (names ++ [last])).toList = cs ++ last.toList := by
  have hone : (absolute [last]).toList = '/' :: last.toList := by
    rw [toList_absolute, List.map_singleton, List.intercalate_singleton]
  by_cases hn : names = []
  · rw [hn, List.nil_append, hone]
    exact ⟨['/'], rfl⟩
  · rw [absolute_append hn (List.cons_ne_nil last []), String.toList_append, hone]
    exact ⟨(absolute names).toList ++ ['/'], by rw [List.append_assoc]; rfl⟩

theorem endsInSlash_append_absolute (front : String) (h : ∀ name ∈ names, Ordinary name)
    (hn : names ≠ []) : endsInSlash (front ++ absolute names) = false := by
  obtain rfl | ⟨init, last, rfl⟩ := List.eq_nil_or_concat names
  · exact absurd rfl hn
  · rw [List.concat_eq_append] at h ⊢
    have hlast : Ordinary last := h last (by simp)
    obtain ⟨cs, hcs⟩ := exists_absolute_concat init last
    rw [endsInSlash, String.toList_append, hcs, ← List.append_assoc,
      List.getLast?_append_of_ne_nil _ hlast.toList_ne_nil]
    refine decide_eq_false fun he => ?_
    exact hlast.no_slash (List.mem_of_getLast? he)

/-- One path continues another behind a slash exactly where its names do. -/
theorem absolute_prefix_iff (hn : ∀ name ∈ names, Ordinary name) (hne : names ≠ [])
    (hm : ∀ name ∈ more, Ordinary name) :
    (absolute names).toList ++ ['/'] <+: (absolute more).toList ↔
      names <+: more ∧ names ≠ more := by
  constructor
  · rintro ⟨rest, he⟩
    rw [List.append_assoc, toList_absolute, toList_absolute, List.cons_append] at he
    have hc := congrArg (fun cs => components (.ofList cs)) (List.cons.inj he).2
    simp only [List.cons_append, List.nil_append] at hc
    rw [components_slash, components_intercalate hn, components_intercalate hm] at hc
    refine ⟨⟨_, hc⟩, ?_⟩
    rintro rfl
    have hl := congrArg List.length he
    simp at hl
  · rintro ⟨⟨rest, rfl⟩, hdiff⟩
    have hrest : rest ≠ [] := by
      rintro rfl
      exact hdiff (List.append_nil names).symm
    rw [absolute_append hne hrest, String.toList_append, toList_absolute rest]
    exact ⟨_, by rw [List.append_assoc]; rfl⟩

end Absolute

end TreeShell.Path
