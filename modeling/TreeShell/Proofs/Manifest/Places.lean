import Mathlib.Data.List.Basic
import TreeShell.Manifest.Layout
import TreeShell.Session.Operations

/-! Where the last part of a path leads. A path is cut behind its last slash; what stands before
leads to a directory, and the last part is followed from there. Only a tilde alone is not cut in
two. -/

namespace TreeShell

namespace Path

/-- A text that is empty or ends in a slash. -/
def Front (front : List Char) : Prop :=
  front = [] ∨ ∃ dir, front = dir ++ ['/']

/-- A path in two pieces, the second without a slash. -/
theorem exists_front (path : String) : ∃ front last : List Char,
    path.toList = front ++ last ∧ Front front ∧ '/' ∉ last ∧ lastPart path = .ofList last ∧
      (Text.cutAfterLast (· = '/') path.toList).1 = front := by
  refine ⟨_, _, ?_, ?_, ?_, rfl, rfl⟩
  · rw [Text.cutAfterLast_append]
  · obtain he | ⟨dir, c, he, hc⟩ := Text.cutAfterLast_fst (· = '/') path.toList
    · exact .inl he
    · exact .inr ⟨dir, by rw [he, of_decide_eq_true hc]⟩
  · intro hm
    simpa using Text.cutAfterLast_snd (· = '/') path.toList '/' hm

theorem components_slash (front rest : List Char) : components (.ofList (front ++ '/' :: rest)) =
    components (.ofList front) ++ components (.ofList rest) := by
  simp [components, List.splitOn, List.splitOnP_append_cons]

section Components

variable {front last : List Char}

theorem components_append (hf : Front front) : components (.ofList (front ++ last)) =
    components (.ofList front) ++ components (.ofList last) := by
  obtain rfl | ⟨dir, rfl⟩ := hf
  · rfl
  · have hdir : components (.ofList (dir ++ ['/'])) = components (.ofList dir) := by
      rw [components_slash]
      exact List.append_nil _
    rw [List.append_assoc, List.singleton_append, components_slash, hdir]

theorem components_last (hl : '/' ∉ last) :
    components (.ofList last) = if last = [] then [] else [.ofList last] := by
  have hs : last.splitOn '/' = [last] :=
    List.splitOnP_eq_singleton fun c hc => beq_false_of_ne fun he => hl (he ▸ hc)
  simp only [components, String.toList_ofList, hs]
  cases last <;> rfl

theorem normalize_append (hf : Front front) (base : List String) :
    normalize base (.ofList (front ++ last)) =
      normalize (normalize base (.ofList front)) (.ofList last) := by
  rw [normalize, components_append hf, List.foldl_append]
  rfl

theorem normalize_last (hl : '/' ∉ last) (base : List String) :
    normalize base (.ofList last) = if last = [] then base else follow base (.ofList last) := by
  rw [normalize, components_last hl]
  split <;> rfl

end Components

theorem normalize_concat (dir : List Char) (base : List String) :
    normalize base (.ofList (dir ++ ['/'])) = normalize base (.ofList dir) := by
  rw [normalize, components_slash]
  exact congrArg (List.foldl follow base) (List.append_nil _)

theorem Front.tail {c : Char} {cs : List Char} (hf : Front (c :: cs)) : Front cs := by
  obtain hnil | ⟨_ | ⟨d, dir⟩, he⟩ := hf
  · cases hnil
  · exact .inl (List.cons.inj he).2
  · exact .inr ⟨dir, (List.cons.inj he).2⟩

theorem Front.ne_tilde {front : List Char} (hf : Front front) : front ≠ ['~'] := by
  obtain rfl | ⟨dir, rfl⟩ := hf
  · exact (List.cons_ne_nil _ _).symm
  · intro he
    simpa using congrArg List.getLast? he

/-- A path without an anchor starts where the user is. -/
theorem anchor_here {path : List Char} (hroot : ∀ rest, path ≠ '/' :: rest)
    (htilde : path ≠ ['~']) (hhome : ∀ rest, path ≠ '~' :: '/' :: rest) :
    anchor (.ofList path) = (.here, .ofList path) := by
  unfold anchor
  rw [String.toList_ofList]
  split
  · exact absurd rfl (hroot _)
  · exact absurd rfl htilde
  · exact absurd rfl (hhome _)
  · rfl

theorem not_endsInSlash_of_ordinary {path : String} (ho : lastPart path ∉ ["", ".", ".."]) :
    path ≠ "" ∧ endsInSlash path = false := by
  obtain ⟨front, last, hpath, hf, hl, hlast, he⟩ := exists_front path
  rw [hlast] at ho
  have hne : last ≠ [] := by
    rintro rfl
    exact ho (List.mem_cons_self ..)
  refine ⟨?_, ?_⟩
  · rintro rfl
    simp_all
  · rw [endsInSlash, hpath, List.getLast?_append_of_ne_nil _ hne]
    simp only [decide_eq_false_iff_not]
    intro hlast
    exact hl (List.mem_of_getLast? hlast)

end Path

namespace Manifest

/-- Past its anchor, a path is followed piece by piece. -/
theorem place_append (user : String) {front last : List Char} (hf : Path.Front front)
    (hl : '/' ∉ last) (hne : front ++ last ≠ ['~']) :
    place user (.ofList (front ++ last)) =
      Path.normalize (place user (.ofList front)) (.ofList last) := by
  by_cases hroot : ∃ rest, front = '/' :: rest
  · obtain ⟨rest, rfl⟩ := hroot
    simpa [place, Path.anchor] using Path.normalize_append hf.tail []
  by_cases hhome : ∃ rest, front = '~' :: '/' :: rest
  · obtain ⟨rest, rfl⟩ := hhome
    simpa [place, Path.anchor] using Path.normalize_append hf.tail.tail (Session.homeNames user)
  have hroot : ∀ rest, front ≠ '/' :: rest := fun rest he => hroot ⟨rest, he⟩
  have hhome : ∀ rest, front ≠ '~' :: '/' :: rest := fun rest he => hhome ⟨rest, he⟩
  have hfront : Path.anchor (.ofList front) = (.here, .ofList front) :=
    Path.anchor_here hroot hf.ne_tilde hhome
  have hpath : Path.anchor (.ofList (front ++ last)) = (.here, .ofList (front ++ last)) := by
    refine Path.anchor_here (fun rest he => ?_) hne (fun rest he => ?_)
    · cases front <;> simp_all
    · obtain _ | ⟨c, _ | ⟨d, cs⟩⟩ := front
      · simp_all
      · exact hf.ne_tilde (by simp_all)
      · simp_all
  simp only [place, hpath, hfront, Path.normalize_append hf]

/-- A slash at the end changes nothing. -/
theorem place_concat (user : String) {dir : List Char} (hd : dir ≠ []) :
    place user (.ofList (dir ++ ['/'])) = place user (.ofList dir) := by
  by_cases hroot : ∃ rest, dir = '/' :: rest
  · obtain ⟨rest, rfl⟩ := hroot
    simpa [place, Path.anchor] using Path.normalize_concat rest []
  by_cases hhome : ∃ rest, dir = '~' :: '/' :: rest
  · obtain ⟨rest, rfl⟩ := hhome
    simpa [place, Path.anchor] using Path.normalize_concat rest (Session.homeNames user)
  by_cases htilde : dir = ['~']
  · simp [place, Path.anchor, htilde]
  have hroot : ∀ rest, dir ≠ '/' :: rest := fun rest he => hroot ⟨rest, he⟩
  have hhome : ∀ rest, dir ≠ '~' :: '/' :: rest := fun rest he => hhome ⟨rest, he⟩
  have hpath : Path.anchor (.ofList (dir ++ ['/'])) = (.here, .ofList (dir ++ ['/'])) := by
    refine Path.anchor_here (fun rest he => ?_) (fun he => ?_) (fun rest he => ?_)
    · cases dir <;> simp_all
    · simpa using congrArg List.getLast? he
    · obtain _ | ⟨c, _ | ⟨d, cs⟩⟩ := dir <;> simp_all
  simp only [place, hpath, Path.anchor_here hroot htilde hhome, Path.normalize_concat]

/-- The names of a path up to its last slash. -/
def frontPlace (user path : String) : List String :=
  place user (.ofList (Text.cutAfterLast (· = '/') path.toList).1)

theorem place_parentText (user : String) {path : String} (hp : Session.parentText path ≠ "") :
    place user (Session.parentText path) = frontPlace user path := by
  obtain ⟨front, last, -, hf, -, -, he⟩ := Path.exists_front path
  rw [Session.parentText, he] at hp ⊢
  rw [frontPlace, he]
  obtain rfl | ⟨dir, rfl⟩ := hf
  · exact absurd rfl hp
  · rw [List.dropLast_concat] at hp ⊢
    exact (place_concat user fun hd => hp (by rw [hd])).symm

/-- A path without a parent text is below the root or below home. -/
theorem frontPlace_of_parentText (user : String) {path : String}
    (hp : Session.parentText path = "") :
    frontPlace user path = [] ∨ frontPlace user path = Session.homeNames user := by
  obtain ⟨front, last, -, hf, -, -, he⟩ := Path.exists_front path
  rw [Session.parentText, he] at hp
  rw [frontPlace, he]
  obtain rfl | ⟨dir, rfl⟩ := hf
  · exact .inr rfl
  · rw [List.dropLast_concat] at hp
    obtain rfl : dir = [] := String.ofList_injective hp
    exact .inl rfl

theorem place_tilde (user : String) : place user "~" = Session.homeNames user := rfl

/-- A path is its front, and its last part followed from there. -/
theorem place_eq (user : String) {path : String} (hp : path ≠ "~") :
    place user path = if Path.lastPart path = "" then frontPlace user path
      else Path.follow (frontPlace user path) (Path.lastPart path) := by
  obtain ⟨front, last, hpath, hf, hl, hlast, he⟩ := Path.exists_front path
  have hne : front ++ last ≠ ['~'] := fun h => hp (String.toList_injective (hpath.trans h))
  have ha := place_append user hf hl hne
  rw [← hpath, String.ofList_toList] at ha
  rw [ha, Path.normalize_last hl, hlast, frontPlace, he]
  simp [← String.toList_inj]

theorem place_of_ordinary (user : String) {path : String} (hp : path ≠ "~")
    (ho : Path.lastPart path ∉ ["", ".", ".."]) :
    place user path = frontPlace user path ++ [Path.lastPart path] := by
  simp only [List.mem_cons, List.not_mem_nil, or_false, not_or] at ho
  rw [place_eq user hp, if_neg ho.1, Path.follow, if_neg ho.2.2, if_neg ho.2.1]

theorem place_prefix_of_dots (user : String) {path : String}
    (ho : Path.lastPart path ∈ ["", ".", ".."]) : place user path <+: frontPlace user path := by
  have hp : path ≠ "~" := by
    rintro rfl
    revert ho
    decide
  rw [place_eq user hp]
  split
  · exact List.prefix_rfl
  · rw [Path.follow]
    split
    · exact List.dropLast_prefix _
    · split
      · exact List.prefix_rfl
      · simp_all

end Manifest

end TreeShell
