import TreeShell.Proofs.Path.Names

/-! The names of downloads. A URL is cut at its query or fragment, at the first `://`, at the
slash behind the host and at the last slash; what is left names the download where it can name an
entry. A name holds no character that ends a component of a path or the path of a URL, and
neither does a number behind it. -/

namespace TreeShell.Download

/-- A text in two parts: before the first place of a mark, and behind it. -/
structure CutAtFirst (mark text front back : List Char) : Prop where
  append_eq : text = front ++ mark ++ back
  first : ∀ {before behind}, text = before ++ mark ++ behind → front.length ≤ before.length

/-- The first place of a mark is also the first in a shorter text that still holds it. -/
theorem CutAtFirst.of_append {mark front back more rest : List Char}
    (h : CutAtFirst mark (front ++ mark ++ back ++ more) front rest) :
    CutAtFirst mark (front ++ mark ++ back) front back where
  append_eq := rfl
  first he := h.first (by rw [he, List.append_assoc (_ ++ mark)])

section TextAfter

variable {mark text back : List Char}

theorem dropInfix?_go_map_snd (text acc : List Char) :
    (List.dropInfix?.go mark text acc).map Prod.snd = textAfter? mark text := by
  -- The library's search collects what it has passed, which the part behind the mark ignores.
  induction text generalizing acc with
  | nil => cases mark <;> rfl
  | cons c cs ih =>
    rw [List.dropInfix?.go, textAfter?]
    split
    · rename_i hnone
      have hno : ¬ mark <+: c :: cs := by
        rintro ⟨rest, he⟩
        rw [← he, List.dropPrefix?_append_of_beq rest (beq_self_eq_true mark)] at hnone
        cases hnone
      rw [ih, if_neg (by rwa [List.isPrefixOf_iff_prefix])]
    · rename_i rest hsome
      obtain ⟨start, he, hstart⟩ := List.dropPrefix?_eq_some_iff.mp hsome
      obtain rfl : start = mark := beq_iff_eq.mp hstart
      have hpre : start.isPrefixOf (c :: cs) = true :=
        List.isPrefixOf_iff_prefix.mpr ⟨rest, he.symm⟩
      rw [if_pos hpre, he, List.drop_left]
      rfl

theorem textAfter?_eq_some_iff :
    textAfter? mark text = some back ↔ ∃ front, CutAtFirst mark text front back := by
  have hdrop : textAfter? mark text = (text.dropInfix? mark).map Prod.snd :=
    (dropInfix?_go_map_snd text []).symm
  rw [hdrop, Option.map_eq_some_iff]
  constructor
  · rintro ⟨⟨front, back⟩, he, rfl⟩
    obtain ⟨⟨_, happ, hm⟩, hfirst⟩ := List.dropInfix?_eq_some_iff.mp he
    obtain rfl := beq_iff_eq.mp hm
    exact ⟨front, happ, fun hb => hfirst _ _ _ hb hm⟩
  · rintro ⟨front, happ, hfirst⟩
    refine ⟨(front, back), List.dropInfix?_eq_some_iff.mpr ⟨⟨mark, happ, beq_self_eq_true mark⟩,
      fun before mid behind hb hm => ?_⟩, rfl⟩
    obtain rfl := beq_iff_eq.mp hm
    exact hfirst hb

theorem textAfter?_eq_none_iff : textAfter? mark text = none ↔ ¬ mark <:+: text := by
  induction text with
  | nil => cases mark <;> simp [textAfter?]
  | cons c cs ih =>
    rw [textAfter?, List.infix_cons_iff, not_or, ← ih, ← List.isPrefixOf_iff_prefix]
    split
    · simp [*]
    · simp [*]

end TextAfter

section Urls

variable {url front behind : List Char}

/-- A URL in two parts: up to its query or fragment, and from there on. -/
structure CutAtQuery (url front behind : List Char) : Prop where
  append_eq : url = front ++ behind
  front_free : ∀ c ∈ front, c ≠ '?' ∧ c ≠ '#'
  behind_starts : ∀ c ∈ behind.head?, c = '?' ∨ c = '#'

theorem location_cuts (url : List Char) : ∃ behind, CutAtQuery url (location url) behind := by
  refine ⟨url.dropWhile fun c => c != '?' && c != '#', ?_, fun c hc => ?_, fun c hc => ?_⟩
  · exact List.takeWhile_append_dropWhile.symm
  · simpa using List.mem_takeWhile_imp hc
  · have hstop := List.head?_dropWhile_not (fun c => c != '?' && c != '#') url
    rw [Option.mem_def.mp hc] at hstop
    simpa [or_iff_not_imp_left] using hstop

theorem CutAtQuery.location_eq (h : CutAtQuery url front behind) : location url = front := by
  have hfront : ∀ c ∈ front, (c != '?' && c != '#') = true := fun c hc => by
    simpa using h.front_free c hc
  rw [location, h.append_eq, List.takeWhile_append_of_pos hfront]
  cases behind with
  | nil => exact List.append_nil front
  | cons c cs =>
    have hc : (c != '?' && c != '#') = false := by
      rcases h.behind_starts c rfl with rfl | rfl <;> decide
    rw [List.takeWhile_cons, hc, if_neg Bool.false_ne_true, List.append_nil]

/-- What is written behind the start of a query or a fragment belongs to it. -/
theorem CutAtQuery.append (h : CutAtQuery url front behind) {c : Char} (hc : c = '?' ∨ c = '#')
    (extra : List Char) : CutAtQuery (url ++ c :: extra) front (behind ++ c :: extra) where
  append_eq := by rw [h.append_eq, List.append_assoc]
  front_free := h.front_free
  behind_starts := by
    cases behind with
    | nil =>
      rintro d ⟨⟩
      exact hc
    | cons d cs => exact h.behind_starts

theorem location_append (url : List Char) {c : Char} (hc : c = '?' ∨ c = '#')
    (extra : List Char) : location (url ++ c :: extra) = location url := by
  obtain ⟨behind, h⟩ := location_cuts url
  exact (h.append hc extra).location_eq

/-- The path of a URL without query and fragment. A host is read only behind `://`, and it ends
at the next slash. -/
inductive HasPath : List Char → List Char → Prop
  | bare {location} (h : ¬ [':', '/', '/'] <:+: location) : HasPath location location
  | host {location scheme host} (h : CutAtFirst [':', '/', '/'] location scheme host)
      (hh : '/' ∉ host) : HasPath location []
  | behindHost {location scheme host path}
      (h : CutAtFirst [':', '/', '/'] location scheme (host ++ '/' :: path))
      (hh : '/' ∉ host) : HasPath location path

theorem hasPath_path (url : List Char) : HasPath (location url) (path url) := by
  unfold path
  split
  · rename_i rest hrest
    obtain ⟨scheme, h⟩ := textAfter?_eq_some_iff.mp hrest
    rw [← List.takeWhile_append_dropWhile (p := (· != '/')) (l := rest)] at h
    have hhost : '/' ∉ rest.takeWhile (· != '/') := fun hm => by
      simpa using List.mem_takeWhile_imp hm
    have hstop := List.head?_dropWhile_not (· != '/') rest
    generalize rest.dropWhile (· != '/') = behind at h hstop ⊢
    cases behind with
    | nil =>
      rw [List.append_nil] at h
      exact .host h hhost
    | cons c cs =>
      obtain rfl : c = '/' := by simpa using hstop
      exact .behindHost h hhost
  · rename_i hnone
    exact .bare (textAfter?_eq_none_iff.mp hnone)

theorem HasPath.path_eq {p : List Char} (h : HasPath (location url) p) : path url = p := by
  have hskip : ∀ {host : List Char}, '/' ∉ host → ∀ c ∈ host, (c != '/') = true := by
    intro host hh c hc
    simpa using ne_of_mem_of_not_mem hc hh
  unfold path
  generalize location url = location at h
  cases h with
  | bare h => rw [textAfter?_eq_none_iff.mpr h]
  | host h hh =>
    rw [textAfter?_eq_some_iff.mpr ⟨_, h⟩]
    dsimp only
    rw [List.dropWhile_eq_nil_iff.mpr (hskip hh)]
    rfl
  | behindHost h hh =>
    rw [textAfter?_eq_some_iff.mpr ⟨_, h⟩]
    dsimp only
    rw [List.dropWhile_append_of_pos (hskip hh)]
    rfl

theorem HasPath.subset {location p : List Char} (h : HasPath location p) : p ⊆ location := by
  cases h with
  | bare => exact List.Subset.refl _
  | host => exact List.nil_subset _
  | behindHost h =>
    rw [h.append_eq]
    intro c hc
    simp [hc]

end Urls

/-- The part of a URL's path behind its last slash. -/
def LastPart (url : String) (last : List Char) : Prop :=
  ∃ front behind path dir, CutAtQuery url.toList front behind ∧ HasPath front path ∧
    Text.CutAfterLast (· = '/') path dir last

theorem LastPart.not_mem {url : String} {last : List Char} (h : LastPart url last) :
    '/' ∉ last ∧ '?' ∉ last ∧ '#' ∉ last := by
  obtain ⟨front, behind, path, dir, hq, hp, hlast⟩ := h
  have hfront : ∀ c ∈ last, c ∈ front := fun c hc =>
    hp.subset (hlast.append_eq ▸ List.mem_append_right dir hc)
  refine ⟨fun hm => ?_, fun hm => ?_, fun hm => ?_⟩
  · simpa using hlast.back_free '/' hm
  · exact (hq.front_free '?' (hfront '?' hm)).1 rfl
  · exact (hq.front_free '#' (hfront '#' hm)).2 rfl

theorem lastPart_path (url : String) :
    LastPart url (Text.cutAfterLast (· = '/') (path url.toList)).2 := by
  obtain ⟨behind, hq⟩ := location_cuts url.toList
  exact ⟨_, behind, _, _, hq, hasPath_path _, Text.cutAfterLast_cuts _ _⟩

/-- The last part of the path is the name where it can name an entry. -/
theorem nameOf_cases (url : String) : ∃ last, LastPart url last ∧
    (Path.Ordinary (.ofList last) ∧ nameOf url = .ofList last ∨
      ¬ Path.Ordinary (.ofList last) ∧ nameOf url = defaultName) := by
  have hlast := lastPart_path url
  unfold nameOf
  generalize (Text.cutAfterLast (· = '/') (path url.toList)).2 = last at hlast ⊢
  refine ⟨last, hlast, ?_⟩
  dsimp only
  split
  · rename_i hn
    refine .inr ⟨fun ho => ?_, rfl⟩
    simp only [Bool.or_eq_true, decide_eq_true_eq] at hn
    rcases hn with (hn | hn) | hn
    · exact ho.ne_empty hn
    · exact ho.ne_dot hn
    · exact ho.ne_dots hn
  · rename_i hn
    simp only [Bool.or_eq_true, decide_eq_true_eq, not_or] at hn
    have hslash : '/' ∉ (String.ofList last).toList := by
      rw [String.toList_ofList]
      exact hlast.not_mem.1
    exact .inl ⟨⟨hn.1.1, hslash, hn.1.2, hn.2⟩, rfl⟩

example : nameOf "https://example.com/a/b.txt?x=/y" = "b.txt" := by
  decide +kernel

theorem nameOf_congr {url url' : String} (h : location url.toList = location url'.toList) :
    nameOf url = nameOf url' := by
  have hpath : path url.toList = path url'.toList := by rw [path, path, h]
  rw [nameOf, hpath, nameOf]

/-- Where a URL ends with its host there is no name to take. -/
theorem nameOf_of_host {url : String} {scheme host rest behind : List Char}
    (hq : CutAtQuery url.toList (scheme ++ [':', '/', '/'] ++ host) behind)
    (hs : CutAtFirst [':', '/', '/'] url.toList scheme rest) (hh : '/' ∉ host) :
    nameOf url = defaultName := by
  rw [hq.append_eq] at hs
  have hp : HasPath (location url.toList) [] := hq.location_eq ▸ .host hs.of_append hh
  rw [nameOf, hp.path_eq]
  rfl

/-- A name for an entry, without the characters that end the path of a URL. -/
structure Usable (name : String) : Prop extends Path.Ordinary name where
  no_query : '?' ∉ name.toList
  no_fragment : '#' ∉ name.toList

theorem nameOf_usable (url : String) : Usable (nameOf url) := by
  obtain ⟨last, hlast, ⟨ho, he⟩ | ⟨-, he⟩⟩ := nameOf_cases url
  · obtain ⟨-, hquery, hfragment⟩ := hlast.not_mem
    rw [← String.toList_ofList (l := last)] at hquery hfragment
    rw [he]
    exact ⟨ho, hquery, hfragment⟩
  · rw [he]
    exact ⟨⟨by decide, by decide, by decide, by decide⟩, by decide, by decide⟩

section Candidates

variable {name : String} {n : Nat}

theorem mem_candidate {c : Char} (h : c ∈ (candidate name n).toList) :
    c ∈ name.toList ∨ c = '.' ∨ c.isDigit = true := by
  unfold candidate at h
  split at h
  · exact .inl h
  · rw [String.toList_append, String.toList_append, List.mem_append, List.mem_append,
      Nat.toString_eq_repr, Nat.toList_repr] at h
    rcases h with (h | h) | h
    · exact .inl h
    · exact .inr (.inl (List.mem_singleton.mp h))
    · exact .inr (.inr (Nat.isDigit_of_mem_toDigits (by decide) (by decide) h))

theorem not_mem_candidate {c : Char} (h : c ∉ name.toList) (hdot : c ≠ '.')
    (hdigit : c.isDigit = false) : c ∉ (candidate name n).toList := fun hm => by
  rcases mem_candidate hm with hm | hm | hm
  · exact h hm
  · exact hdot hm
  · rw [hdigit] at hm
    cases hm

theorem candidate_ordinary (h : Path.Ordinary name) (n : Nat) :
    Path.Ordinary (candidate name n) := by
  have hslash : '/' ∉ (candidate name n).toList :=
    not_mem_candidate h.no_slash (by decide) (by decide)
  by_cases hn : n = 0
  · rwa [candidate, if_pos hn]
  · have hlen : 2 < (candidate name n).length := by
      have hname : name.length ≠ 0 := mt String.length_eq_zero_iff.mp h.ne_empty
      have hrepr : 0 < n.repr.length := Nat.length_repr_pos
      have hdot : ".".length = 1 := by decide
      rw [candidate, if_neg hn, String.length_append, String.length_append, Nat.toString_eq_repr]
      omega
    have hne : ∀ short : String, short.length ≤ 2 → candidate name n ≠ short := by
      rintro short hs rfl
      omega
    exact ⟨hne "" (by decide), hslash, hne "." (by decide), hne ".." (by decide)⟩

theorem Usable.candidate (h : Usable name) (n : Nat) : Usable (candidate name n) where
  toOrdinary := candidate_ordinary h.toOrdinary n
  no_query := not_mem_candidate h.no_query (by decide) (by decide)
  no_fragment := not_mem_candidate h.no_fragment (by decide) (by decide)

end Candidates

end TreeShell.Download
