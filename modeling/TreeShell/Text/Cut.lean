import TreeShell.Text.Utf8

/-! Cutting a text behind the last character of a class, and the start that several texts
share. Cutting loses nothing and leaves no character of the class in the second part. The shared
start is measured in bytes, and its measure never ends within a character. -/

namespace TreeShell.Text

/-- The text up to and including the last character that satisfies `p`, and what follows it. -/
def cutAfterLast (p : Char → Bool) : List Char → List Char × List Char
  | [] => ([], [])
  | c :: cs =>
    match cutAfterLast p cs with
    | ([], tail) => if p c then ([c], tail) else ([], c :: tail)
    | (d :: head, tail) => (c :: d :: head, tail)

/-- The longest text that both texts start with. -/
def sharedStart : List Char → List Char → List Char
  | a :: as, b :: bs => if a = b then a :: sharedStart as bs else []
  | _, _ => []

/-- How many bytes at the start of a text another text shares with it: those of characters that
start before byte `limit`. -/
def sharedBytes (limit : Nat) : List Char → List Char → Nat
  | a :: as, b :: bs =>
    if 0 < limit && a = b then a.utf8Size + sharedBytes (limit - a.utf8Size) as bs else 0
  | _, _ => 0

/-- The start of a text that takes up `n` bytes; none where `n` lies within a character or behind
the end. -/
def takeBytes? : Nat → List Char → Option (List Char)
  | 0, _ => some []
  | _ + 1, [] => none
  | n + 1, c :: cs =>
    if c.utf8Size ≤ n + 1 then (takeBytes? (n + 1 - c.utf8Size) cs).map (c :: ·) else none

/-- The start of the first text that all texts of a list share; empty for no texts. Each text
after the first lowers the number of shared bytes. -/
def sharedStartAll : List (List Char) → List Char
  | [] => []
  | first :: rest =>
    let size := rest.foldl (fun limit cs => sharedBytes limit first cs) (byteLength first)
    (takeBytes? size first).getD []

theorem cutAfterLast_append (p : Char → Bool) (cs : List Char) :
    (cutAfterLast p cs).1 ++ (cutAfterLast p cs).2 = cs := by
  induction cs with
  | nil => rfl
  | cons c cs ih =>
    simp only [cutAfterLast]
    split
    · next tail h =>
      rw [h] at ih
      split <;> simp_all
    · next d head tail h =>
      rw [h] at ih
      simpa using ih

theorem cutAfterLast_snd (p : Char → Bool) (cs : List Char) :
    ∀ c ∈ (cutAfterLast p cs).2, p c = false := by
  induction cs with
  | nil => simp [cutAfterLast]
  | cons c cs ih =>
    simp only [cutAfterLast]
    split
    · next tail h =>
      rw [h] at ih
      split <;> simp_all
    · next d head tail h => simpa [h] using ih

theorem cutAfterLast_fst (p : Char → Bool) (cs : List Char) :
    (cutAfterLast p cs).1 = [] ∨
      ∃ front c, (cutAfterLast p cs).1 = front ++ [c] ∧ p c = true := by
  induction cs with
  | nil => exact .inl rfl
  | cons c cs ih =>
    simp only [cutAfterLast]
    split
    · split
      · next hc => exact .inr ⟨[], c, rfl, hc⟩
      · exact .inl rfl
    · next d head tail h =>
      rw [h] at ih
      obtain hnil | ⟨front, e, he, hp⟩ := ih
      · cases hnil
      · exact .inr ⟨c :: front, e, by simpa using he, hp⟩

/-- A text in two parts: up to its last character of a class, and behind it. -/
structure CutAfterLast (p : Char → Bool) (cs front back : List Char) : Prop where
  append_eq : front ++ back = cs
  front_ends : ∀ c ∈ front.getLast?, p c = true
  back_free : ∀ c ∈ back, p c = false

theorem cutAfterLast_cuts (p : Char → Bool) (cs : List Char) :
    CutAfterLast p cs (cutAfterLast p cs).1 (cutAfterLast p cs).2 where
  append_eq := cutAfterLast_append p cs
  front_ends := by
    intro c hc
    obtain hnil | ⟨front, d, he, hd⟩ := cutAfterLast_fst p cs
    · rw [hnil] at hc
      cases hc
    · rw [he, List.getLast?_concat, Option.mem_some] at hc
      exact hc ▸ hd
  back_free := cutAfterLast_snd p cs

theorem cutAfterLast_of_free {p : Char → Bool} {cs : List Char} (h : ∀ c ∈ cs, p c = false) :
    cutAfterLast p cs = ([], cs) := by
  induction cs with
  | nil => rfl
  | cons c cs ih =>
    obtain ⟨hc, hcs⟩ := List.forall_mem_cons.mp h
    simp [cutAfterLast, ih hcs, hc]

/-- There is only one way to cut. -/
theorem CutAfterLast.eq {p : Char → Bool} {cs front back : List Char}
    (h : CutAfterLast p cs front back) : cutAfterLast p cs = (front, back) := by
  obtain ⟨rfl, hends, hfree⟩ := h
  induction front with
  | nil => exact cutAfterLast_of_free hfree
  | cons c front ih =>
    cases front with
    | nil =>
      have hc : p c = true := hends c rfl
      simp [cutAfterLast, cutAfterLast_of_free hfree, hc]
    | cons d front =>
      have hrec := ih fun e he => hends e (by simpa using he)
      rw [List.cons_append, cutAfterLast, hrec]

theorem sharedStart_isPrefix_left (as bs : List Char) : sharedStart as bs <+: as := by
  fun_induction sharedStart as bs with
  | case1 a as bs ih => exact List.cons_prefix_cons.mpr ⟨rfl, ih⟩
  | case2 a as b bs h => exact List.nil_prefix
  | case3 as bs h => exact List.nil_prefix

theorem sharedStart_isPrefix_right (as bs : List Char) : sharedStart as bs <+: bs := by
  fun_induction sharedStart as bs with
  | case1 a as bs ih => exact List.cons_prefix_cons.mpr ⟨rfl, ih⟩
  | case2 a as b bs h => exact List.nil_prefix
  | case3 as bs h => exact List.nil_prefix

theorem isPrefix_sharedStart {cs as bs : List Char} (ha : cs <+: as) (hb : cs <+: bs) :
    cs <+: sharedStart as bs := by
  induction cs generalizing as bs with
  | nil => exact List.nil_prefix
  | cons c cs ih =>
    obtain ⟨as, rfl, has⟩ := List.cons_prefix_iff.mp ha
    obtain ⟨bs, rfl, hbs⟩ := List.cons_prefix_iff.mp hb
    rw [sharedStart, if_pos rfl]
    exact List.cons_prefix_cons.mpr ⟨rfl, ih has hbs⟩

theorem takeBytes?_byteLength (front rest : List Char) :
    takeBytes? (byteLength front) (front ++ rest) = some front := by
  induction front with
  | nil => rw [byteLength_nil, takeBytes?]
  | cons c front ih =>
    obtain ⟨n, hn⟩ := Nat.exists_eq_add_one_of_ne_zero (Nat.ne_of_gt c.utf8Size_pos)
    have hsize : byteLength (c :: front) = n + byteLength front + 1 := by
      rw [byteLength_cons, hn, Nat.add_right_comm]
    have hrest : n + byteLength front + 1 - c.utf8Size = byteLength front := by omega
    rw [hsize, List.cons_append, takeBytes?, if_pos (by omega), hrest, ih]
    rfl

/-- Where the limit is the end of a character, so is the number of shared bytes. -/
theorem sharedBytes_eq {front first : List Char} (hf : front <+: first) (cs : List Char) :
    sharedBytes (byteLength front) first cs = byteLength (sharedStart front cs) := by
  induction front generalizing first cs with
  | nil =>
    rw [sharedStart.eq_def, sharedBytes.eq_def]
    split <;> simp
  | cons c front ih =>
    obtain ⟨first, rfl, hfirst⟩ := List.cons_prefix_iff.mp hf
    have hpos : 0 < c.utf8Size + byteLength front := Nat.add_pos_left c.utf8Size_pos _
    cases cs with
    | nil => rfl
    | cons b cs =>
      by_cases hb : c = b
      · subst hb
        simp [sharedBytes, sharedStart, hpos, ih hfirst]
      · simp [sharedBytes, sharedStart, hb]

theorem foldl_sharedStart_isPrefix (cs : List Char) (rest : List (List Char)) :
    rest.foldl sharedStart cs <+: cs := by
  induction rest generalizing cs with
  | nil => exact List.prefix_rfl
  | cons d rest ih => exact (ih (sharedStart cs d)).trans (sharedStart_isPrefix_left cs d)

theorem foldl_sharedBytes {front first : List Char} (hf : front <+: first)
    (rest : List (List Char)) :
    rest.foldl (fun limit cs => sharedBytes limit first cs) (byteLength front) =
      byteLength (rest.foldl sharedStart front) := by
  induction rest generalizing front with
  | nil => rfl
  | cons cs rest ih =>
    rw [List.foldl_cons, List.foldl_cons, sharedBytes_eq hf]
    exact ih ((sharedStart_isPrefix_left front cs).trans hf)

/-- The number of shared bytes is that of whole characters, those of the shared start. -/
theorem takeBytes?_sharedBytes (first : List Char) (rest : List (List Char)) :
    takeBytes? (rest.foldl (fun limit cs => sharedBytes limit first cs) (byteLength first)) first =
      some (rest.foldl sharedStart first) := by
  obtain ⟨more, hmore⟩ := foldl_sharedStart_isPrefix first rest
  have htake := takeBytes?_byteLength (rest.foldl sharedStart first) more
  rwa [hmore, ← foldl_sharedBytes List.prefix_rfl] at htake

/-- A text with which all texts of a list start, and no longer one does. -/
structure SharedStart (texts : List (List Char)) (common : List Char) : Prop where
  starts : ∀ cs ∈ texts, common <+: cs
  longest : ∀ cs, (∀ text ∈ texts, cs <+: text) → cs <+: common

theorem foldl_sharedStart_isPrefix_of_mem {cs : List Char} {rest : List (List Char)}
    (h : cs ∈ rest) (first : List Char) : rest.foldl sharedStart first <+: cs := by
  induction rest generalizing first with
  | nil => cases h
  | cons d rest ih =>
    rcases List.mem_cons.mp h with rfl | h
    · exact (foldl_sharedStart_isPrefix _ rest).trans (sharedStart_isPrefix_right first cs)
    · exact ih h _

theorem isPrefix_foldl_sharedStart {cs first : List Char} {rest : List (List Char)}
    (hf : cs <+: first) (hr : ∀ text ∈ rest, cs <+: text) :
    cs <+: rest.foldl sharedStart first := by
  induction rest generalizing first with
  | nil => exact hf
  | cons d rest ih =>
    obtain ⟨hd, hrest⟩ := List.forall_mem_cons.mp hr
    exact ih (isPrefix_sharedStart hf hd) hrest

/-- Of texts, at least one, the longest shared start is found. -/
theorem sharedStartAll_spec {texts : List (List Char)} (hne : texts ≠ []) :
    SharedStart texts (sharedStartAll texts) := by
  cases texts with
  | nil => exact absurd rfl hne
  | cons first rest =>
    have he : sharedStartAll (first :: rest) = rest.foldl sharedStart first := by
      rw [sharedStartAll, takeBytes?_sharedBytes]
      rfl
    rw [he]
    refine ⟨List.forall_mem_cons.mpr ⟨foldl_sharedStart_isPrefix first rest, fun cs hcs =>
      foldl_sharedStart_isPrefix_of_mem hcs first⟩, fun cs hcs => ?_⟩
    obtain ⟨hf, hr⟩ := List.forall_mem_cons.mp hcs
    exact isPrefix_foldl_sharedStart hf hr

end TreeShell.Text
