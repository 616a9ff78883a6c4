import Mathlib
import TreeShell.Proofs.Command.Blank
import TreeShell.Proofs.Text.Utf8
import TreeShell.Token.Cursor

/-! Scanning cuts a line and loses nothing of it: every call moves the cursor over separators and
then over one piece of the line. A piece that is a token holds all that makes it this token. -/

namespace TreeShell

theorem scanWord_split (accept : Char → Bool) (cs : List Char) :
    ∃ read, cs = read ++ (scanWord accept cs).2 ∧
      scanWord accept read = ((scanWord accept cs).1, []) := by
  fun_induction scanWord accept cs with
  | case1 => exact ⟨[], rfl, rfl⟩
  | case2 => exact ⟨['\\'], rfl, by simp [scanWord]⟩
  | case3 d cs word rest h ih =>
    obtain ⟨read, hcs, hread⟩ := ih
    simp only [h] at hcs hread
    exact ⟨'\\' :: d :: read, by simp [hcs], by simp [scanWord, hread]⟩
  | case4 c cs hc ha word rest h ih =>
    obtain ⟨read, hcs, hread⟩ := ih
    simp only [h] at hcs hread
    refine ⟨c :: read, by simp [hcs], ?_⟩
    rw [scanWord.eq_def]
    simp [hc, ha, hread]
  | case5 c cs hc ha => exact ⟨[], rfl, rfl⟩

theorem scanQuoted_split {quote : Char} {cs word rest : List Char}
    (h : scanQuoted quote cs = some (word, rest)) :
    ∃ read, cs = read ++ rest ∧ scanQuoted quote read = some (word, []) := by
  fun_induction scanQuoted quote cs generalizing word with
  | case1 | case3 => simp at h
  | case2 cs =>
    obtain ⟨rfl, rfl⟩ := Prod.mk.inj (Option.some.inj h)
    exact ⟨[quote], rfl, scanQuoted_close quote []⟩
  | case4 d cs hq ih =>
    obtain ⟨⟨w, r⟩, hr, he⟩ := Option.map_eq_some_iff.mp h
    obtain ⟨rfl, rfl⟩ := Prod.mk.inj he
    obtain ⟨read, rfl, hread⟩ := ih hr
    exact ⟨'\\' :: d :: read, rfl, by simp [scanQuoted, hq, hread]⟩
  | case5 c cs hq hb ih =>
    obtain ⟨⟨w, r⟩, hr, he⟩ := Option.map_eq_some_iff.mp h
    obtain ⟨rfl, rfl⟩ := Prod.mk.inj he
    obtain ⟨read, rfl, hread⟩ := ih hr
    refine ⟨c :: read, rfl, ?_⟩
    rw [scanQuoted_plain hq hb, hread]
    rfl

theorem scanOption_split (cs : List Char) : ∃ read, cs = read ++ (scanOption cs).2 ∧
    ∀ kind, (scanOption cs).1 = .ok kind → scanOption read = (.ok kind, []) := by
  by_cases hdash : cs.head? = some '-'
  · obtain ⟨name, rfl⟩ := List.head?_eq_some_iff.mp hdash
    obtain ⟨read, hname, hread⟩ := scanWord_split isOptionChar name
    refine ⟨'-' :: read, by simp [scanOption_long, ← hname], fun kind hk => ?_⟩
    simp only [scanOption_long, hread] at hk ⊢
    rw [hk]
  · obtain ⟨read, hcs, hread⟩ := scanWord_split isOptionChar cs
    -- What was read of a short option starts as the option does.
    have hdash' : read.head? ≠ some '-' := by
      intro h
      rw [hcs, List.head?_append, h] at hdash
      exact hdash rfl
    refine ⟨read, by rw [scanOption_short hdash]; exact hcs, fun kind hk => ?_⟩
    simp only [scanOption_short hdash, scanOption_short hdash', hread] at hk ⊢
    rw [hk]

/-- A scan reads a beginning of what follows its first character; if that is a token, reading
the beginning alone gives the same token. -/
theorem scanToken_split {c : Char} (hc : isSeparator c = false) (cs : List Char) :
    ∃ read, cs = read ++ (scanToken c cs).2 ∧
      ∀ kind, (scanToken c cs).1 = .ok kind → scanToken c read = (.ok kind, []) := by
  obtain rfl | rfl | hq | hi | ⟨hd, hb⟩ := start_cases hc
  · simpa only [scanToken_dash] using scanOption_split cs
  · by_cases hmore : cs.head? = some '>'
    · obtain ⟨rest, rfl⟩ := List.head?_eq_some_iff.mp hmore
      exact ⟨['>'], by simp [scanToken_redirect], by simp [scanToken_redirect]⟩
    · refine ⟨[], by simp [scanToken_redirect, hmore], fun kind hk => ?_⟩
      rw [scanToken_redirect, if_neg hmore] at hk
      exact Prod.ext hk rfl
  · rw [scanToken_quote hq]
    cases hw : scanQuoted c cs with
    | none => exact ⟨cs, (List.append_nil cs).symm, fun kind hk => by cases hk⟩
    | some found =>
      obtain ⟨word, rest⟩ := found
      obtain ⟨read, hcs, hread⟩ := scanQuoted_split hw
      refine ⟨read, hcs, fun kind hk => ?_⟩
      cases hk
      rw [scanToken_quote hq, hread]
  · rw [scanToken_illegal hi]
    exact ⟨[], rfl, fun kind hk => by cases hk⟩
  · obtain ⟨read, hcs, hread⟩ := scanWord_split isBareChar (c :: cs)
    have hle := length_scanWord_lt cs (.inr hb : c = '\\' ∨ isBareChar c = true)
    cases read with
    | nil =>
      rw [List.nil_append] at hcs
      rw [← hcs] at hle
      simp at hle
    | cons d read =>
      obtain ⟨rfl, hcs⟩ := List.cons.inj hcs
      refine ⟨read, by simpa [scanToken_bare hd hb] using hcs, fun kind hk => ?_⟩
      rw [scanToken_bare hd hb] at hk ⊢
      rw [hread]
      exact Prod.ext hk rfl

/-- A piece that holds one token and nothing else. -/
theorem scan_of_scanToken {c : Char} {cs : List Char} {kind : Token.Kind}
    (hc : isSeparator c = false) (hs : scanToken c cs = (.ok kind, [])) :
    scan (.ofList (c :: cs)) =
      [⟨.ok ⟨0, Text.byteLength (c :: cs), kind⟩, Text.byteLength (c :: cs)⟩] := by
  have hend : ∀ offset, scanFrom offset [] = [] := fun offset => by rw [scanFrom]
  rw [scan, String.toList_ofList, scanFrom, if_neg (by simp [hc]), hs]
  simp [Item.place, hend]

namespace Cursor

/-- Between the cursors before and after a call that reads an item lie separators and then a
piece of the line, which is where the item was found. -/
structure Cuts (p : Cursor) (item : Item) (q : Cursor) (blanks piece : List Char) : Prop where
  rest_eq : p.rest = blanks ++ piece ++ q.rest
  blanks_only : OnlySeparators blanks
  piece_ne_nil : piece ≠ []
  offset_eq : q.offset = p.offset + Text.byteLength blanks + Text.byteLength piece
  stop_eq : item.stop = q.offset
  /-- A token has the piece for its span, and is all that the piece alone would be read as. -/
  token : ∀ t, item.outcome = .ok t → t.offset = p.offset + Text.byteLength blanks ∧
    t.length = Text.byteLength piece ∧ t.offset + t.length = q.offset ∧
    scan (.ofList piece) = [⟨.ok ⟨0, t.length, t.kind⟩, t.length⟩]

theorem nextFrom_none {offset : Nat} {cs : List Char} {q : Cursor}
    (h : nextFrom offset cs = (none, q)) :
    OnlySeparators cs ∧ q.offset = offset + Text.byteLength cs ∧ q.rest = [] := by
  induction cs generalizing offset with
  | nil =>
    rw [nextFrom] at h
    cases h
    exact ⟨fun c hc => absurd hc List.not_mem_nil, rfl, rfl⟩
  | cons c cs ih =>
    rw [nextFrom] at h
    by_cases hc : isSeparator c = true
    · simp only [hc, if_true] at h
      obtain ⟨hcs, hq, hr⟩ := ih h
      exact ⟨List.forall_mem_cons.mpr ⟨hc, hcs⟩, by simp [hq, Nat.add_assoc], hr⟩
    · simp [hc] at h

theorem nextFrom_some {offset : Nat} {cs : List Char} {item : Item} {q : Cursor}
    (h : nextFrom offset cs = (some item, q)) :
    ∃ blanks piece, Cuts ⟨offset, cs⟩ item q blanks piece := by
  induction cs generalizing offset with
  | nil =>
    rw [nextFrom] at h
    cases h
  | cons c cs ih =>
    rw [nextFrom] at h
    by_cases hc : isSeparator c = true
    · simp only [hc, if_true] at h
      obtain ⟨blanks, piece, hcut⟩ := ih h
      have hrest : cs = blanks ++ piece ++ q.rest := hcut.rest_eq
      refine ⟨c :: blanks, piece, ?_, List.forall_mem_cons.mpr ⟨hc, hcut.blanks_only⟩,
        hcut.piece_ne_nil, ?_, hcut.stop_eq, fun t ht => ?_⟩
      · simp [hrest]
      · have hoff := hcut.offset_eq
        simp only [Text.byteLength_cons] at hoff ⊢
        omega
      · obtain ⟨hoff, hspan⟩ := hcut.token t ht
        refine ⟨?_, hspan⟩
        simp only [Text.byteLength_cons] at hoff ⊢
        omega
    · have hc : isSeparator c = false := by simpa using hc
      obtain ⟨read, hcs, hread⟩ := scanToken_split hc cs
      simp only [hc, Bool.false_eq_true, if_false] at h
      have hlen : Text.byteLength (c :: cs) =
          Text.byteLength (c :: read) + Text.byteLength (scanToken c cs).2 := by
        conv_lhs => rw [hcs, ← List.cons_append, Text.byteLength_append]
      rw [hlen, Nat.add_sub_cancel_right] at h
      cases h
      refine ⟨[], c :: read, ?_, fun d hd => absurd hd List.not_mem_nil, List.cons_ne_nil c read,
        by simp, rfl, fun t ht => ?_⟩
      · simpa using hcs
      · cases hf : (scanToken c cs).1 with
        | error fault => simp [Item.place, hf] at ht
        | ok kind =>
          have hspan := scan_of_scanToken hc (hread kind hf)
          simp only [Item.place, hf, Except.ok.injEq, Nat.add_sub_cancel_left] at ht
          subst ht
          exact ⟨by simp, rfl, rfl, hspan⟩

/-- A cursor that stands in a line behind some of its characters. -/
def On (p : Cursor) (line : String) : Prop :=
  ∃ read, line.toList = read ++ p.rest ∧ p.offset = Text.byteLength read

/-- Calls from one cursor lead to the other. -/
abbrev Reaches : Cursor → Cursor → Prop :=
  Relation.ReflTransGen fun p q => q = p.next.2

/-- Calling again and again from `p` reads these items and then none, which leaves the cursor
at `q`. -/
inductive Reads : Cursor → List Item → Cursor → Prop
  | none {p q : Cursor} : p.next = (none, q) → Reads p [] q
  | some {p q r : Cursor} {item : Item} {items : List Item} : p.next = (some item, q) →
    Reads q items r → Reads p (item :: items) r

theorem next_none {p q : Cursor} (h : p.next = (none, q)) :
    OnlySeparators p.rest ∧ q.offset = p.offset + Text.byteLength p.rest ∧ q.rest = [] :=
  nextFrom_none h

theorem next_some {p q : Cursor} {item : Item} (h : p.next = (some item, q)) :
    ∃ blanks piece, Cuts p item q blanks piece :=
  nextFrom_some h

theorem Cuts.offset_lt {p q : Cursor} {item : Item} {blanks piece : List Char}
    (h : Cuts p item q blanks piece) : p.offset < q.offset := by
  have hpos := Text.byteLength_pos h.piece_ne_nil
  have hoff := h.offset_eq
  omega

theorem scanFrom_eq_next (p : Cursor) : scanFrom p.offset p.rest = match p.next with
    | (none, _) => []
    | (some item, q) => item :: scanFrom q.offset q.rest :=
  scanFrom_eq_nextFrom p.offset p.rest

/-- Every call that reads an item leaves less to read, so the calls come to an end, and they read
what scanning finds. -/
theorem reads_scanFrom (p : Cursor) : ∃ q, p.Reads (scanFrom p.offset p.rest) q := by
  induction hn : p.rest.length using Nat.strong_induction_on generalizing p with
  | _ n ih =>
    rw [scanFrom_eq_next]
    rcases hp : p.next with ⟨_ | item, q⟩
    · exact ⟨q, .none hp⟩
    · obtain ⟨blanks, piece, hcut⟩ := next_some hp
      have hlen : q.rest.length < n := by
        have hrest := congrArg List.length hcut.rest_eq
        have hpos := List.length_pos_of_ne_nil hcut.piece_ne_nil
        simp only [List.length_append] at hrest
        omega
      obtain ⟨r, hr⟩ := ih q.rest.length hlen q rfl
      exact ⟨r, .some hp hr⟩

/-- The calls can read nothing else. -/
theorem Reads.items_eq {p q : Cursor} {items : List Item} (h : p.Reads items q) :
    items = scanFrom p.offset p.rest := by
  induction h with
  | none hp => rw [scanFrom_eq_next, hp]
  | some hp _ ih => rw [scanFrom_eq_next, hp, ih]

theorem On.next {p q : Cursor} {line : String} {answer : Option Item} (h : p.On line)
    (hp : p.next = (answer, q)) : q.On line := by
  obtain ⟨read, hline, hoff⟩ := h
  cases answer with
  | none =>
    obtain ⟨-, hq, hrest⟩ := next_none hp
    exact ⟨read ++ p.rest, by simp [hline, hrest], by simp [hq, hoff]⟩
  | some item =>
    obtain ⟨blanks, piece, hcut⟩ := next_some hp
    have hrest := hcut.rest_eq
    have hq := hcut.offset_eq
    refine ⟨read ++ blanks ++ piece, ?_, ?_⟩
    · simp only [hline, hrest, List.append_assoc]
    · simp only [Text.byteLength_append]
      omega

theorem on_start (line : String) : (start line).On line :=
  ⟨[], rfl, rfl⟩

theorem On.reaches {p q : Cursor} {line : String} (h : p.On line) (hr : p.Reaches q) :
    q.On line := by
  induction hr with
  | refl => exact h
  | tail _ hq ih => exact ih.next (Prod.ext rfl hq.symm)

/-- A place behind some characters of a line is the boundary of a character. -/
theorem On.isValid {p : Cursor} {line : String} (h : p.On line) :
    (⟨p.offset⟩ : String.Pos.Raw).IsValid line := by
  obtain ⟨read, hline, hoff⟩ := h
  refine String.Pos.Raw.isValid_iff_exists_append.mpr
    ⟨String.ofList read, String.ofList p.rest, ?_, ?_⟩
  · rw [← String.ofList_append, ← hline, String.ofList_toList]
  · apply String.Pos.Raw.ext
    rw [hoff, Text.byteLength_eq_utf8Len, ← String.utf8ByteSize_ofList]
    rfl

theorem On.offset_of_none {p q : Cursor} {line : String} (h : p.On line)
    (hp : p.next = (none, q)) : q.offset = line.utf8ByteSize := by
  obtain ⟨read, hline, hoff⟩ := h
  have hq := (next_none hp).2.1
  rw [← Text.byteLength_toList, hline, Text.byteLength_append, hq, hoff]

theorem On.offset_le {p : Cursor} {line : String} (h : p.On line) :
    p.offset ≤ line.utf8ByteSize := by
  obtain ⟨read, hline, hoff⟩ := h
  rw [← Text.byteLength_toList, hline, Text.byteLength_append]
  omega

theorem Reads.offset_eq {p q : Cursor} {items : List Item} {line : String}
    (hr : p.Reads items q) (h : p.On line) : q.offset = line.utf8ByteSize := by
  induction hr with
  | none hp => exact h.offset_of_none hp
  | some hp _ ih => exact ih (h.next hp)

/-- Reading a line call by call loses nothing and comes to an end: the calls read the items of
the line and leave the cursor at its end. On the way the cursor is always at the boundary of a
character; a call that reads an item moves it on, over separators and then over one piece of the
line, and a token's span is that piece, which alone is read as that token. -/
theorem calls_cut_line (line : String) :
    (∃ last, (start line).Reads (scan line) last ∧ last.offset = line.utf8ByteSize) ∧
      ∀ p, (start line).Reaches p →
        (⟨p.offset⟩ : String.Pos.Raw).IsValid line ∧ p.offset ≤ line.utf8ByteSize ∧ p.On line ∧
        (∀ q, p.next = (none, q) →
          OnlySeparators p.rest ∧ q.offset = line.utf8ByteSize ∧ q.rest = []) ∧
        ∀ item q, p.next = (some item, q) →
          p.offset < q.offset ∧ ∃ blanks piece, Cuts p item q blanks piece := by
  obtain ⟨last, hlast⟩ := reads_scanFrom (start line)
  refine ⟨⟨last, hlast, hlast.offset_eq (on_start line)⟩, fun p hp => ?_⟩
  have hon := (on_start line).reaches hp
  refine ⟨hon.isValid, hon.offset_le, hon, fun q hq => ?_, fun item q hq => ?_⟩
  · obtain ⟨hblank, -, hrest⟩ := next_none hq
    exact ⟨hblank, hon.offset_of_none hq, hrest⟩
  · obtain ⟨blanks, piece, hcut⟩ := next_some hq
    exact ⟨hcut.offset_lt, blanks, piece, hcut⟩

end Cursor

end TreeShell
