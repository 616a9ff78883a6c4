import Mathlib.Data.List.Basic
import Mathlib.Data.Nat.ModEq
import TreeShell.History

/-! The ring of a history holds the newest of all lines that were ever recorded, and its cursor
walks them as a cursor would walk a list. -/

namespace TreeShell

/-- Every recorded line, the oldest first. The depth is the number of lines between the newest
and the one the user went back to; there is none at a fresh line. -/
structure Trail where
  lines : List String
  depth : Option Nat
  deriving DecidableEq, Repr

namespace Trail

/-- Lines that are blank and lines that repeat the one recorded just before are not kept. -/
def keep (lines : List String) (line : String) : List String :=
  if Text.allBlank line.toList || lines.getLast? = some line then lines else lines ++ [line]

/-- What is recorded of the lines that are pushed. -/
def recorded (pushed : List String) : List String :=
  pushed.foldl keep []

def start : Trail := ⟨[], none⟩

def push (line : String) (t : Trail) : Trail :=
  ⟨keep t.lines line, none⟩

def fresh (t : Trail) : Trail :=
  { t with depth := none }

/-- One line forward; beyond the newest the line is fresh. -/
def forth (t : Trail) : Trail :=
  { t with depth := match t.depth with
      | some (k + 1) => some k
      | _ => none }

section Window

variable (capacity : Nat) (t : Trail)

/-- The newest lines, at most as many as there is room for. -/
def window : List String :=
  t.lines.drop (t.lines.length - capacity)

/-- One line back: from a fresh line to the newest, from the oldest in the window to itself. -/
def back : Trail :=
  if t.window capacity = [] then t
  else
    let oldest := (t.window capacity).length - 1
    { t with depth := some (t.depth.elim 0 fun k => min (k + 1) oldest) }

def current? : Option String :=
  t.depth.bind fun k => (t.window capacity).reverse[k]?

theorem length_window : (t.window capacity).length = min t.lines.length capacity := by
  rw [window, List.length_drop]
  omega

theorem window_concat (line : String) :
    window capacity ⟨t.lines ++ [line], none⟩ =
      (t.window capacity ++ [line]).drop ((t.window capacity).length + 1 - capacity) := by
  have hle : t.lines.length - capacity ≤ t.lines.length := Nat.sub_le _ _
  rw [length_window, window, window, ← List.drop_append_of_le_length hle, List.drop_drop,
    List.length_append, List.length_singleton]
  congr 1
  omega

theorem getLast?_window {capacity : Nat} (hc : 0 < capacity) (t : Trail) :
    (t.window capacity).getLast? = t.lines.getLast? := by
  rw [window, List.getLast?_drop]
  split
  · rename_i hle
    have hnil : t.lines = [] := List.eq_nil_of_length_eq_zero (by omega)
    rw [hnil]
    rfl
  · rfl

end Window

end Trail

namespace History

inductive Operation
  | push (line : String)
  | older
  | newer
  | reset

namespace Operation

def run : Operation → History → Option String × History
  | push line, h => (none, h.push line)
  | older, h => h.older
  | newer, h => h.newer
  | reset, h => (none, h.reset)

/-- The same on the list of all lines. Each move answers with the line it arrives at. -/
def follow (capacity : Nat) : Operation → Trail → Option String × Trail
  | push line, t => (none, t.push line)
  | older, t => ((t.back capacity).current? capacity, t.back capacity)
  | newer, t => (t.forth.current? capacity, t.forth)
  | reset, t => (none, t.fresh)

def pushed? : Operation → Option String
  | push line => some line
  | _ => none

end Operation

/-- The answers to some operations in turn, and the state behind the last. -/
def replay {σ : Type} (act : Operation → σ → Option String × σ) :
    List Operation → σ → List (Option String) × σ
  | [], s => ([], s)
  | op :: ops, s =>
    ((act op s).1 :: (replay act ops (act op s).2).1, (replay act ops (act op s).2).2)

/-- The lines of a ring are those of a list, for which it has room. -/
structure Holds (h : History) (w : List String) : Prop where
  length_eq : h.length = w.length
  length_le : h.length ≤ h.capacity
  get?_eq : ∀ i, h.get? i = w[i]?

section Ring

variable {h : History} {w : List String} {line : String}

theorem slotOf_injective {i j : Nat} (hi : i < h.capacity) (hj : j < h.capacity)
    (he : h.slotOf i = h.slotOf j) : i = j := by
  have hmod : i % h.capacity = j % h.capacity := Nat.ModEq.add_left_cancel' h.head he
  rwa [Nat.mod_eq_of_lt hi, Nat.mod_eq_of_lt hj] at hmod

theorem capacity_record : (h.record line).capacity = h.capacity := by
  unfold record capacity
  split <;> simp

/-- What is read at one place behind the head after a line was put at another. -/
theorem join_setIfInBounds {i j : Nat} (hi : i < h.capacity) (hj : j < h.capacity) :
    (h.slots.setIfInBounds (h.slotOf j) (some line))[h.slotOf i]?.join =
      if i = j then some line else h.slots[h.slotOf i]?.join := by
  have hin : h.slotOf j < h.slots.size := Nat.mod_lt _ (Nat.zero_lt_of_lt hj)
  by_cases he : i = j
  · subst he
    simp [hin]
  · have hne : h.slotOf j ≠ h.slotOf i := fun hs => he (slotOf_injective hi hj hs.symm)
    rw [if_neg he, Array.getElem?_setIfInBounds_ne hne]

theorem get?_record_of_lt (hlt : h.length < h.capacity) (i : Nat) :
    (h.record line).get? i =
      if i < h.length then h.get? i else if i = h.length then some line else none := by
  have hrecord : h.record line =
      { h with
        slots := h.slots.setIfInBounds (h.slotOf h.length) (some line)
        length := h.length + 1 } := if_neg (Nat.ne_of_lt hlt)
  have hslot : (h.record line).slotOf i = h.slotOf i := by
    rw [slotOf, capacity_record, hrecord]
    rfl
  rw [get?, hslot, hrecord]
  by_cases hi : i < h.length + 1
  · rw [if_pos hi, join_setIfInBounds (by omega) hlt]
    by_cases he : i = h.length
    · rw [if_pos he, if_neg (by omega), if_pos he]
    · rw [if_neg he, if_pos (by omega), get?, if_pos (by omega)]
  · rw [if_neg hi, if_neg (by omega), if_neg (by omega)]

/-- In a full ring the new line takes the place of the oldest, and the second is the oldest. -/
theorem get?_record_of_full (hc : 0 < h.capacity) (hfull : h.length = h.capacity) (i : Nat) :
    (h.record line).get? i =
      if i + 1 < h.length then h.get? (i + 1)
      else if i + 1 = h.length then some line
      else none := by
  have hhead : h.slotOf h.length = h.slotOf 0 := by
    rw [slotOf, hfull, Nat.add_mod_right, slotOf, Nat.add_zero]
  have hrecord : h.record line =
      { h with
        slots := h.slots.setIfInBounds (h.slotOf 0) (some line)
        head := (h.head + 1) % h.capacity } := by
    rw [record, if_pos hfull, hhead]
  have hslot : (h.record line).slotOf i = h.slotOf (i + 1) := by
    rw [slotOf, capacity_record, hrecord, Nat.mod_add_mod, Nat.add_right_comm, Nat.add_assoc]
    rfl
  rw [get?, hslot, hrecord]
  by_cases hi : i < h.length
  · rw [if_pos hi]
    by_cases he : i + 1 = h.length
    · have hwrap : h.slotOf (i + 1) = h.slotOf 0 := he ▸ hhead
      rw [hwrap, join_setIfInBounds hc hc, if_pos rfl, if_neg (by omega), if_pos he]
    · rw [join_setIfInBounds (by omega) hc, if_neg (Nat.succ_ne_zero i), if_pos (by omega), get?,
        if_pos (by omega)]
  · rw [if_neg hi, if_neg (by omega), if_neg (by omega)]

theorem Holds.newest? (hw : h.Holds w) : h.newest? = w.getLast? := by
  rw [History.newest?, List.getLast?_eq_getElem?, ← hw.length_eq, hw.get?_eq]
  split
  · rename_i hz
    rw [List.eq_nil_of_length_eq_zero (hw.length_eq.symm.trans hz)]
    rfl
  · rfl

theorem Holds.record (hw : h.Holds w) (hc : 0 < h.capacity) (line : String) :
    (h.record line).Holds ((w ++ [line]).drop (w.length + 1 - h.capacity)) := by
  have hlen := hw.length_eq
  have hle := hw.length_le
  have hget : ∀ i, (w ++ [line])[i]? =
      if i < h.length then h.get? i else if i = h.length then some line else none := by
    intro i
    rw [List.getElem?_append, hw.get?_eq, hlen]
    split
    · rfl
    · rename_i hi
      rw [List.getElem?_singleton]
      have he : i - w.length = 0 ↔ i = w.length := by omega
      simp only [he]
  by_cases hfull : h.length = h.capacity
  · have hrecord : (h.record line).length = h.length := by simp [History.record, hfull]
    refine ⟨?_, ?_, fun i => ?_⟩
    · rw [hrecord, List.length_drop, List.length_append, List.length_singleton]
      omega
    · rw [hrecord, capacity_record]
      exact hle
    · have hone : w.length + 1 - h.capacity = 1 := by omega
      rw [get?_record_of_full hc hfull, hone, List.getElem?_drop, Nat.add_comm 1 i, hget]
  · have hrecord : (h.record line).length = h.length + 1 := by simp [History.record, hfull]
    refine ⟨?_, ?_, fun i => ?_⟩
    · rw [hrecord, List.length_drop, List.length_append, List.length_singleton]
      omega
    · rw [hrecord, capacity_record]
      omega
    · have hzero : w.length + 1 - h.capacity = 0 := by omega
      rw [get?_record_of_lt (by omega), hzero, List.drop_zero, hget]

end Ring

/-- A ring and its cursor beside the list of all lines that were ever recorded. -/
structure Tracks (capacity : Nat) (h : History) (t : Trail) : Prop where
  capacity_eq : h.capacity = capacity
  holds : h.Holds (t.window capacity)
  cursor_eq : h.cursor = t.depth.map fun k => h.length - 1 - k
  depth_lt : ∀ k ∈ t.depth, k < h.length

namespace Tracks

variable {capacity : Nat} {h : History} {t : Trail}

theorem start (capacity : Nat) : Tracks capacity (withCapacity capacity) .start where
  capacity_eq := by simp [History.capacity, withCapacity]
  holds := by
    have hnil : Trail.start.window capacity = [] := List.drop_nil
    rw [hnil]
    exact ⟨rfl, Nat.zero_le _, fun i => by simp [get?, withCapacity]⟩
  cursor_eq := rfl
  depth_lt := by simp [Trail.start]

theorem moved (ht : Tracks capacity h t) (depth : Option Nat)
    (hd : ∀ k ∈ depth, k < h.length) :
    Tracks capacity { h with cursor := depth.map fun k => h.length - 1 - k } { t with depth } where
  capacity_eq := ht.capacity_eq
  holds := ⟨ht.holds.length_eq, ht.holds.length_le, ht.holds.get?_eq⟩
  cursor_eq := rfl
  depth_lt := hd

theorem current?_eq (ht : Tracks capacity h t) :
    t.current? capacity = h.cursor.bind h.get? := by
  rw [ht.cursor_eq, Trail.current?]
  cases hd : t.depth with
  | none => rfl
  | some k =>
    have hk := ht.depth_lt k hd
    have hlen := ht.holds.length_eq
    rw [Option.bind_some, Option.map_some, Option.bind_some, ht.holds.get?_eq,
      List.getElem?_reverse (by omega), hlen]

theorem cursor_lt (ht : Tracks capacity h t) : ∀ i ∈ h.cursor, i < h.length := by
  intro i hi
  rw [ht.cursor_eq] at hi
  obtain ⟨k, hk, rfl⟩ := Option.mem_map.mp hi
  have hlt := ht.depth_lt k hk
  omega

theorem get?_eq_none_iff (ht : Tracks capacity h t) (i : Nat) :
    h.get? i = none ↔ h.length ≤ i := by
  rw [ht.holds.get?_eq, List.getElem?_eq_none_iff, ← ht.holds.length_eq]

theorem older_eq_none_iff (ht : Tracks capacity h t) : h.older.1 = none ↔ h.length = 0 := by
  by_cases hz : h.length = 0
  · rw [History.older, if_pos hz]
    exact iff_of_true rfl hz
  · have hlt : h.cursor.elim (h.length - 1) (· - 1) < h.length := by
      cases hcur : h.cursor with
      | none => exact Nat.sub_one_lt hz
      | some i => exact Nat.lt_of_le_of_lt (Nat.sub_le i 1) (ht.cursor_lt i hcur)
    rw [History.older, if_neg hz]
    exact iff_of_false (fun hn => Nat.not_le_of_lt hlt ((ht.get?_eq_none_iff _).mp hn)) hz

theorem reset (ht : Tracks capacity h t) : Tracks capacity h.reset t.fresh :=
  ht.moved none (by simp)

theorem push (hc : 0 < capacity) (ht : Tracks capacity h t) (line : String) :
    Tracks capacity (h.push line) (t.push line) := by
  have hnewest : h.newest? = t.lines.getLast? := by
    rw [ht.holds.newest?, Trail.getLast?_window hc]
  have hroom : 0 < h.reset.capacity := ht.capacity_eq ▸ hc
  rw [History.push, Trail.push, Trail.keep, hnewest]
  split
  · exact ht.reset
  · refine ⟨capacity_record.trans ht.capacity_eq, ?_, ?_, by simp⟩
    · have hholds := ht.reset.holds.record hroom line
      rw [ht.reset.capacity_eq] at hholds
      rwa [Trail.window_concat]
    · unfold record
      split <;> rfl

theorem older (ht : Tracks capacity h t) :
    Tracks capacity h.older.2 (t.back capacity) ∧
      h.older.1 = (t.back capacity).current? capacity := by
  have hlen := ht.holds.length_eq
  by_cases hz : h.length = 0
  · have hnil : t.window capacity = [] := List.eq_nil_of_length_eq_zero (hlen ▸ hz)
    have hcur : t.current? capacity = none := by
      rw [Trail.current?, hnil]
      cases t.depth <;> rfl
    rw [History.older, if_pos hz, Trail.back, if_pos hnil]
    exact ⟨ht, hcur.symm⟩
  · have hne : t.window capacity ≠ [] := fun he => hz (by rw [hlen, he]; rfl)
    have hin : ∀ k ∈ some (t.depth.elim 0 fun k => min (k + 1) (h.length - 1)), k < h.length := by
      rintro k ⟨rfl⟩
      cases t.depth with
      | none => exact Nat.pos_of_ne_zero hz
      | some k =>
        simp only [Option.elim_some]
        omega
    -- One step back is one step deeper, but at the oldest line neither side moves.
    have hcursor : h.cursor.elim (h.length - 1) (· - 1) =
        h.length - 1 - t.depth.elim 0 fun k => min (k + 1) (h.length - 1) := by
      rw [ht.cursor_eq]
      cases t.depth with
      | none => rfl
      | some k =>
        simp only [Option.map_some, Option.elim_some]
        omega
    have ht' := ht.moved _ hin
    rw [Option.map_some, ← hcursor] at ht'
    rw [History.older, if_neg hz, Trail.back, if_neg hne, ← hlen]
    exact ⟨ht', ht'.current?_eq.symm⟩

theorem newer (ht : Tracks capacity h t) :
    Tracks capacity h.newer.2 t.forth ∧ h.newer.1 = t.forth.current? capacity := by
  have hcursor := ht.cursor_eq
  obtain hd | hd | ⟨k, hd⟩ : t.depth = none ∨ t.depth = some 0 ∨ ∃ k, t.depth = some (k + 1) := by
    cases t.depth with
    | none => exact .inl rfl
    | some k => cases k <;> simp
  · have hn : h.newer = (none, h.reset) := by simp [History.newer, hcursor, hd]
    have hf : t.forth = t.fresh := by simp [Trail.forth, Trail.fresh, hd]
    rw [hn, hf]
    exact ⟨ht.reset, rfl⟩
  · have hk := ht.depth_lt 0 hd
    have hn : h.newer = (none, h.reset) := by
      simp only [History.newer, hcursor, hd, Option.map_some]
      rw [if_neg (by omega)]
    have hf : t.forth = t.fresh := by simp [Trail.forth, Trail.fresh, hd]
    rw [hn, hf]
    exact ⟨ht.reset, rfl⟩
  · have hk := ht.depth_lt (k + 1) hd
    have hi : h.length - 1 - (k + 1) + 1 = h.length - 1 - k := by omega
    have hn : h.newer =
        (h.get? (h.length - 1 - k), { h with cursor := some (h.length - 1 - k) }) := by
      simp only [History.newer, hcursor, hd, Option.map_some, hi]
      rw [if_pos (by omega)]
    have hf : t.forth = { t with depth := some k } := by simp [Trail.forth, hd]
    have ht' := ht.moved (some k) fun j hj => by
      obtain rfl := Option.mem_some_iff.mp hj
      omega
    rw [hn, hf]
    exact ⟨ht', ht'.current?_eq.symm⟩

theorem run (hc : 0 < capacity) (ht : Tracks capacity h t) (op : Operation) :
    Tracks capacity (op.run h).2 (op.follow capacity t).2 ∧
      (op.run h).1 = (op.follow capacity t).1 := by
  cases op with
  | push line => exact ⟨ht.push hc line, rfl⟩
  | older => exact ht.older
  | newer => exact ht.newer
  | reset => exact ⟨ht.reset, rfl⟩

theorem replay (hc : 0 < capacity) (ht : Tracks capacity h t) (ops : List Operation) :
    Tracks capacity (replay Operation.run ops h).2
        (History.replay (Operation.follow capacity) ops t).2 ∧
      (History.replay Operation.run ops h).1 =
        (History.replay (Operation.follow capacity) ops t).1 := by
  induction ops generalizing h t with
  | nil => exact ⟨ht, rfl⟩
  | cons op ops ih =>
    obtain ⟨ht', ha⟩ := ht.run hc op
    obtain ⟨ht'', has⟩ := ih ht'
    exact ⟨ht'', congrArg₂ List.cons ha has⟩

end Tracks

theorem lines_follow (capacity : Nat) (op : Operation) (t : Trail) :
    (op.follow capacity t).2.lines = op.pushed?.toList.foldl Trail.keep t.lines := by
  cases op with
  | push line => rfl
  | older =>
    simp only [Operation.follow, Trail.back]
    split <;> rfl
  | newer => rfl
  | reset => rfl

theorem lines_replay (capacity : Nat) (ops : List Operation) (t : Trail) :
    (replay (Operation.follow capacity) ops t).2.lines =
      (ops.filterMap Operation.pushed?).foldl Trail.keep t.lines := by
  induction ops generalizing t with
  | nil => rfl
  | cons op ops ih =>
    rw [replay, ih, lines_follow]
    cases op <;> rfl

/-- A history with room for at least one line answers every sequence of operations as a cursor on
the list of recorded lines does, of which it sees the newest as far as there is room. What it
holds are these lines, each at its place and none missing, and its cursor stands at one of
them. -/
theorem ring_follows_trail {capacity : Nat} (hc : 0 < capacity) (ops : List Operation) :
    ∃ empty, ofCapacity? capacity = some empty ∧
      let h := (replay Operation.run ops empty).2
      let lines := Trail.recorded (ops.filterMap Operation.pushed?)
      (replay Operation.run ops empty).1 =
        (replay (Operation.follow capacity) ops .start).1 ∧
      h.length = min lines.length capacity ∧
      (∀ i, h.get? i = (lines.drop (lines.length - h.length))[i]?) ∧
      (∀ i, h.get? i = none ↔ h.length ≤ i) ∧
      (∀ i ∈ h.cursor, i < h.length) ∧
      (h.older.1 = none ↔ h.length = 0) := by
  refine ⟨withCapacity capacity, if_neg (Nat.ne_of_gt hc), ?_⟩
  obtain ⟨ht, ha⟩ := (Tracks.start capacity).replay hc ops
  have hlines := lines_replay capacity ops .start
  intro h lines
  change _ = lines at hlines
  have hlen : h.length = min lines.length capacity := by
    rw [ht.holds.length_eq, Trail.length_window, hlines]
  refine ⟨ha, hlen, fun i => ?_, ht.get?_eq_none_iff, ht.cursor_lt, ht.older_eq_none_iff⟩
  have hdrop : lines.length - h.length = lines.length - capacity := by omega
  rw [ht.holds.get?_eq, Trail.window, hlines, hdrop]

/-- A ring of two slots that wraps around: blank lines and repeats stay out, the oldest line is
given up, and the cursor stays between the newest two. -/
theorem ring_follows_trail_two : 0 < 2 ∧ ∃ empty, ofCapacity? 2 = some empty ∧
    (replay Operation.run [.push "a", .push "b", .push "b", .push " ", .push "c", .older, .older,
      .older, .newer, .newer, .older] empty).1 =
        [none, none, none, none, none, some "c", some "b", some "b", some "c", none, some "c"] := by
  obtain ⟨empty, he, ha, -⟩ := ring_follows_trail (by decide : 0 < 2)
    [.push "a", .push "b", .push "b", .push " ", .push "c", .older, .older, .older, .newer, .newer,
      .older]
  refine ⟨by decide, empty, he, ha.trans ?_⟩
  decide +kernel

end History

end TreeShell
