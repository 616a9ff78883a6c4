import TreeShell.Text.Blank

/-! The lines a user submitted, in a ring of slots: when it is full, the newest line takes the
slot of the oldest. A cursor walks the lines; without one the user is at a fresh line. -/

namespace TreeShell

/-- The slot of the line at index `i`, the oldest at 0, is `head + i` around the ring. -/
structure History where
  slots : Array (Option String)
  head : Nat
  length : Nat
  cursor : Option Nat
  deriving DecidableEq, Repr

namespace History

def withCapacity (capacity : Nat) : History :=
  ⟨Array.replicate capacity none, 0, 0, none⟩

/-- The empty history of a capacity, which must not be zero. -/
def ofCapacity? (capacity : Nat) : Option History :=
  if capacity = 0 then none else some (withCapacity capacity)

/-- What a host is told that asks for a history without room. -/
def capacityRule : String :=
  "CommandHistory capacity must be greater than 0"

def capacity (h : History) : Nat :=
  h.slots.size

def isEmpty (h : History) : Bool :=
  h.length = 0

def slotOf (h : History) (i : Nat) : Nat :=
  (h.head + i) % h.capacity

/-- The line at index `i`. -/
def get? (h : History) (i : Nat) : Option String :=
  if i < h.length then h.slots[h.slotOf i]?.join else none

/-- All lines, the oldest first. -/
def toList (h : History) : List String :=
  (List.range h.length).filterMap h.get?

def newest? (h : History) : Option String :=
  if h.length = 0 then none else h.get? (h.length - 1)

/-- Forgets where the cursor was. -/
def reset (h : History) : History :=
  { h with cursor := none }

/-- Puts a line behind the newest one. -/
def record (line : String) (h : History) : History :=
  let slots := h.slots.setIfInBounds (h.slotOf h.length) (some line)
  if h.length = h.capacity then { h with slots, head := (h.head + 1) % h.capacity }
  else { h with slots, length := h.length + 1 }

/-- Records a submitted line, unless it is blank or repeats the newest one. -/
def push (line : String) (h : History) : History :=
  if Text.allBlank line.toList || h.newest? = some line then h.reset
  else h.reset.record line

/-- Goes one line back and stays at the oldest. -/
def older (h : History) : Option String × History :=
  if h.length = 0 then (none, h)
  else
    let i := h.cursor.elim (h.length - 1) (· - 1)
    (h.get? i, { h with cursor := some i })

/-- Goes one line forward; beyond the newest the line is fresh again. -/
def newer (h : History) : Option String × History :=
  match h.cursor with
  | none => (none, h.reset)
  | some i =>
    if i + 1 < h.length then (h.get? (i + 1), { h with cursor := some (i + 1) })
    else (none, h.reset)

end History

end TreeShell
