import TreeShell.Token.Scan

/-! Reading a line call by call. A cursor stands at a place in the line; a call skips the
separators behind it and reads one item, and at the end of the line it reads none. -/

namespace TreeShell

/-- A place in a line: its byte offset and the text that is still to be read. -/
structure Cursor where
  offset : Nat
  rest : List Char

namespace Cursor

/-- One call at byte `offset` of a line: what it reads, and where it leaves the cursor. -/
def nextFrom (offset : Nat) : List Char → Option Item × Cursor
  | [] => (none, ⟨offset, []⟩)
  | c :: cs =>
    if isSeparator c then nextFrom (offset + c.utf8Size) cs
    else
      let found := scanToken c cs
      let stop := offset + (Text.byteLength (c :: cs) - Text.byteLength found.2)
      (some (Item.place offset stop found.1), ⟨stop, found.2⟩)

def next (p : Cursor) : Option Item × Cursor :=
  nextFrom p.offset p.rest

/-- The cursor before a line. -/
def start (line : String) : Cursor :=
  ⟨0, line.toList⟩

end Cursor

/-- Scanning a text is to call again wherever a call has read an item. -/
theorem scanFrom_eq_nextFrom (offset : Nat) (cs : List Char) :
    scanFrom offset cs = match Cursor.nextFrom offset cs with
      | (none, _) => []
      | (some item, p) => item :: scanFrom p.offset p.rest := by
  induction cs generalizing offset with
  | nil => rw [scanFrom, Cursor.nextFrom]
  | cons c cs ih =>
    rw [scanFrom, Cursor.nextFrom]
    by_cases hc : isSeparator c = true
    · simp only [hc, if_true]
      exact ih _
    · simp only [hc, Bool.false_eq_true, if_false]

end TreeShell
