import Mathlib.Data.List.Basic
import TreeShell.Terminal

/-! Which keys matter to a terminal. Only Enter runs anything: every other key moves the cursor
in the history at most, and only the answers to the arrows depend on that cursor. -/

namespace TreeShell

namespace History

theorem push_reset (line : String) (h : History) : h.reset.push line = h.push line := rfl

theorem reset_older (h : History) : h.older.2.reset = h.reset := by
  unfold older
  split <;> rfl

theorem reset_newer (h : History) : h.newer.2.reset = h.reset := by
  unfold newer
  split
  · rfl
  · split <;> rfl

end History

namespace KeyEvent

def submits (event : KeyEvent) : Bool :=
  !event.ctrl && event.key = "Enter"

def walks (event : KeyEvent) : Bool :=
  !event.ctrl && (event.key = "ArrowUp" || event.key = "ArrowDown")

def submitted (events : List KeyEvent) : List String :=
  (events.filter submits).map input

end KeyEvent

/-- One place of two sequences of keys: a key of both, of the old one alone, or of the new one
alone. A key that submits its line is in both. -/
inductive KeyEdit
  | keep (event : KeyEvent)
  | delete (event : KeyEvent) (idle : event.submits = false)
  | insert (event : KeyEvent) (idle : event.submits = false)

namespace KeyEdit

def old? : KeyEdit → Option KeyEvent
  | keep event | delete event _ => some event
  | insert .. => none

def new? : KeyEdit → Option KeyEvent
  | keep event | insert event _ => some event
  | delete .. => none

def before (edits : List KeyEdit) : List KeyEvent :=
  edits.filterMap old?

def after (edits : List KeyEdit) : List KeyEvent :=
  edits.filterMap new?

theorem submitted_before (edits : List KeyEdit) :
    KeyEvent.submitted (before edits) = KeyEvent.submitted (after edits) := by
  induction edits with
  | nil => rfl
  | cons edit edits ih =>
    simp only [KeyEvent.submitted, before, after] at ih ⊢
    cases edit with
    | keep event => by_cases h : event.submits <;> simp [old?, new?, h, ih]
    | delete event idle => simp [List.filterMap_cons, old?, new?, idle, ih]
    | insert event idle => simp [List.filterMap_cons, old?, new?, idle, ih]

end KeyEdit

namespace Terminal

def press (events : List KeyEvent) (t : Terminal) : Terminal :=
  events.foldl (fun t event => (t.handleKey event).2) t

def runLines (lines : List String) (t : Terminal) : Terminal :=
  lines.foldl (fun t line => (t.runLine line).2) t

/-- The terminal with the cursor of its history at a fresh line. -/
def fresh (t : Terminal) : Terminal :=
  { t with history := t.history.reset }

theorem prompt_fresh (t : Terminal) : t.fresh.prompt = t.prompt := rfl

theorem runLine_fresh (line : String) (t : Terminal) :
    t.fresh.runLine line = t.runLine line := by
  -- Recording a line forgets the cursor, and nothing else in a run reads it.
  have hp : t.fresh.history.push line = t.history.push line := History.push_reset line t.history
  simp only [runLine, prompt_fresh, hp]
  rfl

theorem handleKey_of_submits {event : KeyEvent} (h : event.submits = true) (t : Terminal) :
    t.handleKey event = t.runLine event.input := by
  obtain ⟨hc, hk⟩ : event.ctrl = false ∧ event.key = "Enter" := by
    simpa [KeyEvent.submits] using h
  simp [handleKey, hc, hk]

theorem fresh_handleControl (key input : String) (t : Terminal) :
    (t.handleControl key input).2.fresh = t.fresh := by
  unfold handleControl
  split <;> rfl

theorem fresh_handleKey {event : KeyEvent} (h : event.submits = false) (t : Terminal) :
    (t.handleKey event).2.fresh = t.fresh := by
  unfold handleKey
  split
  · exact fresh_handleControl _ _ t
  · rename_i hc
    split
    · rename_i hk
      simp [KeyEvent.submits, hc, hk] at h
    · rfl
    · simp only [fresh, History.reset_older]
    · simp only [fresh, History.reset_newer]
    · rfl

theorem handleKey_fresh {event : KeyEvent} (h : event.walks = false) (t : Terminal) :
    (t.fresh.handleKey event).1 = (t.handleKey event).1 := by
  unfold handleKey
  split
  · unfold handleControl
    split <;> rfl
  · rename_i hc
    split
    · rw [runLine_fresh]
    · rfl
    · rename_i hk
      simp [KeyEvent.walks, hc, hk] at h
    · rename_i hk
      simp [KeyEvent.walks, hc, hk] at h
    · rfl

theorem fresh_runLines (lines : List String) (t : Terminal) :
    (t.fresh.runLines lines).fresh = (t.runLines lines).fresh := by
  cases lines with
  | nil => rfl
  | cons line lines => simp only [runLines, List.foldl_cons, runLine_fresh]

theorem fresh_press (events : List KeyEvent) (t : Terminal) :
    (t.press events).fresh = (t.runLines (KeyEvent.submitted events)).fresh := by
  induction events generalizing t with
  | nil => rfl
  | cons event events ih =>
    have hs := ih (t.handleKey event).2
    -- A submitting key is its line; what any other key did is lost with the cursor.
    by_cases h : event.submits
    · rw [handleKey_of_submits h] at hs
      simpa [press, KeyEvent.submitted, runLines, h, handleKey_of_submits h] using hs
    · have hf := fresh_handleKey (Bool.eq_false_iff.mpr h) t
      rw [← fresh_runLines, hf, fresh_runLines] at hs
      simpa [press, KeyEvent.submitted, h] using hs

theorem fresh_press_edited (edits : List KeyEdit) (t : Terminal) :
    (t.press (KeyEdit.before edits)).fresh = (t.press (KeyEdit.after edits)).fresh := by
  rw [fresh_press, fresh_press, KeyEdit.submitted_before]

/-- The keys of a sequence do to the session and to the recorded lines what its submitted lines
do. Keys that submit nothing may be dropped and put in anywhere: wherever `edits` has brought
the two sequences, they show one prompt, and the next key is answered alike unless it is an
arrow. -/
theorem press_eq_runLines_submitted (t : Terminal) :
    (∀ events : List KeyEvent,
      (t.press events).session = (t.runLines (KeyEvent.submitted events)).session ∧
      (t.press events).history.toList =
        (t.runLines (KeyEvent.submitted events)).history.toList) ∧
    ∀ edits : List KeyEdit,
      (t.press (KeyEdit.before edits)).prompt = (t.press (KeyEdit.after edits)).prompt ∧
      ∀ event : KeyEvent, event.walks = false →
        ((t.press (KeyEdit.before edits)).handleKey event).1 =
          ((t.press (KeyEdit.after edits)).handleKey event).1 := by
  constructor
  · intro events
    have h := fresh_press events t
    have hs := congrArg Terminal.session h
    have hh := congrArg (fun t => t.history.toList) h
    exact ⟨hs, hh⟩
  · intro edits
    have h := fresh_press_edited edits t
    constructor
    · rw [← prompt_fresh, h, prompt_fresh]
    · intro event hw
      rw [← handleKey_fresh hw, h, handleKey_fresh hw]

end Terminal

end TreeShell
