/-! JSON values as a manifest's text writes them. Numbers keep their text, and objects all
their fields in order, repeated ones too. -/

namespace TreeShell

/-- The text of a string; none where an escape leaves half of a surrogate pair alone. -/
abbrev Json.Text := Option String

inductive Json
  | null
  | bool (b : Bool)
  | number (digits : String)
  | string (text : Json.Text)
  | array (items : List Json)
  | object (fields : List (Json.Text × Json))

end TreeShell
