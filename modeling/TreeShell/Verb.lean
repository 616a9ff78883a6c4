import TreeShell.Command
import TreeShell.Fetch
import TreeShell.FileError

/-! The verbs of the shell and the options they take. -/

namespace TreeShell

inductive Verb
  | cat
  | cd
  | clear
  | echo
  | ls
  | mkdir
  | pwd
  | rm
  | touch
  | wget
  | xdgOpen
  deriving DecidableEq, Repr

inductive Flag
  | all
  | parents
  | recursive
  deriving DecidableEq, Repr

/-- Why a verb does not run, or stops. -/
inductive CommandError
  | missingOperand
  | tooManyArguments
  | invalidOption (c : Char)
  | unrecognizedOption (name : String)
  | file (e : FileError)
  | fetch (e : FetchError)
  deriving DecidableEq, Repr

def CommandError.message : CommandError → String
  | .missingOperand => "missing operand"
  | .tooManyArguments => "too many arguments"
  | .invalidOption c => "invalid option -- '" ++ String.ofList [c] ++ "'"
  | .unrecognizedOption name => "unrecognized option '--" ++ name ++ "'"
  | .file e => e.message
  | .fetch e => e.message

namespace Verb

def name : Verb → String
  | .cat => "cat"
  | .cd => "cd"
  | .clear => "clear"
  | .echo => "echo"
  | .ls => "ls"
  | .mkdir => "mkdir"
  | .pwd => "pwd"
  | .rm => "rm"
  | .touch => "touch"
  | .wget => "wget"
  | .xdgOpen => "xdg-open"

/-- Every verb once, in the order of their names. -/
def all : List Verb :=
  [.cat, .cd, .clear, .echo, .ls, .mkdir, .pwd, .rm, .touch, .wget, .xdgOpen]

def names : List String :=
  all.map name

/-- The verb with exactly this name. -/
def ofName? (name : String) : Option Verb :=
  all.find? fun v => v.name = name

/-- The flag that a short option sets. -/
def shortFlag? : Verb → Char → Option Flag
  | .ls, 'a' => some .all
  | .mkdir, 'p' => some .parents
  | .rm, 'r' => some .recursive
  | .rm, 'R' => some .recursive
  | _, _ => none

/-- The flag that a long option sets. -/
def longFlag? : Verb → String → Option Flag
  | .ls, "all" => some .all
  | .mkdir, "parents" => some .parents
  | .rm, "recursive" => some .recursive
  | _, _ => none

/-- The flags that a command sets for a verb. A short option is a cluster of letters. The first
bad letter is reported, or if there is none the first bad long option. -/
def flags (v : Verb) (c : Command) : Except CommandError (List Flag) := do
  let short ← (c.shortOptions.flatMap String.toList).mapM fun letter =>
    (v.shortFlag? letter).elim (.error (.invalidOption letter)) .ok
  let long ← c.longOptions.mapM fun name =>
    (v.longFlag? name).elim (.error (.unrecognizedOption name)) .ok
  return short ++ long

/-- Whether a verb refuses to run without arguments. -/
def needsOperand : Verb → Bool
  | .cat | .mkdir | .rm | .touch | .wget | .xdgOpen => true
  | .cd | .clear | .echo | .ls | .pwd => false

theorem ofName?_name (v : Verb) : ofName? v.name = some v := by
  cases v <;> decide

theorem name_of_ofName? {name : String} {v : Verb} (h : ofName? name = some v) :
    v.name = name := by
  simpa using List.find?_some h

theorem names_sorted : names.Pairwise (· < ·) := by
  decide

end Verb

end TreeShell
