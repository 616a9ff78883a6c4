import TreeShell.Result
import TreeShell.Verb

/-! What each verb does. A verb with several operands takes them one after another and stops at
the first that fails; what it did for the earlier ones stays, what it had to say about them is
dropped. -/

namespace TreeShell

/-- Acts on each item in turn, until one fails. -/
def forEach {α β ε : Type} (act : α → Session → Except ε β × Session) :
    List α → Session → Except ε (List β) × Session
  | [], s => (.ok [], s)
  | a :: as, s =>
    match act a s with
    | (.error e, s) => (.error e, s)
    | (.ok b, s) =>
      match forEach act as s with
      | (.error e, s) => (.error e, s)
      | (.ok bs, s) => (.ok (b :: bs), s)

namespace Session

/-- The lines of a directory's listing. Names that start with a dot are left out of a directory
unless `all` is set. -/
def listing (all : Bool) (path : Option String) (s : Session) : Except FileError String :=
  match s.list path with
  | .error e => .error e
  | .ok names =>
    let hides := !all && path.all s.isDirectory
    let shown := names.filter fun name => !(hides && name.toList.head? = some '.')
    .ok (String.join (shown.map (· ++ "\n")))

/-- The listings of several paths, each under its path. -/
def listings (all : Bool) (paths : List String) (s : Session) : Except FileError String :=
  match paths with
  | [] => s.listing all none
  | [path] => s.listing all (some path)
  | paths => do
    let sections ← paths.mapM fun path => do
      return path ++ ":\n" ++ (← s.listing all (some path))
    return "\n".intercalate sections

/-- Fetches a URL and saves it. -/
def download (fetch : Fetcher) (url : String) (s : Session) :
    Except CommandError String × Session :=
  match fetch url with
  | .error e => (.error (.fetch e), s)
  | .ok bytes =>
    match s.saveDownload (Download.nameOf url) bytes url with
    | (.error e, s) => (.error (.file e), s)
    | (.ok name, s) => (.ok ("'" ++ name ++ "' saved\n"), s)

/-- An answer about files as the answer of a verb. -/
def report {α : Type} (toResult : α → Result) (answer : Except FileError α × Session) :
    Except CommandError Result × Session :=
  match answer with
  | (.error e, s) => (.error (.file e), s)
  | (.ok a, s) => (.ok (toResult a), s)

end Session

namespace Verb

/-- Runs a verb whose options are accepted. -/
def perform (v : Verb) (fetch : Fetcher) (flags : List Flag) (args : List String) (s : Session) :
    Except CommandError Result × Session :=
  match v with
  | .pwd => (.ok (.ofText (s.workingPath ++ "\n")), s)
  | .echo => (.ok (.ofText (" ".intercalate args ++ "\n")), s)
  | .clear => (.ok (.ofActions [.clear]), s)
  | .cd =>
    match args with
    | _ :: _ :: _ => (.error .tooManyArguments, s)
    | _ => Session.report (fun _ => .empty) (s.cd args.head?)
  | .mkdir =>
    Session.report (fun _ => .empty)
      (forEach (fun path s => s.mkdir path (flags.contains .parents)) args s)
  | .touch => Session.report (fun _ => .empty) (forEach Session.touch args s)
  | .rm =>
    Session.report (fun _ => .empty)
      (forEach (fun path s => s.rm path (flags.contains .recursive)) args s)
  | .cat =>
    Session.report (fun texts => .ofText (String.join texts))
      (forEach (fun path s => (s.cat path, s)) args s)
  | .xdgOpen =>
    Session.report (fun requests => .ofActions (requests.map .openFile))
      (forEach (fun path s => (s.openRequest path, s)) args s)
  | .ls => Session.report .ofText (s.listings (flags.contains .all) args, s)
  | .wget =>
    match forEach (Session.download fetch) args s with
    | (.error e, s) => (.error e, s)
    | (.ok lines, s) => (.ok (.ofText (String.join lines)), s)

/-- Runs a verb. Its options are examined first, then whether it has its operands. -/
def run (v : Verb) (fetch : Fetcher) (c : Command) (s : Session) :
    Except CommandError Result × Session :=
  match v.flags c with
  | .error e => (.error e, s)
  | .ok flags =>
    if v.needsOperand && c.arguments.isEmpty then (.error .missingOperand, s)
    else v.perform fetch flags c.arguments s

end Verb

end TreeShell
