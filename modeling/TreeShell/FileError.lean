/-! Why an operation on files fails. Each cause keeps the path as the user typed it. -/

namespace TreeShell

inductive FileError
  | noSuchFileOrDirectory (path : String)
  | notADirectory (path : String)
  | isADirectory (path : String)
  | fileExists (path : String)
  | operationRefused (path : String)
  deriving DecidableEq, Repr

def FileError.message : FileError → String
  | .noSuchFileOrDirectory path => path ++ ": No such file or directory"
  | .notADirectory path => path ++ ": Not a directory"
  | .isADirectory path => path ++ ": Is a directory"
  | .fileExists path => "cannot create directory '" ++ path ++ "': File exists"
  | .operationRefused path => "refusing to remove '" ++ path ++ "': protected path"

end TreeShell
