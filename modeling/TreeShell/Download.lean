import TreeShell.Text.Cut

/-! Names for downloads: the last part of a URL's path, and numbered names where that one is
taken. Such a name can always stand as an entry of a directory. -/

namespace TreeShell.Download

/-- The name that a download gets when its URL has none. -/
def defaultName : String := "index.html"

/-- The part of a text behind the first place where `mark` stands in it. -/
def textAfter? (mark : List Char) : List Char → Option (List Char)
  | [] => if mark.isEmpty then some [] else none
  | c :: cs =>
    if mark.isPrefixOf (c :: cs) then some ((c :: cs).drop mark.length)
    else textAfter? mark cs

/-- A URL without its query and fragment. -/
def location (url : List Char) : List Char :=
  url.takeWhile fun c => c != '?' && c != '#'

/-- The path of a URL: what follows the slash behind the host, or all of it where no scheme
announces a host. -/
def path (url : List Char) : List Char :=
  match textAfter? [':', '/', '/'] (location url) with
  | some rest => (rest.dropWhile (· != '/')).drop 1
  | none => location url

/-- The name to save a URL under. -/
def nameOf (url : String) : String :=
  let name := String.ofList (Text.cutAfterLast (· = '/') (path url.toList)).2
  if name = "" || name = "." || name = ".." then defaultName else name

/-- The name that is tried after `n` names were found taken. All of them are entries of one
directory, so a counter of 32 bits would run over only where that has 2³¹ entries, more than a
session can hold; that is why `n` needs no bound. -/
def candidate (name : String) (n : Nat) : String :=
  if n = 0 then name else name ++ "." ++ toString n

end TreeShell.Download
