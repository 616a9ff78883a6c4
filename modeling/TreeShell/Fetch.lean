/-! Fetching resources: the one way in which bytes come from outside. -/

namespace TreeShell

inductive FetchError
  | noWindow
  | requestCreationFailed
  | networkError (detail : String)
  | httpError (status : Nat)
  | responseReadFailed
  | timeout
  | notFound (url : String)
  deriving DecidableEq, Repr

def FetchError.message : FetchError → String
  | .noWindow => "browser window not available"
  | .requestCreationFailed => "failed to create request"
  | .networkError detail => "network error: " ++ detail
  | .httpError status => "HTTP error: " ++ toString status
  | .responseReadFailed => "failed to read response"
  | .timeout => "request timed out"
  | .notFound url => url ++ ": not found"

/-- Answers a URL with bytes or a reason why there are none, always the same. -/
abbrev Fetcher := String → Except FetchError (List UInt8)

/-- A fetcher that serves what a list holds, the first entry of a URL, and knows no other. -/
def Fetcher.ofList (resources : List (String × Except FetchError (List UInt8))) : Fetcher :=
  fun url => (resources.lookup url).getD (.error (.notFound url))

end TreeShell
