/-
Sessions: a download asks the network for blocks under a session of its own, which ends when the
download does. A session can only be made with the next number of one counter and for the download's
own token, so that no two have the same number, whoever opens them; here they are numbered in the
order in which a downloader opens them.
-/
namespace BlockDag

/-- A session's number; the first one is 1. -/
abbrev SessionId := Nat

/-- Why the network refused a fetch. -/
inductive FetchError where
  | cancelled (session : SessionId)
  | transport (text : String)
deriving DecidableEq

/-- The wording. -/
def FetchError.message : FetchError → String
  | cancelled session => s!"session #{session} is cancelled"
  | transport text => "fetch failed: " ++ text

end BlockDag
