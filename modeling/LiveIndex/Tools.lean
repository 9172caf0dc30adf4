import LiveIndex.Index.Search
import LiveIndex.Number.Fixed
import LiveIndex.Number.Shortest

/-! The tools of a server and what they answer. -/

namespace LiveIndex.Tools

/-- What can be asked of a server: its four tools, and to be started and ended. A started server
keeps its index current if it watches. -/
inductive Call
  | search (query : String) (exact : Bool) (limit : Int)
  | stats
  | refresh
  | refreshFile (path : String)
  | enter (watch : Bool)
  | exit
  deriving DecidableEq, Repr

/-- An entry as it is answered. Search results have a score, rounded to three places, and the
attributes in which something was found, if any. -/
structure Hit where
  entry : Entry
  score : Option Rat
  foundIn : List Matching.Key

def Hit.ofSearch (h : Matching.Hit) : Hit where
  entry := h.entry
  score := some (Number.roundPlaces 3 h.score)
  foundIn := (h.found.getD []).map Matching.KeyMatch.key

def Hit.ofEntry (e : Entry) : Hit :=
  ⟨e, none, []⟩

/-- The results of a search and how it was understood. -/
structure Response where
  hits : List Hit
  isLogical : Bool
  terms : List String
  fault : Option Query.Fault

/-- The state of an index and of what keeps it current. -/
structure Status where
  root : String
  indexPath : String
  stats : Stats
  version : Int
  watching : Bool
  pending : Nat
  missed : Nat

/-- What a tool answers. -/
inductive Answer
  | nothing
  | response (r : Response)
  | status (s : Status)
  | rebuilt (entries : Nat)
  | file (h : Option Hit)

/-- The response to a literal search. -/
def Response.literal (query : String) (hits : List Matching.Hit) : Response where
  hits := hits.map Hit.ofSearch
  isLogical := false
  terms := if Text.strip query = "" then [] else [Text.strip query]
  fault := none

/-- The response to a query. -/
def Response.ofFound (found : Index.Found) : Response where
  hits := found.hits.map Hit.ofSearch
  isLogical := found.parsed.isLogical
  terms := found.parsed.terms
  fault := found.parsed.fault

/-- What is said of changes as they are applied. -/
def updateText (changes : List Notice) : String :=
  let count (kind : NoticeKind) : String := toString (changes.countP fun c => c.kind = kind)
  "Index updated: +" ++ count .add ++ " ~" ++ count .change ++ " -" ++ count .remove ++ "\n"

/-- What is said when the index is ready. -/
def readyText (s : Stats) : String :=
  "Index ready: " ++ Number.grouped s.files ++ " files, " ++ Number.grouped s.directories ++
    " directories (0.0s)\n"

/-- Where a call waits. Preparing a tool means to load the index on first use. -/
inductive Waiting
  | preparing (keeper : Nat) (call : Call)
  | rebuilding
  | rereading
  | loading (keeper : Nat) (watch : Bool)
  | watching (keeper : Nat)
  | leaving

end LiveIndex.Tools
