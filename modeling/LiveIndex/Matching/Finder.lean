import LiveIndex.Entry
import LiveIndex.Matching.Score
import LiveIndex.Store.OrderedMap
import LiveIndex.Text.Blank
import LiveIndex.Text.Casing

/-! A set of entries that is searched by name and relative path. Hits are ranked by score, then by
the length of the relative path, and keep their order beyond that. -/

namespace LiveIndex.Matching

/-- The attributes of entries that can be searched. -/
inductive Key
  | path
  | name
  | relativePath
  | extension
  | size
  | created
  | modified
  | kind
  | isDirectory
  | unknown (label : String)
  deriving DecidableEq, Repr

namespace Key

def ofLabel : String → Key
  | "path" => path
  | "name" => name
  | "relative_path" => relativePath
  | "extension" => extension
  | "size" => size
  | "created_at" => created
  | "modified_at" => modified
  | "kind" => kind
  | "is_directory" => isDirectory
  | label => unknown label

def label : Key → String
  | path => "path"
  | name => "name"
  | relativePath => "relative_path"
  | extension => "extension"
  | size => "size"
  | created => "created_at"
  | modified => "modified_at"
  | kind => "kind"
  | isDirectory => "is_directory"
  | unknown label => label

/-- The text of an attribute. Zero and false are empty, like attributes that do not exist. -/
def value (e : Entry) : Key → String
  | path => e.path
  | name => e.name
  | relativePath => e.relativePath
  | extension => e.extension
  | size => if e.size = 0 then "" else toString e.size
  | created => e.created.plainText
  | modified => e.modified.plainText
  | kind => e.kind.word
  | isDirectory => if e.isDirectory then "True" else ""
  | unknown _ => ""

end Key

/-- Where a pattern was found in one attribute of an entry. -/
structure KeyMatch where
  key : Key
  value : String
  spans : List Span
  deriving DecidableEq, Repr

/-- One search result. Exact search finds no places. -/
structure Hit where
  entry : Entry
  score : Rat
  found : Option (List KeyMatch)
  deriving DecidableEq, Repr

/-- A set of entries by path that can be searched approximately. -/
structure Finder where
  keys : List Key
  threshold : Rat
  caseSensitive : Bool
  entries : OrderedMap String Entry

/-- The results of a list that come first: all but the last ones for a negative limit. -/
def takeLimit {α : Type} (limit : Int) (xs : List α) : List α :=
  if 0 ≤ limit then xs.take limit.toNat else xs.take (xs.length - limit.natAbs)

/-- Ranks results: better scores first, then shorter relative paths. -/
def Hit.precedes (a b : Hit) : Bool :=
  a.score < b.score ||
    (a.score = b.score && a.entry.relativePath.length ≤ b.entry.relativePath.length)

/-- Results in rank order; equals keep their order. -/
def ranked (hits : List Hit) : List Hit :=
  hits.mergeSort Hit.precedes

namespace Finder

/-- The attributes that are searched unless others are named. -/
def defaultKeys : List Key :=
  [.name, .relativePath]

/-- Three tenths as a double. -/
def defaultThreshold : Rat :=
  Number.nearest (mkRat 3 10)

def setEntries (f : Finder) (entries : List Entry) : Finder :=
  { f with entries := OrderedMap.ofList (entries.map fun e => (e.path, e)) }

def add (f : Finder) (e : Entry) : Finder :=
  { f with entries := f.entries.insert e.path e }

def remove (f : Finder) (path : String) : Finder :=
  { f with entries := f.entries.erase path }

/-- The form in which texts are compared. -/
def normalize (f : Finder) (s : String) : String :=
  if f.caseSensitive then s else Text.lower s

/-- The pattern of a query; empty for a blank one. -/
def pattern (f : Finder) (query : String) : List Char :=
  (f.normalize (Text.strip query)).toList

/-- Fits a pattern to one attribute. -/
def fitKey (f : Finder) (pattern : List Char) (e : Entry) (key : Key) : KeyMatch × Rat :=
  let value := key.value e
  let fit := fit pattern (f.normalize value).toList
  (⟨key, value, fit.spans⟩, fit.score)

/-- The best score of the attributes of an entry, and the places in those within the
threshold. -/
def scorePattern (f : Finder) (pattern : List Char) (e : Entry) : Rat × List KeyMatch :=
  let fits := f.keys.map (f.fitKey pattern e)
  (fits.foldl (fun best m => Number.lesser best m.2) 1,
    (fits.filter fun m => m.2 ≤ f.threshold).map Prod.fst)

/-- Scores one entry against a query. Nothing is found for a blank query. -/
def score (f : Finder) (query : String) (e : Entry) : Rat × List KeyMatch :=
  let p := f.pattern query
  if p.isEmpty then (1, []) else f.scorePattern p e

/-- The entries within the threshold, in rank order. -/
def search (f : Finder) (query : String) (limit : Option Int) : List Hit :=
  let p := f.pattern query
  if p.isEmpty then []
  else
    let hits := f.entries.values.filterMap fun e =>
      let (score, found) := f.scorePattern p e
      if score ≤ f.threshold then some (Hit.mk e score (some found)) else none
    match limit with
    | some n => takeLimit n (ranked hits)
    | none => ranked hits

/-- Whether an entry satisfies a term of a query. Exact terms have to occur in the name or the
relative path, whatever their case; other terms have to score within the threshold. -/
def satisfies (f : Finder) (e : Entry) (term : String) (exact : Bool) : Bool :=
  if exact then
    -- The term is not trimmed, and an empty one occurs everywhere.
    let needle := Text.lower term
    Text.occursIn needle (Text.lower e.name) || Text.occursIn needle (Text.lower e.relativePath)
  else (f.score term e).1 ≤ f.threshold

end Finder

end LiveIndex.Matching
