import LiveIndex.Index.Basic
import LiveIndex.Query.Parser

namespace LiveIndex.Index

/-- Searches literally or approximately. Nothing is found for a blank text. The finder is made
if it is needed and not there. -/
def search (s : Index) (text : String) (exact : Bool) (limit : Option Int) :
    Index × List Matching.Hit :=
  let limit := limit.getD s.options.defaultLimit
  if Text.strip text = "" then (s, [])
  else if exact then (s, Matching.literalSearch s.candidates text (some limit))
  else
    let finder := s.currentFinder
    ({ s with finder := some finder }, finder.search text (some limit))

/-- The score of an entry for one term. An exact term scores nought or one. -/
def termScore (finder : Matching.Finder) (e : Entry) (term : String) (exact : Bool) : Rat :=
  if exact then (if finder.satisfies e term true then 0 else 1) else (finder.score term e).1

/-- The mean of scores, rounded once for the sum and once for the quotient; one if there are
none. -/
def meanScore (scores : List Rat) : Rat :=
  if scores.isEmpty then 1
  else Number.nearest (Number.nearest (Number.total scores) / scores.length)

/-- Ranks an entry by the terms that a query asks for. -/
def rank (finder : Matching.Finder) (terms : List (String × Bool)) (e : Entry) : Rat :=
  meanScore (terms.map fun t => termScore finder e t.1 t.2)

/-- The entries for which a boolean query holds, in rank order. -/
def select (s : Index) (finder : Matching.Finder) (q : Query.Formula) : List Matching.Hit :=
  let hits := s.candidates.filter fun e => q.holds fun term exact => finder.satisfies e term exact
  Matching.ranked (hits.map fun e => ⟨e, rank finder q.positiveTerms e, none⟩)

/-- The results of a query and how it was understood. -/
structure Found where
  hits : List Matching.Hit
  parsed : Query.Parsed

/-- What is said of a query that does not fit together. -/
def literalText (query : String) (fault : Query.Fault) : String :=
  "Query " ++ Text.quoted query ++ " is not a valid boolean query (" ++ fault.message ++
    "); searching it literally"

/-- Runs a query. One without connectives is an ordinary search; so is one that does not fit
together, which is said in a warning. -/
def query (s : Index) (text : String) (limit : Option Int) :
    Index × Option String × Found :=
  let parsed := Query.parse text
  let limit := limit.getD s.options.defaultLimit
  let warning := parsed.fault.map (literalText text)
  match parsed.query with
  | none => (s, none, ⟨[], parsed⟩)
  | some q =>
    match parsed.isLogical, q with
    | false, .term value exact =>
      let (s, hits) := s.search value exact (some limit)
      (s, warning, ⟨hits, parsed⟩)
    | _, q =>
      let finder := s.currentFinder
      ({ s with finder := some finder }, warning,
        ⟨Matching.takeLimit limit (s.select finder q), parsed⟩)

end LiveIndex.Index
