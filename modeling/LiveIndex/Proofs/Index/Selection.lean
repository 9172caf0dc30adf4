import LiveIndex.Index.Search
import LiveIndex.Proofs.Matching.Literal
import LiveIndex.Proofs.Matching.Ranking
import LiveIndex.Proofs.Query.Meaning

/-! What queries of an index give when the limit leaves nothing out: those entries which can be
found and for which the query holds. -/

namespace LiveIndex

namespace Index

open Matching

variable {s : Index} {limit : Int}

theorem length_candidates_le (s : Index) : s.candidates.length ≤ s.entries.size := by
  rw [candidates, OrderedMap.size, ← List.length_map (f := Prod.snd)]
  exact List.length_filter_le _ _

/-- The entries that a query finds. -/
def found (s : Index) (text : String) (limit : Int) : List Entry :=
  (s.query text (some limit)).2.2.hits.map Hit.entry

/-- Ranking only puts the entries in order for which a query holds. -/
theorem select_perm (s : Index) (finder : Finder) (q : Query.Formula) :
    ((s.select finder q).map Hit.entry).Perm
      (s.candidates.filter fun e => q.holds fun term exact => finder.satisfies e term exact) := by
  rw [select, ranked]
  refine ((List.mergeSort_perm _ _).map Hit.entry).trans (List.Perm.of_eq ?_)
  rw [List.map_map]
  exact List.map_id _

theorem length_select_le (s : Index) (finder : Finder) (q : Query.Formula) :
    (s.select finder q).length ≤ s.entries.size := by
  have hchosen := (s.select_perm finder q).length_eq
  rw [List.length_map] at hchosen
  have hfew := List.length_filter_le (fun e =>
    q.holds fun term exact => finder.satisfies e term exact) s.candidates
  have hcandidates := s.length_candidates_le
  omega

/-- The results of a query with connectives. -/
theorem hits_logical {text : String} {q : Query.Formula}
    (hlogical : (Query.parse text).isLogical = true) (hquery : (Query.parse text).query = some q)
    (limit : Option Int) :
    (s.query text limit).2.2.hits =
      takeLimit (limit.getD s.options.defaultLimit) (s.select s.currentFinder q) := by
  rw [query]
  simp only [hquery, hlogical]

/-- A limit that leaves nothing out. -/
theorem hits_logical_all {text : String} {q : Query.Formula}
    (hlogical : (Query.parse text).isLogical = true) (hquery : (Query.parse text).query = some q)
    (hlimit : (s.entries.size : Int) ≤ limit) :
    (s.query text (some limit)).2.2.hits = s.select s.currentFinder q := by
  have hfew := s.length_select_le s.currentFinder q
  rw [hits_logical hlogical hquery, Option.getD_some, takeLimit_of_length_le (by omega)]

/-- A query with connectives finds the entries for which it holds. -/
theorem found_logical_perm {text : String} {q : Query.Formula}
    (hlogical : (Query.parse text).isLogical = true) (hquery : (Query.parse text).query = some q)
    (hlimit : (s.entries.size : Int) ≤ limit) :
    (s.found text limit).Perm (s.candidates.filter fun e =>
      q.holds fun term exact => s.currentFinder.satisfies e term exact) := by
  rw [found, hits_logical_all hlogical hquery hlimit]
  exact s.select_perm s.currentFinder q

theorem search_exact (s : Index) {phrase : String} (hphrase : Text.strip phrase ≠ "")
    (limit : Int) :
    s.search phrase true (some limit) = (s, literalSearch s.candidates phrase (some limit)) := by
  simp only [search, if_neg hphrase, if_true, Option.getD_some]

/-- A phrase alone finds the entries that hold it literally. -/
theorem found_exact {text phrase : String}
    (hlogical : (Query.parse text).isLogical = false)
    (hquery : (Query.parse text).query = some (.term phrase true))
    (hphrase : Text.strip phrase ≠ "") (hlimit : (s.entries.size : Int) ≤ limit) :
    s.found text limit =
      s.candidates.filter (isLiteralHit (Text.lower (Text.strip phrase))) := by
  have hhits : (s.query text (some limit)).2.2.hits =
      literalSearch s.candidates phrase (some limit) := by
    rw [query]
    simp only [hquery, hlogical, Option.getD_some, search_exact s hphrase]
  have hcandidates : ∀ n ∈ some limit, (s.candidates.length : Int) ≤ n := by
    intro n hn
    have hfew := s.length_candidates_le
    rw [← Option.mem_some_iff.mp hn]
    omega
  rw [found, hhits, literalSearch_eq_filter hphrase hcandidates, List.map_map]
  exact List.map_id _

end Index

end LiveIndex
