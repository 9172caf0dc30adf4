import LiveIndex.Proofs.Index.Selection
import LiveIndex.Proofs.Query.Rendering
import LiveIndex.Proofs.Store.OrderedMap

/-! Which results a query with connectives has, and in which order. A query is ranked by the terms
under an even number of negations, so negations may be moved about in it without any effect. -/

namespace LiveIndex.Index

open Matching

variable {s : Index} {finder : Finder} {p q : Query.Formula}

/-- Three files at the top of a root. -/
def letters : Index :=
  { create .default with
    entries := .ofList [("/r/b.txt", Finder.topEntry "b.txt"),
      ("/r/c.txt", Finder.topEntry "c.txt"), ("/r/a.txt", Finder.topEntry "a.txt")] }

/-- Which of its results a search gives under a limit. A literal one gives the first results, and
none for a negative limit. An approximate one and a query with connectives give the first results if
the limit is not negative; for a negative limit they give all but the last ones, which comes to none
only if there are no more results than that. -/
theorem limited_results (s : Index) (limit : Int) :
    (∀ entries query, literalSearch entries query (some limit) =
        (literalSearch entries query none).take limit.toNat) ∧
      (∀ (finder : Finder) query,
        let all := finder.search query none
        let limited := finder.search query (some limit)
        (limited = all.take limit.toNat ↔ 0 ≤ limit ∨ all.length ≤ limit.natAbs) ∧
          (limit < 0 → limited = all.take (all.length - limit.natAbs))) ∧
      ∀ text q, (Query.parse text).isLogical = true → (Query.parse text).query = some q →
        ∀ n : Int, s.entries.size ≤ n →
          let all := (s.query text (some n)).2.2.hits
          let limited := (s.query text (some limit)).2.2.hits
          (limited = all.take limit.toNat ↔ 0 ≤ limit ∨ all.length ≤ limit.natAbs) ∧
            (limit < 0 → limited = all.take (all.length - limit.natAbs)) := by
  refine ⟨fun entries query => literalSearch_eq_take entries query limit, ?_, ?_⟩
  · intro finder query all limited
    have hlimited : limited = takeLimit limit all := finder.search_eq_takeLimit query limit
    rw [hlimited]
    exact ⟨takeLimit_eq_take_iff, takeLimit_of_neg⟩
  · intro text q hlogical hquery n hn all limited
    have hall : all = s.select s.currentFinder q := hits_logical_all hlogical hquery hn
    have hlimited : limited = takeLimit limit all := by
      rw [hall]
      exact hits_logical hlogical hquery (some limit)
    rw [hlimited]
    exact ⟨takeLimit_eq_take_iff, takeLimit_of_neg⟩

/-- All three files are found by the end of their names, whichever way they are searched. -/
theorem all_found_letters :
    (literalSearch letters.candidates "txt" none).length = 3 ∧
      (letters.currentFinder.search "txt" none).length = 3 ∧
      (letters.select letters.currentFinder
        (.or (.term "txt" false) (.term "c" false))).length = 3 := by
  refine ⟨by decide +kernel, ?_, ?_⟩
  · rw [(Finder.search_none_perm (by decide +kernel)).length_eq]
    decide +kernel
  · rw [← List.length_map (f := Hit.entry), (select_perm _ _ _).length_eq]
    decide +kernel

/-- Two words make a query with connectives. -/
theorem parse_txt_or_c : (Query.parse "txt OR c").isLogical = true ∧
    (Query.parse "txt OR c").query = some (.or (.term "txt" false) (.term "c" false)) := by
  have hleft : (Query.Token.term "txt" false).WellFormed :=
    ⟨by decide, List.all_eq_true.mp (by decide), Query.ofWord?_eq_none_iff.mp (by decide)⟩
  have hright : (Query.Token.term "c" false).WellFormed :=
    ⟨by decide, List.all_eq_true.mp (by decide), Query.ofWord?_eq_none_iff.mp (by decide)⟩
  exact Query.parse_joined hleft hright (by decide)
    (Query.derives_or (.operand (.term "txt" false)) (.operand (.term "c" false)))

/-- With three files and the limit one, all kinds of searches give one result. -/
theorem limited_results_letters :
    (literalSearch letters.candidates "txt" (some 1)).length = 1 ∧
      (letters.currentFinder.search "txt" (some 1)).length = 1 ∧
      ((Query.parse "txt OR c").isLogical = true ∧ (letters.entries.size : Int) ≤ 3) ∧
      (letters.query "txt OR c" (some 1)).2.2.hits.length = 1 := by
  obtain ⟨hliteral, happroximate, hlogical⟩ := limited_results letters 1
  obtain ⟨hliteral', happroximate', hlogical'⟩ := all_found_letters
  obtain ⟨hconnectives, hquery⟩ := parse_txt_or_c
  have hsize : (letters.entries.size : Int) ≤ 3 := by decide
  refine ⟨?_, ?_, ⟨hconnectives, hsize⟩, ?_⟩
  · rw [hliteral, List.length_take, hliteral']
    rfl
  · rw [(happroximate letters.currentFinder "txt").1.mpr (.inl (by decide)), List.length_take,
      happroximate']
    rfl
  · rw [(hlogical "txt OR c" _ hconnectives hquery 3 hsize).1.mpr (.inl (by decide)),
      List.length_take, hits_logical_all hconnectives hquery hsize, hlogical']
    rfl

/-- With the limit minus one a literal search gives nothing, but the other two give all results
except the last. -/
theorem negative_limit_gives_results :
    literalSearch letters.candidates "txt" (some (-1)) = [] ∧
      letters.currentFinder.search "txt" (some (-1)) ≠
        (letters.currentFinder.search "txt" none).take (max (-1 : Int) 0).toNat ∧
      ((Query.parse "txt OR c").isLogical = true ∧ (letters.entries.size : Int) ≤ 3) ∧
      (letters.query "txt OR c" (some (-1))).2.2.hits ≠
        (letters.query "txt OR c" (some 3)).2.2.hits.take (max (-1 : Int) 0).toNat := by
  obtain ⟨-, happroximate, hlogical⟩ := all_found_letters
  obtain ⟨hconnectives, hquery⟩ := parse_txt_or_c
  have hsize : (letters.entries.size : Int) ≤ 3 := by decide
  have hnone : (max (-1 : Int) 0).toNat = (-1 : Int).toNat := by decide
  refine ⟨?_, ?_, ⟨hconnectives, hsize⟩, ?_⟩
  · rw [literalSearch_eq_take]
    rfl
  · rw [Finder.search_eq_takeLimit, hnone, Ne, takeLimit_eq_take_iff, happroximate]
    decide
  · rw [hits_logical hconnectives hquery, hits_logical_all hconnectives hquery hsize, hnone, Ne,
      Option.getD_some, takeLimit_eq_take_iff, hlogical]
    decide

end LiveIndex.Index
