import LiveIndex.Proofs.Index.Searchable
import LiveIndex.Proofs.Index.Selection
import LiveIndex.Proofs.Query.Rendering

/-! Words alone and words that are joined with themselves. One is an approximate search, the other a
query with connectives. The results are the same: the finder has the entries in their order, and the
mean of a double with itself is exact. -/

namespace LiveIndex

namespace Query

variable {word : String}

/-- A word, and the same again. -/
def repeatedWord (word : String) : String :=
  word ++ " AND " ++ word

theorem trimBlank_of_bare {cs : List Char} (h : ∀ c ∈ cs, isBare c = true) :
    Text.trimBlank cs = cs :=
  Text.trimBlank_of_trimmed (Text.trimmed_of_forall fun c hc => isBlank_of_isBare (h c hc))

/-- A word is a term that need not be exact. -/
theorem parse_bareWord (hword : (Token.term word false).WellFormed) :
    parse word = .single word.toList false none := by
  have hread : tokens word.toList = [.term word false] := tokens_alone hword
  obtain ⟨hne, hbare, -⟩ := hword
  have hchars : word.toList ≠ [] := mt String.toList_eq_nil_iff.mp hne
  have hinside : insideQuotes? word.toList = none := by
    obtain ⟨c, cs, hcs⟩ := List.exists_cons_of_ne_nil hchars
    have hquote : c ≠ '"' := (isBare_iff.mp (hbare c (hcs ▸ List.mem_cons_self))).2.2.2
    rw [hcs, insideQuotes?]
    rintro rest h
    exact hquote (List.cons.inj h).1
  apply parse_of_understand
  rw [understand, trimBlank_of_bare hbare]
  simp only [hread, hinside, List.isEmpty_eq_false_iff.mpr hchars]
  rfl

theorem toList_repeatedWord (word : String) :
    (repeatedWord word).toList =
      word.toList ++ ' ' :: (Connective.and.capitals ++ ' ' :: word.toList) := by
  simp [repeatedWord, Connective.capitals]

/-- A word that is joined with itself is a query with connectives. -/
theorem parse_repeatedWord (hword : (Token.term word false).WellFormed) :
    (parse (repeatedWord word)).isLogical = true ∧
      (parse (repeatedWord word)).query = some (.and (.term word false) (.term word false)) := by
  have hterm : Derives .negation [.term word false] (.term word false) :=
    .operand (.term word false)
  exact parse_joined hword hword (toList_repeatedWord word) (derives_and hterm hterm)

end Query

namespace Index

open Matching

variable {s : Index} {word : String}

/-- The mean of a double with itself is exact: neither the sum nor the quotient is rounded. -/
theorem meanScore_pair {x : ℚ} (h : Number.IsDouble x) : meanScore [x, x] = x := by
  have htotal : Number.total [x, x] = x + x := by
    rw [Number.total, List.foldl_cons, List.foldl_cons, List.foldl_nil, zero_add]
  have hmean : (x + x) / ([x, x].length : ℕ) = x := by
    rw [List.length_cons, List.length_singleton]
    ring
  rw [meanScore, if_neg (by simp), htotal, h.twice.nearest_eq_self, hmean, h.nearest_eq_self]

theorem candidates_of_all (h : s.options.includeDirectories = true) :
    s.candidates = s.entries.values := by
  apply List.filter_eq_self.mpr
  intro e _
  rw [isCandidate, h, Bool.true_or]

/-- A query that joins a word with itself selects what a search for the word finds, apart from the
places, if the finder has all the entries in their order. -/
theorem select_repeated (hall : s.options.includeDirectories = true)
    (hfinder : s.currentFinder.entries = s.entries) (hword : Text.strip word ≠ "") :
    s.select s.currentFinder (.and (.term word false) (.term word false)) =
      (s.currentFinder.search word none).map Hit.bare := by
  obtain ⟨f, hf⟩ : ∃ f, f = s.currentFinder := ⟨_, rfl⟩
  have hholds (e : Entry) :
      Query.Formula.holds (.and (.term word false) (.term word false))
        (fun term exact => f.satisfies e term exact) =
          decide ((f.score word e).1 ≤ f.threshold) := by
    rw [Query.Formula.holds_and, Bool.and_self]
    rfl
  have hrank (e : Entry) : rank f [(word, false), (word, false)] e = (f.score word e).1 :=
    meanScore_pair (f.isDouble_score word e)
  rw [← hf] at hfinder ⊢
  rw [Finder.search_none_eq (Finder.pattern_ne_nil hword), map_bare_ranked, List.map_map, select,
    candidates_of_all hall, hfinder]
  simp only [hholds]
  apply congrArg ranked
  apply List.map_congr_left
  intro e _
  exact congrArg (fun score => (⟨e, score, none⟩ : Hit)) (hrank e)

namespace Session

/-- In every state of an index whose searches may find directories, a word gives the same entries
with the same scores in the same order as the word joined with itself, whatever the limit. -/
theorem word_found_as_repeated (options : Options) (file : Except Failure Content)
    (actions : List Action) (hall : options.includeDirectories = true) {word : String}
    (hne : word ≠ "") (hbare : ∀ c ∈ word.toList, Query.isBare c = true)
    (hother : Query.Connective.ofWord? word.toList = none) (limit : Option Int) :
    let index := ((fresh options file).run actions).index
    ((index.query word limit).2.2.hits.map fun hit => (hit.entry, hit.score)) =
      (index.query (word ++ " AND " ++ word) limit).2.2.hits.map
        fun hit => (hit.entry, hit.score) := by
  intro index
  have h : index.InStep options :=
    (inStep_create options).edits (run_edits (fresh options file) actions)
  have hword : (Query.Token.term word false).WellFormed :=
    ⟨hne, hbare, Query.ofWord?_eq_none_iff.mp hother⟩
  have hstrip : Text.strip word ≠ "" := by
    rwa [Text.strip, Query.trimBlank_of_bare hbare, String.ofList_toList]
  have hinside : index.options.includeDirectories = true := h.options ▸ hall
  obtain ⟨hlogical, hquery⟩ := Query.parse_repeatedWord hword
  obtain ⟨n, hn⟩ : ∃ n, n = limit.getD index.options.defaultLimit := ⟨_, rfl⟩
  have halone : (index.query word limit).2.2.hits = index.currentFinder.search word (some n) := by
    rw [query, Query.parse_bareWord hword]
    simp only [Query.Parsed.single, String.ofList_toList, search, if_neg hstrip, Option.getD_some,
      ← hn]
    rfl
  have hrepeated : (index.query (word ++ " AND " ++ word) limit).2.2.hits =
      takeLimit n ((index.currentFinder.search word none).map Hit.bare) := by
    rw [← select_repeated hinside (h.currentFinder.ordered hinside) hstrip, hn]
    exact hits_logical hlogical hquery limit
  rw [halone, hrepeated, Finder.search_eq_takeLimit, takeLimit_map, List.map_map]
  rfl

/-- After a removal, an emptying and a finder that was made anew, a directory and a file in it are
found by their common letter. -/
theorem word_found_as_repeated_turned :
    let index := ((fresh .default (.error .badDocument)).run turned).index
    let results (text : String) :=
      (index.query text (some 2)).2.2.hits.map fun hit => (hit.entry, hit.score)
    (Options.default.includeDirectories = true ∧ "c" ≠ "" ∧
        (∀ c ∈ "c".toList, Query.isBare c = true) ∧
        Query.Connective.ofWord? "c".toList = none) ∧
      results "c" = results ("c" ++ " AND " ++ "c") ∧ (results "c").length = 2 := by
  intro index results
  have hne : "c" ≠ "" := by decide
  have hbare : ∀ c ∈ "c".toList, Query.isBare c = true := List.all_eq_true.mp (by decide)
  have hother : Query.Connective.ofWord? "c".toList = none := by decide
  have hsame : results "c" = results ("c" ++ " AND " ++ "c") :=
    word_found_as_repeated .default (.error .badDocument) turned rfl hne hbare hother (some 2)
  refine ⟨⟨rfl, hne, hbare, hother⟩, hsame, ?_⟩
  have hword : (Query.Token.term "c" false).WellFormed :=
    ⟨hne, hbare, Query.ofWord?_eq_none_iff.mp hother⟩
  obtain ⟨hlogical, hquery⟩ := Query.parse_repeatedWord hword
  have hsize : (index.entries.size : Int) ≤ 2 := by decide +kernel
  have hlength := (found_logical_perm hlogical hquery hsize).length_eq
  rw [found, List.length_map] at hlength
  rw [hsame, List.length_map]
  refine hlength.trans ?_
  decide +kernel

end Session

end Index

end LiveIndex
