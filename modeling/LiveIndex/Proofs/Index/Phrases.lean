import LiveIndex.Proofs.Index.Selection
import LiveIndex.Proofs.Path.Descent
import LiveIndex.Proofs.Query.Rendering
import LiveIndex.Proofs.Text.Separation

/-! Phrases alone and as a part of queries. A phrase alone is trimmed and may be all of a name; as a
part of a query it is taken as it stands. For trimmed phrases this is the same, if names are in the
relative paths. -/

namespace LiveIndex

namespace Query

/-- A phrase in quotes. -/
def quotedPhrase (phrase : String) : String :=
  String.ofList (Token.spelling (.term phrase true))

/-- A phrase in quotes, or the same again. -/
def doubledPhrase (phrase : String) : String :=
  quotedPhrase phrase ++ " OR " ++ quotedPhrase phrase

/-- A phrase in quotes is that phrase, with the backslashes that it is written with. -/
theorem parse_quotedPhrase (phrase : String) :
    parse (quotedPhrase phrase) = .single (escaped phrase.toList) true none := by
  have hwell : (Token.term phrase true).WellFormed := trivial
  have htrimmed : Text.trimBlank (Token.spelling (.term phrase true)) =
      Token.spelling (.term phrase true) := Text.trimBlank_of_trimmed (trimmed_spelling hwell).2
  have hinside : insideQuotes? (Token.spelling (.term phrase true)) =
      some (escaped phrase.toList) := by
    simp [Token.spelling, insideQuotes?]
  apply parse_of_understand
  rw [understand, quotedPhrase, String.toList_ofList, htrimmed]
  simp only [tokens_alone hwell, hinside]
  rfl

theorem toList_doubledPhrase (phrase : String) :
    (doubledPhrase phrase).toList = Token.spelling (.term phrase true) ++
      ' ' :: (Connective.or.capitals ++ ' ' :: Token.spelling (.term phrase true)) := by
  simp [doubledPhrase, quotedPhrase, Connective.capitals]

/-- A phrase that is doubled is a query with the phrase as it is. -/
theorem parse_doubledPhrase (phrase : String) :
    (parse (doubledPhrase phrase)).isLogical = true ∧
      (parse (doubledPhrase phrase)).query =
        some (.or (.term phrase true) (.term phrase true)) := by
  have hterm : Derives .negation [.term phrase true] (.term phrase true) :=
    .operand (.term phrase true)
  have hwell : (Token.term phrase true).WellFormed := trivial
  exact parse_joined hwell hwell (toList_doubledPhrase phrase) (derives_or hterm hterm)

end Query

namespace Index

open Matching

/-- A name that is the end of a relative path after a slash occurs in it, whatever the case. -/
theorem nameInPath_of_afterSlash {e : Entry} (h : e.name = Path.afterSlash e.relativePath) :
    NameInPath e := by
  obtain ⟨front, hsplit, hfront⟩ := Path.exists_afterSlash e.relativePath
  rw [NameInPath, h, Text.toList_lower, Text.toList_lower]
  conv_rhs => rw [hsplit, ← List.append_nil (front ++ _)]
  apply Text.lowerFrom_infix
  · intro c hc
    rw [hfront c hc]
    exact Text.separates_slash
  · exact fun c hc => by cases hc

variable {s : Index} {phrase : String} {limit : Int}

/-- A doubled phrase finds the entries that hold the phrase as it is. -/
theorem found_doubled_perm (hlimit : (s.entries.size : Int) ≤ limit) (phrase : String) :
    (s.found (Query.doubledPhrase phrase) limit).Perm
      (s.candidates.filter fun e => s.currentFinder.satisfies e phrase true) := by
  obtain ⟨hlogical, hquery⟩ := Query.parse_doubledPhrase phrase
  have hfound := found_logical_perm hlogical hquery hlimit
  have hterm (e : Entry) :
      Query.Formula.holds (.or (.term phrase true) (.term phrase true))
        (fun term exact => s.currentFinder.satisfies e term exact) =
          s.currentFinder.satisfies e phrase true := by
    rw [Query.Formula.holds_or, Bool.or_self]
    rfl
  simpa only [hterm] using hfound

/-- A phrase alone finds the entries that hold it literally, with its backslashes but without white
space around it. -/
theorem found_quoted (hphrase : Text.strip (String.ofList (Query.escaped phrase.toList)) ≠ "")
    (hlimit : (s.entries.size : Int) ≤ limit) :
    s.found (Query.quotedPhrase phrase) limit = s.candidates.filter
      (isLiteralHit (Text.lower (Text.strip (String.ofList (Query.escaped phrase.toList))))) := by
  apply found_exact _ _ hphrase hlimit
  · rw [Query.parse_quotedPhrase]
    rfl
  · rw [Query.parse_quotedPhrase]
    rfl

/-- In an index whose entries are named by the last parts of their relative paths, a phrase without
double quotes and backslashes finds by itself what the trimmed phrase finds when it is doubled. What
the phrase finds when it is doubled as it is, is among that. -/
theorem phrase_finds_trimmed
    (hnames : ∀ e ∈ s.entries.values, e.name = Path.afterSlash e.relativePath)
    (hphrase : Text.strip phrase ≠ "")
    (hplain : '"' ∉ phrase.toList ∧ '\\' ∉ phrase.toList)
    (hlimit : (s.entries.size : Int) ≤ limit) :
    (s.found (Query.quotedPhrase phrase) limit).Perm
        (s.found (Query.doubledPhrase (Text.strip phrase)) limit) ∧
      s.found (Query.doubledPhrase phrase) limit ⊆ s.found (Query.quotedPhrase phrase) limit := by
  have hescaped : String.ofList (Query.escaped phrase.toList) = phrase := by
    rw [Query.escaped_of_plain hplain.1 hplain.2, String.ofList_toList]
  have halone : s.found (Query.quotedPhrase phrase) limit =
      s.candidates.filter fun e => s.currentFinder.satisfies e (Text.strip phrase) true := by
    rw [found_quoted (by rwa [hescaped]) hlimit, hescaped]
    apply List.filter_congr
    intro e he
    have hname : NameInPath e := nameInPath_of_afterSlash (hnames e (List.mem_filter.mp he).1)
    exact Bool.eq_iff_iff.mpr (isLiteralHit_iff_satisfies hname s.currentFinder _)
  constructor
  · rw [halone]
    exact (found_doubled_perm hlimit (Text.strip phrase)).symm
  · intro e he
    rw [(found_doubled_perm hlimit phrase).mem_iff, List.mem_filter] at he
    rw [halone, List.mem_filter]
    refine ⟨he.1, ?_⟩
    have htrimmed := Text.lower_strip_infix phrase
    rw [Finder.satisfies_exact_iff] at he ⊢
    exact he.2.imp htrimmed.trans htrimmed.trans

/-- Three files at the top of a root. -/
def phraseIndex : Index :=
  { create .default with
    entries := .ofList [("/r/ab c.txt", Finder.topEntry "ab c.txt"),
      ("/r/c.txt", Finder.topEntry "c.txt"), ("/r/a\"b.txt", Finder.topEntry "a\"b.txt")] }

theorem name_of_mem_phraseIndex :
    ∀ e ∈ phraseIndex.entries.values, e.name = Path.afterSlash e.relativePath := by
  decide

theorem phrase_finds_trimmed_padded :
    (∀ e ∈ phraseIndex.entries.values, e.name = Path.afterSlash e.relativePath) ∧
      Text.strip " C " ≠ "" ∧ (phraseIndex.entries.size : Int) ≤ 3 ∧
      (phraseIndex.found (Query.quotedPhrase " C ") 3).Perm
        (phraseIndex.found (Query.doubledPhrase "C") 3) ∧
      Finder.topEntry "c.txt" ∈ phraseIndex.found (Query.quotedPhrase " C ") 3 := by
  have hphrase : Text.strip " C " ≠ "" := by decide +kernel
  have hsize : (phraseIndex.entries.size : Int) ≤ 3 := by decide +kernel
  have htrimmed : Text.strip " C " = "C" := by decide +kernel
  have hfound := (phrase_finds_trimmed name_of_mem_phraseIndex hphrase (by decide) hsize).1
  rw [htrimmed] at hfound
  refine ⟨name_of_mem_phraseIndex, hphrase, hsize, hfound, ?_⟩
  rw [found_quoted (by decide +kernel) hsize]
  decide +kernel

/-- A phrase with white space in front is trimmed when it stands alone, and finds more than when it
is doubled. A phrase with a double quote keeps its backslash when it stands alone, and finds
less. -/
theorem phrase_alone_differs :
    (∀ e ∈ phraseIndex.entries.values, e.name = Path.afterSlash e.relativePath) ∧
      (phraseIndex.entries.size : Int) ≤ 3 ∧
      (Text.strip " c" ≠ "" ∧
        Finder.topEntry "c.txt" ∈ phraseIndex.found (Query.quotedPhrase " c") 3 ∧
        Finder.topEntry "c.txt" ∉ phraseIndex.found (Query.doubledPhrase " c") 3) ∧
      (Text.strip "a\"b" ≠ "" ∧
        Finder.topEntry "a\"b.txt" ∉ phraseIndex.found (Query.quotedPhrase "a\"b") 3 ∧
        Finder.topEntry "a\"b.txt" ∈ phraseIndex.found (Query.doubledPhrase "a\"b") 3) := by
  have hsize : (phraseIndex.entries.size : Int) ≤ 3 := by decide +kernel
  refine ⟨name_of_mem_phraseIndex, hsize, ⟨by decide +kernel, ?_, ?_⟩, ⟨by decide +kernel, ?_, ?_⟩⟩
  · rw [found_quoted (by decide +kernel) hsize]
    decide +kernel
  · rw [(found_doubled_perm hsize " c").mem_iff]
    decide +kernel
  · rw [found_quoted (by decide +kernel) hsize]
    decide +kernel
  · rw [(found_doubled_perm hsize "a\"b").mem_iff]
    decide +kernel

end Index

end LiveIndex
