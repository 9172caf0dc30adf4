import LiveIndex.Matching.Literal
import LiveIndex.Proofs.Matching.Highlights
import LiveIndex.Proofs.Number.Rounding
import Mathlib.Data.List.Perm.Basic

/-! When an approximate search finds a query word for word. A score is the part that is not shared,
so it vanishes only where an attribute holds the whole pattern; rounding does not change that, since
a part that is not shared is too large to be rounded away. -/

namespace LiveIndex.Matching

section Scores

variable {pattern text : List Char} {r : Rat}

/-- A pattern that doubles can count, and that is not found in full, misses one by more than the
last place of one. -/
theorem ratio_le_of_ne_one (hpattern : pattern ≠ []) (hcount : pattern.length ≤ 2 ^ 52)
    (h : (fit pattern text).ratio ≠ 1) : (fit pattern text).ratio ≤ 1 - 2 ^ (-53 : ℤ) := by
  obtain ⟨xs, -, hlaid, hratio⟩ := fit_eq hpattern text
  have hwidth : 0 < pattern.length := List.length_pos_iff.mpr hpattern
  have hextent : extent xs ≤ min text.length pattern.length := extent_le hlaid
  obtain ⟨all, hall⟩ : ∃ all, all = min pattern.length text.length + pattern.length := ⟨_, rfl⟩
  have hratio : (fit pattern text).ratio = (2 * extent xs : Nat) / (all : Nat) := by
    rw [hratio, hall]
    push_cast
    rfl
  have hpositive : (0 : ℚ) < all := by
    have : 0 < all := by omega
    exact_mod_cast this
  -- Both parts of the ratio are whole numbers, so they differ by one at least.
  have hless : 2 * extent xs + 1 ≤ all := by
    have hne : 2 * extent xs ≠ all := by
      intro hsame
      rw [hratio, hsame] at h
      exact h (div_self hpositive.ne')
    omega
  have hbound : (all : ℚ) ≤ 2 ^ 53 := by
    have : all ≤ 2 ^ 53 := by omega
    exact_mod_cast this
  rw [hratio, div_le_iff₀ hpositive]
  have hless : ((2 * extent xs : Nat) : ℚ) + 1 ≤ all := by exact_mod_cast hless
  have hshare : (all : ℚ) * 2 ^ (-53 : ℤ) ≤ 1 := by
    calc (all : ℚ) * 2 ^ (-53 : ℤ) ≤ 2 ^ 53 * 2 ^ (-53 : ℤ) := by gcongr
      _ = 1 := by norm_num
  linarith

theorem scoreOf_one : scoreOf 1 = 0 := by
  rw [scoreOf, Number.nearest_one, sub_self, Number.nearest_zero]

/-- Scores are doubles. -/
theorem isDouble_scoreOf (hlow : 0 ≤ r) (hhigh : r ≤ 1) : Number.IsDouble (scoreOf r) :=
  Number.isDouble_nearest (sub_nonneg.mpr (Number.nearest_le_one hlow hhigh))

theorem scoreOf_nonneg (hlow : 0 ≤ r) (hhigh : r ≤ 1) : 0 ≤ scoreOf r :=
  (isDouble_scoreOf hlow hhigh).nonneg

theorem scoreOf_pos (hlow : 0 ≤ r) (hhigh : r ≤ 1 - 2 ^ (-53 : ℤ)) : 0 < scoreOf r := by
  have hgap : 2 ^ (-53 : ℤ) ≤ 1 - Number.nearest r := by
    have := Number.nearest_le_of_gap hlow hhigh
    linarith
  apply Number.nearest_pos
  calc (2 : ℚ) ^ (-1074 : ℤ) ≤ 2 ^ (-53 : ℤ) := by
        gcongr
        · exact one_le_two
        · omega
    _ ≤ 1 - Number.nearest r := hgap

/-- The score of a fit is zero if the pattern occurs in the text. -/
theorem scoreOf_ratio_eq_zero (hpattern : pattern ≠ []) (hoccurs : pattern <:+: text) :
    scoreOf (fit pattern text).ratio = 0 := by
  rw [(ratio_eq_one_iff hpattern).mpr hoccurs, scoreOf_one]

/-- It is zero only then, as far as doubles can count. -/
theorem scoreOf_ratio_eq_zero_iff (hpattern : pattern ≠ []) (hcount : pattern.length ≤ 2 ^ 52) :
    scoreOf (fit pattern text).ratio = 0 ↔ pattern <:+: text := by
  refine ⟨?_, scoreOf_ratio_eq_zero hpattern⟩
  intro hzero
  apply (ratio_eq_one_iff hpattern).mp
  by_contra hpart
  have hlow := (ratio_bounds hpattern text).1
  exact (scoreOf_pos hlow (ratio_le_of_ne_one hpattern hcount hpart)).ne' hzero

theorem scoreOf_ratio_nonneg (hpattern : pattern ≠ []) (text : List Char) :
    0 ≤ scoreOf (fit pattern text).ratio := by
  obtain ⟨hlow, hhigh⟩ := ratio_bounds hpattern text
  exact scoreOf_nonneg hlow hhigh

/-- The least of all is one of them. -/
theorem foldl_lesser_mem (best : Rat) (scores : List Rat) :
    scores.foldl Number.lesser best ∈ best :: scores := by
  induction scores generalizing best with
  | nil => exact List.mem_cons_self
  | cons x scores ih =>
    rw [List.foldl_cons]
    rcases List.mem_cons.mp (ih (Number.lesser best x)) with hfirst | hrest
    · rw [hfirst, Number.lesser]
      split
      · exact List.mem_cons_self
      · exact List.mem_cons_of_mem _ List.mem_cons_self
    · exact List.mem_cons_of_mem _ (List.mem_cons_of_mem _ hrest)

theorem foldl_lesser_eq_zero_iff {scores : List Rat} (hscores : ∀ x ∈ scores, 0 ≤ x) {best : Rat}
    (hbest : 0 ≤ best) : scores.foldl Number.lesser best = 0 ↔ best = 0 ∨ 0 ∈ scores := by
  induction scores generalizing best with
  | nil => simp
  | cons x scores ih =>
    have hx : 0 ≤ x := hscores x List.mem_cons_self
    have hrest : ∀ y ∈ scores, 0 ≤ y := fun y hy => hscores y (List.mem_cons_of_mem x hy)
    have hlesser : Number.lesser best x = min best x := by rw [Number.lesser, min_def]
    have hzero : min best x = 0 ↔ best = 0 ∨ x = 0 := by grind
    rw [List.foldl_cons, hlesser, ih hrest (le_min hbest hx), hzero, List.mem_cons, or_assoc,
      eq_comm (a := x)]

end Scores

/-- A search that is not stopped by its limit goes through all entries. -/
theorem firstHits_eq_filter (needle : String) {wanted : Option Nat} {es : List Entry}
    (h : ∀ n ∈ wanted, es.length ≤ n) :
    firstHits needle wanted es = es.filter (isLiteralHit needle) := by
  fun_induction firstHits needle wanted es with
  | case1 es =>
    have hnone : es.length = 0 := Nat.le_zero.mp (h 0 rfl)
    rw [List.length_eq_zero_iff.mp hnone, List.filter_nil]
  | case2 wanted => rfl
  | case3 wanted e es _ hhit ih =>
    rw [List.filter_cons_of_pos hhit, ih]
    intro n hn
    obtain ⟨m, hm, rfl⟩ := Option.map_eq_some_iff.mp hn
    have hlength := h m hm
    rw [List.length_cons] at hlength
    omega
  | case4 wanted e es _ hhit ih =>
    rw [List.filter_cons_of_neg hhit, ih]
    intro n hn
    have hlength := h n hn
    rw [List.length_cons] at hlength
    omega

theorem literalSearch_eq_filter {es : List Entry} {query : String} {limit : Option Int}
    (hquery : Text.strip query ≠ "") (hlimit : ∀ n ∈ limit, (es.length : Int) ≤ n) :
    literalSearch es query limit =
      (es.filter (isLiteralHit (Text.lower (Text.strip query)))).map fun e => ⟨e, 0, none⟩ := by
  rw [literalSearch, if_neg (mt Text.lower_eq_empty_iff.mp hquery), firstHits_eq_filter]
  intro n hn
  obtain ⟨m, hm, rfl⟩ := Option.map_eq_some_iff.mp hn
  have := hlimit m hm
  omega

theorem literalSearch_none {query : String} (hquery : Text.strip query ≠ "") (es : List Entry) :
    literalSearch es query none =
      (es.filter (isLiteralHit (Text.lower (Text.strip query)))).map fun e => ⟨e, 0, none⟩ := by
  apply literalSearch_eq_filter hquery
  intro n hn
  cases hn

/-- A search that is stopped gives the first ones of what it would give. -/
theorem firstHits_eq_take (needle : String) (wanted : Nat) (es : List Entry) :
    firstHits needle (some wanted) es = (firstHits needle none es).take wanted := by
  induction es generalizing wanted with
  | nil => cases wanted <;> rfl
  | cons e es ih =>
    cases wanted with
    | zero => rfl
    | succ wanted =>
      rw [firstHits, firstHits]
      · split
        · exact congrArg (e :: ·) (ih wanted)
        · exact ih (wanted + 1)
      · exact Option.some_ne_none 0 ∘ Eq.symm
      · exact fun h => Nat.succ_ne_zero wanted (Option.some.inj h)

/-- No limit below zero is any different from zero. -/
theorem literalSearch_eq_take (es : List Entry) (query : String) (limit : Int) :
    literalSearch es query (some limit) = (literalSearch es query none).take limit.toNat := by
  rw [literalSearch, literalSearch]
  split
  · exact List.take_nil.symm
  · rw [Option.map_some, firstHits_eq_take, List.map_take]
    rfl

/-- The name of an entry occurs in its relative path, whatever the case. -/
def NameInPath (e : Entry) : Prop :=
  (Text.lower e.name).toList <:+: (Text.lower e.relativePath).toList

/-- Exact terms have to occur in the name or in the relative path. -/
theorem Finder.satisfies_exact_iff (f : Finder) (e : Entry) (term : String) :
    f.satisfies e term true = true ↔
      (Text.lower term).toList <:+: (Text.lower e.name).toList ∨
        (Text.lower term).toList <:+: (Text.lower e.relativePath).toList := by
  rw [satisfies, if_pos rfl, Bool.or_eq_true, Text.occursIn_iff, Text.occursIn_iff]

/-- Where names are in the relative paths, a literal hit is one for an exact term. -/
theorem isLiteralHit_iff_satisfies {e : Entry} (he : NameInPath e) (f : Finder) (term : String) :
    isLiteralHit (Text.lower term) e = true ↔ f.satisfies e term true = true := by
  rw [isLiteralHit, Bool.or_eq_true, decide_eq_true_eq, Text.occursIn_iff, f.satisfies_exact_iff]
  constructor
  · intro h
    right
    rcases h with hname | hoccurs
    · rw [← hname]
      exact he
    · exact hoccurs
  · intro h
    right
    rcases h with hname | hoccurs
    · exact hname.trans he
    · exact hoccurs

namespace Finder

variable {f : Finder} {query : String} {pattern : List Char} {e : Entry} {worth : Rat → Rat}

/-- The least score of the attributes of an entry, where the worth of a ratio is its score. -/
def leastScore (f : Finder) (pattern : List Char) (e : Entry) (worth : Rat → Rat) : Rat :=
  (f.keys.map fun key => worth (fit pattern (f.normalize (key.value e)).toList).ratio).foldl
    Number.lesser 1

/-- The score of an entry before anything is rounded: the part that is not shared, in the attribute
where that is least. Nothing is found for a blank query. -/
def exactScore (f : Finder) (query : String) (e : Entry) : Rat :=
  let p := f.pattern query
  if p.isEmpty then 1 else f.leastScore p e (1 - ·)

/-- An attribute of an entry holds the whole pattern. -/
def HoldsPattern (f : Finder) (query : String) (e : Entry) : Prop :=
  ∃ key ∈ f.keys, f.pattern query <:+: (f.normalize (key.value e)).toList

/-- A result of a search. -/
def hitOf (f : Finder) (query : String) (e : Entry) : Hit :=
  ⟨e, (f.score query e).1, some (f.score query e).2⟩

theorem pattern_ne_nil (hquery : Text.strip query ≠ "") : f.pattern query ≠ [] := by
  rw [pattern, normalize, Ne, String.toList_eq_nil_iff]
  split
  · exact hquery
  · exact mt Text.lower_eq_empty_iff.mp hquery

theorem leastScore_eq_zero_iff (hworth : ∀ text, 0 ≤ worth (fit pattern text).ratio) :
    f.leastScore pattern e worth = 0 ↔
      ∃ key ∈ f.keys, worth (fit pattern (f.normalize (key.value e)).toList).ratio = 0 := by
  rw [leastScore, foldl_lesser_eq_zero_iff _ zero_le_one, or_iff_right one_ne_zero, List.mem_map]
  intro x hx
  obtain ⟨key, -, rfl⟩ := List.mem_map.mp hx
  exact hworth _

theorem score_eq (hpattern : f.pattern query ≠ []) :
    f.score query e = f.scorePattern (f.pattern query) e := by
  rw [score, if_neg (mt List.isEmpty_iff.mp hpattern)]

theorem score_eq_leastScore (hpattern : f.pattern query ≠ []) :
    (f.score query e).1 = f.leastScore (f.pattern query) e scoreOf := by
  rw [score_eq hpattern, scorePattern, leastScore, List.foldl_map, List.foldl_map]
  rfl

theorem exactScore_eq_zero_iff (hpattern : f.pattern query ≠ []) :
    f.exactScore query e = 0 ↔ f.HoldsPattern query e := by
  rw [exactScore, if_neg (mt List.isEmpty_iff.mp hpattern), leastScore_eq_zero_iff]
  · simp only [sub_eq_zero, eq_comm (a := (1 : Rat)), ratio_eq_one_iff hpattern]
    rfl
  · exact fun text => sub_nonneg.mpr (ratio_bounds hpattern text).2

/-- A pattern that an attribute holds is given the score zero, rounded or not. -/
theorem HoldsPattern.score_eq_zero (h : f.HoldsPattern query e) (hpattern : f.pattern query ≠ []) :
    (f.score query e).1 = 0 := by
  rw [score_eq_leastScore hpattern, leastScore_eq_zero_iff (scoreOf_ratio_nonneg hpattern)]
  obtain ⟨key, hkey, hoccurs⟩ := h
  exact ⟨key, hkey, scoreOf_ratio_eq_zero hpattern hoccurs⟩

/-- No other score is rounded to zero, as far as doubles can count. -/
theorem score_eq_zero_iff (hpattern : f.pattern query ≠ [])
    (hcount : (f.pattern query).length ≤ 2 ^ 52) :
    (f.score query e).1 = 0 ↔ f.HoldsPattern query e := by
  rw [score_eq_leastScore hpattern, leastScore_eq_zero_iff (scoreOf_ratio_nonneg hpattern)]
  simp only [scoreOf_ratio_eq_zero_iff hpattern hcount]
  rfl

/-- The score of an entry is a double, whatever the query. -/
theorem isDouble_score (f : Finder) (query : String) (e : Entry) :
    Number.IsDouble (f.score query e).1 := by
  by_cases hpattern : f.pattern query = []
  · rw [score, if_pos (List.isEmpty_iff.mpr hpattern)]
    exact Number.isDouble_one
  · rw [score_eq_leastScore hpattern, leastScore]
    rcases List.mem_cons.mp (foldl_lesser_mem _ _) with hone | hmem
    · rw [hone]
      exact Number.isDouble_one
    · obtain ⟨key, -, hkey⟩ := List.mem_map.mp hmem
      obtain ⟨hlow, hhigh⟩ := ratio_bounds hpattern (f.normalize (key.value e)).toList
      rw [← hkey]
      exact isDouble_scoreOf hlow hhigh

/-- Without a limit a search gives the entries within the threshold, in rank order. -/
theorem search_none_eq (hpattern : f.pattern query ≠ []) :
    f.search query none =
      ranked ((f.entries.values.filter fun e => (f.score query e).1 ≤ f.threshold).map
        (f.hitOf query)) := by
  rw [search, if_neg (mt List.isEmpty_iff.mp hpattern), ← List.filterMap_eq_map',
    List.filterMap_filter]
  apply congrArg ranked
  apply List.filterMap_congr
  intro e _
  simp only [← score_eq hpattern, decide_eq_true_eq]
  rfl

theorem search_none_perm (hpattern : f.pattern query ≠ []) :
    (f.search query none).Perm
      ((f.entries.values.filter fun e => (f.score query e).1 ≤ f.threshold).map
        (f.hitOf query)) := by
  rw [search_none_eq hpattern]
  exact List.mergeSort_perm _ _

theorem search_none_filter_perm (hpattern : f.pattern query ≠ []) (chosen : Hit → Bool) :
    (((f.search query none).filter chosen).map Hit.entry).Perm
      (f.entries.values.filter fun e =>
        (f.score query e).1 ≤ f.threshold && chosen (f.hitOf query e)) := by
  apply (((search_none_perm hpattern).filter chosen).map Hit.entry).trans
  apply List.Perm.of_eq
  rw [List.filter_map, List.map_map, List.filter_filter]
  calc _ = (f.entries.values.filter fun e =>
        chosen (f.hitOf query e) && decide ((f.score query e).1 ≤ f.threshold)).map id := rfl
    _ = _ := by simp only [List.map_id, Bool.and_comm]

/-- Without case and with the default attributes, a pattern has to be in the name or in the relative
path. -/
theorem holdsPattern_iff (hcase : f.caseSensitive = false) (hkeys : f.keys = defaultKeys) :
    f.HoldsPattern query e ↔
      (Text.lower (Text.strip query)).toList <:+: (Text.lower e.name).toList ∨
        (Text.lower (Text.strip query)).toList <:+: (Text.lower e.relativePath).toList := by
  have hnormal : f.normalize = Text.lower := by
    funext s
    rw [normalize, hcase]
    rfl
  rw [HoldsPattern, pattern, hnormal, hkeys]
  simp [defaultKeys, Key.value]

/-- Where names are in the relative paths, the literal hits are the entries with an attribute that
holds the pattern. -/
theorem isLiteralHit_iff_holdsPattern (hcase : f.caseSensitive = false)
    (hkeys : f.keys = defaultKeys) (he : NameInPath e) :
    isLiteralHit (Text.lower (Text.strip query)) e = true ↔ f.HoldsPattern query e := by
  rw [isLiteralHit_iff_satisfies he f, satisfies_exact_iff, holdsPattern_iff hcase hkeys]

/-- A literal search gives the entries of those hits that are chosen for holding the pattern. None
of them is beyond the threshold, since their score is zero. -/
theorem literal_perm_chosen (hcase : f.caseSensitive = false) (hkeys : f.keys = defaultKeys)
    (hthreshold : 0 ≤ f.threshold) (hquery : Text.strip query ≠ "")
    (hnames : ∀ e ∈ f.entries.values, NameInPath e) {chosen : Hit → Bool}
    (hchosen : ∀ e, chosen (f.hitOf query e) = true ↔ f.HoldsPattern query e) :
    ((literalSearch f.entries.values query none).map Hit.entry).Perm
      (((f.search query none).filter chosen).map Hit.entry) := by
  have hpattern : f.pattern query ≠ [] := pattern_ne_nil hquery
  have hfound : (literalSearch f.entries.values query none).map Hit.entry =
      f.entries.values.filter (isLiteralHit (Text.lower (Text.strip query))) := by
    rw [literalSearch_none hquery, List.map_map]
    exact List.map_id _
  apply List.Perm.trans _ (search_none_filter_perm hpattern chosen).symm
  apply List.Perm.of_eq
  rw [hfound]
  apply List.filter_congr
  intro e he
  rw [Bool.eq_iff_iff, isLiteralHit_iff_holdsPattern hcase hkeys (hnames e he), Bool.and_eq_true,
    hchosen, decide_eq_true_eq]
  constructor
  · intro h
    exact ⟨(h.score_eq_zero hpattern).trans_le hthreshold, h⟩
  · exact And.right

/-- What a query without case finds, word for word, with the default attributes, in entries whose
names are in their relative paths. The literal search hits an entry exactly if its score before
rounding is zero, and exactly if it satisfies the trimmed query as an exact term. The rounded score
is zero then too; and it is zero only then, as long as the pattern is not too long for doubles to
count its characters. So a literal search without a limit gives the very entries that an approximate
one gives with a score of zero. -/
theorem literal_iff_score_zero (hcase : f.caseSensitive = false) (hkeys : f.keys = defaultKeys)
    (hthreshold : 0 ≤ f.threshold) (hquery : Text.strip query ≠ "") :
    (∀ e, NameInPath e →
      (literalSearch [e] query none ≠ [] ↔ f.exactScore query e = 0) ∧
        (f.exactScore query e = 0 ↔ f.satisfies e (Text.strip query) true = true) ∧
        (f.exactScore query e = 0 → (f.score query e).1 = 0) ∧
        ((f.pattern query).length ≤ 2 ^ 52 →
          (f.score query e).1 = 0 → f.exactScore query e = 0)) ∧
      ((∀ e ∈ f.entries.values, NameInPath e) →
        let found := (literalSearch f.entries.values query none).map Hit.entry
        let hits := f.search query none
        found.Perm ((hits.filter fun hit => f.exactScore query hit.entry = 0).map Hit.entry) ∧
          ((f.pattern query).length ≤ 2 ^ 52 →
            found.Perm ((hits.filter fun hit => hit.score = 0).map Hit.entry))) := by
  have hpattern : f.pattern query ≠ [] := pattern_ne_nil hquery
  have hexact (e : Entry) : f.exactScore query e = 0 ↔ f.HoldsPattern query e :=
    exactScore_eq_zero_iff hpattern
  constructor
  · intro e he
    refine ⟨?_, ?_, ?_, ?_⟩
    · rw [hexact, literalSearch_none hquery, ← isLiteralHit_iff_holdsPattern hcase hkeys he]
      simp
    · rw [hexact, holdsPattern_iff hcase hkeys, satisfies_exact_iff]
    · rw [hexact]
      exact fun h => h.score_eq_zero hpattern
    · intro hcount
      rw [hexact, score_eq_zero_iff hpattern hcount]
      exact id
  · intro hnames found hits
    constructor
    · apply literal_perm_chosen hcase hkeys hthreshold hquery hnames
      intro e
      rw [decide_eq_true_eq]
      exact hexact e
    · intro hcount
      apply literal_perm_chosen hcase hkeys hthreshold hquery hnames
      intro e
      rw [decide_eq_true_eq]
      exact score_eq_zero_iff hpattern hcount

theorem nameInPath_topEntry (name : String) : NameInPath (topEntry name) :=
  List.infix_rfl

/-- Of a name with two letters in the wrong order an approximate search gives both files, but only
one with the score zero. -/
theorem literal_iff_score_zero_readme :
    let f := plainFinder.setEntries [topEntry "raedme.md", topEntry "README.md"]
    (0 ≤ f.threshold ∧ Text.strip " Readme " ≠ "" ∧ (f.pattern " Readme ").length ≤ 2 ^ 52 ∧
        ∀ e ∈ f.entries.values, NameInPath e) ∧
      (∀ e ∈ f.entries.values, (f.score " Readme " e).1 ≤ f.threshold) ∧
      (literalSearch [topEntry "README.md"] " Readme " none ≠ [] ∧
        f.exactScore " Readme " (topEntry "README.md") = 0 ∧
        f.satisfies (topEntry "README.md") (Text.strip " Readme ") true = true) ∧
      ((f.search " Readme " none).filter fun hit => hit.score = 0).map Hit.entry =
        [topEntry "README.md"] := by
  intro f
  have hthreshold : 0 ≤ f.threshold := by decide +kernel
  have hquery : Text.strip " Readme " ≠ "" := by decide +kernel
  have hcount : (f.pattern " Readme ").length ≤ 2 ^ 52 := by decide +kernel
  have hnames : ∀ e ∈ f.entries.values, NameInPath e := by
    have hvalues : f.entries.values = [topEntry "raedme.md", topEntry "README.md"] := by
      decide +kernel
    rw [hvalues, List.forall_mem_cons, List.forall_mem_singleton]
    exact ⟨nameInPath_topEntry _, nameInPath_topEntry _⟩
  obtain ⟨heach, hall⟩ := literal_iff_score_zero (f := f) rfl rfl hthreshold hquery
  obtain ⟨hhit, hterm, -, -⟩ := heach (topEntry "README.md") (hnames _ (by decide +kernel))
  have hliteral : literalSearch [topEntry "README.md"] " Readme " none ≠ [] := by decide +kernel
  have hzero := (hall hnames).2 hcount
  have hscore := hhit.mp hliteral
  refine ⟨⟨hthreshold, hquery, hcount, hnames⟩, by decide +kernel,
    ⟨hliteral, hscore, hterm.mp hscore⟩, ?_⟩
  have hfound : (literalSearch f.entries.values " Readme " none).map Hit.entry =
      [topEntry "README.md"] := by decide +kernel
  rw [hfound] at hzero
  exact List.perm_singleton.mp hzero.symm

end Finder

end LiveIndex.Matching
