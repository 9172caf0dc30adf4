import LiveIndex.Proofs.Query.Understanding

/-! How tokens are spelled. Well-formed tokens that are spelled one after another with white space
between them are read back one by one; and whatever a text is, the tokens that are read from it are
well-formed. -/

namespace LiveIndex.Query

/-- A connective in capitals. -/
def Connective.capitals : Connective → List Char
  | and => ['A', 'N', 'D']
  | or => ['O', 'R']
  | not => ['N', 'O', 'T']

/-- What a token is like. A bare term is a word that spells no connective, an exact term holds any
text, and a connective is spelled in any case. -/
def Token.WellFormed : Token → Prop
  | .term value false =>
    value ≠ "" ∧ (∀ c ∈ value.toList, isBare c = true) ∧
      ∀ c : Connective, value.toList.map Char.toUpper ≠ c.capitals
  | .term _ true => True
  | .connective c word => word.toList.map Char.toUpper = c.capitals
  | .leftParen => True
  | .rightParen => True

/-- A text with a backslash before every double quote and every backslash. -/
def escaped : List Char → List Char
  | [] => []
  | c :: cs => if c = '"' ∨ c = '\\' then '\\' :: c :: escaped cs else c :: escaped cs

/-- How a token is spelled. An exact term stands in quotes. -/
def Token.spelling : Token → List Char
  | .term value false => value.toList
  | .term value true => '"' :: (escaped value.toList ++ ['"'])
  | .connective _ word => word.toList
  | .leftParen => ['(']
  | .rightParen => [')']

/-- White space between two tokens. -/
structure Gap where
  chars : List Char
  ne_nil : chars ≠ []
  blank : AllBlank chars

/-- Tokens one after another. The gaps are counted from the end. -/
def spaced (gap : Nat → Gap) : List Token → List Char
  | [] => []
  | [t] => t.spelling
  | t :: t' :: ts => t.spelling ++ ((gap ts.length).chars ++ spaced gap (t' :: ts))

variable {value : String} {word rest cs bs : List Char} {c : Connective} {t : Token}

theorem ofWord?_eq_some_iff :
    Connective.ofWord? word = some c ↔ word.map Char.toUpper = c.capitals := by
  rw [Connective.ofWord?]
  constructor
  · intro h
    split at h <;> cases h <;> assumption
  · intro h
    rw [h]
    cases c <;> rfl

theorem ofWord?_eq_none_iff :
    Connective.ofWord? word = none ↔ ∀ c : Connective, word.map Char.toUpper ≠ c.capitals := by
  rw [Option.eq_none_iff_forall_ne_some]
  exact forall_congr' fun c => not_congr ofWord?_eq_some_iff

/-- Capitals and small letters belong to the same words. -/
theorem isBare_of_toUpper {c : Char} (h : isBare c.toUpper = true) : isBare c = true := by
  by_cases hsmall : 97 ≤ c.toNat ∧ c.toNat ≤ 122
  · have hmark : c ≠ '(' ∧ c ≠ ')' ∧ c ≠ '"' := by
      refine ⟨?_, ?_, ?_⟩ <;>
      · rintro rfl
        exact absurd hsmall.1 (by decide)
    have hblank : Text.isBlank c = false := by
      simp [Text.isBlank, Text.inRanges, Text.blankRanges]
      omega
    simp [isBare, hblank, hmark]
  · have hsame : c.toUpper = c := dif_neg hsmall
    rwa [hsame] at h

/-- A connective is a word, however it is spelled. -/
theorem isBare_of_capitals (h : word.map Char.toUpper = c.capitals) :
    word ≠ [] ∧ ∀ d ∈ word, isBare d = true := by
  constructor
  · rintro rfl
    cases c <;> cases h
  · intro d hd
    apply isBare_of_toUpper
    have hmem : d.toUpper ∈ c.capitals := h ▸ List.mem_map_of_mem hd
    have hall : c.capitals.all isBare = true := by cases c <;> decide
    exact List.all_eq_true.mp hall _ hmem

/-- A token can follow only where no word goes on. -/
def EndsWord (rest : List Char) : Prop :=
  ∀ c ∈ rest.head?, isBare c = false

theorem endsWord_nil : EndsWord [] := fun c hc => by cases hc

theorem endsWord_cons {c : Char} (h : isBare c = false) (cs : List Char) : EndsWord (c :: cs) := by
  intro d hd
  obtain rfl := Option.some.inj hd
  exact h

theorem Gap.endsWord (g : Gap) (cs : List Char) : EndsWord (g.chars ++ cs) := by
  obtain ⟨c, bs, hchars⟩ := List.exists_cons_of_ne_nil g.ne_nil
  have hblank : Text.isBlank c = true := g.blank c (hchars ▸ List.mem_cons_self)
  rw [hchars]
  exact endsWord_cons (isBare_of_blank hblank) (bs ++ cs)

theorem unquote_escaped (value rest : List Char) :
    unquote (escaped value ++ '"' :: rest) = (value, rest) := by
  induction value with
  | nil => exact unquote_quote rest
  | cons c value ih =>
    rw [escaped]
    split
    · rw [List.cons_append, List.cons_append, unquote_escape, ih]
    · next hplain =>
      obtain ⟨hquote, hslash⟩ := not_or.mp hplain
      rw [List.cons_append, unquote_other hquote hslash, ih]

theorem tokens_quote (cs : List Char) :
    tokens ('"' :: cs) =
      .term (String.ofList (unquote cs).1) true :: tokens (unquote cs).2 := by
  rw [tokens, if_neg (by decide), if_neg (by decide), if_neg (by decide), if_pos rfl]

theorem tokens_leftParen (cs : List Char) : tokens ('(' :: cs) = .leftParen :: tokens cs := by
  rw [tokens, if_neg (by decide), if_pos rfl]

theorem tokens_rightParen (cs : List Char) : tokens (')' :: cs) = .rightParen :: tokens cs := by
  rw [tokens, if_neg (by decide), if_neg (by decide), if_pos rfl]

theorem isBare_iff {c : Char} :
    isBare c = true ↔ Text.isBlank c = false ∧ c ≠ '(' ∧ c ≠ ')' ∧ c ≠ '"' := by
  simp [isBare, and_assoc]

/-- A word is read as a whole if nothing of it comes after. -/
theorem tokens_word (hne : word ≠ []) (hbare : ∀ c ∈ word, isBare c = true)
    (hrest : EndsWord rest) : tokens (word ++ rest) = .ofWord word :: tokens rest := by
  obtain ⟨c, cs, rfl⟩ := List.exists_cons_of_ne_nil hne
  obtain ⟨hblank, hleft, hright, hquote⟩ := isBare_iff.mp (hbare c List.mem_cons_self)
  have hmore : ∀ d ∈ cs, isBare d = true := fun d hd => hbare d (List.mem_cons_of_mem c hd)
  have hstop : rest.takeWhile isBare = [] ∧ rest.dropWhile isBare = rest := by
    cases rest with
    | nil => exact ⟨rfl, rfl⟩
    | cons d rest =>
      have hd : ¬ isBare d = true := by simp [hrest d rfl]
      exact ⟨List.takeWhile_cons_of_neg hd, List.dropWhile_cons_of_neg hd⟩
  rw [List.cons_append, tokens, if_neg (by simp [hblank]), if_neg hleft, if_neg hright,
    if_neg hquote, List.takeWhile_append_of_pos hmore, List.dropWhile_append_of_pos hmore, hstop.1,
    hstop.2, List.append_nil]

/-- A well-formed token is read back from its spelling. -/
theorem tokens_spelling (ht : t.WellFormed) (hrest : EndsWord rest) :
    tokens (t.spelling ++ rest) = t :: tokens rest := by
  cases t with
  | term value exact =>
    cases exact with
    | false =>
      obtain ⟨hne, hbare, hother⟩ := ht
      have hchars : value.toList ≠ [] := fun h => hne (String.toList_eq_nil_iff.mp h)
      rw [Token.spelling, tokens_word hchars hbare hrest, Token.ofWord,
        ofWord?_eq_none_iff.mpr hother]
      dsimp only
      rw [String.ofList_toList]
    | true =>
      rw [Token.spelling, List.cons_append, List.append_assoc, List.singleton_append, tokens_quote,
        unquote_escaped, String.ofList_toList]
  | connective c word =>
    obtain ⟨hne, hbare⟩ := isBare_of_capitals ht
    rw [Token.spelling, tokens_word hne hbare hrest, Token.ofWord, ofWord?_eq_some_iff.mpr ht]
    dsimp only
    rw [String.ofList_toList]
  | leftParen => exact tokens_leftParen rest
  | rightParen => exact tokens_rightParen rest

theorem tokens_spaced (gap : Nat → Gap) {ts : List Token} (hts : ∀ t ∈ ts, t.WellFormed) :
    tokens (spaced gap ts) = ts := by
  induction ts with
  | nil => rw [spaced, tokens]
  | cons t ts ih =>
    have ht := hts t List.mem_cons_self
    have hmore := ih fun t' h => hts t' (List.mem_cons_of_mem t h)
    cases ts with
    | nil =>
      have hread := tokens_spelling ht endsWord_nil
      rwa [List.append_nil, tokens] at hread
    | cons t' ts =>
      rw [spaced, tokens_spelling ht ((gap ts.length).endsWord _),
        tokens_blank_append (gap ts.length).blank, hmore]

/-- A word is a term or a connective as it is written. -/
theorem wellFormed_ofWord (hne : word ≠ []) (hbare : ∀ c ∈ word, isBare c = true) :
    (Token.ofWord word).WellFormed := by
  rw [Token.ofWord]
  split
  · next c hc =>
    rw [Token.WellFormed, String.toList_ofList]
    exact ofWord?_eq_some_iff.mp hc
  · next hnone =>
    rw [Token.WellFormed, String.toList_ofList]
    refine ⟨?_, hbare, ofWord?_eq_none_iff.mp hnone⟩
    intro hempty
    exact hne (by rw [← String.toList_ofList (l := word), hempty]; rfl)

/-- Whatever a text is, its tokens are well-formed. -/
theorem wellFormed_of_mem_tokens (cs : List Char) : ∀ t ∈ tokens cs, t.WellFormed := by
  fun_induction tokens cs with
  | case1 =>
    intro t ht
    exact absurd ht List.not_mem_nil
  | case2 c rest hblank ih => exact ih
  | case3 rest hblank ih => exact List.forall_mem_cons.mpr ⟨trivial, ih⟩
  | case4 rest hblank hleft ih => exact List.forall_mem_cons.mpr ⟨trivial, ih⟩
  | case5 rest r hblank hleft hright ih => exact List.forall_mem_cons.mpr ⟨trivial, ih⟩
  | case6 c rest hblank hleft hright hquote ih =>
    have hc : isBare c = true :=
      isBare_iff.mpr ⟨Bool.not_eq_true _ ▸ hblank, hleft, hright, hquote⟩
    have hword : (Token.ofWord (c :: rest.takeWhile isBare)).WellFormed := by
      apply wellFormed_ofWord (List.cons_ne_nil _ _)
      exact List.forall_mem_cons.mpr ⟨hc, List.all_eq_true.mp List.all_takeWhile⟩
    exact List.forall_mem_cons.mpr ⟨hword, ih⟩

/-- Well-formed tokens with any white space between them are read back one by one, with the end
behind them. The tokens of any text are well-formed, so that they are read again from the text that
they spell. -/
theorem spelled_tokens_return :
    (∀ (gap : Nat → Gap) (ts : List Token), (∀ t ∈ ts, t.WellFormed) →
      marked (tokenize (String.ofList (spaced gap ts))) = ts.map some ++ [none]) ∧
    ∀ query : String,
      (∀ t ∈ tokenize query, t.WellFormed) ∧
        ∀ gap : Nat → Gap,
          marked (tokenize (String.ofList (spaced gap (tokenize query)))) =
            marked (tokenize query) := by
  have hread (gap : Nat → Gap) {ts : List Token} (hts : ∀ t ∈ ts, t.WellFormed) :
      tokenize (String.ofList (spaced gap ts)) = ts := by
    rw [tokenize, String.toList_ofList, tokens_spaced gap hts]
  refine ⟨fun gap ts hts => by rw [hread gap hts, marked], ?_⟩
  intro query
  have hts : ∀ t ∈ tokenize query, t.WellFormed := wellFormed_of_mem_tokens query.toList
  exact ⟨hts, fun gap => by rw [hread gap hts]⟩

/-- A gap of a tabulator, a wide space and a line end. -/
def wideGap : Gap :=
  ⟨['\t', '\u3000', '\n'], by decide, List.all_eq_true.mp (by decide)⟩

theorem spelled_tokens_return_mixed :
    let ts : List Token := [.leftParen, .term "a \"b\\" true, .connective .and "aNd",
      .term "ands" false, .rightParen]
    (∀ t ∈ ts, t.WellFormed) ∧
      marked (tokenize (String.ofList (spaced (fun _ => wideGap) ts))) = ts.map some ++ [none] := by
  intro ts
  have hand : (Token.connective .and "aNd").WellFormed := by
    unfold Token.WellFormed
    decide
  have hands : (Token.term "ands" false).WellFormed :=
    ⟨by decide, List.all_eq_true.mp (by decide), fun c => by cases c <;> decide⟩
  have hts : ∀ t ∈ ts, t.WellFormed := by
    simp only [ts, List.forall_mem_cons]
    exact ⟨trivial, trivial, hand, hands, trivial, fun t ht => absurd ht List.not_mem_nil⟩
  exact ⟨hts, spelled_tokens_return.1 _ ts hts⟩

end LiveIndex.Query
