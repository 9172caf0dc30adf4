import LiveIndex.Proofs.Query.Spelling
import Mathlib.Data.List.Induction

/-! The written form of a query. It puts every conjunction and every disjunction in parentheses, so
that its tokens derive the query again. Exact terms are put in quotes as they are, and exactly those
without a double quote and without a backslash are read back from there. -/

namespace LiveIndex.Query

/-- The written form of two operands with a connective between them. -/
def joinedText (c : Connective) (l r : List Char) : List Char :=
  '(' :: (l ++ ' ' :: (c.capitals ++ ' ' :: (r ++ [')'])))

/-- The tokens of such a form. -/
def joinedTokens (c : Connective) (l r : List Token) : List Token :=
  .leftParen :: (l ++ .connective c (String.ofList c.capitals) :: (r ++ [.rightParen]))

namespace Formula

/-- The tokens that the written form of a query is made of. -/
def written : Formula → List Token
  | .term value exact => [.term value exact]
  | .and l r => joinedTokens .and (written l) (written r)
  | .or l r => joinedTokens .or (written l) (written r)
  | .not q => .connective .not "NOT" :: written q

/-- The terms of a query are such as tokens have. -/
def WellFormed (q : Formula) : Prop :=
  ∀ t ∈ q.terms, (Token.term t.1 t.2).WellFormed

end Formula

open Formula

variable {value : String} {l r q : Formula} {ts us : List Token} {cs ds rest : List Char}
  {c : Connective} {p : Precedence}

/-- One further operand makes a chain of two. -/
theorem linkTokens_single (c : Connective) (us : List Token) (r : Formula) :
    linkTokens c [⟨String.ofList c.capitals, us, r⟩] =
      .connective c (String.ofList c.capitals) :: us := by
  rw [linkTokens_cons]
  exact List.append_nil _

theorem derives_and (hl : Derives .negation ts l) (hr : Derives .negation us r) :
    Derives .disjunction (ts ++ .connective .and (String.ofList Connective.and.capitals) :: us)
      (.and l r) := by
  have hchain : Derives .conjunction _ (Expr.and l r) :=
    .conjunction [⟨String.ofList Connective.and.capitals, us, r⟩] hl (by simpa using hr)
  have halone : Derives .disjunction _ (Expr.and l r) := .disjunction [] hchain (by simp)
  rw [linkTokens_single] at halone
  simpa [linkTokens] using halone

theorem derives_or (hl : Derives .negation ts l) (hr : Derives .negation us r) :
    Derives .disjunction (ts ++ .connective .or (String.ofList Connective.or.capitals) :: us)
      (.or l r) := by
  have hleft : Derives .conjunction _ l := .conjunction [] hl (by simp)
  have hright : Derives .conjunction _ r := .conjunction [] hr (by simp)
  have hchain : Derives .disjunction _ (Expr.or l r) :=
    .disjunction [⟨String.ofList Connective.or.capitals, us, r⟩] hleft
      (by simpa [linkTokens] using hright)
  rw [linkTokens_single] at hchain
  simpa [linkTokens] using hchain

section Reading

/-- A text is read as the given tokens, whatever comes after it that does not go on with a word. -/
def ReadsAs (cs : List Char) (ts : List Token) : Prop :=
  ∀ rest, EndsWord rest → tokens (cs ++ rest) = ts ++ tokens rest

theorem isBare_space : isBare ' ' = false := by decide

theorem isBare_rightParen : isBare ')' = false := by decide

/-- A connective in capitals is read as such. -/
theorem tokens_capitals (c : Connective) (cs : List Char) :
    tokens (c.capitals ++ ' ' :: cs) =
      .connective c (String.ofList c.capitals) :: tokens cs := by
  have hwell : (Token.connective c (String.ofList c.capitals)).WellFormed := by
    cases c <;>
    · unfold Token.WellFormed
      decide
  have hread := tokens_spelling hwell (endsWord_cons isBare_space cs)
  rwa [Token.spelling, String.toList_ofList, tokens_blank_cons (by decide)] at hread

/-- What is read of two operands when only the first one is known. -/
theorem ReadsAs.joined_left (hl : ReadsAs cs ts) (c : Connective) (ds rest : List Char) :
    tokens (joinedText c cs ds ++ rest) =
      .leftParen :: (ts ++ .connective c (String.ofList c.capitals) ::
        tokens (ds ++ ')' :: rest)) := by
  have hsplit : joinedText c cs ds ++ rest =
      '(' :: (cs ++ ' ' :: (c.capitals ++ ' ' :: (ds ++ ')' :: rest))) := by
    simp [joinedText]
  rw [hsplit, tokens_leftParen, hl _ (endsWord_cons isBare_space _),
    tokens_blank_cons (by decide), tokens_capitals]

theorem ReadsAs.joined (hl : ReadsAs cs ts) (hr : ReadsAs ds us) (c : Connective) :
    ReadsAs (joinedText c cs ds) (joinedTokens c ts us) := by
  intro rest _
  rw [hl.joined_left, hr _ (endsWord_cons isBare_rightParen rest), tokens_rightParen]
  simp [joinedTokens]

theorem ReadsAs.negated (h : ReadsAs cs ts) :
    ReadsAs (Connective.not.capitals ++ ' ' :: cs) (.connective .not "NOT" :: ts) := by
  intro rest hrest
  rw [List.append_assoc, List.cons_append, tokens_capitals, h rest hrest]
  rfl

theorem escaped_of_plain (hquote : '"' ∉ cs) (hslash : '\\' ∉ cs) : escaped cs = cs := by
  induction cs with
  | nil => rfl
  | cons c cs ih =>
    have hc : ¬ (c = '"' ∨ c = '\\') :=
      not_or.mpr ⟨(List.ne_of_not_mem_cons hquote).symm, (List.ne_of_not_mem_cons hslash).symm⟩
    rw [escaped, if_neg hc, ih (List.not_mem_of_not_mem_cons hquote)
      (List.not_mem_of_not_mem_cons hslash)]

end Reading

section Ends

open Text

theorem isBlank_of_isBare {c : Char} (h : isBare c = true) : isBlank c = false :=
  (isBare_iff.mp h).1

/-- No term begins or ends with white space, be it bare or in quotes. -/
theorem trimmed_spelling {exact : Bool} (ht : (Token.term value exact).WellFormed) :
    (Token.term value exact).spelling ≠ [] ∧ Trimmed (Token.term value exact).spelling := by
  cases exact with
  | false =>
    obtain ⟨hne, hbare, -⟩ := ht
    exact ⟨mt String.toList_eq_nil_iff.mp hne,
      trimmed_of_forall fun c hc => isBlank_of_isBare (hbare c hc)⟩
  | true =>
    have hclose : Trimmed ['"'] := trimmed_singleton (by decide)
    exact ⟨List.cons_ne_nil _ _, hclose.prepend (List.cons_ne_nil _ _) (by decide) _⟩

end Ends

theorem parse_of_derives {text : String} (hany : (tokenize text).any Token.isConnective = true)
    (hq : Derives .disjunction (tokens (Text.trimBlank text.toList)) q) :
    parse text = ⟨some q, true, q.terms.map Prod.fst, none⟩ :=
  parse_of_understand (understand_of_derives hany hq)

theorem tokens_alone {t : Token} (ht : t.WellFormed) : tokens t.spelling = [t] := by
  have hread := tokens_spelling ht endsWord_nil
  rwa [List.append_nil, tokens] at hread

/-- Two terms with a connective between them are a query with connectives. -/
theorem parse_joined {text left right : String} {exact exact' : Bool}
    (hl : (Token.term left exact).WellFormed) (hr : (Token.term right exact').WellFormed)
    (htext : text.toList = (Token.term left exact).spelling ++
      ' ' :: (c.capitals ++ ' ' :: (Token.term right exact').spelling))
    (hq : Derives .disjunction ([.term left exact] ++
      .connective c (String.ofList c.capitals) :: [.term right exact']) q) :
    (parse text).isLogical = true ∧ (parse text).query = some q := by
  have htokens : tokens text.toList = [.term left exact] ++
      .connective c (String.ofList c.capitals) :: [.term right exact'] := by
    rw [htext, tokens_spelling hl (endsWord_cons isBare_space _), tokens_blank_cons (by decide),
      tokens_capitals, tokens_alone hr]
    rfl
  have htrimmed : Text.trimBlank text.toList = text.toList := by
    obtain ⟨hnel, hendsl⟩ := trimmed_spelling hl
    obtain ⟨hner, hendsr⟩ := trimmed_spelling hr
    have hsplit : text.toList = (Token.term left exact).spelling ++
        ((' ' :: (c.capitals ++ [' '])) ++ (Token.term right exact').spelling) := by
      rw [htext]
      simp
    rw [hsplit]
    exact Text.trimBlank_of_trimmed (hendsl.append hnel hendsr hner _)
  have hany : (tokenize text).any Token.isConnective = true := by
    rw [tokenize, htokens]
    rfl
  rw [← htokens, ← htrimmed] at hq
  rw [parse_of_derives hany hq]
  exact ⟨rfl, rfl⟩

theorem Derives.weaken (h : Derives .negation ts q) : Derives .disjunction ts q := by
  have hchain : Derives .disjunction _ q := .disjunction [] (.conjunction [] h (by simp)) (by simp)
  simpa [linkTokens] using hchain

end LiveIndex.Query
