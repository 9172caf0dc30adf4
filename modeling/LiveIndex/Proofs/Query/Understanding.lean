import LiveIndex.Proofs.Query.Parsing
import LiveIndex.Proofs.Text.Blank

/-! How a search text is understood: as the formula that its tokens derive, if they derive one, and
as one literal term if they do not. -/

namespace LiveIndex.Query

/-- Tokens that derive a formula are parsed to it, and its terms are those that were noted. -/
theorem parseTokens_of_derives {ts : List Token} {q : Formula} (h : Derives .disjunction ts q) :
    parseTokens ts = .ok (q, q.terms.map Prod.fst) := by
  have hne : ts.isEmpty = false := by
    simpa only [List.isEmpty_eq_false_iff] using h.ne_nil
  have hend : Precedence.disjunction.EndsBefore [] := by
    constructor <;>
    · rintro ⟨_, _, he⟩
      cases he
  have hread := h.parses [] [] (4 * ts.length + 4) hend (Nat.le_refl _)
  rw [List.append_nil] at hread
  simp only [parseAt] at hread
  simp only [parseTokens, hne, hread, Cursor.behind, marked_nil, List.nil_append, if_false,
    Bool.false_eq_true]

/-- Tokens derive at most one formula. -/
theorem Derives.unique {ts : List Token} {a b : Formula} (ha : Derives .disjunction ts a)
    (hb : Derives .disjunction ts b) : a = b := by
  have h := (parseTokens_of_derives ha).symm.trans (parseTokens_of_derives hb)
  exact congrArg Prod.fst (Except.ok.inj h)

theorem tokens_blank_cons {c : Char} (h : Text.isBlank c = true) (cs : List Char) :
    tokens (c :: cs) = tokens cs := by
  rw [tokens, if_pos h]

def AllBlank (bs : List Char) : Prop :=
  ∀ b ∈ bs, Text.isBlank b = true

theorem tokens_blank_append {bs : List Char} (hb : AllBlank bs) (cs : List Char) :
    tokens (bs ++ cs) = tokens cs := by
  induction bs with
  | nil => rfl
  | cons b bs ih =>
    rw [List.cons_append, tokens_blank_cons (hb b List.mem_cons_self)]
    exact ih fun b' h => hb b' (List.mem_cons_of_mem b h)

theorem tokens_blank {bs : List Char} (hb : AllBlank bs) : tokens bs = [] := by
  rw [← List.append_nil bs, tokens_blank_append hb, tokens]

theorem unquote_quote (cs : List Char) : unquote ('"' :: cs) = ([], cs) := by
  rw [unquote]

theorem unquote_escape (c : Char) (cs : List Char) :
    unquote ('\\' :: c :: cs) = (c :: (unquote cs).1, (unquote cs).2) := by
  rw [unquote]

theorem unquote_other {c : Char} (hq : c ≠ '"') (hs : c ≠ '\\') (cs : List Char) :
    unquote (c :: cs) = (c :: (unquote cs).1, (unquote cs).2) := by
  rw [unquote]
  · exact hq
  · intro _ _ h
    exact absurd h hs

theorem unquote_blank {bs : List Char} (hb : AllBlank bs) : (unquote bs).2 = [] := by
  induction bs with
  | nil => rfl
  | cons b bs ih =>
    have hblank := hb b (List.mem_cons_self ..)
    have hq : b ≠ '"' := by
      rintro rfl
      exact absurd hblank (by decide)
    have hs : b ≠ '\\' := by
      rintro rfl
      exact absurd hblank (by decide)
    rw [unquote_other hq hs]
    exact ih fun b' h => hb b' (List.mem_cons_of_mem _ h)

/-- What follows the closing quote when white space is added at the end: text without a closing
quote takes that in. -/
theorem unquote_append_blank (cs bs : List Char) (hb : AllBlank bs) :
    ∃ bs', AllBlank bs' ∧ (unquote (cs ++ bs)).2 = (unquote cs).2 ++ bs' := by
  have hnil : AllBlank [] := fun _ h => absurd h List.not_mem_nil
  fun_induction unquote cs with
  | case1 => exact ⟨[], hnil, by rw [List.nil_append, unquote_blank hb]; rfl⟩
  | case2 rest => exact ⟨bs, hb, by rw [List.cons_append, unquote_quote]⟩
  | case3 c rest r ih =>
    obtain ⟨bs', hb', he⟩ := ih
    exact ⟨bs', hb', by rw [List.cons_append, List.cons_append, unquote_escape, he]⟩
  | case4 c rest hq hs r ih =>
    obtain ⟨bs', hb', he⟩ := ih
    by_cases hc : c = '\\'
    · -- A backslash at the end of the text escapes the white space after it.
      cases rest with
      | cons c' rest => exact absurd rfl (hs c' rest hc)
      | nil =>
        cases bs with
        | nil => exact ⟨[], hnil, by rw [hc]; rfl⟩
        | cons b bs =>
          refine ⟨[], hnil, ?_⟩
          rw [hc, List.cons_append, List.nil_append, unquote_escape,
            unquote_blank fun b' h => hb b' (List.mem_cons_of_mem _ h)]
          rfl
    · exact ⟨bs', hb', by rw [List.cons_append, unquote_other hq hc, he]⟩

theorem isBare_of_blank {b : Char} (h : Text.isBlank b = true) : isBare b = false := by
  simp [isBare, h]

theorem takeWhile_blank {bs : List Char} (hb : AllBlank bs) : bs.takeWhile isBare = [] := by
  cases bs with
  | nil => rfl
  | cons b bs => rw [List.takeWhile_cons, isBare_of_blank (hb b (List.mem_cons_self ..))]; rfl

theorem dropWhile_blank {bs : List Char} (hb : AllBlank bs) : bs.dropWhile isBare = bs := by
  cases bs with
  | nil => rfl
  | cons b bs => rw [List.dropWhile_cons, isBare_of_blank (hb b (List.mem_cons_self ..))]; rfl

theorem word_append_blank (cs bs : List Char) (hb : AllBlank bs) :
    (cs ++ bs).takeWhile isBare = cs.takeWhile isBare ∧
      (cs ++ bs).dropWhile isBare = cs.dropWhile isBare ++ bs := by
  rw [List.takeWhile_append, List.dropWhile_append, takeWhile_blank hb, dropWhile_blank hb]
  constructor
  · split
    · next hall =>
      rw [List.append_nil]
      exact ((List.takeWhile_prefix _).eq_of_length hall).symm
    · rfl
  · split
    · next hnil => rw [List.isEmpty_iff.mp hnil, List.nil_append]
    · rfl

theorem any_connective_append_blank (cs bs : List Char) (hb : AllBlank bs) :
    (tokens (cs ++ bs)).any Token.isConnective = (tokens cs).any Token.isConnective := by
  fun_induction tokens cs generalizing bs with
  | case1 => rw [List.nil_append, tokens_blank hb]
  | case2 c rest hc ih => rw [List.cons_append, tokens_blank_cons hc, ih bs hb]
  | case3 rest hc ih =>
    rw [List.cons_append, tokens, if_neg hc, if_pos rfl, List.any_cons, List.any_cons, ih bs hb]
  | case4 rest hc h₁ ih =>
    rw [List.cons_append, tokens, if_neg hc, if_neg h₁, if_pos rfl, List.any_cons, List.any_cons,
      ih bs hb]
  | case5 rest r hc h₁ h₂ ih =>
    -- A quoted term may grow by the white space, but stays one term.
    obtain ⟨bs', hb', he⟩ := unquote_append_blank rest bs hb
    rw [List.cons_append, tokens, if_neg hc, if_neg h₁, if_neg h₂, if_pos rfl, List.any_cons,
      List.any_cons, he, ih bs' hb']
    rfl
  | case6 c rest hc h₁ h₂ h₃ ih =>
    obtain ⟨htake, hdrop⟩ := word_append_blank rest bs hb
    rw [List.cons_append, tokens, if_neg hc, if_neg h₁, if_neg h₂, if_neg h₃, htake, hdrop,
      List.any_cons, List.any_cons, ih bs hb]

theorem any_connective_trimBlank (cs : List Char) :
    (tokens (Text.trimBlank cs)).any Token.isConnective = (tokens cs).any Token.isConnective := by
  obtain ⟨front, back, hsplit, hfront, hback⟩ := Text.exists_trimBlank cs
  conv_rhs => rw [hsplit, List.append_assoc, tokens_blank_append hfront]
  exact (any_connective_append_blank _ back hback).symm

/-- A text with connectives has them within the white space around it, and is not empty. -/
theorem trimBlank_of_connective {text : String}
    (h : (tokenize text).any Token.isConnective = true) :
    (tokens (Text.trimBlank text.toList)).any Token.isConnective = true ∧
      (Text.trimBlank text.toList).isEmpty = false := by
  have hany : (tokens (Text.trimBlank text.toList)).any Token.isConnective = true := by
    rw [any_connective_trimBlank]
    exact h
  refine ⟨hany, ?_⟩
  cases hcs : Text.trimBlank text.toList with
  | nil =>
    rw [hcs, tokens] at hany
    exact absurd hany (by decide)
  | cons c cs => rfl

theorem parse_of_understand {text : String} {p : Parsed} (h : understand text = .ok p) :
    parse text = p := by
  rw [parse, h]
  rfl

theorem understand_of_derives {text : String} {q : Formula}
    (h : (tokenize text).any Token.isConnective = true)
    (hq : Derives .disjunction (tokens (Text.trimBlank text.toList)) q) :
    understand text = .ok ⟨some q, true, q.terms.map Prod.fst, none⟩ := by
  obtain ⟨hany, hne⟩ := trimBlank_of_connective h
  simp only [understand, hne, hany, parseTokens_of_derives hq, Bool.not_true, Bool.false_eq_true,
    if_false]

end LiveIndex.Query
