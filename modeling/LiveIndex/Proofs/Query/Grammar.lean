import LiveIndex.Query.Parser

/-! The grammar of queries, apart from any parsing: which tokens spell which formula at which level
of precedence, and what every spelling has in common. -/

namespace LiveIndex.Query

/-- The levels of precedence, loosest first. -/
inductive Precedence
  | disjunction
  | conjunction
  | negation
  | primary
  deriving DecidableEq, Repr

/-- A further operand of a chain: the spelling of the connective before it, its tokens and its
tree. -/
structure Link where
  word : String
  tokens : List Token
  tree : Formula

/-- The tokens of the operands after the first one, each behind its connective. -/
def linkTokens (c : Connective) (links : List Link) : List Token :=
  links.flatMap fun l => .connective c l.word :: l.tokens

/-- The tree of a chain, grouped to the left. -/
def linkTree (join : Formula → Formula → Formula) (first : Formula) (links : List Link) : Formula :=
  links.foldl (fun q l => join q l.tree) first

/-- Which tokens spell which formula:
`disjunction := conjunction (OR conjunction)*`, `conjunction := negation (AND negation)*`,
`negation := NOT negation | primary`, `primary := TERM | LPAREN disjunction RPAREN`.
Both chains are grouped to the left. -/
inductive Derives : Precedence → List Token → Formula → Prop
  | disjunction {ts : List Token} {q : Formula} (links : List Link)
      (first : Derives .conjunction ts q)
      (more : ∀ l ∈ links, Derives .conjunction l.tokens l.tree) :
      Derives .disjunction (ts ++ linkTokens .or links) (linkTree .or q links)
  | conjunction {ts : List Token} {q : Formula} (links : List Link)
      (first : Derives .negation ts q)
      (more : ∀ l ∈ links, Derives .negation l.tokens l.tree) :
      Derives .conjunction (ts ++ linkTokens .and links) (linkTree .and q links)
  | not {ts : List Token} {q : Formula} (word : String) (operand : Derives .negation ts q) :
      Derives .negation (.connective .not word :: ts) (.not q)
  | operand {ts : List Token} {q : Formula} (h : Derives .primary ts q) : Derives .negation ts q
  | term (value : String) (exact : Bool) :
      Derives .primary [.term value exact] (.term value exact)
  | group {ts : List Token} {q : Formula} (inner : Derives .disjunction ts q) :
      Derives .primary (.leftParen :: ts ++ [.rightParen]) q

theorem linkTokens_cons (c : Connective) (l : Link) (links : List Link) :
    linkTokens c (l :: links) = .connective c l.word :: l.tokens ++ linkTokens c links := rfl

theorem linkTree_cons (join : Formula → Formula → Formula) (q : Formula) (l : Link)
    (links : List Link) :
    linkTree join q (l :: links) = linkTree join (join q l.tree) links := rfl

/-- Joining keeps the terms of both sides, left before right. -/
def KeepsTerms (join : Formula → Formula → Formula) : Prop :=
  ∀ a b, (join a b).terms = a.terms ++ b.terms

theorem keepsTerms_or : KeepsTerms .or := fun _ _ => rfl

theorem keepsTerms_and : KeepsTerms .and := fun _ _ => rfl

theorem terms_linkTree {join : Formula → Formula → Formula} (hj : KeepsTerms join) (q : Formula)
    (links : List Link) :
    (linkTree join q links).terms = q.terms ++ links.flatMap fun l => l.tree.terms := by
  induction links generalizing q with
  | nil => simp [linkTree]
  | cons l links ih =>
    rw [linkTree_cons, ih, hj]
    simp only [List.flatMap_cons, List.append_assoc]

theorem Derives.ne_nil {p : Precedence} {ts : List Token} {q : Formula} (h : Derives p ts q) :
    ts ≠ [] := by
  induction h with
  | disjunction _ _ _ ih _ => exact List.append_ne_nil_of_left_ne_nil ih _
  | conjunction _ _ _ ih _ => exact List.append_ne_nil_of_left_ne_nil ih _
  | not _ _ _ => exact List.cons_ne_nil _ _
  | operand _ ih => exact ih
  | term _ _ => exact List.cons_ne_nil _ _
  | group _ _ => exact List.cons_ne_nil _ _

end LiveIndex.Query
