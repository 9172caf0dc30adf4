import LiveIndex.Query.Expr

/-! What queries mean, whatever an evaluation looks at, and which of their terms are asked for. Both
are kept when negations are moved about: the terms under an even number of negations stay so, in the
same order. -/

namespace LiveIndex.Query

variable {ν : Type} {term : String → Bool → Bool} {foreign : ν → Bool}

namespace Expr

/-- The Boolean meaning of a query whose leaves all have one. -/
def meaning (term : String → Bool → Bool) (foreign : ν → Bool) : Expr ν → Bool
  | .term value exact => term value exact
  | and left right => left.meaning term foreign && right.meaning term foreign
  | or left right => left.meaning term foreign || right.meaning term foreign
  | not operand => !operand.meaning term foreign
  | .foreign v => foreign v

variable {p q : Expr ν}

theorem Run.answer_whenAnswer {r next : Run ν} {a : Bool} (h : r.answer = .ok a) (b : Bool) :
    (r.whenAnswer b next).answer = if a = b then next.answer else .ok a := by
  rw [whenAnswer, h]
  dsimp only
  split
  · rfl
  · exact h

end Expr

namespace Formula

/-- What is skipped does not matter to the answer. -/
theorem answer_evaluate (q : Formula) :
    (q.evaluate term).answer = .ok (q.meaning term Empty.elim) := by
  induction q with
  | term value exact => rfl
  | and left right ihl ihr =>
    rw [Expr.evaluate, Expr.Run.answer_whenAnswer ihl, ihr, Expr.meaning]
    cases left.meaning term Empty.elim <;> rfl
  | or left right ihl ihr =>
    rw [Expr.evaluate, Expr.Run.answer_whenAnswer ihl, ihr, Expr.meaning]
    cases left.meaning term Empty.elim <;> rfl
  | not operand ih =>
    rw [Expr.evaluate]
    dsimp only
    rw [ih, Expr.meaning]
    rfl
  | foreign v => cases v

theorem holds_eq_meaning (q : Formula) (term : String → Bool → Bool) :
    q.holds term = q.meaning term Empty.elim := by
  rw [holds, answer_evaluate]

/-- A conjunction is looked at from the left, but means what it says. -/
theorem holds_and (l r : Formula) :
    Formula.holds (.and l r) term = (l.holds term && r.holds term) := by
  rw [holds_eq_meaning, holds_eq_meaning, holds_eq_meaning, Expr.meaning]

/-- A disjunction holds if either side does. -/
theorem holds_or (l r : Formula) :
    Formula.holds (.or l r) term = (l.holds term || r.holds term) := by
  rw [holds_eq_meaning, holds_eq_meaning, holds_eq_meaning, Expr.meaning]

end Formula

end LiveIndex.Query
