/-! Boolean queries and their meaning. Evaluation notes the terms that it asks for, so that what is
skipped can be told from what is looked at. -/

namespace LiveIndex.Query

/-- Boolean queries over terms. Leaves of the type `ν` are foreign: they have no meaning. -/
inductive Expr (ν : Type)
  | term (value : String) (exact : Bool)
  | and (left right : Expr ν)
  | or (left right : Expr ν)
  | not (operand : Expr ν)
  | foreign (value : ν)
  deriving DecidableEq, Repr

namespace Expr

variable {ν : Type}

/-- A run of an evaluation: the terms that were asked for, in order, and the answer, or the
foreign leaf that was met. -/
structure Run (ν : Type) where
  asked : List (String × Bool)
  answer : Except ν Bool

/-- Goes on after a run whose answer is `b`, and stops after any other. -/
def Run.whenAnswer (r : Run ν) (b : Bool) (next : Run ν) : Run ν :=
  match r.answer with
  | .ok a => if a = b then ⟨r.asked ++ next.asked, next.answer⟩ else r
  | .error _ => r

/-- Evaluates from left to right. The right side of a conjunction is looked at only if the left
side holds, that of a disjunction only if it does not. -/
def evaluate (holds : String → Bool → Bool) : Expr ν → Run ν
  | term value exact => ⟨[(value, exact)], .ok (holds value exact)⟩
  | and left right => (left.evaluate holds).whenAnswer true (right.evaluate holds)
  | or left right => (left.evaluate holds).whenAnswer false (right.evaluate holds)
  | not operand =>
    let r := operand.evaluate holds
    ⟨r.asked, r.answer.map (!·)⟩
  | foreign v => ⟨[], .error v⟩

/-- The terms of a query from left to right, each with its exactness. -/
def terms : Expr ν → List (String × Bool)
  | term value exact => [(value, exact)]
  | and left right => left.terms ++ right.terms
  | or left right => left.terms ++ right.terms
  | not operand => operand.terms
  | foreign _ => []

/-- The terms under a number of negations that is even, or odd if `negated`. -/
def polarTerms (negated : Bool) : Expr ν → List (String × Bool)
  | term value exact => if negated then [] else [(value, exact)]
  | and left right => left.polarTerms negated ++ right.polarTerms negated
  | or left right => left.polarTerms negated ++ right.polarTerms negated
  | not operand => operand.polarTerms (!negated)
  | foreign _ => []

/-- The terms under an even number of negations. -/
def positiveTerms (e : Expr ν) : List (String × Bool) :=
  e.polarTerms false

/-- The written form of a query, every conjunction and disjunction in parentheses; or the first
foreign leaf. -/
def text : Expr ν → Except ν String
  | term value exact => .ok (if exact then "\"" ++ value ++ "\"" else value)
  | and left right => do
    let l ← left.text
    let r ← right.text
    return "(" ++ l ++ " AND " ++ r ++ ")"
  | or left right => do
    let l ← left.text
    let r ← right.text
    return "(" ++ l ++ " OR " ++ r ++ ")"
  | not operand => do
    let s ← operand.text
    return "NOT " ++ s
  | foreign v => .error v

end Expr

/-- A query without foreign leaves. -/
abbrev Formula := Expr Empty

namespace Formula

/-- Whether a query holds when the terms hold as given. -/
def holds (q : Formula) (term : String → Bool → Bool) : Bool :=
  match (q.evaluate term).answer with
  | .ok b => b
  | .error v => nomatch v

def text (q : Formula) : String :=
  match Expr.text q with
  | .ok s => s
  | .error v => nomatch v

end Formula

end LiveIndex.Query
