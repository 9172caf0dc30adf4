import LiveIndex.Failure

/-! Work that is interrupted only where it waits. A component answers each call with a stretch: its
new state, what it has done elsewhere, and either the answer or what it waits for. -/

namespace LiveIndex

/-- How a call stands after some work: it is over, or it waits for the answer to a request. -/
inductive Turn (Request Waiting Answer : Type)
  | done (result : Except Failure Answer)
  | ask (request : Request) (waiting : Waiting)

/-- A stretch of work that nothing interrupts: the state after it, what it had done elsewhere, in
order, and how the call stands. -/
structure Stretch (State Effect Request Waiting Answer : Type) where
  state : State
  effects : List Effect
  turn : Turn Request Waiting Answer

namespace Stretch

variable {State Effect Request Waiting Answer : Type}

/-- A stretch that ends a call. -/
def done (state : State) (effects : List Effect) (answer : Answer) :
    Stretch State Effect Request Waiting Answer :=
  ⟨state, effects, .done (.ok answer)⟩

/-- A stretch that ends a call with a failure. -/
def failed (state : State) (effects : List Effect) (failure : Failure) :
    Stretch State Effect Request Waiting Answer :=
  ⟨state, effects, .done (.error failure)⟩

/-- A stretch that ends with a request. -/
def ask (state : State) (effects : List Effect) (request : Request) (waiting : Waiting) :
    Stretch State Effect Request Waiting Answer :=
  ⟨state, effects, .ask request waiting⟩

/-- Puts earlier effects before a stretch. -/
def after (effects : List Effect) (s : Stretch State Effect Request Waiting Answer) :
    Stretch State Effect Request Waiting Answer :=
  { s with effects := effects ++ s.effects }

end Stretch

/-- The severity of a line in the log. -/
inductive Level
  | warning
  | error
  deriving DecidableEq, Repr

end LiveIndex
