namespace LiveIndex

/-- A lock that is handed on in the order in which it was asked for. -/
structure Lock where
  held : Bool
  queue : List Nat
  deriving DecidableEq, Repr, Inhabited

namespace Lock

def free : Lock :=
  ⟨false, []⟩

/-- Whether the lock can be had without waiting. -/
def isFree (l : Lock) : Bool :=
  !l.held && l.queue.isEmpty

def take (l : Lock) : Lock :=
  { l with held := true }

/-- Waits at the end of the queue. -/
def wait (l : Lock) (who : Nat) : Lock :=
  { l with queue := l.queue ++ [who] }

/-- Takes the lock after having waited for it. -/
def enter (l : Lock) (who : Nat) : Lock :=
  ⟨true, l.queue.erase who⟩

/-- Gives the lock back; the first in the queue is to be woken. -/
def leave (l : Lock) : Lock × Option Nat :=
  -- Whoever is woken stays in the queue until it enters, so that nobody gets in between.
  ({ l with held := false }, l.queue.head?)

end Lock

end LiveIndex
