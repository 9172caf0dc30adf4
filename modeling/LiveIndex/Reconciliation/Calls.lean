import LiveIndex.Index.Basic
import LiveIndex.Loop.Stretch
import LiveIndex.Reconciliation.Plan

/-! Bringing an index up to date: one batch of upserts, then the removals, parents first. A failure
is counted and the rest goes on. -/

namespace LiveIndex.Reconciliation

/-- What a reconciliation has done elsewhere: steps of work are shown with a total once it is
known. -/
inductive Effect
  | log (level : Level) (text : String)
  | progress (current : Nat) (total : Option Nat) (message : String)

inductive Request
  | inventory
  | batch (entries : List Entry)
  | remove (path : String)

/-- A reconciliation that is being applied: the number of changes, and what came of them so far. -/
structure Run where
  total : Nat
  result : Result

inductive Waiting
  | scanning
  | storing (run : Run) (count : Nat) (gone : List String)
  | removing (run : Run) (path : String) (gone : List String)

abbrev Work := Stretch Unit Effect Request Waiting Result

def begin : Work :=
  .ask () [.progress 0 none "Scanning disk inventory..."] .inventory .scanning

def finish (run : Run) : Work :=
  .done () [.progress run.total (some run.total) "Sync complete"] run.result

/-- Removes what is gone, parents first. What a removal took along is only counted. -/
def removeGone (indexed : OrderedMap String Entry) (run : Run) : List String → Work
  | [] => finish run
  | path :: rest =>
    if indexed.contains path then .ask () [] (.remove path) (.removing run path rest)
    else
      -- It went with a directory above it.
      removeGone indexed
        { run with result := { run.result with deleted := run.result.deleted + 1 } } rest

/-- Compares the inventory with the index and starts to apply the difference. -/
def scanned (indexed : OrderedMap String Entry) :
    Except Failure (OrderedMap String Entry) → Work
  | .error f => .failed () [] f
  | .ok disk =>
    let plan := Plan.between disk indexed
    let run : Run := ⟨plan.total, .zero⟩
    if plan.total = 0 then .done () [] .zero
    else
      let shown : List Effect :=
        [.progress 0 (some plan.total) ("Applying " ++ toString plan.total ++ " changes...")]
      if plan.upserts.isEmpty then (removeGone indexed run plan.gone).after shown
      else .ask () shown (.batch plan.upserts) (.storing run plan.upserts.length plan.gone)

/-- Goes on after the upserts. -/
def stored (indexed : OrderedMap String Entry) (run : Run) (count : Nat) (gone : List String) :
    Except Failure Summary → Work
  | .ok s =>
    removeGone indexed
      { run with result := { run.result with added := s.added, updated := s.updated } } gone
  | .error f =>
    (removeGone indexed
      { run with result := { run.result with errors := run.result.errors + count } } gone).after
      [ .log .error
          ("Failed to apply " ++ toString count ++ " sync updates: " ++ f.message) ]

/-- Goes on after a removal. -/
def removed (indexed : OrderedMap String Entry) (run : Run) (path : String) (gone : List String) :
    Except Failure Nat → Work
  | .ok _ =>
    removeGone indexed
      { run with result := { run.result with deleted := run.result.deleted + 1 } } gone
  | .error f =>
    (removeGone indexed
      { run with result := { run.result with errors := run.result.errors + 1 } } gone).after
      [.log .warning ("Failed to remove " ++ path ++ " during sync: " ++ f.message)]

end LiveIndex.Reconciliation
