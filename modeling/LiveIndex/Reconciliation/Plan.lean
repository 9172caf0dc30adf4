import LiveIndex.Disk.Walk
import LiveIndex.Text.Order

/-! The difference between what is on disk and what is indexed. -/

namespace LiveIndex.Reconciliation

/-- What has to change so that an index fits what is on disk, in the order of paths. -/
structure Plan where
  fresh : List Entry
  stale : List Entry
  gone : List String
  deriving DecidableEq, Repr

/-- Entries in the order of their paths. -/
def sortedEntries (es : List Entry) : List Entry :=
  es.mergeSort fun a b => a.path ≤ b.path

/-- Compares what is on disk with what is indexed: paths that are not indexed are fresh, those whose
entries no longer fit are stale, and those that are not on disk are gone. -/
def Plan.between (disk indexed : OrderedMap String Entry) : Plan where
  fresh := (disk.filter fun p _ => !indexed.contains p).values
  stale :=
    (disk.filter fun p current =>
      match indexed.get? p with
      | some old => old.isOutdated current
      | none => false).values
  gone := Text.sorted (indexed.filter fun p _ => !disk.contains p).keys

namespace Plan

def total (p : Plan) : Nat :=
  p.fresh.length + p.stale.length + p.gone.length

/-- The entries that are to be stored, in the order of their paths. -/
def upserts (p : Plan) : List Entry :=
  sortedEntries (p.fresh ++ p.stale)

end Plan

/-- The counts of a reconciliation. -/
structure Result where
  added : Nat
  deleted : Nat
  updated : Nat
  errors : Nat
  deriving DecidableEq, Repr, Inhabited

def Result.zero : Result :=
  ⟨0, 0, 0, 0⟩

def Result.total (r : Result) : Nat :=
  r.added + r.deleted + r.updated

end LiveIndex.Reconciliation
