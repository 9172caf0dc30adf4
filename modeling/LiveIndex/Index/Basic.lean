import LiveIndex.Loop.Lock
import LiveIndex.Matching.Literal
import LiveIndex.Path
import LiveIndex.Snapshot

/-! The index in memory. Entries, counters and the finder change together, one entry at a
time. -/

namespace LiveIndex

/-- How an entry changed. -/
inductive NoticeKind
  | add
  | change
  | remove
  deriving DecidableEq, Repr

/-- What listeners are told of one path. Removals carry no entry. -/
structure Notice where
  kind : NoticeKind
  path : String
  entry : Option Entry
  deriving DecidableEq, Repr

/-- Who is told of changes: one that notes them under a label, and may fail after that, or the
report to the user. -/
inductive Listener
  | recorder (label : String) (fails : Bool)
  | report
  deriving DecidableEq, Repr

/-- The counts of a batch. -/
structure Summary where
  added : Nat
  updated : Nat
  removed : Nat
  unchanged : Nat
  deriving DecidableEq, Repr, Inhabited

def Summary.zero : Summary :=
  ⟨0, 0, 0, 0⟩

def Summary.total (s : Summary) : Nat :=
  s.added + s.updated + s.removed

namespace Index

/-- The settings of an index. The delay of scheduled saves is in milliseconds. -/
structure Options where
  includeDirectories : Bool
  defaultLimit : Int
  threshold : Rat
  caseSensitive : Bool
  persistDelay : Int
  deriving DecidableEq, Repr

def Options.default : Options :=
  ⟨true, 20, Matching.Finder.defaultThreshold, false, 0⟩

/-- What an upsert did. -/
inductive Outcome
  | added
  | updated
  | unchanged
  deriving DecidableEq, Repr

end Index

/-- The index: entries by path with their counters, the finder over them if there is one, and
what is known of its stored form. `saves` are the scheduled saves that run. -/
structure Index where
  options : Index.Options
  root : Option String
  path : Option String
  version : Int
  entries : OrderedMap String Entry
  stats : Stats
  finder : Option Matching.Finder
  listeners : List Listener
  dirty : Bool
  lock : Lock
  saveTimer : Option Nat
  saves : List Nat
  ticket : Nat

namespace Index

def create (options : Options) : Index where
  options
  root := none
  path := none
  version := 1
  entries := .empty
  stats := .zero 0
  finder := none
  listeners := []
  dirty := false
  lock := .free
  saveTimer := none
  saves := []
  ticket := 0

/-- Whether an entry can be found by a search. -/
def isCandidate (s : Index) (e : Entry) : Bool :=
  s.options.includeDirectories || !e.isDirectory

def candidates (s : Index) : List Entry :=
  s.entries.values.filter s.isCandidate

/-- A finder made from the entries as they are. -/
def freshFinder (s : Index) : Matching.Finder :=
  (Matching.Finder.mk Matching.Finder.defaultKeys s.options.threshold
    s.options.caseSensitive .empty).setEntries s.candidates

def renewFinder (s : Index) : Index :=
  { s with finder := some s.freshFinder }

/-- The finder, made anew if there is none. -/
def currentFinder (s : Index) : Matching.Finder :=
  s.finder.getD s.freshFinder

def noteChange (s : Index) (now : Int) : Index :=
  { s with stats := { s.stats with lastUpdated := now }, dirty := true }

/-- Keeps the finder in step with an entry that was just stored. -/
def tellFinder (s : Index) (e : Entry) : Index :=
  let finder := s.currentFinder
  { s with finder := some (if s.isCandidate e then finder.add e else finder.remove e.path) }

def store (s : Index) (e : Entry) : Index :=
  let stats :=
    match s.entries.get? e.path with
    | some old => s.stats.apply old (-1)
    | none => s.stats
  { s with stats := stats.apply e 1, entries := s.entries.insert e.path e }.tellFinder e

/-- Inserts or replaces one entry. An entry that says the same as the stored one changes nothing. -/
def upsert (s : Index) (e : Entry) : Index × Outcome :=
  match s.entries.get? e.path with
  | none => (s.store e, .added)
  | some old => if old.same e then (s, .unchanged) else (s.store e, .updated)

def Outcome.count (summary : Summary) : Outcome → Summary
  | added => { summary with added := summary.added + 1 }
  | updated => { summary with updated := summary.updated + 1 }
  | unchanged => { summary with unchanged := summary.unchanged + 1 }

/-- What listeners are told of an upsert. -/
def Outcome.change? (e : Entry) : Outcome → Option Notice
  | added => some ⟨.add, e.path, some e⟩
  | updated => some ⟨.change, e.path, some e⟩
  | unchanged => none

def upsertAll (s : Index) : List Entry → Index × Summary × List Notice
  | [] => (s, .zero, [])
  | e :: rest =>
    let (s, outcome) := s.upsert e
    let (s, summary, changes) := s.upsertAll rest
    (s, outcome.count summary, (outcome.change? e).toList ++ changes)

/-- The entries that go with a path: its own, and all beneath it if that is a directory. -/
def family (s : Index) (path : String) : List Entry :=
  match s.entries.get? path with
  | none => []
  | some e =>
    if e.isDirectory then
      -- A path that ends in a slash would count as beneath itself.
      e :: ((s.entries.erase path).filter fun p _ => Path.isBeneath path p).values
    else [e]

/-- Takes entries out of the map, the counters and the finder. -/
def dropAll (s : Index) (removed : List Entry) (gone : String → Bool) : Index :=
  let s := { s with entries := s.entries.filter fun p _ => !gone p }
  { s with
    stats := removed.foldl (fun stats e => stats.apply e (-1)) s.stats
    finder := some (removed.foldl (fun f e => f.remove e.path) s.currentFinder) }

/-- Removes an entry and, for a directory, everything beneath it. -/
def removeFamily (s : Index) (path : String) : Index × List Entry :=
  match s.entries.get? path with
  | none => (s, [])
  | some e =>
    (s.dropAll (s.family path) fun p => p = path || (e.isDirectory && Path.isBeneath path p),
      s.family path)

def clear (s : Index) (now : Int) : Index :=
  { s with
    entries := .empty
    finder := none
    stats := .zero now
    version := s.version + 1
    dirty := true }

/-- Replaces the entries by those of a snapshot; of several with one path the last one counts. The
counters are counted anew. -/
def adopt (s : Index) (snapshot : Snapshot) : Index :=
  let entries : OrderedMap String Entry := .ofList (snapshot.entries.map fun e => (e.path, e))
  let last := snapshot.stats.lastUpdated
  { s with
    entries
    stats := .ofEntries entries.values (if last = 0 then snapshot.lastUpdated else last)
    version := snapshot.version
    dirty := false }.renewFinder

/-- The index as it is to be stored. -/
def snapshot (s : Index) : Snapshot :=
  ⟨s.entries.values, s.stats, s.version, s.stats.lastUpdated⟩

/-- The counters of the entries as they are. -/
def foldedStats (s : Index) : Stats :=
  .ofEntries s.entries.values 0

/-- Whether the counters are those of the entries. -/
def statsHold (s : Index) : Bool :=
  s.foldedStats.counters = s.stats.counters

def listen (s : Index) (l : Listener) : Index :=
  if l ∈ s.listeners then s else { s with listeners := s.listeners ++ [l] }

def unlisten (s : Index) (l : Listener) : Index :=
  { s with listeners := s.listeners.erase l }

end Index

end LiveIndex
