import LiveIndex.Json.Writer
import LiveIndex.Stats

namespace LiveIndex

/-- The stored form of an index. -/
structure Snapshot where
  entries : List Entry
  stats : Stats
  version : Int
  lastUpdated : Int
  deriving DecidableEq, Repr

namespace Snapshot

def toJson (s : Snapshot) : Json :=
  .obj
    [ ("entries", .arr (s.entries.map Entry.toJson)), ("stats", s.stats.toJson),
      ("version", .int s.version), ("lastUpdated", .int s.lastUpdated) ]

/-- Faults of form become faults of the snapshot; faults of value stand for themselves. -/
def wrap : Failure → Failure
  | e =>
    match e.family with
    | .field | .type | .attribute => .malformedSnapshot e
    | _ => e

/-- The parts of a snapshot, read in order. Statistics that do not hold count as missing; the time
of the last change defaults to theirs. -/
def ofFields (items : List Json) (fields : List (String × Json)) : Except Failure Snapshot := do
  let entries ← items.mapM Entry.ofJson
  let stats ←
    match Json.field? "stats" fields with
    | some v => Stats.ofJson (if v.holds then v else .obj [])
    | none => Stats.ofJson (.obj [])
  let version ← ((Json.field? "version" fields).getD (.int 1)).toInteger
  let lastUpdated ← ((Json.field? "lastUpdated" fields).getD (.int stats.lastUpdated)).toInteger
  return ⟨entries, stats, version, lastUpdated⟩

/-- Reads a snapshot: an object with a list of entries. -/
def ofJson : Json → Except Failure Snapshot
  | .obj fields =>
    match Json.field? "entries" fields with
    | some (.arr items) => (ofFields items fields).mapError wrap
    | _ => .error .noEntries
  | _ => .error .noEntries

/-- The text of a snapshot file, unless an integer in it is too long to be written. -/
def text (s : Snapshot) : Except Failure String :=
  if s.toJson.isWritable then .ok (s.toJson.write ++ "\n") else .error .unwritableInteger

/-- Reads the text of a snapshot file. -/
def ofText (text : String) : Except Failure Snapshot :=
  match Json.read text with
  | .ok v => ofJson v
  | .error .malformed => .error .badDocument
  | .error (.longInteger digits) => .error (.longInteger digits)

end Snapshot

end LiveIndex
