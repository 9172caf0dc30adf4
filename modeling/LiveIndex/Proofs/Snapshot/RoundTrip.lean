import LiveIndex.Proofs.Json.RoundTrip
import LiveIndex.Proofs.Time.Reading
import LiveIndex.Snapshot

/-! Stored indexes read back. Each part is found under its name again, and the text of a snapshot
that can be written at all gives the same snapshot. -/

namespace LiveIndex

theorem Json.toStamp_text (s : Time.Stamp) : (Json.str s.text).toStamp = .ok s := by
  rw [Json.toStamp, Time.read_text]

theorem Kind.ofWord?_word (k : Kind) : Kind.ofWord? k.word = some k := by
  cases k <;> rfl

theorem Except.ok_then {ε α β : Type} (a : α) (f : α → Except ε β) : (.ok a >>= f) = f a := rfl

theorem Entry.ofJson_toJson (e : Entry) : Entry.ofJson e.toJson = .ok e := by
  simp only [Entry.toJson, Entry.ofJson, Entry.required, Json.field?, List.find?_cons,
    String.reduceEq, decide_false, decide_true, Option.map_some, Option.getD_some,
    Kind.ofWord?_word, Except.ok_then, Json.toStamp_text]
  rfl

theorem Stats.ofJson_toJson (s : Stats) : Stats.ofJson s.toJson = .ok s := by
  simp only [Stats.toJson, Stats.ofJson, Json.field?, List.find?_cons, String.reduceEq,
    decide_false, decide_true, Option.map_some, Option.getD_some]
  rfl

namespace Snapshot

theorem mapM_ofJson (entries : List Entry) :
    (entries.map Entry.toJson).mapM Entry.ofJson = .ok entries := by
  induction entries with
  | nil => rfl
  | cons e entries ih =>
    rw [List.map_cons, List.mapM_cons, Entry.ofJson_toJson, ih]
    rfl

theorem ofJson_toJson (s : Snapshot) : ofJson s.toJson = .ok s := by
  have hholds : s.stats.toJson.holds = true := rfl
  simp only [toJson, ofJson, ofFields, Json.field?, List.find?_cons, String.reduceEq,
    decide_false, decide_true, Option.map_some, Option.getD_some, mapM_ofJson, hholds, if_true,
    Stats.ofJson_toJson, Except.ok_then]
  rfl

/-- Of the integers in a snapshot all have to be short enough, and nothing else. -/
theorem isFaithful_toJson (s : Snapshot) : s.toJson.isFaithful = s.toJson.isWritable := by
  have hitems (entries : List Entry) : Json.itemsFaithful (entries.map Entry.toJson) =
      Json.itemsWritable (entries.map Entry.toJson) := by
    induction entries with
    | nil => rfl
    | cons e entries ih =>
      rw [List.map_cons, Json.itemsFaithful, Json.itemsWritable, ih]
      simp [Entry.toJson, Json.isFaithful, Json.fieldsFaithful, Json.isWritable,
        Json.fieldsWritable]
  simp [toJson, Json.isFaithful, Json.fieldsFaithful, Json.isWritable, Json.fieldsWritable,
    Stats.toJson, hitems]

/-- The text of a snapshot gives that snapshot. -/
theorem ofText_text {s : Snapshot} {text : String} (h : s.text = .ok text) :
    ofText text = .ok s := by
  unfold Snapshot.text at h
  split at h
  · next hwritable =>
    cases h
    have hread := Json.read_write ((isFaithful_toJson s).trans hwritable) "\n"
      (by simp [Json.isSpace])
    rw [ofText, hread]
    exact ofJson_toJson s
  · cases h

end Snapshot

end LiveIndex
