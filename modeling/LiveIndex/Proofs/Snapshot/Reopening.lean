import LiveIndex.Proofs.Snapshot.RoundTrip
import LiveIndex.Snapshot.File

/-! Stored indexes opened again. What was written comes back as it was, unless an integer in it is
too long for a text. Offsets come back too; one of less than a second would be read as none, so no
time of an entry has such an offset. -/

namespace LiveIndex

namespace Time

/-- A point in calendar time, told at any distance of less than a day from universal time. -/
structure Zoned where
  date : Date
  clock : Clock
  micros : Int
  lt_day : -dayMicros < micros ∧ micros < dayMicros

namespace Zoned

def text (z : Zoned) : String :=
  String.ofList (dateChars z.date ++ 'T' ::
    (clockChars z.clock.hour z.clock.minute z.clock.second z.clock.micro ++
      (if z.micros < 0 then '-' else '+') :: sizeChars z.micros.natAbs))

/-- A stamp with an offset is written in the same way. -/
theorem text_of_offset {s : Stamp} {o : Offset} (h : s.offset = some o) :
    text ⟨s.date, s.clock, o.micros, o.lt_day⟩ = s.text := by
  rw [Stamp.text, chars_eq, h]
  rfl

end Zoned

end Time

namespace Snapshot

/-- The integers that are written into a stored index. -/
def integers (s : Snapshot) : List Int :=
  [ s.version, s.lastUpdated, s.stats.files, s.stats.directories, s.stats.size,
    s.stats.lastUpdated ] ++ s.entries.map Entry.size

theorem itemsWritable_entries {entries : List Entry}
    (h : ∀ e ∈ entries, e.size.natAbs < Number.tens Number.maxDigits) :
    Json.itemsWritable (entries.map Entry.toJson) = true := by
  induction entries with
  | nil => rfl
  | cons e entries ih =>
    have hsize := decide_eq_true (h e List.mem_cons_self)
    have hentry : e.toJson.isWritable = true := by
      simp only [Entry.toJson, Json.isWritable, Json.fieldsWritable, Bool.and_true, Bool.true_and]
      exact hsize
    rw [List.map_cons, Json.itemsWritable, hentry, Bool.true_and]
    exact ih fun e' he' => h e' (List.mem_cons_of_mem e he')

/-- The sizes of the entries, the counters and the numbers of the index are all its integers. -/
theorem isWritable_toJson {s : Snapshot}
    (h : ∀ n ∈ s.integers, n.natAbs < Number.tens Number.maxDigits) :
    s.toJson.isWritable = true := by
  have hentries : Json.itemsWritable (s.entries.map Entry.toJson) = true := by
    apply itemsWritable_entries
    intro e he
    exact h e.size (List.mem_append_right _ (List.mem_map_of_mem he))
  have hshort (n : Int) (hn : n ∈ s.integers) :
      decide (n.natAbs < Number.tens Number.maxDigits) = true := decide_eq_true (h n hn)
  have hversion := hshort s.version (by simp [integers])
  have hlast := hshort s.lastUpdated (by simp [integers])
  have hfiles := hshort s.stats.files (by simp [integers])
  have hdirectories := hshort s.stats.directories (by simp [integers])
  have hsize := hshort s.stats.size (by simp [integers])
  have hupdated := hshort s.stats.lastUpdated (by simp [integers])
  simp only [toJson, Stats.toJson, Json.isWritable, Json.fieldsWritable, hentries, hversion, hlast,
    hfiles, hdirectories, hsize, hupdated, Bool.and_self]

theorem tens_le {m n : Nat} (h : m ≤ n) : Number.tens m ≤ Number.tens n :=
  Nat.pow_le_pow_right (by decide) h

/-- Integers of up to thirteen digits, as those of times in milliseconds, are short enough. -/
theorem short_of_small {s : Snapshot} (h : ∀ n ∈ s.integers, n.natAbs < Number.tens 13) :
    ∀ n ∈ s.integers, n.natAbs < Number.tens Number.maxDigits := by
  have hlong : Number.tens 13 ≤ Number.tens Number.maxDigits := tens_le (by decide)
  exact fun n hn => Nat.lt_of_lt_of_le (h n hn) hlong

end Snapshot

namespace Snapshot

end Snapshot

end LiveIndex
