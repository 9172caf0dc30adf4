import LiveIndex.Snapshot.File

/-! What can be wrong with the file of an index. Every fault of the text and of its values is one of
value in the end, but for an infinite number in the place of an integer. -/

namespace LiveIndex

/-- Whatever fails fails in a certain way. -/
def Fails {ε α : Type} (P : ε → Prop) (x : Except ε α) : Prop :=
  ∀ f, x = .error f → P f

namespace Fails

variable {ε ε' α β : Type} {P : ε → Prop}

theorem ok (a : α) : Fails P (.ok a) := nofun

theorem error {f : ε} (h : P f) : Fails P (.error f : Except ε α) := by
  rintro g ⟨⟩
  exact h

theorem bind {x : Except ε α} {g : α → Except ε β} (hx : Fails P x) (hg : ∀ a, Fails P (g a)) :
    Fails P (x >>= g) := by
  cases x with
  | ok a => exact hg a
  | error f =>
    -- The first fault is the only one.
    rintro e he
    have hf : f = e := Except.error.inj he
    exact hf ▸ hx f rfl

theorem mapM {xs : List α} {g : α → Except ε β} (h : ∀ a ∈ xs, Fails P (g a)) :
    Fails P (xs.mapM g) := by
  induction xs with
  | nil => exact ok []
  | cons a xs ih =>
    rw [List.mapM_cons]
    refine (h a List.mem_cons_self).bind fun b => ?_
    exact (ih fun c hc => h c (List.mem_cons_of_mem a hc)).bind fun bs => ok (b :: bs)

theorem mapError {x : Except ε α} {g : ε → ε'} {Q : ε' → Prop} (hx : Fails P x)
    (hg : ∀ f, P f → Q (g f)) : Fails Q (x.mapError g) := by
  cases x with
  | ok a => exact ok a
  | error f => exact error (hg f (hx f rfl))

theorem mono {x : Except ε α} {Q : ε → Prop} (hx : Fails P x) (h : ∀ f, P f → Q f) : Fails Q x :=
  fun f hf => h f (hx f hf)

end Fails

/-- A fault that a snapshot reports as one of its own values. -/
def Failure.OfValue (f : Failure) : Prop :=
  (Snapshot.wrap f).family = .value

namespace Time

/-- A fault of a text, not of the clock that the times of a disk come from. -/
def Fault.OfText (f : Fault) : Prop :=
  Failure.OfValue (.time f)

theorem fails_date (year month day : Nat) : Fails Fault.OfText (date? year month day) := by
  unfold date?
  split
  · split
    · split
      · exact .ok _
      · exact .error rfl
    · exact .error rfl
  · exact .error rfl

theorem fails_clock (hour minute second micro : Nat) :
    Fails Fault.OfText (clock? hour minute second micro) := by
  unfold clock?
  split
  · split
    · split
      · split
        · exact .ok _
        · exact .error rfl
      · exact .error rfl
    · exact .error rfl
  · exact .error rfl

theorem fails_offset (micros : Int) : Fails Fault.OfText (offset? micros) := by
  unfold offset?
  split
  · exact .ok _
  · split
    · exact .ok _
    · exact .error rfl

theorem fails_rawDate (d : RawDate) : Fails Fault.OfText d.date? := by
  cases d with
  | day y m d => exact fails_date y m d
  | week y w d =>
    unfold RawDate.date?
    dsimp only
    split
    · exact .error rfl
    · exact fails_date _ _ _

theorem fails_read (text : String) : Fails Fault.OfText (read text) := by
  have hmalformed {α : Type} : Fails Fault.OfText (.error (.malformed text) : Except Fault α) :=
    .error rfl
  unfold read
  dsimp only
  split
  · split
    · next raw _ =>
      have hstamp (clock : RawClock) (offset : Option Offset) : Fails Fault.OfText (do
          let date ← raw.date?
          let clock ← clock? clock.hour clock.minute clock.second clock.micro
          return (⟨date, clock, offset⟩ : Stamp)) :=
        (fails_rawDate raw).bind fun _ => (fails_clock _ _ _ _).bind fun _ => .ok _
      split
      · split
        · -- A time of day is written, and perhaps an offset behind it.
          split
          · refine (Fails.ok _).bind fun clock => ?_
            split
            · exact hstamp clock none
            · exact Fails.bind ((fails_offset _).bind fun _ => .ok _) fun offset =>
                hstamp clock offset
          · exact hmalformed
        · exact hstamp _ none
      · exact hmalformed
    · exact hmalformed
  · exact hmalformed

end Time

namespace Json

/-- An infinite number. A text has it by its word, or by more digits than a double can hold. -/
def isInfinite : Json → Bool
  | .real (.infinite _) => true
  | _ => false

theorem fails_toInteger (v : Json) :
    Fails (fun f => f.OfValue ∨ f = .infiniteInteger ∧ v.isInfinite = true) v.toInteger := by
  cases v with
  | real x =>
    cases x with
    | nan => exact .error (.inl rfl)
    | infinite negative => exact .error (.inr ⟨rfl, rfl⟩)
    | finite negative size => exact .ok _
  | str s =>
    unfold toInteger
    dsimp only
    split
    · exact .ok _
    · exact .error (.inl rfl)
  | null => exact .error (.inl rfl)
  | bool b => exact .ok _
  | int n => exact .ok _
  | arr items => exact .error (.inl rfl)
  | obj fields => exact .error (.inl rfl)

/-- The value of a field is infinite. -/
def HasInfinite (v : Json) (name : String) : Prop :=
  ∃ x, v.get? name = some x ∧ x.isInfinite = true

theorem fails_field (fields : List (String × Json)) (name : String) (default : Int) :
    Fails (fun f => f.OfValue ∨ f = .infiniteInteger ∧ (obj fields).HasInfinite name)
      ((field? name fields).getD (.int default)).toInteger := by
  cases hfield : field? name fields with
  | none => exact .ok _
  | some v =>
    refine (fails_toInteger v).mono ?_
    rintro f (hf | ⟨hf, hv⟩)
    · exact .inl hf
    · exact .inr ⟨hf, v, hfield, hv⟩

theorem fails_toStamp (v : Json) : Fails Failure.OfValue v.toStamp := by
  cases v with
  | str s =>
    unfold toStamp
    dsimp only
    have hread := Time.fails_read s
    cases h : Time.read s with
    | ok stamp => exact .ok _
    | error fault => exact .error (hread fault h)
  | _ => exact .error rfl

end Json

theorem Entry.fails_required (name : String) (fields : List (String × Json)) :
    Fails Failure.OfValue (Entry.required name fields) := by
  unfold Entry.required
  split
  · exact .ok _
  · exact .error rfl

theorem Entry.fails_ofJson (v : Json) :
    Fails (fun f => f.OfValue ∨ f = .infiniteInteger ∧ v.HasInfinite "size") (Entry.ofJson v) := by
  have hrequired (name : String) (fields : List (String × Json)) :
      Fails (fun f => f.OfValue ∨ f = .infiniteInteger ∧ v.HasInfinite "size")
        (Entry.required name fields) :=
    (Entry.fails_required name fields).mono fun _ => .inl
  have hstamp (x : Json) :
      Fails (fun f => f.OfValue ∨ f = .infiniteInteger ∧ v.HasInfinite "size") x.toStamp :=
    x.fails_toStamp.mono fun _ => .inl
  cases v with
  | obj fields =>
    unfold Entry.ofJson
    dsimp only
    have hrest (kind : Kind) : Fails
        (fun f => f.OfValue ∨ f = .infiniteInteger ∧ (Json.obj fields).HasInfinite "size") (do
          let path ← Entry.required "path" fields
          let name ← Entry.required "name" fields
          let relativePath ← Entry.required "relativePath" fields
          let size ← ((Json.field? "size" fields).getD (.int 0)).toInteger
          let created ← Entry.required "createdAt" fields >>= Json.toStamp
          let modified ← Entry.required "modifiedAt" fields >>= Json.toStamp
          return ({
            path := path.asText
            name := name.asText
            relativePath := relativePath.asText
            extension := ((Json.field? "extension" fields).getD (.str "")).asText
            size, created, modified, kind } : Entry)) := by
      refine (hrequired _ _).bind fun _ => (hrequired _ _).bind fun _ => ?_
      refine (hrequired _ _).bind fun _ => (Json.fails_field fields "size" 0).bind fun _ => ?_
      refine ((hrequired _ _).bind hstamp).bind fun _ => ?_
      exact ((hrequired _ _).bind hstamp).bind fun _ => .ok _
    split
    · split
      · exact hrest _
      · exact .error (.inl rfl)
    · exact .error (.inl rfl)
  | _ => exact .error (.inl rfl)

/-- The names under which statistics are counted. -/
def Stats.names : List String :=
  ["totalFiles", "totalDirectories", "totalSize", "lastUpdated"]

theorem Stats.fails_ofJson (v : Json) :
    Fails (fun f => f.OfValue ∨ f = .infiniteInteger ∧ ∃ name ∈ Stats.names, v.HasInfinite name)
      (Stats.ofJson v) := by
  cases v with
  | obj fields =>
    have hcount (name : String) (hname : name ∈ Stats.names) :
        Fails (fun f => f.OfValue ∨
            f = .infiniteInteger ∧ ∃ name ∈ Stats.names, (Json.obj fields).HasInfinite name)
          ((Json.field? name fields).getD (.int 0)).toInteger :=
      (Json.fails_field fields name 0).mono fun _ => .imp id fun h => ⟨h.1, name, hname, h.2⟩
    unfold Stats.ofJson
    refine (hcount _ (by decide)).bind fun _ => (hcount _ (by decide)).bind fun _ => ?_
    exact (hcount _ (by decide)).bind fun _ => (hcount _ (by decide)).bind fun _ => .ok _
  | _ => exact .error (.inl rfl)

namespace Snapshot

/-- An infinite number stands in a stored index where an integer belongs: as the size of an entry,
as one of the counters, as the version, or as the time of the last change. -/
def Overflows (doc : Json) : Prop :=
  (∃ items, doc.get? "entries" = some (.arr items) ∧ ∃ item ∈ items, item.HasInfinite "size") ∨
    (∃ stats, doc.get? "stats" = some stats ∧ ∃ name ∈ Stats.names, stats.HasInfinite name) ∨
    doc.HasInfinite "version" ∨ doc.HasInfinite "lastUpdated"

theorem not_hasInfinite_empty (name : String) : ¬(Json.obj []).HasInfinite name := by
  rintro ⟨v, hv, -⟩
  cases hv

theorem fails_ofFields {items : List Json} {fields : List (String × Json)}
    (hitems : Json.field? "entries" fields = some (.arr items)) :
    Fails (fun f => f.OfValue ∨ f = .infiniteInteger ∧ Overflows (.obj fields))
      (ofFields items fields) := by
  have hentries : Fails (fun f => f.OfValue ∨ f = .infiniteInteger ∧ Overflows (.obj fields))
      (items.mapM Entry.ofJson) := by
    refine .mapM fun item hitem => (Entry.fails_ofJson item).mono fun f => .imp id fun h => ?_
    exact ⟨h.1, .inl ⟨items, hitems, item, hitem, h.2⟩⟩
  -- Missing statistics, and those that do not hold, are as good as empty ones.
  have hempty : Fails (fun f => f.OfValue ∨ f = .infiniteInteger ∧ Overflows (.obj fields))
      (Stats.ofJson (.obj [])) := by
    refine (Stats.fails_ofJson _).mono fun f => .imp id fun h => ?_
    obtain ⟨-, name, -, hname⟩ := h
    exact absurd hname (not_hasInfinite_empty name)
  have hrest (entries : List Entry) (stats : Stats) :
      Fails (fun f => f.OfValue ∨ f = .infiniteInteger ∧ Overflows (.obj fields)) (do
        let version ← ((Json.field? "version" fields).getD (.int 1)).toInteger
        let lastUpdated ←
          ((Json.field? "lastUpdated" fields).getD (.int stats.lastUpdated)).toInteger
        return (⟨entries, stats, version, lastUpdated⟩ : Snapshot)) := by
    refine Fails.bind ?_ fun _ => Fails.bind ?_ fun _ => .ok _
    · refine (Json.fails_field fields "version" 1).mono fun f => .imp id fun h => ?_
      exact ⟨h.1, .inr (.inr (.inl h.2))⟩
    · refine (Json.fails_field fields "lastUpdated" stats.lastUpdated).mono
        fun f => .imp id fun h => ?_
      exact ⟨h.1, .inr (.inr (.inr h.2))⟩
  unfold ofFields
  refine hentries.bind fun entries => ?_
  split
  · next v hv =>
    have hstats : Fails (fun f => f.OfValue ∨ f = .infiniteInteger ∧ Overflows (.obj fields))
        (Stats.ofJson (if v.holds then v else .obj [])) := by
      split
      · refine (Stats.fails_ofJson v).mono fun f => .imp id fun h => ?_
        exact ⟨h.1, .inr (.inl ⟨v, hv, h.2⟩)⟩
      · exact hempty
    exact hstats.bind (hrest entries)
  · exact hempty.bind (hrest entries)

theorem fails_ofJson (doc : Json) :
    Fails (fun f => f.family = .value ∨ f = .infiniteInteger ∧ Overflows doc) (ofJson doc) := by
  unfold ofJson
  split
  · next fields =>
    split
    · next items hitems =>
      refine (fails_ofFields hitems).mapError ?_
      rintro f (hf | ⟨rfl, hover⟩)
      · exact .inl hf
      · exact .inr ⟨rfl, hover⟩
    · exact .error (.inl rfl)
  · exact .error (.inl rfl)

end Snapshot

end LiveIndex
