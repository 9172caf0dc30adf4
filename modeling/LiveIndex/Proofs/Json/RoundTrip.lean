import LiveIndex.Json.Writer
import LiveIndex.Proofs.Number.Digits
import Mathlib.Data.List.TakeWhile

/-! Documents read back. The writer puts nothing into a text that the reader takes for something
else: strings are escaped, a number ends before what follows it, and white space stands only where
the reader skips it. -/

namespace LiveIndex.Json

mutual

/-- Whether a document comes back as it is written: integers are short enough, there are no
doubles, and no object has two fields of one name. -/
def isFaithful : Json → Bool
  | int n => n.natAbs < Number.tens Number.maxDigits
  | real _ => false
  | arr items => itemsFaithful items
  | obj fields => (fields.map Prod.fst).Nodup && fieldsFaithful fields
  | _ => true

def itemsFaithful : List Json → Bool
  | [] => true
  | v :: rest => isFaithful v && itemsFaithful rest

def fieldsFaithful : List (String × Json) → Bool
  | [] => true
  | (_, v) :: rest => isFaithful v && fieldsFaithful rest

end

theorem hexValue?_hexDigit {n : Nat} (h : n < 16) : hexValue? (Text.hexDigit n) = some n := by
  revert n
  decide

theorem unit?_hexDigits {n : Nat} (h : n < 65536) (rest : List Char) :
    unit? (Text.hexDigits 4 n ++ rest) = some (n, rest) := by
  have ha : n / 16 / 16 / 16 % 16 < 16 := Nat.mod_lt _ (by decide)
  have hb : n / 16 / 16 % 16 < 16 := Nat.mod_lt _ (by decide)
  have hc : n / 16 % 16 < 16 := Nat.mod_lt _ (by decide)
  have hd : n % 16 < 16 := Nat.mod_lt _ (by decide)
  simp only [Text.hexDigits, List.nil_append, List.cons_append, unit?, hexValue?_hexDigit ha,
    hexValue?_hexDigit hb, hexValue?_hexDigit hc, hexValue?_hexDigit hd, Option.some.injEq,
    Prod.mk.injEq, and_true]
  omega

/-- No character is half a surrogate pair. -/
theorem toNat_cases (c : Char) : c.toNat < 0xD800 ∨ 0xE000 ≤ c.toNat ∧ c.toNat < 0x110000 := by
  rcases c.valid with h | ⟨h, h'⟩
  · exact .inl h
  · exact .inr ⟨h, h'⟩

theorem escape?_unit {c : Char} (h : c.toNat < 0x10000) (rest : List Char) :
    escape? ('u' :: (Text.hexDigits 4 c.toNat ++ rest)) = some (c, rest) := by
  have hc := toNat_cases c
  have hhigh : ¬(0xD800 ≤ c.toNat ∧ c.toNat < 0xDC00) := by omega
  have hlow : ¬(0xDC00 ≤ c.toNat ∧ c.toNat < 0xE000) := by omega
  simp only [escape?, unit?_hexDigits h, Option.map_some, scalar, if_neg hhigh, if_neg hlow,
    Char.ofNat_toNat]

theorem scalar_pair {hi lo : Nat} (hhi : 0xD800 ≤ hi ∧ hi < 0xDC00)
    (hlo : 0xDC00 ≤ lo ∧ lo < 0xE000) (rest : List Char) :
    scalar hi ('\\' :: 'u' :: (Text.hexDigits 4 lo ++ rest)) =
      (Char.ofNat (0x10000 + (hi - 0xD800) * 0x400 + (lo - 0xDC00)), rest) := by
  simp only [scalar, if_pos hhi, unit?_hexDigits (show lo < 65536 by omega), if_pos hlo]

theorem escape?_pair {c : Char} (h : 0x10000 ≤ c.toNat) (rest : List Char) :
    escape? ('u' :: (Text.hexDigits 4 (0xD800 + (c.toNat - 0x10000) / 0x400) ++
      ('\\' :: 'u' :: (Text.hexDigits 4 (0xDC00 + (c.toNat - 0x10000) % 0x400) ++ rest)))) =
      some (c, rest) := by
  have hc := toNat_cases c
  generalize hhi : 0xD800 + (c.toNat - 0x10000) / 0x400 = hi
  generalize hlo : 0xDC00 + (c.toNat - 0x10000) % 0x400 = lo
  have hsum : 0x10000 + (hi - 0xD800) * 0x400 + (lo - 0xDC00) = c.toNat := by omega
  simp only [escape?, unit?_hexDigits (show hi < 65536 by omega), Option.map_some]
  rw [scalar_pair (by omega) (by omega), hsum, Char.ofNat_toNat]

theorem readString?_escape {cs rest : List Char} {c : Char} (h : escape? cs = some (c, rest))
    (fuel : Nat) :
    readString? (fuel + 1) ('\\' :: cs) =
      (readString? fuel rest).map fun (s, r) => (c :: s, r) := by
  simp only [readString?, h]

/-- A character inside a string is read back from its escaped form. -/
theorem readString?_escapedChar (c : Char) (fuel : Nat) (rest : List Char) :
    readString? (fuel + 1) (escapedChar c ++ rest) =
      (readString? fuel rest).map fun (s, r) => (c :: s, r) := by
  unfold escapedChar
  -- Seven characters have a short form; of the rest some stand as they are, those of the first
  -- plane take one unit, and all others a pair.
  split
  · next h => subst h; rfl
  split
  · next h => subst h; rfl
  split
  · next h => subst h; rfl
  split
  · next h => subst h; rfl
  split
  · next h => subst h; rfl
  split
  · next h => subst h; rfl
  split
  · next h => subst h; rfl
  split
  · next hplain => simp [readString?, Nat.not_lt.mpr hplain.1]
  split
  · next hshort => exact readString?_escape (escape?_unit hshort rest) fuel
  · next hlong =>
    rw [← readString?_escape (escape?_pair (Nat.not_lt.mp hlong) rest) fuel]
    simp only [unitEscape, List.cons_append, List.nil_append, List.append_assoc]

theorem readString?_written (cs : List Char) (fuel : Nat) (h : cs.length < fuel)
    (rest : List Char) :
    readString? fuel (cs.flatMap escapedChar ++ '"' :: rest) = some (cs, rest) := by
  induction cs generalizing fuel with
  | nil =>
    obtain ⟨fuel, rfl⟩ := Nat.exists_eq_add_of_lt h
    simp [readString?]
  | cons c cs ih =>
    cases fuel with
    | zero => omega
    | succ fuel =>
      rw [List.flatMap_cons, List.append_assoc, readString?_escapedChar,
        ih fuel (Nat.lt_of_succ_lt_succ h)]
      rfl

theorem length_escapedChar (c : Char) : 0 < (escapedChar c).length := by
  unfold escapedChar
  repeat' split
  all_goals simp [unitEscape]

theorem length_le_flatMap (cs : List Char) : cs.length ≤ (cs.flatMap escapedChar).length := by
  induction cs with
  | nil => exact Nat.le_refl 0
  | cons c cs ih =>
    have hc := length_escapedChar c
    rw [List.flatMap_cons, List.length_append, List.length_cons]
    omega

/-- A string is read back up to its closing quote, with no more fuel than there is text. -/
theorem readString?_stringText (s : String) (rest : List Char) :
    readString? (s.toList.flatMap escapedChar ++ '"' :: rest).length
      (s.toList.flatMap escapedChar ++ '"' :: rest) = some (s.toList, rest) := by
  apply readString?_written
  have hle := length_le_flatMap s.toList
  rw [List.length_append, List.length_cons]
  omega

/-- Whether nothing of a number can follow. -/
def Ends (rest : List Char) : Prop :=
  ∀ c ∈ rest.head?, isDigit c = false ∧ c ≠ '.' ∧ c ≠ 'e' ∧ c ≠ 'E'

theorem Ends.comma (rest : List Char) : Ends (',' :: rest) := by
  intro c h
  cases h
  decide

theorem Ends.newLine (level : Nat) (rest : List Char) : Ends (newLine level ++ rest) := by
  intro c h
  cases h
  decide

theorem Ends.fraction {rest : List Char} (h : Ends rest) : fraction rest = ([], rest) := by
  unfold Json.fraction
  split
  · exact absurd rfl (h '.' rfl).2.1
  · rfl

theorem Ends.exponent {rest : List Char} (h : Ends rest) : exponent rest = (none, rest) := by
  cases rest with
  | nil => rfl
  | cons c rest =>
    obtain ⟨-, -, he, hE⟩ := h c rfl
    simp [Json.exponent, he, hE]

theorem wholePart_toDigits (n : Nat) {rest : List Char} (hrest : Ends rest) :
    wholePart (Nat.toDigits 10 n ++ rest) = (Nat.toDigits 10 n, rest) := by
  by_cases hzero : n = 0
  · subst hzero
    rfl
  · unfold wholePart
    split
    · next h =>
      cases hdigits : Nat.toDigits 10 n with
      | nil => exact absurd hdigits Nat.toDigits_ne_nil
      | cons d ds =>
        rw [hdigits, List.cons_append, List.cons.injEq] at h
        exact absurd (hdigits.trans (by rw [h.1])) (Number.toDigits_head n (by omega) ds)
    · exact span_append (isDigit_toDigits n) fun c hc => (hrest c hc).1

theorem readNumber_toDigits (negative : Bool) {n : Nat}
    (hn : n < Number.tens Number.maxDigits) {rest : List Char} (hrest : Ends rest) :
    readNumber negative (Nat.toDigits 10 n ++ rest) =
      .ok (int (if negative then -n else n), rest) := by
  have hlength := Number.length_toDigits (by decide) hn
  have hempty : (Nat.toDigits 10 n).isEmpty = false :=
    List.isEmpty_eq_false_iff.mpr Nat.toDigits_ne_nil
  simp only [readNumber, wholePart_toDigits n hrest, hrest.fraction, hrest.exponent,
    digitsValue_toDigits, hempty, Bool.false_eq_true, if_false, Nat.not_lt.mpr hlength,
    List.isEmpty_nil, Option.isNone_none, and_self, if_true]

theorem isDigit_ne {c d : Char} (hc : isDigit c = true) (hd : isDigit d = false) : c ≠ d := by
  rintro rfl
  rw [hc] at hd
  cases hd

theorem readPlain_int {n : Int} (hn : n.natAbs < Number.tens Number.maxDigits)
    {rest : List Char} (hrest : Ends rest) :
    readPlain ((toString n).toList ++ rest) = .ok (int n, rest) := by
  obtain ⟨d, ds, hds⟩ := List.exists_cons_of_ne_nil (Nat.toDigits_ne_nil (n := n.natAbs) (b := 10))
  have hd : isDigit d = true := isDigit_toDigits n.natAbs d (by rw [hds]; exact List.mem_cons_self)
  have hne (c : Char) (hc : isDigit c = false) : c ≠ d := (isDigit_ne hd hc).symm
  -- No word begins with a digit, and of those that begin with a minus none goes on with one.
  by_cases hneg : n < 0
  · have htext : (toString n).toList = '-' :: Nat.toDigits 10 n.natAbs := by
      rw [Int.toString_eq_repr, Int.repr_eq_if, if_neg (by omega), String.toList_append,
        Nat.toList_repr, show (-n).toNat = n.natAbs by omega]
      rfl
    have hwords : (words.findSome? fun w =>
        (dropWord? w.1 ('-' :: (Nat.toDigits 10 n.natAbs ++ rest))).map (w.2, ·)) = none := by
      rw [hds]
      simp [words, dropWord?, hne 'I' rfl]
    have hnumber := readNumber_toDigits true hn hrest
    rw [if_pos rfl, show -(n.natAbs : Int) = n by omega] at hnumber
    rw [htext, List.cons_append]
    unfold readPlain
    rw [hwords]
    exact hnumber
  · have htext : (toString n).toList = Nat.toDigits 10 n.natAbs := by
      rw [Int.toString_eq_repr, Int.repr_eq_if, if_pos (by omega), Nat.toList_repr,
        show n.toNat = n.natAbs by omega]
    have hwords : (words.findSome? fun w =>
        (dropWord? w.1 (Nat.toDigits 10 n.natAbs ++ rest)).map (w.2, ·)) = none := by
      rw [hds]
      simp [words, dropWord?, hne 'n' rfl, hne 't' rfl, hne 'f' rfl, hne 'N' rfl, hne 'I' rfl,
        hne '-' rfl]
    have hnumber := readNumber_toDigits false hn hrest
    rw [if_neg Bool.false_ne_true, show (n.natAbs : Int) = n by omega] at hnumber
    rw [htext]
    unfold readPlain
    rw [hwords]
    dsimp only
    split
    · next h =>
      rw [hds, List.cons_append, List.cons.injEq] at h
      exact absurd h.1.symm (hne '-' rfl)
    · exact hnumber

theorem int_head (n : Int) :
    ∃ c cs, (toString n).toList = c :: cs ∧ (isDigit c = true ∨ c = '-') := by
  rw [Int.toString_eq_repr, Int.repr_eq_if]
  split
  · rw [Nat.toList_repr]
    obtain ⟨d, ds, hds⟩ :=
      List.exists_cons_of_ne_nil (Nat.toDigits_ne_nil (n := n.toNat) (b := 10))
    refine ⟨d, ds, hds, .inl (isDigit_toDigits n.toNat d ?_)⟩
    rw [hds]
    exact List.mem_cons_self
  · rw [String.toList_append]
    exact ⟨_, _, rfl, .inr rfl⟩

/-- The first character of a written document is neither white space nor a closing bracket. -/
theorem writeAt_head (level : Nat) (v : Json) (hv : v.isFaithful = true) :
    ∃ c cs, writeAt level v = c :: cs ∧ isSpace c = false ∧ c ≠ ']' := by
  cases v with
  | null => exact ⟨_, _, rfl, rfl, by decide⟩
  | bool b =>
    cases b with
    | true => exact ⟨_, _, rfl, rfl, by decide⟩
    | false => exact ⟨_, _, rfl, rfl, by decide⟩
  | int n =>
    obtain ⟨c, cs, htext, hc | rfl⟩ := int_head n
    · refine ⟨c, cs, htext, ?_, isDigit_ne hc rfl⟩
      simp [isSpace, isDigit_ne hc (d := ' ') rfl, isDigit_ne hc (d := '\t') rfl,
        isDigit_ne hc (d := '\n') rfl, isDigit_ne hc (d := '\r') rfl]
    · exact ⟨'-', cs, htext, rfl, by decide⟩
  | real x => cases hv
  | str s => exact ⟨_, _, rfl, rfl, by decide⟩
  | arr items =>
    cases items with
    | nil => exact ⟨_, _, rfl, rfl, by decide⟩
    | cons v items => exact ⟨_, _, rfl, rfl, by decide⟩
  | obj fields =>
    cases fields with
    | nil => exact ⟨_, _, rfl, rfl, by decide⟩
    | cons f fields => exact ⟨_, _, rfl, rfl, by decide⟩

theorem skipSpace_newLine (level : Nat) (cs : List Char) :
    skipSpace (newLine level ++ cs) = skipSpace cs := by
  have hspace : ∀ c ∈ newLine level, isSpace c = true := by
    intro c hc
    rcases List.mem_cons.mp hc with rfl | hc
    · rfl
    · rw [(List.mem_replicate.mp hc).2]
      rfl
  rw [skipSpace, List.dropWhile_append_of_pos hspace, skipSpace]

theorem skipSpace_cons {c : Char} (hc : isSpace c = false) (cs : List Char) :
    skipSpace (c :: cs) = c :: cs := by
  simp [skipSpace, hc]

theorem skipSpace_writeAt (level : Nat) {v : Json} (hv : v.isFaithful = true)
    (rest : List Char) : skipSpace (writeAt level v ++ rest) = writeAt level v ++ rest := by
  obtain ⟨c, cs, hhead, hspace, -⟩ := writeAt_head level v hv
  rw [hhead, List.cons_append, skipSpace_cons hspace]

theorem skipSpace_close (level : Nat) {c : Char} (hc : isSpace c = false) (rest : List Char) :
    skipSpace (newLine level ++ c :: rest) = c :: rest := by
  rw [skipSpace_newLine, skipSpace_cons hc]

theorem setField_new {name : String} (value : Json) {fields : List (String × Json)}
    (h : name ∉ fields.map Prod.fst) : setField name value fields = fields ++ [(name, value)] := by
  induction fields with
  | nil => rfl
  | cons f fields ih =>
    rw [List.map_cons, List.mem_cons, not_or] at h
    rw [setField, if_neg (Ne.symm h.1), ih h.2, List.cons_append]

/-- What follows the first item of a list. -/
def itemsTail (level : Nat) : List Json → List Char
  | [] => []
  | items => ',' :: writeItems level items

theorem writeItems_cons (level : Nat) (v : Json) (items : List Json) :
    writeItems level (v :: items) =
      newLine level ++ (writeAt level v ++ itemsTail level items) := by
  cases items with
  | nil => simp [writeItems, itemsTail]
  | cons w items => simp [writeItems, itemsTail]

/-- What follows the first field of an object. -/
def fieldsTail (level : Nat) : List (String × Json) → List Char
  | [] => []
  | fields => ',' :: writeFields level fields

theorem writeFields_cons (level : Nat) (name : String) (v : Json)
    (fields : List (String × Json)) :
    writeFields level ((name, v) :: fields) = newLine level ++
      ('"' :: (name.toList.flatMap escapedChar ++ '"' :: ':' :: ' ' ::
        (writeAt level v ++ fieldsTail level fields))) := by
  cases fields with
  | nil => simp [writeFields, fieldsTail, stringText]
  | cons f fields => simp [writeFields, fieldsTail, stringText]

/-- The reader skips the white space before the first item. -/
theorem skipSpace_writeItems (level : Nat) {v : Json} (hv : v.isFaithful = true)
    (items : List Json) (rest : List Char) :
    skipSpace (writeItems level (v :: items) ++ rest) =
      writeAt level v ++ (itemsTail level items ++ rest) := by
  rw [writeItems_cons, List.append_assoc, List.append_assoc, skipSpace_newLine,
    skipSpace_writeAt level hv]

theorem skipSpace_writeFields (level : Nat) (name : String) (v : Json)
    (fields : List (String × Json)) (rest : List Char) :
    skipSpace (writeFields level ((name, v) :: fields) ++ rest) =
      '"' :: (name.toList.flatMap escapedChar ++ '"' :: ':' :: ' ' ::
        (writeAt level v ++ (fieldsTail level fields ++ rest))) := by
  rw [writeFields_cons, List.append_assoc, skipSpace_newLine, List.cons_append,
    skipSpace_cons (by rfl)]
  simp

-- Each reader gives up one unit of fuel, and each part is shorter than the whole by a bracket, a
-- comma or a line break at least.
mutual

/-- A document is read back from its written form, whatever ends it. The length of the text is
fuel enough. -/
theorem readValue_writeAt (level : Nat) (v : Json) (hv : v.isFaithful = true) (fuel : Nat)
    (hfuel : (writeAt level v).length ≤ fuel) {rest : List Char} (hrest : Ends rest) :
    readValue fuel (writeAt level v ++ rest) = .ok (v, rest) := by
  obtain ⟨c, cs, hhead, -⟩ := writeAt_head level v hv
  cases fuel with
  | zero =>
    rw [hhead] at hfuel
    cases hfuel
  | succ fuel =>
    cases v with
    | null => rfl
    | bool b =>
      cases b with
      | true => rfl
      | false => rfl
    | int n =>
      rw [isFaithful, decide_eq_true_eq] at hv
      have hread := readPlain_int hv hrest
      obtain ⟨c, cs, htext, hc⟩ := int_head n
      have hne (d : Char) (hd : isDigit d = false) (hminus : d ≠ '-') : c ≠ d := by
        rcases hc with hc | rfl
        · exact isDigit_ne hc hd
        · exact hminus.symm
      have hwrite : writeAt level (int n) = (toString n).toList := rfl
      rw [hwrite]
      rw [htext, List.cons_append] at hread ⊢
      simp [readValue, hread, hne '"' rfl (by decide), hne '[' rfl (by decide),
        hne '\x7b' rfl (by decide)]
    | real x => cases hv
    | str s =>
      have htext : writeAt level (str s) ++ rest =
          '"' :: (s.toList.flatMap escapedChar ++ '"' :: rest) := by
        have hwrite : writeAt level (str s) = '"' :: (s.toList.flatMap escapedChar ++ ['"']) := rfl
        rw [hwrite, List.cons_append, List.append_assoc]
        rfl
      rw [htext]
      simp only [readValue, readString?_stringText, String.ofList_toList]
    | arr items =>
      cases items with
      | nil => rfl
      | cons v items =>
        have htext : writeAt level (arr (v :: items)) ++ rest =
            '[' :: (writeItems (level + 1) (v :: items) ++ (newLine level ++ ']' :: rest)) := by
          simp [writeAt]
        have hlength : (writeItems (level + 1) (v :: items)).length ≤ fuel := by
          simp only [writeAt, List.length_append, List.length_cons] at hfuel
          omega
        have hitems := readItems_writeItems (level + 1) level v items hv fuel hlength rest
        rw [isFaithful, itemsFaithful, Bool.and_eq_true] at hv
        obtain ⟨d, ds, hfirst, -, hd⟩ := writeAt_head (level + 1) v hv.1
        rw [skipSpace_writeItems _ hv.1, hfirst, List.cons_append] at hitems
        rw [htext]
        simp [readValue, skipSpace_writeItems _ hv.1, hfirst, hd, hitems, Except.map]
    | obj fields =>
      cases fields with
      | nil => rfl
      | cons f fields =>
        cases f with
        | mk name u =>
          have htext : writeAt level (obj ((name, u) :: fields)) ++ rest =
              '\x7b' :: (writeFields (level + 1) ((name, u) :: fields) ++
                (newLine level ++ '\x7d' :: rest)) := by
            simp [writeAt]
          have hlength : (writeFields (level + 1) ((name, u) :: fields)).length ≤ fuel := by
            simp only [writeAt, List.length_append, List.length_cons] at hfuel
            omega
          rw [isFaithful, Bool.and_eq_true] at hv
          have hfields := readFields_writeFields (level + 1) level name u fields [] hv.2
            (of_decide_eq_true hv.1) fuel hlength rest
          rw [skipSpace_writeFields] at hfields
          rw [htext]
          simp [readValue, skipSpace_writeFields, hfields, Except.map]
termination_by sizeOf v

/-- The items of a list are read back up to the bracket that closes it. -/
theorem readItems_writeItems (level below : Nat) (v : Json) (items : List Json)
    (hv : itemsFaithful (v :: items) = true) (fuel : Nat)
    (hfuel : (writeItems level (v :: items)).length ≤ fuel) (rest : List Char) :
    readItems fuel (skipSpace (writeItems level (v :: items) ++ (newLine below ++ ']' :: rest))) =
      .ok (v :: items, rest) := by
  rw [itemsFaithful, Bool.and_eq_true] at hv
  rw [writeItems_cons] at hfuel
  simp only [List.length_append, newLine, List.length_cons] at hfuel
  rw [skipSpace_writeItems level hv.1]
  cases fuel with
  | zero => omega
  | succ fuel =>
    cases items with
    | nil =>
      have hvalue := readValue_writeAt level v hv.1 fuel (by omega)
        (Ends.newLine below (']' :: rest))
      simp only [itemsTail, List.nil_append, readItems, hvalue,
        skipSpace_close below (c := ']') rfl]
    | cons w items =>
      have hvalue := readValue_writeAt level v hv.1 fuel (by omega)
        (Ends.comma (writeItems level (w :: items) ++ (newLine below ++ ']' :: rest)))
      simp only [itemsTail, List.length_cons] at hfuel
      have hitems := readItems_writeItems level below w items hv.2 fuel (by omega) rest
      simp only [itemsTail, List.cons_append, readItems, hvalue, skipSpace_cons (c := ',') rfl,
        hitems, Except.map]
termination_by sizeOf (v :: items)

/-- The fields of an object are read back after those before up to the brace that closes it. -/
theorem readFields_writeFields (level below : Nat) (name : String) (v : Json)
    (fields before : List (String × Json)) (hv : fieldsFaithful ((name, v) :: fields) = true)
    (hnames : ((before ++ (name, v) :: fields).map Prod.fst).Nodup) (fuel : Nat)
    (hfuel : (writeFields level ((name, v) :: fields)).length ≤ fuel) (rest : List Char) :
    readFields fuel before
        (skipSpace (writeFields level ((name, v) :: fields) ++ (newLine below ++ '\x7d' :: rest))) =
      .ok (before ++ (name, v) :: fields, rest) := by
  rw [fieldsFaithful, Bool.and_eq_true] at hv
  rw [writeFields_cons] at hfuel
  simp only [List.length_append, newLine, List.length_cons] at hfuel
  rw [skipSpace_writeFields]
  -- A name that is new goes to the end of the fields, and so their order is kept.
  have hnew : name ∉ before.map Prod.fst := by
    intro hmem
    rw [List.map_append, List.nodup_append] at hnames
    exact hnames.2.2 name hmem name (by simp) rfl
  have hspace (cs : List Char) : skipSpace (' ' :: cs) = skipSpace cs := rfl
  cases fuel with
  | zero => omega
  | succ fuel =>
    cases fields with
    | nil =>
      have hvalue := readValue_writeAt level v hv.1 fuel (by omega)
        (Ends.newLine below ('\x7d' :: rest))
      simp only [fieldsTail, List.nil_append, readFields, readString?_stringText,
        skipSpace_cons (c := ':') rfl, hspace, skipSpace_writeAt level hv.1, hvalue,
        skipSpace_close below (c := '\x7d') rfl, String.ofList_toList, setField_new v hnew]
    | cons f fields =>
      cases f with
      | mk name' u =>
        have hvalue := readValue_writeAt level v hv.1 fuel (by omega)
          (Ends.comma (writeFields level ((name', u) :: fields) ++
            (newLine below ++ '\x7d' :: rest)))
        simp only [fieldsTail, List.length_cons] at hfuel
        have hfields := readFields_writeFields level below name' u fields (before ++ [(name, v)])
          hv.2 (by simpa using hnames) fuel (by omega) rest
        simp only [fieldsTail, List.cons_append, readFields, readString?_stringText,
          skipSpace_cons (c := ':') rfl, hspace, skipSpace_writeAt level hv.1, hvalue,
          skipSpace_cons (c := ',') rfl, String.ofList_toList, setField_new v hnew, hfields,
          List.append_assoc, List.nil_append]
termination_by sizeOf ((name, v) :: fields)

end

/-- A faithful document is read back from its text, white space around it or not. -/
theorem read_write {v : Json} (hv : v.isFaithful = true) (space : String)
    (hspace : ∀ c ∈ space.toList, isSpace c = true) : read (v.write ++ space) = .ok v := by
  have hskip : skipSpace space.toList = [] := List.dropWhile_eq_nil_iff.mpr hspace
  -- White space ends a number as well.
  have hends : Ends space.toList := by
    intro c hc
    have hmem := hspace c (List.mem_of_mem_head? hc)
    simp only [isSpace, Bool.or_eq_true, decide_eq_true_eq] at hmem
    rcases hmem with ((rfl | rfl) | rfl) | rfl <;> decide
  have hvalue := readValue_writeAt 0 v hv (2 * (v.write ++ space).toList.length + 2)
    (by rw [String.toList_append, write, String.toList_ofList, List.length_append]; omega) hends
  have hchars : (v.write ++ space).toList = writeAt 0 v ++ space.toList := by
    rw [String.toList_append, write, String.toList_ofList]
  rw [hchars] at hvalue
  rw [read]
  simp only [hchars, skipSpace_writeAt 0 hv, hvalue, hskip, List.isEmpty_nil, if_true]

end LiveIndex.Json
