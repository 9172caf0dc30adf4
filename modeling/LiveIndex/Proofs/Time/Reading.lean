import LiveIndex.Proofs.Number.Digits

/-! Stamps read back. What is written is a date of ten characters, a mark, a clock that no sign
occurs in, and the offset after its sign; each part is read for itself. -/

namespace LiveIndex.Time

open Number (paddedDigits)

/-- Hours, minutes and seconds with colons between them, and microseconds if there are any. -/
def clockChars (hour minute second micro : Nat) : List Char :=
  paddedDigits 2 hour ++ ':' :: (paddedDigits 2 minute ++ ':' ::
    (paddedDigits 2 second ++ Stamp.microText micro))

theorem two_digits {n : Nat} (h : n < 10 ^ 2) : ∃ a b, paddedDigits 2 n = [a, b] ∧
    a.isDigit = true ∧ b.isDigit = true := by
  have hlength := Number.length_paddedDigits (w := 2) (by decide) h
  match hab : paddedDigits 2 n, hlength with
  | [a, b], _ =>
  refine ⟨a, b, rfl, ?_, ?_⟩
  · apply Number.isDigit_of_mem_paddedDigits (w := 2) (n := n)
    simp [hab]
  · apply Number.isDigit_of_mem_paddedDigits (w := 2) (n := n)
    simp [hab]

theorem fraction?_written {micro : Nat} (h : micro < 10 ^ 6) :
    fraction? (paddedDigits 6 micro) = some (micro, true) := by
  have hread := digits?_padded (by decide) h []
  rw [List.append_nil] at hread
  simp only [fraction?, Number.length_paddedDigits (by decide) h, Nat.min_self, hread,
    Option.map_some, Number.tens, Nat.sub_self, List.dropWhile_nil, atEnd]
  rw [show Nat.pow 10 0 = 1 from rfl, Nat.mul_one]

/-- A number with a colon behind it is one field, if more follows. -/
theorem clockFields?_colon {colons : Option Bool} (hc : colons.getD true = true) (left : Nat)
    {n : Nat} (hn : n < 10 ^ 2) (more : List Char) (hmore : more ≠ []) :
    clockFields? colons (left + 1) (paddedDigits 2 n ++ ':' :: more) =
      (clockFields? (some true) left more).map fun (ns, r) => (n :: ns, r) := by
  obtain ⟨x, xs, rfl⟩ := List.exists_cons_of_ne_nil hmore
  simp [clockFields?, digits?_padded (by decide) hn, hc]

theorem clockFields?_last (colons : Option Bool) (left : Nat) {n : Nat} (hn : n < 10 ^ 2) :
    clockFields? colons (left + 1) (paddedDigits 2 n) = some ([n], 0, true) := by
  have hread := digits?_padded (by decide) hn []
  rw [List.append_nil] at hread
  rw [clockFields?, hread]

theorem clockFields?_micro (colons : Option Bool) {n micro : Nat} (hn : n < 10 ^ 2)
    (hm : micro < 10 ^ 6) :
    clockFields? colons 1 (paddedDigits 2 n ++ Stamp.microText micro) =
      some ([n], micro, true) := by
  unfold Stamp.microText
  split
  · next hzero =>
    rw [List.append_nil, clockFields?_last colons 0 hn, hzero]
  · have hlength := Number.length_paddedDigits (w := 6) (by decide) hm
    cases hmore : paddedDigits 6 micro with
    | nil => simp [hmore] at hlength
    | cons x xs =>
      have hfraction := fraction?_written hm
      rw [hmore] at hfraction
      simp [clockFields?, digits?_padded (by decide) hn, hfraction]

theorem clockFields?_clockChars {hour minute second micro : Nat} (hh : hour < 10 ^ 2)
    (hm : minute < 10 ^ 2) (hs : second < 10 ^ 2) (hu : micro < 10 ^ 6) :
    clockFields? none 3 (clockChars hour minute second micro) =
      some ([hour, minute, second], micro, true) := by
  obtain ⟨a, b, hab, -⟩ := two_digits hm
  obtain ⟨c, d, hcd, -⟩ := two_digits hs
  rw [clockChars, clockFields?_colon rfl 2 hh _ (by simp [hab]),
    clockFields?_colon rfl 1 hm _ (by simp [hcd]), clockFields?_micro _ hs hu]
  rfl

theorem clockFields?_clockText {hour minute : Nat} (hh : hour < 10 ^ 2) (hm : minute < 10 ^ 2) :
    clockFields? none 3 (Stamp.clockText hour minute) = some ([hour, minute], 0, true) := by
  obtain ⟨a, b, hab, -⟩ := two_digits hm
  rw [Stamp.clockText, clockFields?_colon rfl 2 hh _ (by simp [hab]),
    clockFields?_last _ 1 hm]
  rfl

/-- The written form of an offset without its sign. -/
def sizeChars (size : Nat) : List Char :=
  Stamp.clockText (size / 1000000 / 3600) (size / 1000000 / 60 % 60) ++
    if size / 1000000 % 60 = 0 ∧ size % 1000000 = 0 then []
    else ':' :: paddedDigits 2 (size / 1000000 % 60) ++ Stamp.microText (size % 1000000)

/-- Hours and minutes, with seconds and microseconds where they are needed, make up a size. -/
theorem clockFields?_size {size : Nat} (h : size < dayMicros) : ∃ fields micro,
    clockFields? none 3 (sizeChars size) = some (fields, micro, true) ∧
      secondsOf fields * 1000000 + micro = size := by
  simp only [dayMicros] at h
  have hh : size / 1000000 / 3600 < 10 ^ 2 := by omega
  have hm : size / 1000000 / 60 % 60 < 10 ^ 2 := by omega
  have hs : size / 1000000 % 60 < 10 ^ 2 := by omega
  have hu : size % 1000000 < 10 ^ 6 := by omega
  unfold sizeChars
  -- Seconds are left out only if there are neither seconds nor microseconds.
  split
  · refine ⟨[size / 1000000 / 3600, size / 1000000 / 60 % 60], 0, ?_, ?_⟩
    · rw [List.append_nil]
      exact clockFields?_clockText hh hm
    · simp only [secondsOf, List.getD_cons_zero, List.getD_cons_succ, List.getD_nil]
      omega
  · refine ⟨[size / 1000000 / 3600, size / 1000000 / 60 % 60, size / 1000000 % 60],
      size % 1000000, ?_, ?_⟩
    · have hlong := clockFields?_clockChars hh hm hs hu
      simp only [clockChars] at hlong
      simpa only [Stamp.clockText, List.append_assoc, List.cons_append] using hlong
    · simp only [secondsOf, List.getD_cons_zero, List.getD_cons_succ]
      omega

theorem offsetText_eq (o : Offset) : ∃ sign cs, Stamp.offsetText o = sign :: cs ∧
    (sign = '+' ∨ sign = '-') ∧ offsetAfter? sign cs = some o.micros := by
  have hday := o.lt_day
  have hnat : o.micros.natAbs < dayMicros := by omega
  obtain ⟨fields, micro, hread, hsize⟩ := clockFields?_size hnat
  -- Without its sign an offset is less than a day, so two digits are enough for its hours.
  by_cases hneg : o.micros < 0
  · refine ⟨'-', sizeChars o.micros.natAbs, ?_, .inr rfl, ?_⟩
    · rw [Stamp.offsetText, if_pos hneg]
      rfl
    · rw [offsetAfter?, hread]
      simp only [if_true, Option.some.injEq]
      omega
  · refine ⟨'+', sizeChars o.micros.natAbs, ?_, .inl rfl, ?_⟩
    · rw [Stamp.offsetText, if_neg hneg]
      rfl
    · rw [offsetAfter?, hread]
      simp only [Char.reduceEq, if_false, Option.some.injEq]
      omega

/-- Whether a character can stand before the zone. -/
def beforeZone (c : Char) : Bool :=
  !(c = '+' || c = '-' || c = 'Z')

theorem beforeZone_of_isDigit {c : Char} (h : c.isDigit = true) : beforeZone c = true := by
  have hne (d : Char) (hd : d.isDigit = false) : c ≠ d := by
    rintro rfl
    rw [h] at hd
    cases hd
  simp [beforeZone, hne '+' rfl, hne '-' rfl, hne 'Z' rfl]

theorem beforeZone_clockChars (hour minute second micro : Nat) :
    ∀ c ∈ clockChars hour minute second micro, beforeZone c = true := by
  have hpadded (width n : Nat) : ∀ c ∈ paddedDigits width n, beforeZone c = true := fun _ h =>
    beforeZone_of_isDigit (Number.isDigit_of_mem_paddedDigits h)
  intro c hc
  simp only [clockChars, List.mem_append, List.mem_cons] at hc
  rcases hc with hc | rfl | hc | rfl | hc | hc
  · exact hpadded _ _ c hc
  · rfl
  · exact hpadded _ _ c hc
  · rfl
  · exact hpadded _ _ c hc
  · unfold Stamp.microText at hc
    split at hc
    · cases hc
    · rcases List.mem_cons.mp hc with rfl | hc
      · rfl
      · exact hpadded _ _ c hc

theorem rawClock?_written (clock : Clock) (offset : Option Offset) :
    rawClock? (clockChars clock.hour clock.minute clock.second clock.micro ++
        (offset.map Stamp.offsetText).getD []) =
      some ⟨clock.hour, clock.minute, clock.second, clock.micro, offset.map Offset.micros⟩ := by
  obtain ⟨hour, minute, second, micro, hh, hm, hs, hu⟩ := clock
  have hfields := clockFields?_clockChars (show hour < 10 ^ 2 by omega)
    (show minute < 10 ^ 2 by omega) (show second < 10 ^ 2 by omega) (show micro < 10 ^ 6 by omega)
  cases offset with
  | none =>
    have hspan := span_append (beforeZone_clockChars hour minute second micro) (r := [])
      (by intro c h; cases h)
    unfold beforeZone at hspan
    simp only [rawClock?, Option.map_none, Option.getD_none, hspan, hfields]
    rfl
  | some o =>
    obtain ⟨sign, cs, htext, hsign, hoffset⟩ := offsetText_eq o
    have hspan := span_append (beforeZone_clockChars hour minute second micro) (r := sign :: cs)
      (by intro c h; rcases hsign with rfl | rfl <;> cases h <;> rfl)
    unfold beforeZone at hspan
    simp only [rawClock?, Option.map_some, Option.getD_some, htext, hspan, hfields]
    rcases hsign with rfl | rfl
    · simp [hoffset]
    · simp [hoffset]

/-- Year, month and day with hyphens between them. -/
def dateChars (date : Date) : List Char :=
  paddedDigits 4 date.year ++ '-' :: (paddedDigits 2 date.month ++
    '-' :: paddedDigits 2 date.day)

theorem chars_eq (mark : Char) (s : Stamp) :
    s.chars mark = dateChars s.date ++ mark ::
      (clockChars s.clock.hour s.clock.minute s.clock.second s.clock.micro ++
        (s.offset.map Stamp.offsetText).getD []) := by
  simp [Stamp.chars, dateChars, clockChars, Stamp.clockText]

theorem Date.bounds (date : Date) :
    date.year < 10 ^ 4 ∧ date.month < 10 ^ 2 ∧ date.day < 10 ^ 2 := by
  have hy := date.year_ok
  have hm := date.month_ok
  have hd := date.day_ok
  have hlong : monthLength date.year date.month ≤ 31 := by
    unfold monthLength
    split
    · split <;> decide
    all_goals decide
  refine ⟨?_, ?_, ?_⟩ <;> omega

theorem length_dateChars (date : Date) : (dateChars date).length = 10 := by
  obtain ⟨hy, hm, hd⟩ := date.bounds
  have hyear := Number.length_paddedDigits (w := 4) (by decide) hy
  have hmonth := Number.length_paddedDigits (w := 2) (by decide) hm
  have hday := Number.length_paddedDigits (w := 2) (by decide) hd
  simp only [dateChars, List.length_append, List.length_cons, hyear, hmonth, hday]

theorem dateLength_written (date : Date) (rest : List Char) :
    dateLength (dateChars date ++ rest) = some 10 := by
  obtain ⟨hy, hm, hd⟩ := date.bounds
  obtain ⟨e, f, hef, he, -⟩ := two_digits hm
  obtain ⟨g, h, hgh, -⟩ := two_digits hd
  have hlength := Number.length_paddedDigits (w := 4) (by decide) hy
  -- What follows the first hyphen is a month and no number of a week.
  have hw : e ≠ 'W' := by
    rintro rfl
    cases he
  match hyear : paddedDigits 4 date.year, hlength with
  | [a, b, c, d], _ => simp [dateChars, hyear, hef, hgh, dateLength, hw]

theorem rawDate?_written (date : Date) (rest : List Char) :
    rawDate? 10 (dateChars date ++ rest) = some (.day date.year date.month date.day) := by
  obtain ⟨hy, hm, hd⟩ := date.bounds
  obtain ⟨e, f, hef, he, -⟩ := two_digits hm
  have hw : e ≠ 'W' := by
    rintro rfl
    cases he
  have hyear := digits?_padded (by decide) hy
    ('-' :: e :: f :: '-' :: (paddedDigits 2 date.day ++ rest))
  have hmonth := digits?_padded (by decide) hm ('-' :: (paddedDigits 2 date.day ++ rest))
  have hday := digits?_padded (by decide) hd rest
  rw [hef] at hmonth
  simp only [List.cons_append, List.nil_append] at hmonth
  simp [rawDate?, dateChars, hef, hyear, hmonth, hday, hw]

/-- Every stamp is read back from its written form. -/
theorem read_text (s : Stamp) : read s.text = .ok s := by
  have hchars : s.text.toList = dateChars s.date ++ 'T' ::
      (clockChars s.clock.hour s.clock.minute s.clock.second s.clock.micro ++
        (s.offset.map Stamp.offsetText).getD []) := by
    rw [Stamp.text, String.toList_ofList, chars_eq]
  have hlength : dateLength s.text.toList = some 10 := by
    rw [hchars, dateLength_written]
  have hraw : rawDate? 10 s.text.toList = some (.day s.date.year s.date.month s.date.day) := by
    rw [hchars, rawDate?_written]
  have hlong : 10 < s.text.toList.length := by
    rw [hchars, List.length_append, length_dateChars, List.length_cons]
    omega
  have hrest : rawClock? (s.text.toList.drop (10 + 1)) =
      some ⟨s.clock.hour, s.clock.minute, s.clock.second, s.clock.micro,
        s.offset.map Offset.micros⟩ := by
    rw [← rawClock?_written, hchars, ← List.drop_drop, List.drop_left' (length_dateChars _),
      List.drop_one, List.tail_cons]
  -- Fields that are in range make the stamp again.
  have hdate : date? s.date.year s.date.month s.date.day = .ok s.date := by
    rw [date?, dif_pos s.date.year_ok, dif_pos s.date.month_ok, dif_pos s.date.day_ok]
  have hclock : clock? s.clock.hour s.clock.minute s.clock.second s.clock.micro = .ok s.clock := by
    rw [clock?, dif_pos s.clock.hour_ok, dif_pos s.clock.minute_ok, dif_pos s.clock.second_ok,
      dif_pos s.clock.micro_ok]
  have hoffset (o : Offset) : offset? o.micros = .ok o := by
    obtain ⟨micros, hday, hsecond⟩ := o
    unfold offset?
    split
    · next hs =>
      have hzero : micros = 0 := hsecond.resolve_right (Nat.not_le.mpr hs)
      subst hzero
      rfl
    · rfl
  obtain ⟨date, clock, offset⟩ := s
  cases offset with
  | none =>
    simp only [read, hlength, hraw, RawDate.isWritten, if_pos hlong, hrest, RawDate.date?,
      Option.map_none, pure_bind, hdate, hclock]
    rfl
  | some o =>
    simp only [read, hlength, hraw, RawDate.isWritten, if_pos hlong, hrest, RawDate.date?,
      Option.map_some, pure_bind, hoffset o, hdate, hclock]
    rfl

end LiveIndex.Time
