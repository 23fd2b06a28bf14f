import Acheron.Event.Iso

/-!
# Reading ISO 8601 text

What a store that parses dates from text makes of them: the UTC second, and the sub-second digits to
the millisecond if the text has any. A text without them leaves it to the reader how to complete it.

`readIso_pyIsoformat` is the round trip with `datetime.isoformat()`.
-/

namespace Acheron

/-! ## Digits -/

/-- The value of a decimal digit. -/
def digitValue (c : Char) : ℕ := c.toNat - 48

/-- Read a number of digits, after those read already. -/
def readDigits : ℕ → ℕ → List Char → Option (ℕ × List Char)
  | 0, acc, cs => some (acc, cs)
  | _ + 1, _, [] => none
  | k + 1, acc, c :: cs =>
    if c.isDigit then readDigits k (acc * 10 + digitValue c) cs else none

/-- Read one character. -/
def expect (c : Char) : List Char → Option (List Char)
  | [] => none
  | d :: ds => if d = c then some ds else none

theorem digit_spec (n : ℕ) : (digit n).isDigit = true ∧ digitValue (digit n) = n % 10 := by
  have hall : ∀ a : Fin 10, (Char.ofNat (48 + a)).isDigit = true ∧
      digitValue (Char.ofNat (48 + a)) = a := by decide
  exact hall ⟨n % 10, Nat.mod_lt _ (by decide)⟩

theorem readDigits_digit (k acc n : ℕ) (cs : List Char) :
    readDigits (k + 1) acc (digit n :: cs) = readDigits k (acc * 10 + n % 10) cs := by
  rw [readDigits, if_pos (digit_spec n).1, (digit_spec n).2]

theorem readDigits_pad2 (n : ℕ) (cs : List Char) :
    readDigits 2 0 (pad2 n ++ cs) = some (n % 100, cs) := by
  have hvalue : (0 * 10 + n / 10 % 10) * 10 + n % 10 = n % 100 := by omega
  rw [pad2, List.cons_append, List.cons_append, readDigits_digit, readDigits_digit, hvalue]
  rfl

theorem readDigits_pad4 (n : ℕ) (cs : List Char) :
    readDigits 4 0 (pad4 n ++ cs) = some (n % 10000, cs) := by
  have hvalue : (((0 * 10 + n / 100 / 10 % 10) * 10 + n / 100 % 10) * 10 + n / 10 % 10) * 10
      + n % 10 = n % 10000 := by omega
  simp only [pad4, pad2, List.cons_append, List.nil_append, readDigits_digit, hvalue]
  rfl

@[simp] theorem expect_self (c : Char) (cs : List Char) : expect c (c :: cs) = some cs := if_pos rfl

/-! ## Dates -/

/-- Whether a year is a leap year. -/
def isLeap (year : ℕ) : Bool := year % 4 = 0 ∧ (year % 100 ≠ 0 ∨ year % 400 = 0)

/-- The day of a date, counted from 0001-01-01. -/
def dayNumber (year month day : ℕ) : ℕ :=
  let y := year - 1
  y * 365 + y / 4 - y / 100 + y / 400 + ((daysInMonth (isLeap year)).take (month - 1)).sum
    + (day - 1)

theorem isLeap_yearDay (n : ℕ) : isLeap (yearDay n).1 = (yearDay n).2.1 := by
  obtain ⟨a, b, c, d, e, hn, hb, hc, hd, -, hyear⟩ := yearDay_spec n
  rw [hyear]
  dsimp only
  rw [isLeap]
  refine decide_eq_decide.mpr ?_
  omega

/-- The days before a month, and the day of the month. -/
theorem sum_monthDay {lens : List ℕ} (month : ℕ) {n : ℕ} (hn : n < lens.sum) :
    (lens.take ((monthDay lens month n).1 - month)).sum + ((monthDay lens month n).2 - 1) = n := by
  induction lens generalizing month n with
  | nil => exact absurd hn (by simp)
  | cons len lens ih =>
    rw [monthDay]
    split
    · simp
    · have hn' : n - len < lens.sum := by
        rw [List.sum_cons] at hn
        omega
      have hrest := ih (month + 1) hn'
      have hle := le_monthDay lens (month + 1) (n - len)
      have hmonth : (monthDay lens (month + 1) (n - len)).1 - month
          = (monthDay lens (month + 1) (n - len)).1 - (month + 1) + 1 := by omega
      rw [hmonth, List.take_succ_cons, List.sum_cons]
      omega

/-- The leap days of the years before `400 a + 100 b + 4 c + d + 1`. -/
theorem leapDays {a b c d : ℕ} (hb : b ≤ 3) (hc : c ≤ 24) (hd : d ≤ 3) :
    (a * 400 + b * 100 + c * 4 + d) / 4 = a * 100 + b * 25 + c ∧
      (a * 400 + b * 100 + c * 4 + d) / 100 = a * 4 + b ∧
      (a * 400 + b * 100 + c * 4 + d) / 400 = a := by
  refine ⟨?_, ?_, ?_⟩ <;> omega

/-- The calendar counts the days. -/
theorem dayNumber_yearDay (n : ℕ) :
    dayNumber (yearDay n).1 (monthDay (daysInMonth (yearDay n).2.1) 1 (yearDay n).2.2).1
      (monthDay (daysInMonth (yearDay n).2.1) 1 (yearDay n).2.2).2 = n := by
  have hday := sum_monthDay 1 (yearDay_lt n)
  have hyear : ((yearDay n).1 - 1) * 365 + ((yearDay n).1 - 1) / 4 - ((yearDay n).1 - 1) / 100
      + ((yearDay n).1 - 1) / 400 + (yearDay n).2.2 = n := by
    obtain ⟨a, b, c, d, e, hn, hb, hc, hd, -, hspec⟩ := yearDay_spec n
    obtain ⟨h4, h100, h400⟩ := leapDays (a := a) hb hc hd
    rw [hspec]
    dsimp only
    rw [Nat.add_sub_cancel, h4, h100, h400]
    omega
  rw [dayNumber, isLeap_yearDay]
  omega

/-- Read `YYYY-MM-DD`. -/
def readDate (cs : List Char) : Option (ℕ × List Char) := do
  let (year, cs) ← readDigits 4 0 cs
  let cs ← expect '-' cs
  let (month, cs) ← readDigits 2 0 cs
  let cs ← expect '-' cs
  let (day, cs) ← readDigits 2 0 cs
  some (dayNumber year month day, cs)

theorem readDate_pads {year month day : ℕ} (hyear : year < 10000) (hmonth : month < 100)
    (hday : day < 100) (cs : List Char) :
    readDate (pad4 year ++ '-' :: (pad2 month ++ '-' :: (pad2 day ++ cs)))
      = some (dayNumber year month day, cs) := by
  simp only [readDate, readDigits_pad4, readDigits_pad2, expect_self, Option.bind_eq_bind,
    Option.bind_some, Nat.mod_eq_of_lt hyear, Nat.mod_eq_of_lt hmonth, Nat.mod_eq_of_lt hday]

theorem readDate_isoDate {n : ℕ} (hn : n < 3652059) (cs : List Char) :
    readDate (isoDate n ++ cs) = some (n, cs) := by
  have hmonth : (monthDay (daysInMonth (yearDay n).2.1) 1 (yearDay n).2.2).1 < 13 ∧
      (monthDay (daysInMonth (yearDay n).2.1) 1 (yearDay n).2.2).2 ≤ 31 :=
    monthDay_lt (by cases (yearDay n).2.1 <;> decide) (yearDay_lt n)
  have hread := readDate_pads (year_lt hn) (lt_trans hmonth.1 (by decide))
    (lt_of_le_of_lt hmonth.2 (by decide)) cs
  rw [isoDate, List.append_assoc, List.cons_append, List.append_assoc, List.cons_append, hread,
    dayNumber_yearDay]

/-! ## Times -/

/-- Read `HH:MM:SS`, in seconds. -/
def readClock (cs : List Char) : Option (ℕ × List Char) := do
  let (hour, cs) ← readDigits 2 0 cs
  let cs ← expect ':' cs
  let (minute, cs) ← readDigits 2 0 cs
  let cs ← expect ':' cs
  let (second, cs) ← readDigits 2 0 cs
  some (hour * 3600 + minute * 60 + second, cs)

/-- The first three of the digits, in milliseconds. -/
def millisOf (ds : List Char) : ℕ :=
  ((ds ++ ['0', '0', '0']).take 3).foldl (fun acc c ↦ acc * 10 + digitValue c) 0

/-- The sub-second digits, if there are any; those beyond the millisecond are dropped. -/
def readFraction : List Char → Option ℕ × List Char
  | '.' :: cs => (some (millisOf (cs.takeWhile Char.isDigit)), cs.dropWhile Char.isDigit)
  | cs => (none, cs)

/-- Read `HH:MM`, in minutes. -/
def readMinutes (cs : List Char) : Option ℕ := do
  let (hours, cs) ← readDigits 2 0 cs
  let cs ← expect ':' cs
  let (minutes, cs) ← readDigits 2 0 cs
  if cs = [] then some (hours * 60 + minutes) else none

/-- Read `±HH:MM`, `Z` or nothing, in minutes. -/
def readOffset : List Char → Option ℤ
  | [] => some 0
  | 'Z' :: cs => if cs = [] then some 0 else none
  | '+' :: cs => (readMinutes cs).map fun m : ℕ ↦ (m : ℤ)
  | '-' :: cs => (readMinutes cs).map fun m : ℕ ↦ -(m : ℤ)
  | _ => none

theorem readClock_isoTime {micros : ℕ} (hmicros : micros < 86400000000) (o : List Char) :
    readClock (isoTime micros none ++ o)
      = some (micros / 1000000, isoFraction (micros % 1000000) ++ o) := by
  have hseconds : micros / 3600000000 % 100 * 3600 + micros / 60000000 % 60 % 100 * 60
      + micros / 1000000 % 60 % 100 = micros / 1000000 := by omega
  simp only [readClock, isoTime, isoOffset, List.append_nil, List.append_assoc, List.cons_append,
    readDigits_pad2, expect_self, Option.bind_eq_bind, Option.bind_some, hseconds]

theorem millisOf_pad6 (n : ℕ) : millisOf (pad6 n) = n / 1000 % 1000 := by
  have hvalue : ((0 * 10 + n / 10000 / 10 % 10) * 10 + n / 10000 % 10) * 10 + n / 100 / 10 % 10
      = n / 1000 % 1000 := by omega
  simp only [millisOf, pad6, pad4, pad2, List.cons_append, List.nil_append, List.take_succ_cons,
    List.take_zero, List.foldl_cons, List.foldl_nil, (digit_spec _).2, hvalue]

/-- An offset begins with no digit. -/
theorem pyOffset_head (o : Option ℤ) :
    ∀ c ∈ (pyOffset o).head?, c.isDigit = false ∧ c ≠ '.' ∧ c ≠ 'Z' := by
  intro c hc
  rcases o with _ | m
  · exact absurd hc (by simp [pyOffset])
  · by_cases hm : m < 0
    · obtain rfl : '-' = c := by simpa [pyOffset, hm] using hc
      decide
    · obtain rfl : '+' = c := by simpa [pyOffset, hm] using hc
      decide

theorem takeWhile_pad6 (n : ℕ) {o : List Char} (ho : ∀ c ∈ o.head?, c.isDigit = false) :
    (pad6 n ++ o).takeWhile Char.isDigit = pad6 n ∧ (pad6 n ++ o).dropWhile Char.isDigit = o := by
  have hdigits : ∀ c ∈ pad6 n, c.isDigit = true := by
    intro c hc
    simp only [pad6, pad4, pad2, List.cons_append, List.nil_append, List.mem_cons,
      List.not_mem_nil, or_false] at hc
    rcases hc with rfl | rfl | rfl | rfl | rfl | rfl <;> exact (digit_spec _).1
  have hstop : o.takeWhile Char.isDigit = [] ∧ o.dropWhile Char.isDigit = o := by
    rcases o with _ | ⟨c, cs⟩
    · exact ⟨rfl, rfl⟩
    · have hc := ho c rfl
      exact ⟨List.takeWhile_cons_of_neg (by simp [hc]), List.dropWhile_cons_of_neg (by simp [hc])⟩
  rw [List.takeWhile_append_of_pos hdigits, List.dropWhile_append_of_pos hdigits, hstop.1, hstop.2,
    List.append_nil]
  exact ⟨rfl, rfl⟩

theorem readFraction_isoFraction {micros : ℕ} (hmicros : micros < 1000000) (o : Option ℤ) :
    readFraction (isoFraction micros ++ pyOffset o)
      = (if micros = 0 then none else some (micros / 1000), pyOffset o) := by
  by_cases hzero : micros = 0
  · rw [isoFraction, if_pos hzero, if_pos hzero, List.nil_append]
    have hhead := pyOffset_head o
    rcases hoffset : pyOffset o with _ | ⟨c, cs⟩
    · rfl
    · rw [hoffset] at hhead
      have hdot : c ≠ '.' := (hhead c rfl).2.1
      simp [readFraction, hdot]
  · have hdigits := takeWhile_pad6 micros fun c hc ↦ (pyOffset_head o c hc).1
    have hmod : micros / 1000 % 1000 = micros / 1000 := by omega
    rw [isoFraction, if_neg hzero, if_neg hzero, List.cons_append, readFraction, hdigits.1,
      hdigits.2, millisOf_pad6, hmod]

theorem readOffset_pyOffset {o : Option ℤ} (ho : ∀ m ∈ o, -1440 < m ∧ m < 1440) :
    readOffset (pyOffset o) = some (o.getD 0) := by
  rcases o with _ | m
  · rfl
  have hbound := ho m rfl
  have htotal : m.natAbs / 60 % 100 * 60 + m.natAbs % 60 % 100 = m.natAbs := by omega
  have hread : readMinutes (pad2 (m.natAbs / 60) ++ ':' :: pad2 (m.natAbs % 60))
      = some m.natAbs := by
    have hlast := readDigits_pad2 (m.natAbs % 60) []
    rw [List.append_nil] at hlast
    simp only [readMinutes, readDigits_pad2, expect_self, hlast, Option.bind_eq_bind,
      Option.bind_some, htotal, if_true]
  by_cases hm : m < 0
  · rw [pyOffset, if_pos hm, readOffset, hread, Option.map_some, Option.getD_some]
    exact congrArg some (by omega)
  · rw [pyOffset, if_neg hm, readOffset, hread, Option.map_some, Option.getD_some]
    exact congrArg some (by omega)

/-! ## Instants -/

/-- What is read from a text: the UTC second, and the milliseconds if it has sub-second digits. -/
structure IsoReading where
  seconds : ℤ
  millis : Option ℕ

/-- Read `YYYY-MM-DDTHH:MM:SS[.fff...][±HH:MM]`. -/
def readIso (text : String) : Option IsoReading := do
  let (day, cs) ← readDate text.toList
  let cs ← expect 'T' cs
  let (second, cs) ← readClock cs
  let (millis, cs) := readFraction cs
  let offset ← readOffset cs
  some ⟨minWall / 1000000 + day * 86400 + second - offset * 60, millis⟩

/-- **The text of a `datetime` gives back its UTC instant, to the millisecond**; a whole second has
no sub-second digits. -/
theorem readIso_pyIsoformat (t : DateTime) :
    readIso t.pyIsoformat = some ⟨t.instant / 1000000,
      if t.wall % 1000000 = 0 then none else some (t.wall % 1000000 / 1000).toNat⟩ := by
  have hwall := t.wall_mem
  unfold minWall wallEnd at hwall
  have hday : (t.wall - minWall).toNat / 86400000000 < 3652059 := by
    unfold minWall
    omega
  have hclock := readClock_isoTime
    (Nat.mod_lt (t.wall - minWall).toNat (by decide : 0 < 86400000000)) (pyOffset t.utcOffset)
  have hfraction := readFraction_isoFraction
    (Nat.mod_lt ((t.wall - minWall).toNat % 86400000000) (by decide : 0 < 1000000)) t.utcOffset
  rw [readIso, DateTime.pyIsoformat, String.toList_ofList, readDate_isoDate hday]
  simp only [Option.bind_eq_bind, Option.bind_some, expect_self, hclock, hfraction,
    readOffset_pyOffset t.offset_mem, Option.some.injEq, IsoReading.mk.injEq]
  unfold DateTime.instant minWall
  refine ⟨by omega, ?_⟩
  refine ite_congr (propext (by omega)) (fun _ ↦ rfl) fun _ ↦ congrArg some (by omega)

end Acheron
