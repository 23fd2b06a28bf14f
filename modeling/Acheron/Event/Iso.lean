import Mathlib.Algebra.GroupWithZero.Nat
import Mathlib.Data.List.Basic
import Acheron.Event.DateTime

/-!
# ISO 8601 text

The JSON form of a `datetime`, as `model_dump(mode="json")` renders it: the wall-clock reading with
microseconds only when there are any, and the offset as `Z`, `±hh:mm`, or nothing for a naive value.
The calendar is the proleptic Gregorian one; a date is found from its day number by the cycles of
400, 100, 4 and 1 years.

`isoformat_injective` is what the rest of the development uses: the text determines the value.
-/

namespace Acheron

/-! ## Decimal digits -/

/-- The last decimal digit of a number. -/
def digit (n : ℕ) : Char := Char.ofNat (48 + n % 10)

/-- Two digits. -/
def pad2 (n : ℕ) : List Char := [digit (n / 10), digit n]

/-- Four digits. -/
def pad4 (n : ℕ) : List Char := pad2 (n / 100) ++ pad2 n

/-- Six digits. -/
def pad6 (n : ℕ) : List Char := pad2 (n / 10000) ++ pad4 n

theorem digit_inj {m n : ℕ} : digit m = digit n ↔ m % 10 = n % 10 := by
  have hall : ∀ a b : Fin 10, Char.ofNat (48 + a) = Char.ofNat (48 + b) → a = b := by decide
  constructor
  · intro h
    have hfin := hall ⟨m % 10, Nat.mod_lt _ (by decide)⟩ ⟨n % 10, Nat.mod_lt _ (by decide)⟩ h
    exact congrArg Fin.val hfin
  · intro h
    rw [digit, digit, h]

theorem pad2_append {m n : ℕ} {xs ys : List Char} (h : pad2 m ++ xs = pad2 n ++ ys) :
    m % 100 = n % 100 ∧ xs = ys := by
  obtain ⟨htens, hones, hrest⟩ : digit (m / 10) = digit (n / 10) ∧ digit m = digit n ∧ xs = ys := by
    simpa [pad2] using h
  rw [digit_inj] at htens hones
  exact ⟨by omega, hrest⟩

theorem pad4_append {m n : ℕ} {xs ys : List Char} (h : pad4 m ++ xs = pad4 n ++ ys) :
    m % 10000 = n % 10000 ∧ xs = ys := by
  rw [pad4, pad4, List.append_assoc, List.append_assoc] at h
  obtain ⟨hhigh, hlow⟩ := pad2_append h
  obtain ⟨hlow, hrest⟩ := pad2_append hlow
  exact ⟨by omega, hrest⟩

theorem pad6_append {m n : ℕ} {xs ys : List Char} (h : pad6 m ++ xs = pad6 n ++ ys) :
    m % 1000000 = n % 1000000 ∧ xs = ys := by
  rw [pad6, pad6, List.append_assoc, List.append_assoc] at h
  obtain ⟨hhigh, hlow⟩ := pad2_append h
  obtain ⟨hlow, hrest⟩ := pad4_append hlow
  exact ⟨by omega, hrest⟩

/-! ## The calendar -/

/-- The lengths of the months. -/
def daysInMonth (leap : Bool) : List ℕ :=
  [31, if leap then 29 else 28, 31, 30, 31, 30, 31, 31, 30, 31, 30, 31]

/-- The month and the day of the month, `n` days after the first of month `month`, given the lengths
of the months from there on. -/
def monthDay : List ℕ → ℕ → ℕ → ℕ × ℕ
  | [], month, n => (month, n + 1)
  | len :: lens, month, n => if n < len then (month, n + 1) else monthDay lens (month + 1) (n - len)

theorem le_monthDay (lens : List ℕ) (month n : ℕ) : month ≤ (monthDay lens month n).1 := by
  induction lens generalizing month n with
  | nil => exact le_rfl
  | cons len lens ih =>
    rw [monthDay]
    split
    · exact le_rfl
    · exact Nat.le_of_succ_le (ih _ _)

theorem monthDay_injective (lens : List ℕ) (month : ℕ) :
    Function.Injective (monthDay lens month) := by
  induction lens generalizing month with
  | nil =>
    intro m n h
    exact Nat.succ.inj (congrArg Prod.snd h)
  | cons len lens ih =>
    intro m n h
    have hlater : ∀ k, (monthDay lens (month + 1) k).1 ≠ month := fun k hk ↦ by
      have := le_monthDay lens (month + 1) k
      omega
    rw [monthDay, monthDay] at h
    split at h <;> split at h
    · exact Nat.succ.inj (congrArg Prod.snd h)
    · exact absurd (congrArg Prod.fst h).symm (hlater _)
    · exact absurd (congrArg Prod.fst h) (hlater _)
    · have hrest := ih (month + 1) h
      omega

theorem monthDay_lt {lens : List ℕ} {month n : ℕ} (hlens : ∀ len ∈ lens, len ≤ 31)
    (hn : n < lens.sum) :
    (monthDay lens month n).1 < month + lens.length ∧ (monthDay lens month n).2 ≤ 31 := by
  induction lens generalizing month n with
  | nil => exact absurd hn (by simp)
  | cons len lens ih =>
    rw [monthDay]
    split
    · have hlen := hlens len List.mem_cons_self
      exact ⟨by simp, by dsimp only; omega⟩
    · have hn' : n - len < lens.sum := by
        rw [List.sum_cons] at hn
        omega
      have hrest : (monthDay lens (month + 1) (n - len)).1 < month + 1 + lens.length ∧
          (monthDay lens (month + 1) (n - len)).2 ≤ 31 :=
        ih (fun l hl ↦ hlens l (List.mem_cons_of_mem _ hl)) hn'
      rw [List.length_cons]
      omega

/-- The year of a day, and whether it is leap, and the day within it; the day is counted from
0001-01-01. -/
def yearDay (n : ℕ) : ℕ × Bool × ℕ :=
  let n400 := n / 146097
  -- The last day of a cycle of 400 years belongs to its fourth century, and the last day of a
  -- leap cycle of 4 to its fourth year.
  let n100 := min 3 (n % 146097 / 36524)
  let inCentury := n % 146097 - n100 * 36524
  let n4 := inCentury / 1461
  let n1 := min 3 (inCentury % 1461 / 365)
  (n400 * 400 + n100 * 100 + n4 * 4 + n1 + 1, n1 = 3 ∧ (n4 ≠ 24 ∨ n100 = 3),
    inCentury % 1461 - n1 * 365)

/-- The cycles of a day number: 400, 100, 4 and 1 years, and the days left over. -/
theorem yearDay_spec (n : ℕ) : ∃ n400 n100 n4 n1 d,
    n = n400 * 146097 + n100 * 36524 + n4 * 1461 + n1 * 365 + d ∧
      n100 ≤ 3 ∧ n4 ≤ 24 ∧ n1 ≤ 3 ∧ (d < 365 ∨ d = 365 ∧ n1 = 3 ∧ (n4 ≠ 24 ∨ n100 = 3)) ∧
      yearDay n = (n400 * 400 + n100 * 100 + n4 * 4 + n1 + 1,
        decide (n1 = 3 ∧ (n4 ≠ 24 ∨ n100 = 3)), d) := by
  have hcentury : ∃ n100 c, n100 = min 3 (n % 146097 / 36524) ∧ c = n % 146097 - n100 * 36524 ∧
      n % 146097 = n100 * 36524 + c ∧ n100 ≤ 3 ∧ (c < 36524 ∨ n100 = 3 ∧ c ≤ 36524) :=
    ⟨_, _, rfl, rfl, by omega, by omega, by omega⟩
  obtain ⟨n100, c, h100, hc, hsplit, hle, hlt⟩ := hcentury
  have hyear : ∃ n1 d, n1 = min 3 (c % 1461 / 365) ∧ d = c % 1461 - n1 * 365 ∧
      c % 1461 = n1 * 365 + d ∧ n1 ≤ 3 ∧ (d < 365 ∨ n1 = 3 ∧ d = 365) :=
    ⟨_, _, rfl, rfl, by omega, by omega, by omega⟩
  obtain ⟨n1, d, h1, hd, hsplit', hle', hlt'⟩ := hyear
  refine ⟨n / 146097, n100, c / 1461, n1, d, by omega, hle, by omega, hle', by omega, ?_⟩
  rw [yearDay, ← h100, ← hc, ← h1, ← hd]

theorem yearDay_injective : Function.Injective yearDay := by
  intro m n h
  obtain ⟨a, b, c, d, e, hm, hb, hc, hd, -, hm'⟩ := yearDay_spec m
  obtain ⟨a', b', c', d', e', hn, hb', hc', hd', -, hn'⟩ := yearDay_spec n
  rw [hm', hn'] at h
  have hyear := congrArg Prod.fst h
  have hday := congrArg (fun y ↦ y.2.2) h
  dsimp only at hyear hday
  omega

/-- Whether a year is leap depends on the year only. -/
theorem leap_of_year {m n : ℕ} (h : (yearDay m).1 = (yearDay n).1) :
    (yearDay m).2.1 = (yearDay n).2.1 := by
  obtain ⟨a, b, c, d, e, hm, hb, hc, hd, -, hm'⟩ := yearDay_spec m
  obtain ⟨a', b', c', d', e', hn, hb', hc', hd', -, hn'⟩ := yearDay_spec n
  rw [hm', hn'] at h ⊢
  dsimp only at h
  obtain ⟨rfl, rfl, rfl⟩ : b = b' ∧ c = c' ∧ d = d' := by omega
  rfl

theorem yearDay_lt (n : ℕ) : (yearDay n).2.2 < (daysInMonth (yearDay n).2.1).sum := by
  obtain ⟨a, b, c, d, e, hn, hb, hc, hd, he, hn'⟩ := yearDay_spec n
  rw [hn']
  by_cases hleap : d = 3 ∧ (c ≠ 24 ∨ b = 3)
  · have hday : e < 366 := by omega
    simpa [daysInMonth, hleap] using hday
  · have hday : e < 365 := by omega
    simpa [daysInMonth, hleap] using hday

/-- Day 3652059 is 10000-01-01. -/
theorem year_lt {n : ℕ} (h : n < 3652059) : (yearDay n).1 < 10000 := by
  obtain ⟨a, b, c, d, e, hn, hb, hc, hd, he, hn'⟩ := yearDay_spec n
  rw [hn']
  dsimp only
  omega

/-! ## The text -/

/-- Microseconds, when there are any. -/
def isoFraction (micros : ℕ) : List Char := if micros = 0 then [] else '.' :: pad6 micros

/-- The offset. -/
def isoOffset : Option ℤ → List Char
  | none => []
  | some 0 => ['Z']
  | some m => (if m < 0 then '-' else '+') :: (pad2 (m.natAbs / 60) ++ ':' :: pad2 (m.natAbs % 60))

/-- The time of day, in microseconds, and the offset. -/
def isoTime (micros : ℕ) (offset : Option ℤ) : List Char :=
  pad2 (micros / 3600000000) ++ ':' :: (pad2 (micros / 60000000 % 60) ++
    ':' :: (pad2 (micros / 1000000 % 60) ++ (isoFraction (micros % 1000000) ++ isoOffset offset)))

/-- The date `n` days after 0001-01-01. -/
def isoDate (n : ℕ) : List Char :=
  let y := yearDay n
  let d := monthDay (daysInMonth y.2.1) 1 y.2.2
  pad4 y.1 ++ '-' :: (pad2 d.1 ++ '-' :: pad2 d.2)

/-- The JSON form of a `datetime`. -/
def DateTime.isoformat (t : DateTime) : String :=
  let micros := (t.wall - minWall).toNat
  String.ofList (isoDate (micros / 86400000000) ++ 'T' :: isoTime (micros % 86400000000) t.utcOffset)

/-- The offset in `datetime.isoformat()`, where UTC is `+00:00`. -/
def pyOffset : Option ℤ → List Char
  | none => []
  | some m => (if m < 0 then '-' else '+') :: (pad2 (m.natAbs / 60) ++ ':' :: pad2 (m.natAbs % 60))

/-- `datetime.isoformat()`. -/
def DateTime.pyIsoformat (t : DateTime) : String :=
  let micros := (t.wall - minWall).toNat
  String.ofList (isoDate (micros / 86400000000) ++
    'T' :: (isoTime (micros % 86400000000) none ++ pyOffset t.utcOffset))

theorem isoOffset_head (o : Option ℤ) : ∀ cs, isoOffset o ≠ '.' :: cs := by
  intro cs
  unfold isoOffset
  split
  · simp
  · simp
  · split <;> simp

theorem isoFraction_append {m n : ℕ} (hm : m < 1000000) (hn : n < 1000000) {o p : Option ℤ}
    (h : isoFraction m ++ isoOffset o = isoFraction n ++ isoOffset p) :
    m = n ∧ isoOffset o = isoOffset p := by
  unfold isoFraction at h
  by_cases hm0 : m = 0 <;> by_cases hn0 : n = 0
  · rw [if_pos hm0, if_pos hn0] at h
    exact ⟨hm0.trans hn0.symm, h⟩
  · rw [if_pos hm0, if_neg hn0] at h
    exact absurd h (isoOffset_head o _)
  · rw [if_neg hm0, if_pos hn0] at h
    exact absurd h.symm (isoOffset_head p _)
  · rw [if_neg hm0, if_neg hn0] at h
    obtain ⟨hmod, hrest⟩ := pad6_append (List.cons.inj h).2
    exact ⟨by omega, hrest⟩

theorem isoOffset_some {m : ℤ} (hm : m ≠ 0) : isoOffset (some m) =
    (if m < 0 then '-' else '+') :: (pad2 (m.natAbs / 60) ++ ':' :: pad2 (m.natAbs % 60)) := by
  unfold isoOffset
  split
  · exact absurd ‹_› (by simp)
  · exact absurd (Option.some.inj ‹_›) hm
  · obtain rfl := Option.some.inj ‹_›
    rfl

theorem isoOffset_inj {o p : Option ℤ} (ho : ∀ m ∈ o, -1440 < m ∧ m < 1440)
    (hp : ∀ m ∈ p, -1440 < m ∧ m < 1440) (h : isoOffset o = isoOffset p) : o = p := by
  have hlength {m : ℤ} (hm : m ≠ 0) : (isoOffset (some m)).length = 6 := by
    rw [isoOffset_some hm]
    rfl
  match o, p with
  | none, none => rfl
  | none, some n =>
    by_cases hn : n = 0
    · subst hn
      exact absurd h (by simp [isoOffset])
    · exact absurd (congrArg List.length h) (by rw [hlength hn]; simp [isoOffset])
  | some m, none =>
    by_cases hm : m = 0
    · subst hm
      exact absurd h (by simp [isoOffset])
    · exact absurd (congrArg List.length h) (by rw [hlength hm]; simp [isoOffset])
  | some m, some n =>
    by_cases hm : m = 0 <;> by_cases hn : n = 0
    · rw [hm, hn]
    · subst hm
      exact absurd (congrArg List.length h) (by rw [hlength hn]; simp [isoOffset])
    · subst hn
      exact absurd (congrArg List.length h) (by rw [hlength hm]; simp [isoOffset])
    · have hbound := ho m rfl
      have hbound' := hp n rfl
      rw [isoOffset_some hm, isoOffset_some hn] at h
      obtain ⟨hsign, habs⟩ := List.cons.inj h
      obtain ⟨hhour, hminute⟩ := pad2_append habs
      have hpadded : pad2 (m.natAbs % 60) ++ [] = pad2 (n.natAbs % 60) ++ [] := by
        simpa using hminute
      have hminute' := (pad2_append hpadded).1
      have hneg : m < 0 ↔ n < 0 := by
        by_cases hm0 : m < 0 <;> by_cases hn0 : n < 0
        · exact iff_of_true hm0 hn0
        · exact absurd hsign (by simp [hm0, hn0])
        · exact absurd hsign (by simp [hm0, hn0])
        · exact iff_of_false hm0 hn0
      have hnat : m.natAbs = n.natAbs := by omega
      exact congrArg some (by omega)

theorem isoTime_append {m n : ℕ} (hm : m < 86400000000) (hn : n < 86400000000) {o p : Option ℤ}
    (h : isoTime m o = isoTime n p) : m = n ∧ isoOffset o = isoOffset p := by
  unfold isoTime at h
  obtain ⟨hhour, h⟩ := pad2_append h
  obtain ⟨hminute, h⟩ := pad2_append (List.cons.inj h).2
  obtain ⟨hsecond, h⟩ := pad2_append (List.cons.inj h).2
  obtain ⟨hmicro, hoffset⟩ := isoFraction_append (Nat.mod_lt _ (by decide))
    (Nat.mod_lt _ (by decide)) h
  exact ⟨by omega, hoffset⟩

theorem isoDate_append {m n : ℕ} (hm : m < 3652059) (hn : n < 3652059) {xs ys : List Char}
    (h : isoDate m ++ xs = isoDate n ++ ys) : m = n ∧ xs = ys := by
  have hmonth (k : ℕ) : (monthDay (daysInMonth (yearDay k).2.1) 1 (yearDay k).2.2).1 < 13 ∧
      (monthDay (daysInMonth (yearDay k).2.1) 1 (yearDay k).2.2).2 ≤ 31 :=
    monthDay_lt (by cases (yearDay k).2.1 <;> decide) (yearDay_lt k)
  unfold isoDate at h
  simp only [List.append_assoc, List.cons_append] at h
  obtain ⟨h1, h⟩ := pad4_append h
  obtain ⟨h2, h⟩ := pad2_append (List.cons.inj h).2
  obtain ⟨h3, hrest⟩ := pad2_append (List.cons.inj h).2
  have hm' := hmonth m
  have hn' := hmonth n
  have hyear : (yearDay m).1 = (yearDay n).1 := by
    have := year_lt hm
    have := year_lt hn
    omega
  have hleap := leap_of_year hyear
  have hday : (yearDay m).2.2 = (yearDay n).2.2 := by
    refine monthDay_injective (daysInMonth (yearDay n).2.1) 1 ?_
    rw [hleap] at hm' h2 h3
    exact Prod.ext (by omega) (by omega)
  exact ⟨yearDay_injective (Prod.ext hyear (Prod.ext hleap hday)), hrest⟩

theorem isoformat_injective : Function.Injective DateTime.isoformat := by
  intro t u h
  have ht := t.wall_mem
  have hu := u.wall_mem
  unfold minWall wallEnd at ht hu
  obtain ⟨hday, htime⟩ := isoDate_append (by unfold minWall; omega) (by unfold minWall; omega)
    (String.ofList_injective h)
  obtain ⟨hmicros, hoffset⟩ := isoTime_append (Nat.mod_lt _ (by decide)) (Nat.mod_lt _ (by decide))
    (List.cons.inj htime).2
  have hwall : t.wall = u.wall := by
    unfold minWall at hday hmicros
    omega
  cases t
  cases u
  obtain rfl : _ = _ := hwall
  obtain rfl := isoOffset_inj ‹_› ‹_› hoffset
  rfl

example : DateTime.isoformat ⟨1709189696789000, some 330, by decide, by simp⟩
    = "2024-02-29T06:54:56.789000+05:30" := by decide

end Acheron
