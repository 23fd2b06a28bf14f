import Acheron.Event.Canonical

/-!
# Reading JSON text

`json.dumps` with its default separators, and `json.loads`. Objects are read as `dict`s, in which
the last member under a key counts. `float()` is a parameter: what it makes of the text of a number
with a fraction or an exponent.

`loads_dumps` is the round trip, for values whose keys are distinct and whose floats are the `repr`
of what `float()` reads; `loads_of_fuel` says that the fuel of the reader is enough for every text.
Limits of the interpreter, on the digits of an integer and on the depth of a value, are left out; so
are texts with the escape of half a surrogate pair, for which Python makes a `str` that is not
Unicode text.
-/

namespace Acheron

namespace Json

open Text

mutual

/-- `json.dumps`. -/
def dumps : Json → List Char
  | .str s => encodeString s
  | .arr items => '[' :: dumpsItems [] items
  | .obj members => '{' :: dumpsMembers [] members
  | v => v.scalarText.getD []

/-- The items of an array, the next one preceded by `sep`, and its closing bracket. -/
def dumpsItems (sep : List Char) : List Json → List Char
  | [] => [']']
  | v :: vs => sep ++ (v.dumps ++ dumpsItems [',', ' '] vs)

/-- The members of an object, the next one preceded by `sep`, and its closing bracket. -/
def dumpsMembers (sep : List Char) : List (String × Json) → List Char
  | [] => ['}']
  | (k, v) :: ms =>
    sep ++ (encodeString k ++ (':' :: ' ' :: (v.dumps ++ dumpsMembers [',', ' '] ms)))

end

/-! ## Strings -/

/-- The value of a hexadecimal digit. -/
def hexValue (c : Char) : Option ℕ :=
  if '0' ≤ c ∧ c ≤ '9' then some (c.toNat - 48)
  else if 'a' ≤ c ∧ c ≤ 'f' then some (c.toNat - 87)
  else if 'A' ≤ c ∧ c ≤ 'F' then some (c.toNat - 55)
  else none

/-- `_decode_uXXXX`. -/
def readUnit : List Char → Option (ℕ × List Char)
  | a :: b :: c :: d :: cs => do
    let a ← hexValue a
    let b ← hexValue b
    let c ← hexValue c
    let d ← hexValue d
    some (a * 4096 + b * 256 + c * 16 + d, cs)
  | _ => none

/-- `BACKSLASH`. -/
def shortUnescapes : List (Char × Char) := ('/', '/') :: shortEscapes.map Prod.swap

/-- An escape, after its backslash. -/
def readEscape : List Char → Option (Char × List Char)
  | [] => none
  | 'u' :: cs => do
    let (unit, cs) ← readUnit cs
    if 55296 ≤ unit ∧ unit ≤ 56319 then
      -- The first half of a surrogate pair.
      match cs with
      | '\x5c' :: 'u' :: cs =>
        let (low, cs) ← readUnit cs
        if 56320 ≤ low ∧ low ≤ 57343 then
          some (Char.ofNat (65536 + (unit - 55296) * 1024 + (low - 56320)), cs)
        else none
      | _ => none
    else if 56320 ≤ unit ∧ unit ≤ 57343 then none
    else some (Char.ofNat unit, cs)
  | c :: cs => (shortUnescapes.lookup c).map fun d ↦ (d, cs)

/-- The characters of a string up to its closing quote. -/
def readChars : ℕ → List Char → Option (List Char × List Char)
  | 0, _ => none
  | _ + 1, [] => none
  | fuel + 1, c :: cs =>
    if c = '\x22' then some ([], cs)
    else if c = '\x5c' then
      (readEscape cs).bind fun d ↦ (readChars fuel d.2).map fun ds ↦ (d.1 :: ds.1, ds.2)
    else if c.toNat < 32 then none
    else (readChars fuel cs).map fun ds ↦ (c :: ds.1, ds.2)

/-- `scanstring`, after the opening quote. -/
def readString (cs : List Char) : Option (String × List Char) :=
  (readChars (cs.length + 1) cs).map fun p ↦ (String.ofList p.1, p.2)

theorem hexValue_hexDigit (n : ℕ) : hexValue (hexDigit n) = some (n % 16) := by
  have hall : ∀ a : Fin 16, hexValue (Nat.digitChar a) = some a.val := by decide
  exact hall ⟨n % 16, Nat.mod_lt _ (by decide)⟩

/-- The four digits of a code unit are read back. -/
theorem readUnit_unicodeEscape {n : ℕ} (h : n < 65536) (cs : List Char) :
    readUnit (hexDigit (n / 4096) :: hexDigit (n / 256) :: hexDigit (n / 16) :: hexDigit n :: cs)
      = some (n, cs) := by
  have hunit : n / 4096 % 16 * 4096 + n / 256 % 16 * 256 + n / 16 % 16 * 16 + n % 16 = n := by omega
  simp [readUnit, hexValue_hexDigit, hunit]

/-- A character that stands for itself is not a control character. -/
theorem le_of_escapeChar_eq {c : Char} (h : escapeChar c = [c]) : 32 ≤ c.toNat := by
  unfold escapeChar at h
  split at h
  · exact absurd (congrArg List.length h) (by simp)
  · split at h
    case isTrue hplain => exact hplain.1
    case isFalse =>
      split at h
      · exact absurd (congrArg List.length h) (by simp [unicodeEscape])
      · exact absurd (congrArg List.length h) (by simp [unicodeEscape])

/-- A short escape stands for one character, and none of them begins the escape of a code unit. -/
theorem shortUnescapes_spec :
    ∀ p ∈ shortEscapes, shortUnescapes.lookup p.2 = some p.1 ∧ p.2 ≠ 'u' := by decide

/-- The escape of a code unit that is no half of a pair. -/
theorem readEscape_unicodeEscape {n : ℕ} (h : n < 55296 ∨ 57343 < n ∧ n < 65536)
    {es : List Char} (hes : unicodeEscape n = '\x5c' :: es) (cs : List Char) :
    readEscape (es ++ cs) = some (Char.ofNat n, cs) := by
  have hbmp : n < 65536 := by omega
  obtain rfl := (List.cons.inj hes).2
  simp only [List.cons_append, List.nil_append, readEscape, readUnit_unicodeEscape hbmp,
    Option.bind_eq_bind, Option.bind_some]
  rw [if_neg (by omega), if_neg (by omega)]

/-- The escapes of the two halves of a pair. -/
theorem readEscape_surrogates {high low : ℕ} (hhigh : 55296 ≤ high ∧ high ≤ 56319)
    (hlow : 56320 ≤ low ∧ low ≤ 57343) {es : List Char}
    (hes : unicodeEscape high ++ unicodeEscape low = '\x5c' :: es) (cs : List Char) :
    readEscape (es ++ cs)
      = some (Char.ofNat (65536 + (high - 55296) * 1024 + (low - 56320)), cs) := by
  have hhigh' : high < 65536 := by omega
  have hlow' : low < 65536 := by omega
  simp only [unicodeEscape, List.cons_append, List.nil_append, List.cons.injEq, true_and] at hes
  obtain rfl := hes
  simp only [List.cons_append, List.nil_append, readEscape, readUnit_unicodeEscape hhigh',
    readUnit_unicodeEscape hlow', Option.bind_eq_bind, Option.bind_some]
  rw [if_pos hhigh, if_pos hlow]

/-- An escape sequence is read as the character it was made from. -/
theorem readEscape_escapeChar {c : Char} {es : List Char} (h : escapeChar c = '\x5c' :: es)
    (cs : List Char) : readEscape (es ++ cs) = some (c, cs) := by
  have hvalid := not_surrogate c
  rcases escapeChar_cases c with ⟨hc, hne, -⟩ | ⟨d, hc, hd⟩ | ⟨hc, hbmp⟩ | ⟨hc, hpair⟩
  · exact absurd (List.cons.inj (hc.symm.trans h)).1 hne
  · obtain rfl := (List.cons.inj (hc.symm.trans h)).2
    obtain ⟨hlookup, hu⟩ := shortUnescapes_spec _ hd
    rw [List.cons_append, List.nil_append, readEscape]
    · rw [hlookup]
      rfl
    · exact fun hd' ↦ absurd hd' hu
  · rw [readEscape_unicodeEscape (by omega) (hc.symm.trans h), Char.ofNat_toNat]
  · rw [readEscape_surrogates (by omega) (by omega) (hc.symm.trans h)]
    have hjoin : 65536 + (55296 + (c.toNat - 65536) / 1024 - 55296) * 1024
        + (56320 + (c.toNat - 65536) % 1024 - 56320) = c.toNat := by omega
    rw [hjoin, Char.ofNat_toNat]

theorem readChars_escapeChar (fuel : ℕ) (c : Char) (cs : List Char) :
    readChars (fuel + 1) (escapeChar c ++ cs)
      = (readChars fuel cs).map fun ds ↦ (c :: ds.1, ds.2) := by
  have hescape {es : List Char} (h : escapeChar c = '\x5c' :: es) :
      readChars (fuel + 1) (escapeChar c ++ cs)
        = (readChars fuel cs).map fun ds ↦ (c :: ds.1, ds.2) := by
    rw [h, List.cons_append, readChars, if_neg (by decide), if_pos rfl, readEscape_escapeChar h]
    rfl
  rcases escapeChar_cases c with ⟨hc, hback, hquote⟩ | ⟨d, hc, -⟩ | ⟨hc, -⟩ | ⟨hc, -⟩
  · have hplain := le_of_escapeChar_eq hc
    rw [hc, List.cons_append, List.nil_append, readChars, if_neg hquote, if_neg hback,
      if_neg (by omega)]
  · exact hescape hc
  · exact hescape hc
  · exact hescape hc

theorem readChars_flatMap (s cs : List Char) {fuel : ℕ} (h : s.length < fuel) :
    readChars fuel (s.flatMap escapeChar ++ '\x22' :: cs) = some (s, cs) := by
  induction s generalizing fuel with
  | nil =>
    obtain ⟨fuel, rfl⟩ := Nat.exists_eq_succ_of_ne_zero (Nat.ne_zero_of_lt h)
    rw [List.flatMap_nil, List.nil_append, readChars, if_pos rfl]
  | cons c s ih =>
    obtain ⟨fuel, rfl⟩ := Nat.exists_eq_succ_of_ne_zero (Nat.ne_zero_of_lt h)
    rw [List.flatMap_cons, List.append_assoc, readChars_escapeChar,
      ih (Nat.lt_of_succ_lt_succ h)]
    rfl

theorem length_le_flatMap (s : List Char) : s.length ≤ (s.flatMap escapeChar).length := by
  induction s with
  | nil => exact Nat.zero_le _
  | cons c s ih =>
    have hpos := List.length_pos_iff.mpr (escapeChar_ne_nil c)
    rw [List.flatMap_cons, List.length_append, List.length_cons]
    omega

/-- **A string is read back.** -/
theorem readString_encodeString (s : String) (cs : List Char) :
    readString (s.toList.flatMap escapeChar ++ '\x22' :: cs) = some (s, cs) := by
  have hlen := length_le_flatMap s.toList
  rw [readString, readChars_flatMap s.toList cs (by rw [List.length_append]; omega)]
  simp

/-! ## Numbers -/

/-- `(?:0|[1-9][0-9]*)`. -/
def readNatural : List Char → Option (List Char × List Char)
  | [] => none
  | c :: cs =>
    if c = '0' then some (['0'], cs)
    else if c.isDigit then some (c :: cs.takeWhile Char.isDigit, cs.dropWhile Char.isDigit)
    else none

/-- `-?(?:0|[1-9][0-9]*)`. -/
def readInteger : List Char → Option (List Char × List Char)
  | [] => none
  | c :: cs =>
    if c = '-' then (readNatural cs).map fun p ↦ ('-' :: p.1, p.2) else readNatural (c :: cs)

/-- `(\.[0-9]+)?`. -/
def readFraction : List Char → List Char × List Char
  | [] => ([], [])
  | c :: cs =>
    if c = '.' ∧ cs.takeWhile Char.isDigit ≠ [] then
      ('.' :: cs.takeWhile Char.isDigit, cs.dropWhile Char.isDigit)
    else ([], c :: cs)

/-- `[-+]?`. -/
def readSign : List Char → List Char × List Char
  | [] => ([], [])
  | c :: cs => if c = '-' ∨ c = '+' then ([c], cs) else ([], c :: cs)

/-- `([eE][-+]?[0-9]+)?`. -/
def readExponent : List Char → List Char × List Char
  | [] => ([], [])
  | c :: cs =>
    if (c = 'e' ∨ c = 'E') ∧ (readSign cs).2.takeWhile Char.isDigit ≠ [] then
      (c :: ((readSign cs).1 ++ (readSign cs).2.takeWhile Char.isDigit),
        (readSign cs).2.dropWhile Char.isDigit)
    else ([], c :: cs)

/-- `int()` of what `readInteger` takes. -/
def intValue : List Char → ℤ
  | [] => 0
  | c :: cs =>
    if c = '-' then -(Nat.ofDigitChars 10 cs 0 : ℤ) else Nat.ofDigitChars 10 (c :: cs) 0

/-- `_match_number`. -/
def readNumber (float : List Char → Json) (cs : List Char) : Option (Json × List Char) :=
  (readInteger cs).map fun i ↦
    let f := readFraction i.2
    let e := readExponent f.2
    (if f.1 ++ e.1 = [] then .int (intValue i.1) else float (i.1 ++ (f.1 ++ e.1)), e.2)

/-- The text of a number, taken apart as `float.__repr__` puts it together. -/
structure NumberText where
  negative : Bool
  natural : ℕ
  /-- The digits after the point; without them there is none. -/
  fraction : List Char
  /-- The sign and the digits of the exponent. -/
  exponent : Option (Char × List Char)
  fraction_digits : ∀ c ∈ fraction, c.isDigit = true
  exponent_sign : ∀ e ∈ exponent, e.1 = '-' ∨ e.1 = '+'
  exponent_digits : ∀ e ∈ exponent, e.2 ≠ [] ∧ ∀ c ∈ e.2, c.isDigit = true

namespace NumberText

variable (t : NumberText)

def integerText : List Char := (if t.negative then ['-'] else []) ++ Nat.toDigits 10 t.natural

def fractionText : List Char := if t.fraction = [] then [] else '.' :: t.fraction

def exponentText : List Char :=
  match t.exponent with
  | none => []
  | some (sign, digits) => 'e' :: sign :: digits

def text : List Char := t.integerText ++ (t.fractionText ++ t.exponentText)

end NumberText

/-- A number ends where a value ends. -/
theorem stops_digits {xs : List Char} (h : Ends xs) : Stops Char.isDigit xs := by
  refine Stops.mono h fun c hc ↦ ?_
  by_contra hnot
  rw [Bool.not_eq_true, isTokenChar, Bool.not_eq_false'] at hnot
  have hall : ∀ c ∈ ['\x22', '[', '{', ',', ']', '}'], c.isDigit = false := by simp
  exact absurd hc (by simp [hall c (List.contains_iff_mem.mp hnot)])

/-- A numeral does not begin with a zero, unless it is the zero. -/
theorem head_toDigits {n : ℕ} (h : n ≠ 0) :
    ∃ c cs, Nat.toDigits 10 n = c :: cs ∧ c ≠ '0' := by
  induction n using Nat.strongRecOn with
  | ind n ih =>
    by_cases hn : n < 10
    · have hall : ∀ d : Fin 10, d.val ≠ 0 → Nat.digitChar d ≠ '0' := by decide
      exact ⟨_, [], Nat.toDigits_of_lt_base hn, hall ⟨n, hn⟩ h⟩
    · obtain ⟨c, cs, htext, hzero⟩ := ih (n / 10) (by omega) (by omega)
      refine ⟨c, cs ++ [Nat.digitChar (n % 10)], ?_, hzero⟩
      rw [Nat.toDigits_of_base_le (by decide) (not_lt.mp hn), htext, List.cons_append]

theorem readNatural_toDigits (n : ℕ) {xs : List Char} (h : Stops Char.isDigit xs) :
    readNatural (Nat.toDigits 10 n ++ xs) = some (Nat.toDigits 10 n, xs) := by
  by_cases hn : n = 0
  · rw [hn, Nat.toDigits_zero]
    rfl
  · obtain ⟨c, cs, htext, hzero⟩ := head_toDigits hn
    have hdigit : c.isDigit = true := isDigit_of_mem_toDigits (htext ▸ List.mem_cons_self)
    have hcs : ∀ d ∈ cs, d.isDigit = true := fun d hd ↦
      isDigit_of_mem_toDigits (htext ▸ List.mem_cons_of_mem c hd)
    rw [htext, List.cons_append, readNatural, if_neg hzero, if_pos hdigit,
      takeWhile_token hcs h, dropWhile_token hcs h]

/-- A numeral begins with a digit. -/
theorem exists_toDigits (n : ℕ) : ∃ c cs, Nat.toDigits 10 n = c :: cs ∧ c.isDigit = true := by
  obtain ⟨c, cs, htext⟩ := List.exists_cons_of_ne_nil (Nat.toDigits_ne_nil : Nat.toDigits 10 n ≠ [])
  exact ⟨c, cs, htext, isDigit_of_mem_toDigits (htext ▸ List.mem_cons_self)⟩

theorem ne_minus_of_isDigit {c : Char} (h : c.isDigit = true) : c ≠ '-' := by
  rintro rfl
  exact absurd h (by decide)

theorem readInteger_integerText (t : NumberText) {xs : List Char} (h : Stops Char.isDigit xs) :
    readInteger (t.integerText ++ xs) = some (t.integerText, xs) := by
  have hnatural := readNatural_toDigits t.natural h
  obtain ⟨c, cs, htext, hdigit⟩ := exists_toDigits t.natural
  rw [NumberText.integerText]
  cases t.negative with
  | true =>
    rw [if_pos rfl, List.cons_append, List.nil_append, List.cons_append, readInteger, if_pos rfl,
      hnatural]
    rfl
  | false =>
    rw [if_neg Bool.false_ne_true, List.nil_append]
    rw [htext, List.cons_append] at hnatural ⊢
    rw [readInteger, if_neg (ne_minus_of_isDigit hdigit), hnatural]

theorem readFraction_fractionText (t : NumberText) {xs : List Char} (h : Stops Char.isDigit xs)
    (hpoint : xs.head? ≠ some '.') :
    readFraction (t.fractionText ++ xs) = (t.fractionText, xs) := by
  rw [NumberText.fractionText]
  by_cases hnil : t.fraction = []
  · rw [if_pos hnil, List.nil_append]
    cases xs with
    | nil => rfl
    | cons x xs =>
      rw [readFraction, if_neg]
      rintro ⟨rfl, -⟩
      exact hpoint rfl
  · rw [if_neg hnil, List.cons_append, readFraction, takeWhile_token t.fraction_digits h,
      dropWhile_token t.fraction_digits h, if_pos ⟨rfl, hnil⟩]

theorem readExponent_exponentText (t : NumberText) {xs : List Char} (h : Ends xs) :
    readExponent (t.exponentText ++ xs) = (t.exponentText, xs) := by
  rw [NumberText.exponentText]
  rcases hexponent : t.exponent with _ | ⟨sign, digits⟩
  · cases xs with
    | nil => rfl
    | cons x xs =>
      have hx : isTokenChar x = false := h x rfl
      rw [List.nil_append, readExponent, if_neg]
      rintro ⟨rfl | rfl, -⟩
      · exact absurd hx (by decide)
      · exact absurd hx (by decide)
  · obtain ⟨hne, hall⟩ := t.exponent_digits _ hexponent
    have hread : readSign (sign :: (digits ++ xs)) = ([sign], digits ++ xs) := by
      rw [readSign, if_pos (t.exponent_sign _ hexponent)]
    simp only [List.cons_append, readExponent, hread, takeWhile_token hall (stops_digits h),
      dropWhile_token hall (stops_digits h)]
    rw [if_pos ⟨Or.inl trivial, hne⟩]
    rfl

theorem intValue_integerText (t : NumberText) :
    intValue t.integerText = if t.negative then -(t.natural : ℤ) else t.natural := by
  obtain ⟨c, cs, htext, hdigit⟩ := exists_toDigits t.natural
  rw [NumberText.integerText]
  cases t.negative with
  | true =>
    rw [if_pos rfl, if_pos rfl, List.cons_append, List.nil_append, intValue, if_pos rfl,
      Nat.ofDigitChars_ten_toDigits]
  | false =>
    rw [if_neg Bool.false_ne_true, if_neg Bool.false_ne_true, List.nil_append, htext, intValue,
      if_neg (ne_minus_of_isDigit hdigit), ← htext, Nat.ofDigitChars_ten_toDigits]

/-- **The text of a number is read to its end.** -/
theorem readNumber_text (float : List Char → Json) (t : NumberText) {xs : List Char}
    (h : Ends xs) : readNumber float (t.text ++ xs) =
      some (if t.fractionText ++ t.exponentText = [] then .int (intValue t.integerText)
        else float t.text, xs) := by
  have hxs := stops_digits h
  have hexponent : Stops Char.isDigit (t.exponentText ++ xs) ∧
      (t.exponentText ++ xs).head? ≠ some '.' := by
    rw [NumberText.exponentText]
    rcases t.exponent with _ | ⟨sign, digits⟩
    · refine ⟨hxs, fun hhead ↦ ?_⟩
      exact absurd (h '.' hhead) (by decide)
    · exact ⟨fun x hx ↦ by obtain rfl := Option.some.inj hx; decide, by simp⟩
  have hfraction : Stops Char.isDigit (t.fractionText ++ (t.exponentText ++ xs)) := by
    rw [NumberText.fractionText]
    by_cases hnil : t.fraction = []
    · rw [if_pos hnil]
      exact hexponent.1
    · rw [if_neg hnil]
      exact fun x hx ↦ by obtain rfl := Option.some.inj hx; decide
  rw [NumberText.text, List.append_assoc, List.append_assoc, readNumber,
    readInteger_integerText t hfraction, Option.map_some,
    readFraction_fractionText t hexponent.1 hexponent.2]
  dsimp only
  rw [readExponent_exponentText t h]

/-! ## Values -/

/-- `WHITESPACE_STR`. -/
def isJsonSpace (c : Char) : Bool := c = ' ' || c = '\t' || c = '\n' || c = '\r'

/-- Skip whitespace. -/
def skipSpace (cs : List Char) : List Char := cs.dropWhile isJsonSpace

/-- `dict[key] = value`: a key keeps its place. -/
def setItem (ms : List (String × Json)) (m : String × Json) : List (String × Json) :=
  if m.1 ∈ ms.map Prod.fst then ms.map fun p ↦ if p.1 = m.1 then m else p else ms ++ [m]

/-- The `dict` of a list of pairs. -/
def dictOf (pairs : List (String × Json)) : List (String × Json) := pairs.foldl setItem []

/-- A constant or a number. -/
def readScalar (float : List Char → Json) (cs : List Char) : Option (Json × List Char) :=
  match literals.find? fun p ↦ p.2.isPrefixOf cs with
  | some p => some (p.1, cs.drop p.2.length)
  | none => readNumber float cs

mutual

/-- `scan_once`. The fuel bounds the depth of the recursion. -/
def readValue (float : List Char → Json) : ℕ → List Char → Option (Json × List Char)
  | 0, _ => none
  | fuel + 1, cs =>
    match cs with
    | '\x22' :: cs => do
      let (s, cs) ← readString cs
      some (.str s, cs)
    | '[' :: cs =>
      match skipSpace cs with
      | ']' :: cs => some (.arr [], cs)
      | cs => do
        let (vs, cs) ← readItems float fuel cs
        some (.arr vs, cs)
    | '{' :: cs =>
      match skipSpace cs with
      | '}' :: cs => some (.obj [], cs)
      | cs => do
        let (ms, cs) ← readMembers float fuel cs
        some (.obj (dictOf ms), cs)
    | cs => readScalar float cs

/-- `JSONArray`, from the first item on. -/
def readItems (float : List Char → Json) : ℕ → List Char → Option (List Json × List Char)
  | 0, _ => none
  | fuel + 1, cs => do
    let (v, cs) ← readValue float fuel cs
    match skipSpace cs with
    | ']' :: cs => some ([v], cs)
    | ',' :: cs => do
      let (vs, cs) ← readItems float fuel (skipSpace cs)
      some (v :: vs, cs)
    | _ => none

/-- `JSONObject`, from the first key on. -/
def readMembers (float : List Char → Json) :
    ℕ → List Char → Option (List (String × Json) × List Char)
  | 0, _ => none
  | fuel + 1, cs =>
    match cs with
    | '\x22' :: cs => do
      let (k, cs) ← readString cs
      match skipSpace cs with
      | ':' :: cs => do
        let (v, cs) ← readValue float fuel (skipSpace cs)
        match skipSpace cs with
        | '}' :: cs => some ([(k, v)], cs)
        | ',' :: cs => do
          let (ms, cs) ← readMembers float fuel (skipSpace cs)
          some ((k, v) :: ms, cs)
        | _ => none
      | _ => none
    | _ => none

end

/-- `json.loads`; `none` is an exception. -/
def loads (float : List Char → Json) (text : List Char) : Option Json :=
  match text with
  | '\ufeff' :: _ => none
  | _ => do
    let (v, rest) ← readValue float (2 * text.length + 1) (skipSpace text)
    if (skipSpace rest).isEmpty then some v else none

/-- The text of a float is what `float()` makes of it. -/
def IsRepr (float : List Char → Json) (x : FloatText) : Prop :=
  (∃ t : NumberText, x.text.toList = t.text) ∧ float x.text.toList = .float x

mutual

/-- Every float in the value is its own `repr`. -/
def FloatsRepr (float : List Char → Json) : Json → Prop
  | .float x => IsRepr float x
  | .arr items => ItemsRepr float items
  | .obj members => MembersRepr float members
  | .null | .bool _ | .int _ | .nonFinite _ | .str _ => True

/-- `FloatsRepr` for each item of an array. -/
def ItemsRepr (float : List Char → Json) : List Json → Prop
  | [] => True
  | v :: vs => FloatsRepr float v ∧ ItemsRepr float vs

/-- `FloatsRepr` for each member's value. -/
def MembersRepr (float : List Char → Json) : List (String × Json) → Prop
  | [] => True
  | (_, v) :: ms => FloatsRepr float v ∧ MembersRepr float ms

end

/-! ## Scalars are read back -/

section Scalars

variable {float : List Char → Json}

/-- What a number's text begins with. -/
theorem NumberText.exists_text (t : NumberText) : ∃ c cs, c.isDigit = true ∧
    t.text = (if t.negative then ['-'] else []) ++ c :: cs := by
  obtain ⟨c, cs, htext, hdigit⟩ := exists_toDigits t.natural
  refine ⟨c, cs ++ (t.fractionText ++ t.exponentText), hdigit, ?_⟩
  rw [NumberText.text, NumberText.integerText, htext, List.append_assoc, List.cons_append]

/-- The text of an integer is the text of a number without fraction and exponent. -/
theorem exists_intText (n : ℤ) : ∃ t : NumberText, t.text = intText n ∧
    t.fractionText ++ t.exponentText = [] ∧ intValue t.integerText = n := by
  refine ⟨⟨n < 0, n.natAbs, [], none, by simp, by simp, by simp⟩, ?_, rfl, ?_⟩
  · match n with
    | .ofNat n => simp [NumberText.text, NumberText.integerText, NumberText.fractionText,
        NumberText.exponentText, intText]
    | .negSucc n => simp [NumberText.text, NumberText.integerText, NumberText.fractionText,
        NumberText.exponentText, intText]
  · rw [intValue_integerText]
    dsimp only
    split
    case isTrue h =>
      have := of_decide_eq_true h
      omega
    case isFalse h =>
      have : ¬ n < 0 := fun hn ↦ h (decide_eq_true hn)
      omega

/-- No constant begins a number. -/
theorem literals_not_begin {p : Json × List Char} (hp : p ∈ literals) (negative : Bool)
    {c : Char} (hc : c.isDigit = true) (cs : List Char) :
    p.2.isPrefixOf ((if negative then ['-'] else []) ++ c :: cs) = false := by
  have hne {d : Char} (hd : d.isDigit = false) : (d == c) = false := by
    rw [beq_eq_false_iff_ne]
    rintro rfl
    exact absurd hc (by simp [hd])
  have hall : ∀ p ∈ literals, p.2.isPrefixOf ((if negative then ['-'] else []) ++ c :: cs)
      = false := by
    cases negative <;>
      simp [literals, List.isPrefixOf, hne (show 'n'.isDigit = false by decide),
        hne (show 't'.isDigit = false by decide), hne (show 'f'.isDigit = false by decide),
        hne (show 'N'.isDigit = false by decide), hne (show 'I'.isDigit = false by decide),
        hne (show '-'.isDigit = false by decide)]
  exact hall p hp

theorem readScalar_number (t : NumberText) {xs : List Char} (h : Ends xs) :
    readScalar float (t.text ++ xs) =
      some (if t.fractionText ++ t.exponentText = [] then .int (intValue t.integerText)
        else float t.text, xs) := by
  obtain ⟨c, cs, hc, htext⟩ := t.exists_text
  have hnone : (literals.find? fun p ↦ p.2.isPrefixOf (t.text ++ xs)) = none := by
    refine List.find?_eq_none.mpr fun p hp ↦ ?_
    rw [htext, List.append_assoc, List.cons_append, literals_not_begin hp t.negative hc]
    exact Bool.false_ne_true
  rw [readScalar, hnone]
  exact readNumber_text float t h

theorem readScalar_literal {p : Json × List Char} (hp : p ∈ literals) (xs : List Char) :
    readScalar float (p.2 ++ xs) = some (p.1, xs) := by
  have hall : ∀ p ∈ literals, readScalar float (p.2 ++ xs) = some (p.1, xs) := by
    simp [literals, readScalar, List.isPrefixOf]
  exact hall p hp

/-- A point or an exponent is a fraction or an exponent. -/
theorem NumberText.ne_nil_of_marked (t : NumberText)
    (h : (t.text.any fun c ↦ c = '.' || c = 'e') = true) :
    t.fractionText ++ t.exponentText ≠ [] := by
  intro hnil
  obtain ⟨c, hc, hmark⟩ := List.any_eq_true.mp h
  rw [text, hnil, List.append_nil, integerText, List.mem_append] at hc
  have hinteger : c = '-' ∨ c.isDigit = true := by
    refine hc.imp (fun hsign ↦ ?_) isDigit_of_mem_toDigits
    split at hsign
    · exact List.mem_singleton.mp hsign
    · exact absurd hsign List.not_mem_nil
  rcases hinteger with rfl | hdigit
  · exact absurd hmark (by decide)
  · rcases (by simpa using hmark : c = '.' ∨ c = 'e') with rfl | rfl
    · exact absurd hdigit (by decide)
    · exact absurd hdigit (by decide)

/-- **A scalar is read back.** -/
theorem readScalar_scalarText {v : Json} {ts xs : List Char} (hv : v.scalarText = some ts)
    (hrepr : FloatsRepr float v) (h : Ends xs) :
    readScalar float (ts ++ xs) = some (v, xs) := by
  rcases scalarText_cases hv with hlit | ⟨n, rfl, rfl⟩ | ⟨x, rfl, rfl⟩
  · exact readScalar_literal hlit xs
  · obtain ⟨t, htext, hinteger, hvalue⟩ := exists_intText n
    rw [← htext, readScalar_number t h, if_pos hinteger, hvalue]
  · obtain ⟨⟨t, htext⟩, hfloat⟩ := hrepr
    have hmarked : t.fractionText ++ t.exponentText ≠ [] := t.ne_nil_of_marked (htext ▸ x.marked)
    rw [htext, readScalar_number t h, if_neg hmarked, ← htext, hfloat]

end Scalars

/-! ## Values are read back -/

/-- Pairs with distinct keys are a `dict` as they stand. -/
theorem dictOf_of_nodup {ms : List (String × Json)} (h : (ms.map Prod.fst).Nodup) :
    dictOf ms = ms := by
  have hfold : ∀ ms ns : List (String × Json), ((ns ++ ms).map Prod.fst).Nodup →
      ms.foldl setItem ns = ns ++ ms := by
    intro ms
    induction ms with
    | nil => exact fun ns _ ↦ (List.append_nil ns).symm
    | cons m ms ih =>
      intro ns hnodup
      have hfresh : m.1 ∉ ns.map Prod.fst := by
        rw [List.map_append, List.map_cons, List.nodup_append] at hnodup
        exact fun hmem ↦ hnodup.2.2 _ hmem _ List.mem_cons_self rfl
      rw [List.foldl_cons, setItem, if_neg hfresh, ih (ns ++ [m]) (by simpa using hnodup),
        List.append_assoc, List.singleton_append]
  exact hfold ms [] h

theorem skipSpace_of_not {c : Char} (h : isJsonSpace c = false) (cs : List Char) :
    skipSpace (c :: cs) = c :: cs := List.dropWhile_cons_of_neg (by simp [h])

theorem skipSpace_space (cs : List Char) : skipSpace (' ' :: cs) = skipSpace cs :=
  List.dropWhile_cons_of_pos rfl

section Values

variable {float : List Char → Json}

theorem isJsonSpace_of_isDigit {c : Char} (h : c.isDigit = true) : isJsonSpace c = false := by
  have hall : ∀ d ∈ [' ', '\t', '\n', '\r'], d.isDigit = false := by simp
  by_contra hspace
  rw [Bool.not_eq_false] at hspace
  have hmem : c ∈ [' ', '\t', '\n', '\r'] := by simpa [isJsonSpace, or_assoc] using hspace
  exact absurd h (by simp [hall c hmem])

/-- The character opens nothing, closes nothing and is not skipped. -/
def startsScalar (c : Char) : Bool :=
  !(List.contains ['\x22', '[', '{', ']', '}', '\ufeff'] c) && !isJsonSpace c

theorem startsScalar_of_isDigit {c : Char} (h : c.isDigit = true) : startsScalar c = true := by
  have hall : ∀ d ∈ ['\x22', '[', '{', ']', '}', '\ufeff'], d.isDigit = false := by simp
  rw [startsScalar, isJsonSpace_of_isDigit h, Bool.not_false, Bool.and_true]
  by_contra hmem
  rw [Bool.not_eq_true, Bool.not_eq_false'] at hmem
  exact absurd h (by simp [hall c (List.contains_iff_mem.mp hmem)])

theorem scalarText_head {v : Json} {ts : List Char} (hv : v.scalarText = some ts)
    (hrepr : FloatsRepr float v) : ∃ c cs, ts = c :: cs ∧ startsScalar c = true := by
  have hnumber (t : NumberText) : ∃ c cs, t.text = c :: cs ∧ startsScalar c = true := by
    obtain ⟨c, cs, hc, htext⟩ := t.exists_text
    cases hsign : t.negative with
    | true => exact ⟨'-', c :: cs, by rw [htext, hsign]; rfl, by decide⟩
    | false => exact ⟨c, cs, by rw [htext, hsign]; rfl, startsScalar_of_isDigit hc⟩
  rcases scalarText_cases hv with hlit | ⟨n, rfl, rfl⟩ | ⟨x, rfl, rfl⟩
  · have hall : ∀ p ∈ literals, ∃ c cs, p.2 = c :: cs ∧ startsScalar c = true := by
      simp [literals, startsScalar, isJsonSpace]
    exact hall _ hlit
  · obtain ⟨t, htext, -⟩ := exists_intText n
    exact htext ▸ hnumber t
  · obtain ⟨⟨t, htext⟩, -⟩ := hrepr
    exact htext ▸ hnumber t

theorem readValue_scalar {v : Json} {ts xs : List Char} (hv : v.scalarText = some ts)
    (hrepr : FloatsRepr float v) (h : Ends xs) (fuel : ℕ) :
    readValue float (fuel + 1) (ts ++ xs) = some (v, xs) := by
  obtain ⟨c, cs, hts, hc⟩ := scalarText_head hv hrepr
  have hscalar := readScalar_scalarText hv hrepr h
  rw [hts, List.cons_append] at hscalar ⊢
  rw [readValue]
  · exact hscalar
  all_goals
    rintro ds hds
    obtain rfl := (List.cons.inj hds).1
    exact absurd hc (by decide)

/-- The text of a scalar is its token. -/
theorem scalarText_eq_dumps {v : Json} (h : v.opening = none) : v.scalarText = some v.dumps := by
  match v with
  | .str _ | .arr _ | .obj _ => exact absurd h (by simp [opening])
  | .null | .bool true | .bool false | .int _ | .float _ | .nonFinite .nan
  | .nonFinite .infinity | .nonFinite .negInfinity => simp [dumps, scalarText]

theorem dumps_head_of_opening {v : Json} (h : v.opening = none) (hrepr : FloatsRepr float v) :
    ∃ c cs, v.dumps = c :: cs ∧ isJsonSpace c = false ∧ c ≠ ']' ∧ c ≠ '\ufeff' := by
  obtain ⟨c, cs, hdumps, hc⟩ := scalarText_head (scalarText_eq_dumps h) hrepr
  refine ⟨c, cs, hdumps, ?_, ?_, ?_⟩
  · rw [startsScalar, Bool.and_eq_true, Bool.not_eq_true'] at hc
    simpa using hc.2
  · rintro rfl
    exact absurd hc (by decide)
  · rintro rfl
    exact absurd hc (by decide)

/-- The text of a value begins with none of the characters that are skipped or refused, or that
close. -/
theorem dumps_head (v : Json) (hrepr : FloatsRepr float v) :
    ∃ c cs, v.dumps = c :: cs ∧ isJsonSpace c = false ∧ c ≠ ']' ∧ c ≠ '\ufeff' := by
  match v with
  | .str s => exact ⟨_, _, rfl, by decide, by decide, by decide⟩
  | .arr items => exact ⟨_, _, rfl, by decide, by decide, by decide⟩
  | .obj members => exact ⟨_, _, rfl, by decide, by decide, by decide⟩
  | .null | .bool _ | .int _ | .float _ | .nonFinite _ => exact dumps_head_of_opening rfl hrepr

theorem readValue_of_opening {v : Json} {fuel : ℕ} {xs : List Char} (hv : v.opening = none)
    (hrepr : FloatsRepr float v) (hfuel : v.dumps.length ≤ fuel) (h : Ends xs) :
    readValue float fuel (v.dumps ++ xs) = some (v, xs) := by
  obtain ⟨c, cs, hdumps, -⟩ := dumps_head v hrepr
  obtain ⟨fuel, rfl⟩ : ∃ n, fuel = n + 1 := by
    rw [hdumps, List.length_cons] at hfuel
    exact ⟨fuel - 1, by omega⟩
  exact readValue_scalar (scalarText_eq_dumps hv) hrepr h fuel

theorem readValue_str (s : String) (fuel : ℕ) (xs : List Char) :
    readValue float (fuel + 1) (encodeString s ++ xs) = some (.str s, xs) := by
  have hread := readString_encodeString s xs
  rw [encodeString, List.cons_append, List.append_assoc, List.singleton_append, readValue, hread]
  rfl

/-- An array that does not close at once. -/
theorem readValue_arr {c : Char} (hspace : isJsonSpace c = false) (hc : c ≠ ']') (fuel : ℕ)
    (cs : List Char) : readValue float (fuel + 1) ('[' :: c :: cs)
      = (readItems float fuel (c :: cs)).map fun p ↦ (.arr p.1, p.2) := by
  rw [readValue, skipSpace_of_not hspace]
  split
  case h_1 ds hds => exact absurd (List.cons.inj hds).1 hc
  case h_2 => cases readItems float fuel (c :: cs) <;> rfl

/-- An object with a member. -/
theorem readValue_obj (fuel : ℕ) (cs : List Char) :
    readValue float (fuel + 1) ('{' :: '\x22' :: cs)
      = (readMembers float fuel ('\x22' :: cs)).map fun p ↦ (.obj (dictOf p.1), p.2) := by
  rw [readValue, skipSpace_of_not (by decide)]
  split
  case h_1 ds hds => exact absurd (List.cons.inj hds).1 (by decide)
  case h_2 => cases readMembers float fuel ('\x22' :: cs) <;> rfl

section Steps

variable {fuel : ℕ} {v : Json} {cs xs : List Char}

theorem readItems_last (h : readValue float fuel cs = some (v, ']' :: xs)) :
    readItems float (fuel + 1) cs = some ([v], xs) := by
  rw [readItems, h]
  rfl

theorem readItems_more (h : readValue float fuel cs = some (v, ',' :: xs)) :
    readItems float (fuel + 1) cs
      = (readItems float fuel (skipSpace xs)).map fun p ↦ (v :: p.1, p.2) := by
  rw [readItems, h]
  change (do let (vs, cs) ← readItems float fuel (skipSpace xs); some (v :: vs, cs)) = _
  cases readItems float fuel (skipSpace xs) <;> rfl

variable (k : String)

/-- A key and its colon. -/
theorem readMembers_key :
    readMembers float (fuel + 1) (encodeString k ++ ':' :: ' ' :: cs) =
      (do
        let (v, cs) ← readValue float fuel (skipSpace cs)
        match skipSpace cs with
        | '}' :: cs => some ([(k, v)], cs)
        | ',' :: cs => do
          let (ms, cs) ← readMembers float fuel (skipSpace cs)
          some ((k, v) :: ms, cs)
        | _ => none) := by
  have hread := readString_encodeString k (':' :: ' ' :: cs)
  rw [encodeString, List.cons_append, List.append_assoc, List.singleton_append, readMembers, hread]
  rfl

theorem readMembers_last (h : readValue float fuel (skipSpace cs) = some (v, '}' :: xs)) :
    readMembers float (fuel + 1) (encodeString k ++ ':' :: ' ' :: cs) = some ([(k, v)], xs) := by
  rw [readMembers_key, h]
  rfl

theorem readMembers_more (h : readValue float fuel (skipSpace cs) = some (v, ',' :: xs)) :
    readMembers float (fuel + 1) (encodeString k ++ ':' :: ' ' :: cs)
      = (readMembers float fuel (skipSpace xs)).map fun p ↦ ((k, v) :: p.1, p.2) := by
  rw [readMembers_key, h]
  change (do let (ms, cs) ← readMembers float fuel (skipSpace xs); some ((k, v) :: ms, cs)) = _
  cases readMembers float fuel (skipSpace xs) <;> rfl

end Steps

/-- The text of a value, when something is to be read, is read from its first character on. -/
theorem skipSpace_dumps (v : Json) (hrepr : FloatsRepr float v) (xs : List Char) :
    skipSpace (v.dumps ++ xs) = v.dumps ++ xs := by
  obtain ⟨c, cs, hdumps, hspace, -⟩ := dumps_head v hrepr
  rw [hdumps, List.cons_append, skipSpace_of_not hspace]

mutual

/-- **The text of a value is read back**, whatever follows. -/
theorem readValue_dumps : ∀ (v : Json) {fuel : ℕ} {xs : List Char}, FloatsRepr float v →
    v.keysDistinct = true → v.dumps.length ≤ fuel → Ends xs →
    readValue float fuel (v.dumps ++ xs) = some (v, xs)
  | .str s, 0, xs, _, _, hfuel, _ => absurd hfuel (by simp [dumps, encodeString])
  | .str s, fuel + 1, xs, _, _, _, _ => readValue_str s fuel xs
  | .arr vs, 0, xs, _, _, hfuel, _ => absurd hfuel (by simp [dumps])
  | .arr [], fuel + 1, xs, _, _, _, _ => by
    rw [dumps, dumpsItems, List.cons_append, List.cons_append, List.nil_append, readValue,
      skipSpace_of_not (by decide)]
    rfl
  | .arr (v :: vs), fuel + 1, xs, hrepr, hkeys, hfuel, _ => by
    obtain ⟨c, cs, hdumps, hspace, hc, -⟩ := dumps_head v hrepr.1
    have hitems := @readItems_dumps (v :: vs) fuel xs (List.cons_ne_nil v vs) hrepr hkeys
      (Nat.le_of_succ_le_succ hfuel)
    have htext : dumpsItems [] (v :: vs) = c :: (cs ++ dumpsItems [',', ' '] vs) := by
      rw [dumpsItems, hdumps]
      rfl
    rw [dumps]
    rw [htext, List.cons_append] at hitems ⊢
    rw [List.cons_append, readValue_arr hspace hc, hitems]
    rfl
  | .obj ms, 0, xs, _, _, hfuel, _ => absurd hfuel (by simp [dumps])
  | .obj [], fuel + 1, xs, _, _, _, _ => by
    rw [dumps, dumpsMembers, List.cons_append, List.cons_append, List.nil_append, readValue,
      skipSpace_of_not (by decide)]
    rfl
  | .obj (m :: ms), fuel + 1, xs, hrepr, hkeys, hfuel, _ => by
    obtain ⟨k, v⟩ := m
    obtain ⟨hnodup, hvalues⟩ := Bool.and_eq_true_iff.mp hkeys
    have hmembers := @readMembers_dumps ((k, v) :: ms) fuel xs (List.cons_ne_nil _ ms) hrepr hvalues
      (Nat.le_of_succ_le_succ hfuel)
    have htext : dumpsMembers [] ((k, v) :: ms) = '\x22' :: (k.toList.flatMap escapeChar ++ ['\x22']
        ++ (':' :: ' ' :: (v.dumps ++ dumpsMembers [',', ' '] ms))) := rfl
    rw [dumps]
    rw [htext, List.cons_append] at hmembers ⊢
    rw [List.cons_append, readValue_obj, hmembers, Option.map_some,
      dictOf_of_nodup (of_decide_eq_true hnodup)]
  | .null, fuel, xs, hrepr, _, hfuel, h => readValue_of_opening rfl hrepr hfuel h
  | .bool b, fuel, xs, hrepr, _, hfuel, h => readValue_of_opening rfl hrepr hfuel h
  | .int n, fuel, xs, hrepr, _, hfuel, h => readValue_of_opening rfl hrepr hfuel h
  | .float x, fuel, xs, hrepr, _, hfuel, h => readValue_of_opening rfl hrepr hfuel h
  | .nonFinite x, fuel, xs, hrepr, _, hfuel, h => readValue_of_opening rfl hrepr hfuel h

theorem readItems_dumps : ∀ (vs : List Json) {fuel : ℕ} {xs : List Char}, vs ≠ [] →
    ItemsRepr float vs → itemsKeysDistinct vs = true → (dumpsItems [] vs).length ≤ fuel →
    readItems float fuel (dumpsItems [] vs ++ xs) = some (vs, xs)
  | [], _, _, hne, _, _, _ => absurd rfl hne
  | v :: vs, 0, xs, _, hrepr, _, hfuel => by
    obtain ⟨c, cs, hdumps, -⟩ := dumps_head v hrepr.1
    exact absurd hfuel (by simp [dumpsItems, hdumps])
  | [v], fuel + 1, xs, _, hrepr, hkeys, hfuel => by
    have hv := @readValue_dumps v fuel (']' :: xs) hrepr.1 (Bool.and_eq_true_iff.mp hkeys).1
      (by simpa [dumpsItems] using hfuel) (ends_cons (by decide))
    have htext : dumpsItems [] [v] ++ xs = v.dumps ++ ']' :: xs := by simp [dumpsItems]
    rw [htext, readItems_last hv]
  | v :: w :: ws, fuel + 1, xs, _, hrepr, hkeys, hfuel => by
    obtain ⟨hv, hvs⟩ := Bool.and_eq_true_iff.mp hkeys
    have htext : dumpsItems [] (v :: w :: ws) ++ xs
        = v.dumps ++ ',' :: ' ' :: (dumpsItems [] (w :: ws) ++ xs) := by simp [dumpsItems]
    have hlen : (dumpsItems [] (v :: w :: ws)).length
        = v.dumps.length + 2 + (dumpsItems [] (w :: ws)).length := by
      simp [dumpsItems]
      omega
    have hfirst := @readValue_dumps v fuel (',' :: ' ' :: (dumpsItems [] (w :: ws) ++ xs)) hrepr.1
      hv (by omega) (ends_cons (by decide))
    have hrest := @readItems_dumps (w :: ws) fuel xs (List.cons_ne_nil w ws) hrepr.2 hvs (by omega)
    have hskip : skipSpace (' ' :: (dumpsItems [] (w :: ws) ++ xs))
        = dumpsItems [] (w :: ws) ++ xs := by
      rw [skipSpace_space, dumpsItems, List.nil_append, List.append_assoc,
        skipSpace_dumps w hrepr.2.1]
    rw [htext, readItems_more hfirst, hskip, hrest]
    rfl

theorem readMembers_dumps : ∀ (ms : List (String × Json)) {fuel : ℕ} {xs : List Char}, ms ≠ [] →
    MembersRepr float ms → membersKeysDistinct ms = true → (dumpsMembers [] ms).length ≤ fuel →
    readMembers float fuel (dumpsMembers [] ms ++ xs) = some (ms, xs)
  | [], _, _, hne, _, _, _ => absurd rfl hne
  | (k, v) :: ms, 0, _, _, _, _, hfuel => absurd hfuel (by simp [dumpsMembers, encodeString])
  | [(k, v)], fuel + 1, xs, _, hrepr, hkeys, hfuel => by
    have hlen : v.dumps.length ≤ fuel := by
      simp only [dumpsMembers, List.nil_append, List.length_append, List.length_cons] at hfuel
      omega
    have hv := @readValue_dumps v fuel ('}' :: xs) hrepr.1 (Bool.and_eq_true_iff.mp hkeys).1
      hlen (ends_cons (by decide))
    have htext : dumpsMembers [] [(k, v)] ++ xs
        = encodeString k ++ ':' :: ' ' :: (v.dumps ++ '}' :: xs) := by simp [dumpsMembers]
    rw [← skipSpace_dumps v hrepr.1] at hv
    rw [htext, readMembers_last k hv]
  | (k, v) :: (l, w) :: ms, fuel + 1, xs, _, hrepr, hkeys, hfuel => by
    obtain ⟨hv, hms⟩ := Bool.and_eq_true_iff.mp hkeys
    have htext : dumpsMembers [] ((k, v) :: (l, w) :: ms) ++ xs = encodeString k ++ ':' :: ' ' ::
        (v.dumps ++ ',' :: ' ' :: (dumpsMembers [] ((l, w) :: ms) ++ xs)) := by simp [dumpsMembers]
    have hlen : (dumpsMembers [] ((k, v) :: (l, w) :: ms)).length = (encodeString k).length + 2
        + v.dumps.length + 2 + (dumpsMembers [] ((l, w) :: ms)).length := by
      simp [dumpsMembers]
      omega
    have hfirst := @readValue_dumps v fuel (',' :: ' ' :: (dumpsMembers [] ((l, w) :: ms) ++ xs))
      hrepr.1 hv (by omega) (ends_cons (by decide))
    have hrest := @readMembers_dumps ((l, w) :: ms) fuel xs (List.cons_ne_nil _ ms) hrepr.2 hms
      (by omega)
    have hskip : skipSpace (' ' :: (dumpsMembers [] ((l, w) :: ms) ++ xs))
        = dumpsMembers [] ((l, w) :: ms) ++ xs := by
      rw [skipSpace_space]
      exact skipSpace_of_not (by decide) _
    rw [← skipSpace_dumps v hrepr.1] at hfirst
    rw [htext, readMembers_more k hfirst, hskip, hrest]
    rfl

end

/-- **`json.loads` inverts `json.dumps`.** -/
theorem loads_dumps {v : Json} (hrepr : FloatsRepr float v) (hkeys : v.keysDistinct = true) :
    loads float v.dumps = some v := by
  obtain ⟨c, cs, hdumps, -, -, hbom⟩ := dumps_head v hrepr
  have hread := @readValue_dumps float v (2 * v.dumps.length + 1) [] hrepr hkeys (by omega)
    (by simp [Stops])
  rw [← skipSpace_dumps v hrepr, List.append_nil] at hread
  unfold loads
  split
  case h_1 ds hds => exact absurd (List.cons.inj (hdumps.symm.trans hds)).1 hbom
  case h_2 =>
    rw [hread]
    rfl

end Values

/-! ## Fuel -/

section Fuel

variable {float : List Char → Json} {cs rest : List Char}

theorem readUnit_suffix {n : ℕ} (h : readUnit cs = some (n, rest)) : rest <:+ cs := by
  unfold readUnit at h
  split at h
  next a b c d ds =>
    simp only [bind, Option.bind_eq_some_iff, Option.some.injEq, Prod.mk.injEq] at h
    obtain ⟨-, -, -, -, -, -, -, -, -, rfl⟩ := h
    exact List.suffix_append [a, b, c, d] ds
  next => cases h

theorem readEscape_suffix {c : Char} (h : readEscape cs = some (c, rest)) : rest <:+ cs := by
  unfold readEscape at h
  split at h
  next => cases h
  next ds =>
    obtain ⟨⟨n, es⟩, hunit, h⟩ := Option.bind_eq_some_iff.mp h
    have hes := (readUnit_suffix hunit).trans (List.suffix_cons 'u' ds)
    dsimp only at h
    split at h
    · split at h
      next fs =>
        obtain ⟨⟨low, gs⟩, hlow, h⟩ := Option.bind_eq_some_iff.mp h
        dsimp only at h
        split at h
        · obtain rfl := (Prod.mk.inj (Option.some.inj h)).2
          exact ((readUnit_suffix hlow).trans (List.suffix_append ['\x5c', 'u'] fs)).trans hes
        · cases h
      next => cases h
    · split at h
      · cases h
      · obtain rfl := (Prod.mk.inj (Option.some.inj h)).2
        exact hes
  next c ds _ =>
    obtain ⟨e, -, he⟩ := Option.map_eq_some_iff.mp h
    obtain rfl := (Prod.mk.inj he).2
    exact List.suffix_cons c _

theorem readChars_suffix {fuel : ℕ} {s : List Char} (h : readChars fuel cs = some (s, rest)) :
    rest <:+ cs := by
  induction fuel generalizing cs s rest with
  | zero => cases h
  | succ fuel ih =>
    cases cs with
    | nil => cases h
    | cons c cs =>
      rw [readChars] at h
      split at h
      · obtain rfl := (Prod.mk.inj (Option.some.inj h)).2
        exact List.suffix_cons c cs
      split at h
      · obtain ⟨⟨d, ds⟩, hescape, h⟩ := Option.bind_eq_some_iff.mp h
        obtain ⟨⟨es, fs⟩, hchars, h⟩ := Option.map_eq_some_iff.mp h
        obtain rfl := (Prod.mk.inj h).2
        exact ((ih hchars).trans (readEscape_suffix hescape)).trans (List.suffix_cons c cs)
      split at h
      · cases h
      · obtain ⟨⟨es, fs⟩, hchars, h⟩ := Option.map_eq_some_iff.mp h
        obtain rfl := (Prod.mk.inj h).2
        exact (ih hchars).trans (List.suffix_cons c cs)

theorem readString_suffix {s : String} (h : readString cs = some (s, rest)) : rest <:+ cs := by
  obtain ⟨⟨ds, es⟩, hchars, h⟩ := Option.map_eq_some_iff.mp h
  obtain rfl := (Prod.mk.inj h).2
  exact readChars_suffix hchars

theorem readNatural_suffix {ds : List Char} (h : readNatural cs = some (ds, rest)) :
    rest <:+ cs := by
  cases cs with
  | nil => cases h
  | cons c cs =>
    rw [readNatural] at h
    split at h
    · obtain rfl := (Prod.mk.inj (Option.some.inj h)).2
      exact List.suffix_cons c cs
    split at h
    · obtain rfl := (Prod.mk.inj (Option.some.inj h)).2
      exact (List.dropWhile_suffix _).trans (List.suffix_cons c cs)
    · cases h

theorem readInteger_suffix {ds : List Char} (h : readInteger cs = some (ds, rest)) :
    rest <:+ cs := by
  cases cs with
  | nil => cases h
  | cons c cs =>
    rw [readInteger] at h
    split at h
    · obtain ⟨⟨es, fs⟩, hnatural, h⟩ := Option.map_eq_some_iff.mp h
      obtain rfl := (Prod.mk.inj h).2
      exact (readNatural_suffix hnatural).trans (List.suffix_cons c cs)
    · exact readNatural_suffix h

theorem readFraction_suffix (cs : List Char) : (readFraction cs).2 <:+ cs := by
  cases cs with
  | nil => exact List.suffix_refl []
  | cons c cs =>
    rw [readFraction]
    split
    · exact (List.dropWhile_suffix _).trans (List.suffix_cons c cs)
    · exact List.suffix_refl _

theorem readSign_suffix (cs : List Char) : (readSign cs).2 <:+ cs := by
  cases cs with
  | nil => exact List.suffix_refl []
  | cons c cs =>
    rw [readSign]
    split
    · exact List.suffix_cons c cs
    · exact List.suffix_refl _

theorem readExponent_suffix (cs : List Char) : (readExponent cs).2 <:+ cs := by
  cases cs with
  | nil => exact List.suffix_refl []
  | cons c cs =>
    rw [readExponent]
    split
    · exact ((List.dropWhile_suffix _).trans (readSign_suffix cs)).trans (List.suffix_cons c cs)
    · exact List.suffix_refl _

theorem readScalar_suffix {v : Json} (h : readScalar float cs = some (v, rest)) : rest <:+ cs := by
  unfold readScalar at h
  split at h
  next p _ =>
    obtain rfl := (Prod.mk.inj (Option.some.inj h)).2
    exact List.drop_suffix _ cs
  next =>
    obtain ⟨⟨ds, es⟩, hinteger, h⟩ := Option.map_eq_some_iff.mp h
    obtain rfl := (Prod.mk.inj h).2
    exact ((readExponent_suffix _).trans (readFraction_suffix es)).trans
      (readInteger_suffix hinteger)

theorem skipSpace_suffix (cs : List Char) : skipSpace cs <:+ cs := List.dropWhile_suffix _

theorem suffix_of_skipSpace {c : Char} (h : skipSpace cs = c :: rest) : rest <:+ cs :=
  (List.suffix_cons c rest).trans (h ▸ skipSpace_suffix cs)

theorem length_of_skipSpace {c : Char} (h : skipSpace cs = c :: rest) :
    rest.length < cs.length := by
  have hle := (skipSpace_suffix cs).length_le
  rw [h, List.length_cons] at hle
  omega

/-- What is left is the end of the text. -/
theorem read_suffix (float : List Char → Json) (fuel : ℕ) :
    (∀ cs p, readValue float fuel cs = some p → p.2 <:+ cs) ∧
      (∀ cs p, readItems float fuel cs = some p → p.2 <:+ cs) ∧
      ∀ cs p, readMembers float fuel cs = some p → p.2 <:+ cs := by
  induction fuel with
  | zero =>
    refine ⟨fun cs p h ↦ ?_, fun cs p h ↦ ?_, fun cs p h ↦ ?_⟩
    · exact absurd h (by simp [readValue])
    · exact absurd h (by simp [readItems])
    · exact absurd h (by simp [readMembers])
  | succ fuel ih =>
    obtain ⟨hvalue, hitems, hmembers⟩ := ih
    refine ⟨fun cs p h ↦ ?_, fun cs p h ↦ ?_, fun cs p h ↦ ?_⟩
    · unfold readValue at h
      split at h
      next ds =>
        obtain ⟨⟨s, es⟩, hstring, h⟩ := Option.bind_eq_some_iff.mp h
        obtain rfl := Option.some.inj h
        exact (readString_suffix hstring).trans (List.suffix_cons _ ds)
      next ds =>
        split at h
        next es hskip =>
          obtain rfl := Option.some.inj h
          exact (suffix_of_skipSpace hskip).trans (List.suffix_cons _ ds)
        next =>
          obtain ⟨⟨vs, es⟩, hread, h⟩ := Option.bind_eq_some_iff.mp h
          obtain rfl := Option.some.inj h
          exact ((hitems _ _ hread).trans (skipSpace_suffix ds)).trans (List.suffix_cons _ ds)
      next ds =>
        split at h
        next es hskip =>
          obtain rfl := Option.some.inj h
          exact (suffix_of_skipSpace hskip).trans (List.suffix_cons _ ds)
        next =>
          obtain ⟨⟨ms, es⟩, hread, h⟩ := Option.bind_eq_some_iff.mp h
          obtain rfl := Option.some.inj h
          exact ((hmembers _ _ hread).trans (skipSpace_suffix ds)).trans (List.suffix_cons _ ds)
      next => exact readScalar_suffix h
    · rw [readItems] at h
      obtain ⟨⟨v, ds⟩, hread, h⟩ := Option.bind_eq_some_iff.mp h
      have hds := hvalue _ _ hread
      dsimp only at h
      split at h
      next es hskip =>
        obtain rfl := Option.some.inj h
        exact (suffix_of_skipSpace hskip).trans hds
      next es hskip =>
        obtain ⟨⟨vs, fs⟩, hrest, h⟩ := Option.bind_eq_some_iff.mp h
        obtain rfl := Option.some.inj h
        exact ((hitems _ _ hrest).trans (skipSpace_suffix es)).trans
          ((suffix_of_skipSpace hskip).trans hds)
      next => cases h
    · unfold readMembers at h
      split at h
      next ds =>
        obtain ⟨⟨k, es⟩, hkey, h⟩ := Option.bind_eq_some_iff.mp h
        have hes := (readString_suffix hkey).trans (List.suffix_cons '\x22' ds)
        dsimp only at h
        split at h
        next fs hskip =>
          obtain ⟨⟨v, gs⟩, hread, h⟩ := Option.bind_eq_some_iff.mp h
          have hgs := ((hvalue _ _ hread).trans (skipSpace_suffix fs)).trans
            ((suffix_of_skipSpace hskip).trans hes)
          dsimp only at h
          split at h
          next hs hskip' =>
            obtain rfl := Option.some.inj h
            exact (suffix_of_skipSpace hskip').trans hgs
          next hs hskip' =>
            obtain ⟨⟨ms, is⟩, hrest, h⟩ := Option.bind_eq_some_iff.mp h
            obtain rfl := Option.some.inj h
            exact ((hmembers _ _ hrest).trans (skipSpace_suffix hs)).trans
              ((suffix_of_skipSpace hskip').trans hgs)
          next => cases h
        next => cases h
      next => cases h

/-- **More fuel changes nothing**: two for each character, and one or two more, are enough. -/
theorem read_fuel (float : List Char → Json) (fuel : ℕ) :
    (∀ cs, 2 * cs.length < fuel → readValue float (fuel + 1) cs = readValue float fuel cs) ∧
      (∀ cs, 2 * cs.length + 1 < fuel →
        readItems float (fuel + 1) cs = readItems float fuel cs) ∧
      ∀ cs, 2 * cs.length + 1 < fuel →
        readMembers float (fuel + 1) cs = readMembers float fuel cs := by
  induction fuel with
  | zero => exact ⟨fun _ h ↦ by omega, fun _ h ↦ by omega, fun _ h ↦ by omega⟩
  | succ fuel ih =>
    obtain ⟨hvalue, hitems, hmembers⟩ := ih
    obtain ⟨hvalue', hitems', hmembers'⟩ := read_suffix float fuel
    refine ⟨fun cs h ↦ ?_, fun cs h ↦ ?_, fun cs h ↦ ?_⟩
    · unfold readValue
      split
      · rfl
      next ds =>
        have hlen := (skipSpace_suffix ds).length_le
        rw [List.length_cons] at h
        split
        · rfl
        · rw [hitems _ (by omega)]
      next ds =>
        have hlen := (skipSpace_suffix ds).length_le
        rw [List.length_cons] at h
        split
        · rfl
        · rw [hmembers _ (by omega)]
      · rfl
    · rw [readItems, readItems, hvalue cs (by omega)]
      refine Option.bind_congr fun ⟨v, ds⟩ hread ↦ ?_
      have hds : ds.length ≤ cs.length := (hvalue' _ _ hread).length_le
      dsimp only
      split
      · rfl
      next es hskip =>
        have hes := length_of_skipSpace hskip
        have hlen := (skipSpace_suffix es).length_le
        rw [hitems _ (by omega)]
      · rfl
    · unfold readMembers
      split
      next ds =>
        rw [List.length_cons] at h
        refine Option.bind_congr fun ⟨k, es⟩ hkey ↦ ?_
        have hes := (readString_suffix hkey).length_le
        dsimp only
        split
        next fs hskip =>
          have hfs := length_of_skipSpace hskip
          have hlen := (skipSpace_suffix fs).length_le
          rw [hvalue _ (by omega)]
          refine Option.bind_congr fun ⟨v, gs⟩ hread ↦ ?_
          have hgs : gs.length ≤ (skipSpace fs).length := (hvalue' _ _ hread).length_le
          dsimp only
          split
          · rfl
          next hs hskip' =>
            have hhs := length_of_skipSpace hskip'
            have hlen' := (skipSpace_suffix hs).length_le
            rw [hmembers _ (by omega)]
          · rfl
        · rfl
      · rfl

theorem readValue_of_fuel {fuel fuel' : ℕ} (h : 2 * cs.length < fuel) (hle : fuel ≤ fuel') :
    readValue float fuel' cs = readValue float fuel cs := by
  induction fuel', hle using Nat.le_induction with
  | base => rfl
  | succ n hn ih => rw [(read_fuel float n).1 cs (by omega), ih]

/-- **The fuel of `loads` is enough**: a text it does not read is not JSON. -/
theorem loads_of_fuel {text : List Char} {fuel : ℕ} (h : 2 * text.length < fuel)
    (hbom : text.head? ≠ some '\ufeff') :
    loads float text = (readValue float fuel (skipSpace text)).bind fun p ↦
      if (skipSpace p.2).isEmpty then some p.1 else none := by
  have hlen := (skipSpace_suffix text).length_le
  have hread := @readValue_of_fuel float (skipSpace text) (2 * text.length + 1) fuel (by omega)
    (by omega)
  rw [hread]
  unfold loads
  split
  · exact absurd rfl hbom
  · rfl

end Fuel

end Json

end Acheron
