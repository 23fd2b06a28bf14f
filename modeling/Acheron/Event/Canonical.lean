import Mathlib.Data.List.Sort
import Mathlib.Data.String.Basic
import Mathlib.Tactic.Common
import Acheron.Event.Json
import Acheron.Lib.Token

/-!
# Canonical JSON text

`json.dumps` with its default `ensure_ascii` and the separators `","` and `":"`. The text of a value
determines it, whatever follows: a string is closed by a quote, an array or an object by its
bracket, and every other value is a token that ends with the next separator.

`sort_keys` sorts the members of every object first. Two values have the same sorted form exactly
when they are the `Same` up to the order of members, which is when Python calls them equal.
-/

namespace Acheron

open Text

/-! ## Strings -/

/-- `ESCAPE_DCT`. -/
def shortEscapes : List (Char × Char) :=
  [('\x5c', '\x5c'), ('\x22', '\x22'), ('\x08', 'b'), ('\x0c', 'f'), ('\n', 'n'), ('\r', 'r'),
    ('\t', 't')]

/-- A hexadecimal digit. -/
def hexDigit (n : ℕ) : Char := Nat.digitChar (n % 16)

/-- The four-digit escape of a UTF-16 code unit. -/
def unicodeEscape (n : ℕ) : List Char :=
  ['\x5c', 'u', hexDigit (n / 4096), hexDigit (n / 256), hexDigit (n / 16), hexDigit n]

/-- One character of `py_encode_basestring_ascii`. -/
def escapeChar (c : Char) : List Char :=
  match shortEscapes.lookup c with
  | some d => ['\x5c', d]
  | none =>
    if 32 ≤ c.toNat ∧ c.toNat ≤ 126 then [c]
    else if c.toNat < 65536 then unicodeEscape c.toNat
    else
      -- A surrogate pair.
      unicodeEscape (55296 + (c.toNat - 65536) / 1024)
        ++ unicodeEscape (56320 + (c.toNat - 65536) % 1024)

/-- `py_encode_basestring_ascii`. -/
def encodeString (s : String) : List Char :=
  '\x22' :: (s.toList.flatMap escapeChar ++ ['\x22'])

theorem hexDigit_inj {m n : ℕ} : hexDigit m = hexDigit n ↔ m % 16 = n % 16 := by
  have hall : ∀ a b : Fin 16, Nat.digitChar a = Nat.digitChar b → a = b := by decide
  constructor
  · intro h
    have hfin := hall ⟨m % 16, Nat.mod_lt _ (by decide)⟩ ⟨n % 16, Nat.mod_lt _ (by decide)⟩ h
    exact congrArg Fin.val hfin
  · intro h
    rw [hexDigit, hexDigit, h]

theorem unicodeEscape_append {m n : ℕ} {xs ys : List Char}
    (h : unicodeEscape m ++ xs = unicodeEscape n ++ ys) : m % 65536 = n % 65536 ∧ xs = ys := by
  simp only [unicodeEscape, List.cons_append, List.nil_append, List.cons.injEq, hexDigit_inj,
    true_and] at h
  obtain ⟨h₁, h₂, h₃, h₄, hrest⟩ := h
  exact ⟨by omega, hrest⟩

theorem not_surrogate (c : Char) : c.toNat < 55296 ∨ 57343 < c.toNat ∧ c.toNat < 1114112 := by
  rcases c.valid with h | ⟨h, h'⟩
  · exact Or.inl h
  · exact Or.inr ⟨h, h'⟩

theorem mem_of_lookup {α β : Type} [BEq α] [LawfulBEq α] {l : List (α × β)} {k : α} {b : β}
    (h : l.lookup k = some b) : (k, b) ∈ l := by
  obtain ⟨l₁, l₂, rfl, -⟩ := List.lookup_eq_some_iff.mp h
  exact List.mem_append_right _ List.mem_cons_self

/-- The four ways to write a character. -/
theorem escapeChar_cases (c : Char) :
    (escapeChar c = [c] ∧ c ≠ '\x5c' ∧ c ≠ '\x22') ∨
      (∃ d, escapeChar c = ['\x5c', d] ∧ (c, d) ∈ shortEscapes) ∨
      (escapeChar c = unicodeEscape c.toNat ∧ c.toNat < 65536) ∨
      (escapeChar c = unicodeEscape (55296 + (c.toNat - 65536) / 1024)
        ++ unicodeEscape (56320 + (c.toNat - 65536) % 1024) ∧ 65536 ≤ c.toNat) := by
  unfold escapeChar
  cases hlookup : shortEscapes.lookup c with
  | some d => exact Or.inr (Or.inl ⟨d, rfl, mem_of_lookup hlookup⟩)
  | none =>
    have hshort : c ≠ '\x5c' ∧ c ≠ '\x22' := by
      rw [List.lookup_eq_none_iff] at hlookup
      have hback := hlookup ('\x5c', '\x5c') (by decide)
      have hquote := hlookup ('\x22', '\x22') (by decide)
      exact ⟨by simpa using hback, by simpa using hquote⟩
    by_cases hplain : 32 ≤ c.toNat ∧ c.toNat ≤ 126
    · exact Or.inl ⟨if_pos hplain, hshort⟩
    · by_cases hbmp : c.toNat < 65536
      · exact Or.inr (Or.inr (Or.inl ⟨(if_neg hplain).trans (if_pos hbmp), hbmp⟩))
      · exact Or.inr (Or.inr (Or.inr ⟨(if_neg hplain).trans (if_neg hbmp), not_lt.mp hbmp⟩))

/-- No escape of a code unit is a short escape, and no two short escapes are the same. -/
theorem shortEscapes_spec : (∀ p ∈ shortEscapes, p.2 ≠ 'u') ∧
    ∀ p ∈ shortEscapes, ∀ q ∈ shortEscapes, p.2 = q.2 → p = q := by
  decide

theorem selfDelimiting_escapeChar : SelfDelimiting escapeChar := by
  obtain ⟨hu, hinj⟩ := shortEscapes_spec
  intro a b xs ys h
  have hsa := not_surrogate a
  have hsb := not_surrogate b
  rcases escapeChar_cases a with ⟨ha, hna, -⟩ | ⟨d, ha, hd⟩ | ⟨ha, hbmp⟩ | ⟨ha, hpair⟩
  · rcases escapeChar_cases b with ⟨hb, -, -⟩ | ⟨e, hb, -⟩ | ⟨hb, -⟩ | ⟨hb, -⟩
    · rw [ha, hb] at h
      exact List.cons.inj h
    all_goals
      rw [ha, hb] at h
      exact absurd (List.cons.inj h).1 hna
  · rcases escapeChar_cases b with ⟨hb, hnb, -⟩ | ⟨e, hb, he⟩ | ⟨hb, -⟩ | ⟨hb, -⟩
    · rw [ha, hb] at h
      exact absurd (List.cons.inj h).1.symm hnb
    · rw [ha, hb] at h
      obtain ⟨rfl, hrest⟩ := List.cons.inj (List.cons.inj h).2
      exact ⟨(Prod.mk.inj (hinj _ hd _ he rfl)).1, hrest⟩
    all_goals
      rw [ha, hb] at h
      exact absurd (List.cons.inj (List.cons.inj h).2).1 (hu _ hd)
  · rcases escapeChar_cases b with ⟨hb, hnb, -⟩ | ⟨e, hb, he⟩ | ⟨hb, hbmp'⟩ | ⟨hb, hpair'⟩
    · rw [ha, hb] at h
      exact absurd (List.cons.inj h).1.symm hnb
    · rw [ha, hb] at h
      exact absurd (List.cons.inj (List.cons.inj h).2).1.symm (hu _ he)
    · rw [ha, hb] at h
      obtain ⟨hunit, hrest⟩ := unicodeEscape_append h
      exact ⟨Char.toNat_inj.mp (by omega), hrest⟩
    · rw [ha, hb, List.append_assoc] at h
      have hunit := (unicodeEscape_append h).1
      omega
  · rcases escapeChar_cases b with ⟨hb, hnb, -⟩ | ⟨e, hb, he⟩ | ⟨hb, hbmp'⟩ | ⟨hb, hpair'⟩
    · rw [ha, hb] at h
      exact absurd (List.cons.inj h).1.symm hnb
    · rw [ha, hb] at h
      exact absurd (List.cons.inj (List.cons.inj h).2).1.symm (hu _ he)
    · rw [ha, hb, List.append_assoc] at h
      have hunit := (unicodeEscape_append h).1
      omega
    · rw [ha, hb, List.append_assoc, List.append_assoc] at h
      obtain ⟨hhigh, hlow⟩ := unicodeEscape_append h
      obtain ⟨hlow, hrest⟩ := unicodeEscape_append hlow
      exact ⟨Char.toNat_inj.mp (by omega), hrest⟩

theorem head?_escapeChar (c : Char) : (escapeChar c).head? ≠ some '\x22' := by
  rcases escapeChar_cases c with ⟨hc, -, hq⟩ | ⟨d, hc, -⟩ | ⟨hc, -⟩ | ⟨hc, -⟩
  · rw [hc]
    simpa using hq
  all_goals
    rw [hc]
    exact fun h ↦ absurd (Option.some.inj h) (by decide)

theorem escapeChar_ne_nil (c : Char) : escapeChar c ≠ [] := by
  rcases escapeChar_cases c with ⟨hc, -⟩ | ⟨d, hc, -⟩ | ⟨hc, -⟩ | ⟨hc, -⟩ <;>
    exact hc ▸ List.cons_ne_nil _ _

theorem encodeString_append {s t : String} {xs ys : List Char}
    (h : encodeString s ++ xs = encodeString t ++ ys) : s = t ∧ xs = ys := by
  have hchars := selfDelimiting_escapeChar.flatMap_append head?_escapeChar escapeChar_ne_nil
    s.toList t.toList xs ys (List.cons.inj h).2
  exact ⟨String.toList_inj.mp hchars.1, hchars.2⟩

/-! ## Scalars -/

/-- `int.__repr__`. -/
def intText : ℤ → List Char
  | .ofNat n => Nat.toDigits 10 n
  | .negSucc n => '-' :: Nat.toDigits 10 (n + 1)

/-- The text of a value that is neither a string, an array nor an object. -/
def Json.scalarText : Json → Option (List Char)
  | .null => some ['n', 'u', 'l', 'l']
  | .bool true => some ['t', 'r', 'u', 'e']
  | .bool false => some ['f', 'a', 'l', 's', 'e']
  | .int n => some (intText n)
  | .float x => some x.text.toList
  | .nonFinite .nan => some ['N', 'a', 'N']
  | .nonFinite .infinity => some ['I', 'n', 'f', 'i', 'n', 'i', 't', 'y']
  | .nonFinite .negInfinity => some ['-', 'I', 'n', 'f', 'i', 'n', 'i', 't', 'y']
  | .str _ | .arr _ | .obj _ => none

/-- A character that occurs in the text of a scalar. -/
def isTokenChar (c : Char) : Bool := !(List.contains ['\x22', '[', '{', ',', ']', '}'] c)

theorem toDigits_injective {m n : ℕ} (h : Nat.toDigits 10 m = Nat.toDigits 10 n) : m = n := by
  have hread := congrArg (Nat.ofDigitChars 10 · 0) h
  rwa [Nat.ofDigitChars_ten_toDigits, Nat.ofDigitChars_ten_toDigits] at hread

theorem isDigit_of_mem_toDigits {n : ℕ} {c : Char} (h : c ∈ Nat.toDigits 10 n) :
    c.isDigit = true :=
  Nat.isDigit_of_mem_toDigits (by decide) le_rfl h

theorem intText_injective {m n : ℤ} (h : intText m = intText n) : m = n := by
  match m, n with
  | .ofNat m, .ofNat n => rw [toDigits_injective h]
  | .negSucc m, .negSucc n =>
    have hdigits := toDigits_injective (List.cons.inj h).2
    rw [Nat.succ.inj hdigits]
  | .ofNat m, .negSucc n =>
    have hminus : '-' ∈ intText (.ofNat m) := h ▸ List.mem_cons_self
    exact absurd (isDigit_of_mem_toDigits hminus) (by decide)
  | .negSucc m, .ofNat n =>
    have hminus : '-' ∈ intText (.ofNat n) := h ▸ List.mem_cons_self
    exact absurd (isDigit_of_mem_toDigits hminus) (by decide)

theorem intText_chars {n : ℤ} {c : Char} (h : c ∈ intText n) : c.isDigit = true ∨ c = '-' := by
  match n with
  | .ofNat n => exact Or.inl (isDigit_of_mem_toDigits h)
  | .negSucc n => exact (List.mem_cons.mp h).symm.imp_left isDigit_of_mem_toDigits

theorem intText_ne_nil (n : ℤ) : intText n ≠ [] := by
  match n with
  | .ofNat n => exact Nat.toDigits_ne_nil
  | .negSucc n => exact List.cons_ne_nil _ _

/-- The values with a fixed text. -/
def Json.literals : List (Json × List Char) :=
  [(.null, ['n', 'u', 'l', 'l']), (.bool true, ['t', 'r', 'u', 'e']),
    (.bool false, ['f', 'a', 'l', 's', 'e']), (.nonFinite .nan, ['N', 'a', 'N']),
    (.nonFinite .infinity, ['I', 'n', 'f', 'i', 'n', 'i', 't', 'y']),
    (.nonFinite .negInfinity, ['-', 'I', 'n', 'f', 'i', 'n', 'i', 't', 'y'])]

namespace Json

/-- A scalar is a literal, an integer or a float. -/
theorem scalarText_cases {v : Json} {ts : List Char} (h : v.scalarText = some ts) :
    (v, ts) ∈ literals ∨ (∃ n, v = .int n ∧ ts = intText n) ∨
      ∃ x, v = .float x ∧ ts = x.text.toList := by
  match v with
  | .int n => exact Or.inr (Or.inl ⟨n, rfl, (Option.some.inj h).symm⟩)
  | .float x => exact Or.inr (Or.inr ⟨x, rfl, (Option.some.inj h).symm⟩)
  | .str _ | .arr _ | .obj _ => exact absurd h (by simp [scalarText])
  | .null | .bool true | .bool false | .nonFinite .nan | .nonFinite .infinity
  | .nonFinite .negInfinity =>
    obtain rfl := Option.some.inj h
    exact Or.inl (by simp [literals])

/-- A literal has a character that no number has. -/
theorem exists_of_mem_literals {p : Json × List Char} (h : p ∈ literals) :
    ∃ c ∈ p.2, isFloatChar c = false := by
  have hall : ∀ p ∈ literals, (p.2.any fun c ↦ !isFloatChar c) = true := by decide
  obtain ⟨c, hc, hfloat⟩ := List.any_eq_true.mp (hall p h)
  exact ⟨c, hc, by simpa using hfloat⟩

theorem isFloatChar_of_mem_intText {n : ℤ} {c : Char} (h : c ∈ intText n) :
    isFloatChar c = true := by
  rcases intText_chars h with hdigit | rfl
  · simp [isFloatChar, hdigit]
  · decide

theorem isFloatChar_of_mem_text {x : FloatText} {c : Char} (h : c ∈ x.text.toList) :
    isFloatChar c = true :=
  List.all_eq_true.mp x.chars c h

/-- An integer has neither a point nor an exponent. -/
theorem intText_ne_text (n : ℤ) (x : FloatText) : intText n ≠ x.text.toList := by
  intro h
  obtain ⟨c, hc, hmark⟩ := List.any_eq_true.mp x.marked
  rw [← h] at hc
  rcases intText_chars hc with hdigit | rfl
  · rcases (by simpa using hmark : c = '.' ∨ c = 'e') with rfl | rfl
    · exact absurd hdigit (by decide)
    · exact absurd hdigit (by decide)
  · exact absurd hmark (by decide)

theorem scalarText_injective {v w : Json} {ts : List Char} (hv : v.scalarText = some ts)
    (hw : w.scalarText = some ts) : v = w := by
  have hnumber {u : Json} (hu : (u, ts) ∈ literals) (h : ∀ c ∈ ts, isFloatChar c = true) :
      False := by
    obtain ⟨c, hc, hfloat⟩ := exists_of_mem_literals hu
    exact absurd (h c hc) (by simp [hfloat])
  rcases scalarText_cases hv with hv | ⟨m, rfl, hm⟩ | ⟨x, rfl, hx⟩
  · rcases scalarText_cases hw with hw | ⟨n, rfl, hn⟩ | ⟨y, rfl, hy⟩
    · have hinj : ∀ p ∈ literals, ∀ q ∈ literals, p.2 = q.2 → p.1 = q.1 := by simp [literals]
      exact hinj _ hv _ hw rfl
    · exact (hnumber hv fun c hc ↦ isFloatChar_of_mem_intText (hn ▸ hc)).elim
    · exact (hnumber hv fun c hc ↦ isFloatChar_of_mem_text (hy ▸ hc)).elim
  · rcases scalarText_cases hw with hw | ⟨n, rfl, hn⟩ | ⟨y, rfl, hy⟩
    · exact (hnumber hw fun c hc ↦ isFloatChar_of_mem_intText (hm ▸ hc)).elim
    · rw [intText_injective (hm.symm.trans hn)]
    · exact absurd (hm.symm.trans hy) (intText_ne_text m y)
  · rcases scalarText_cases hw with hw | ⟨n, rfl, hn⟩ | ⟨y, rfl, hy⟩
    · exact (hnumber hw fun c hc ↦ isFloatChar_of_mem_text (hx ▸ hc)).elim
    · exact absurd (hn.symm.trans hx) (intText_ne_text n x)
    · obtain ⟨s, _, _⟩ := x
      obtain ⟨t, _, _⟩ := y
      obtain rfl : s = t := String.toList_inj.mp (hx.symm.trans hy)
      rfl

/-- The text of a scalar is a token. -/
theorem scalarText_token {v : Json} {ts : List Char} (h : v.scalarText = some ts) :
    ts ≠ [] ∧ ∀ c ∈ ts, isTokenChar c = true := by
  have hfloat {c : Char} (hc : isFloatChar c = true) : isTokenChar c = true := by
    by_contra hnot
    rw [Bool.not_eq_true, isTokenChar, Bool.not_eq_false'] at hnot
    have hmem := List.contains_iff_mem.mp hnot
    have hall : ∀ c ∈ ['\x22', '[', '{', ',', ']', '}'], isFloatChar c = false := by
      simp [isFloatChar]
    exact absurd hc (by simp [hall c hmem])
  rcases scalarText_cases h with hlit | ⟨n, -, rfl⟩ | ⟨x, -, rfl⟩
  · have hall : ∀ p ∈ literals, p.2 ≠ [] ∧ ∀ c ∈ p.2, isTokenChar c = true := by
      simp [literals, isTokenChar]
    exact hall _ hlit
  · exact ⟨intText_ne_nil n, fun c hc ↦ hfloat (isFloatChar_of_mem_intText hc)⟩
  · refine ⟨fun hnil ↦ ?_, fun c hc ↦ hfloat (isFloatChar_of_mem_text hc)⟩
    exact absurd x.marked (by simp [hnil])

/-! ## Values -/

mutual

/-- `json.dumps`. -/
def render : Json → List Char
  | .str s => encodeString s
  | .arr items => '[' :: renderItems [] items
  | .obj members => '{' :: renderMembers [] members
  | v => v.scalarText.getD []

/-- The items of an array, the next one preceded by `sep`, and its closing bracket. -/
def renderItems (sep : List Char) : List Json → List Char
  | [] => [']']
  | v :: vs => sep ++ (v.render ++ renderItems [','] vs)

/-- The members of an object, the next one preceded by `sep`, and its closing bracket. -/
def renderMembers (sep : List Char) : List (String × Json) → List Char
  | [] => ['}']
  | (k, v) :: ms => sep ++ (encodeString k ++ (':' :: (v.render ++ renderMembers [','] ms)))

end

/-- The character that tells a value's kind; `none` for a scalar. -/
def opening : Json → Option Char
  | .str _ => some '\x22'
  | .arr _ => some '['
  | .obj _ => some '{'
  | _ => none

/-- A text begins with a token character or with the character of its kind. -/
theorem render_head (v : Json) : ∃ c cs, v.render = c :: cs ∧
    (v.opening = some c ∧ isTokenChar c = false ∨
      v.opening = none ∧ v.scalarText = some (c :: cs) ∧ isTokenChar c = true) := by
  have hscalar {v : Json} {ts : List Char} (h : v.scalarText = some ts) (hrender : v.render = ts)
      (hopen : v.opening = none) : ∃ c cs, v.render = c :: cs ∧
        (v.opening = some c ∧ isTokenChar c = false ∨
          v.opening = none ∧ v.scalarText = some (c :: cs) ∧ isTokenChar c = true) := by
    obtain ⟨hne, htoken⟩ := scalarText_token h
    obtain ⟨c, cs, rfl⟩ := List.exists_cons_of_ne_nil hne
    exact ⟨c, cs, hrender, Or.inr ⟨hopen, h, htoken c List.mem_cons_self⟩⟩
  match v with
  | .str s => exact ⟨_, _, rfl, Or.inl ⟨rfl, by decide⟩⟩
  | .arr items => exact ⟨_, _, rfl, Or.inl ⟨rfl, by decide⟩⟩
  | .obj members => exact ⟨_, _, rfl, Or.inl ⟨rfl, by decide⟩⟩
  | .null | .bool true | .bool false | .int _ | .float _ | .nonFinite .nan
  | .nonFinite .infinity | .nonFinite .negInfinity =>
    exact hscalar rfl (by simp [render, scalarText]) rfl

/-- What follows a value in a text: nothing, a separator, or a closing bracket. -/
abbrev Ends (xs : List Char) : Prop := Stops isTokenChar xs

theorem ends_cons {c : Char} {xs : List Char} (h : isTokenChar c = false) : Ends (c :: xs) := by
  intro x hx
  obtain rfl := Option.some.inj hx
  exact h

theorem ends_renderItems (vs : List Json) (xs : List Char) :
    Ends (renderItems [','] vs ++ xs) := by
  cases vs with
  | nil => exact ends_cons (by decide)
  | cons v vs => exact ends_cons (by decide)

theorem ends_renderMembers (ms : List (String × Json)) (xs : List Char) :
    Ends (renderMembers [','] ms ++ xs) := by
  cases ms with
  | nil => exact ends_cons (by decide)
  | cons m ms => exact ends_cons (by decide)

/-- The beginning of a text tells the kind of the value. -/
theorem opening_eq {v w : Json} {xs ys : List Char} (h : v.render ++ xs = w.render ++ ys) :
    v.opening = w.opening := by
  obtain ⟨c, cs, hv, hvc⟩ := render_head v
  obtain ⟨d, ds, hw, hwd⟩ := render_head w
  rw [hv, hw] at h
  obtain rfl : c = d := (List.cons.inj h).1
  rcases hvc with ⟨hv, hc⟩ | ⟨hv, -, hc⟩
  · rcases hwd with ⟨hw, -⟩ | ⟨-, -, hc'⟩
    · rw [hv, hw]
    · exact absurd (hc.symm.trans hc') (by decide)
  · rcases hwd with ⟨-, hc'⟩ | ⟨hw, -⟩
    · exact absurd (hc.symm.trans hc') (by decide)
    · rw [hv, hw]

theorem exists_str {v : Json} (h : v.opening = some '\x22') : ∃ s, v = .str s := by
  match v with
  | .str s => exact ⟨s, rfl⟩
  | .arr _ | .obj _ => exact absurd (Option.some.inj h) (by decide)
  | .null | .bool _ | .int _ | .float _ | .nonFinite _ => exact absurd h (by simp [opening])

theorem exists_arr {v : Json} (h : v.opening = some '[') : ∃ vs, v = .arr vs := by
  match v with
  | .arr vs => exact ⟨vs, rfl⟩
  | .str _ | .obj _ => exact absurd (Option.some.inj h) (by decide)
  | .null | .bool _ | .int _ | .float _ | .nonFinite _ => exact absurd h (by simp [opening])

theorem exists_obj {v : Json} (h : v.opening = some '{') : ∃ ms, v = .obj ms := by
  match v with
  | .obj ms => exact ⟨ms, rfl⟩
  | .str _ | .arr _ => exact absurd (Option.some.inj h) (by decide)
  | .null | .bool _ | .int _ | .float _ | .nonFinite _ => exact absurd h (by simp [opening])

theorem scalar_append {v w : Json} {xs ys : List Char} (hv : v.opening = none) (hxs : Ends xs)
    (hys : Ends ys) (h : v.render ++ xs = w.render ++ ys) : v = w ∧ xs = ys := by
  have hw : w.opening = none := (opening_eq h).symm.trans hv
  obtain ⟨c, cs, hvr, ⟨hv', -⟩ | ⟨-, hvs, -⟩⟩ := render_head v
  · exact absurd (hv.symm.trans hv') (by simp)
  obtain ⟨d, ds, hwr, ⟨hw', -⟩ | ⟨-, hws, -⟩⟩ := render_head w
  · exact absurd (hw.symm.trans hw') (by simp)
  rw [hvr, hwr] at h
  obtain ⟨htext, hrest⟩ := token_append (scalarText_token hvs).2 (scalarText_token hws).2 hxs hys h
  exact ⟨scalarText_injective hvs (htext ▸ hws), hrest⟩

theorem head?_render (v : Json) (xs : List Char) :
    (v.render ++ xs).head? ≠ some ']' := by
  obtain ⟨c, cs, hv, hc⟩ := render_head v
  rw [hv]
  rintro hhead
  obtain rfl : c = ']' := Option.some.inj hhead
  rcases hc with ⟨hopen, -⟩ | ⟨-, -, htoken⟩
  · match v with
    | .str _ | .arr _ | .obj _ => exact absurd (Option.some.inj hopen) (by decide)
    | .null | .bool _ | .int _ | .float _ | .nonFinite _ => exact absurd hopen (by simp [opening])
  · exact absurd htoken (by decide)

/-- What may precede an item or a member. -/
def Separator (sep : List Char) : Prop := sep = [] ∨ sep = [',']

/-- The first item of an array is not the closing bracket. -/
theorem renderItems_ne {sep : List Char} (hsep : Separator sep) (v : Json) (xs ys : List Char) :
    ']' :: xs ≠ sep ++ (v.render ++ ys) := by
  intro h
  rcases hsep with rfl | rfl
  · exact head?_render v ys ((congrArg List.head? h).symm)
  · exact absurd (List.cons.inj h).1 (by decide)

theorem renderMembers_ne {sep : List Char} (hsep : Separator sep) (k : String)
    (xs ys : List Char) : '}' :: xs ≠ sep ++ (encodeString k ++ ys) := by
  intro h
  rcases hsep with rfl | rfl <;> exact absurd (List.cons.inj h).1 (by decide)

mutual

/-- **The text of a value determines it**, whatever follows. -/
theorem render_append : ∀ (v w : Json) {xs ys : List Char}, Ends xs → Ends ys →
    v.render ++ xs = w.render ++ ys → v = w ∧ xs = ys
  | .str s, w, xs, ys, _, _, h => by
    obtain ⟨t, rfl⟩ := exists_str (opening_eq h).symm
    obtain ⟨rfl, hrest⟩ := encodeString_append h
    exact ⟨rfl, hrest⟩
  | .arr vs, w, xs, ys, _, _, h => by
    obtain ⟨ws, rfl⟩ := exists_arr (opening_eq h).symm
    obtain ⟨rfl, hrest⟩ := renderItems_append vs ws (Or.inl rfl) (List.cons.inj h).2
    exact ⟨rfl, hrest⟩
  | .obj ms, w, xs, ys, _, _, h => by
    obtain ⟨ns, rfl⟩ := exists_obj (opening_eq h).symm
    obtain ⟨rfl, hrest⟩ := renderMembers_append ms ns (Or.inl rfl) (List.cons.inj h).2
    exact ⟨rfl, hrest⟩
  | .null, w, xs, ys, hxs, hys, h => scalar_append rfl hxs hys h
  | .bool b, w, xs, ys, hxs, hys, h => scalar_append rfl hxs hys h
  | .int n, w, xs, ys, hxs, hys, h => scalar_append rfl hxs hys h
  | .float x, w, xs, ys, hxs, hys, h => scalar_append rfl hxs hys h
  | .nonFinite x, w, xs, ys, hxs, hys, h => scalar_append rfl hxs hys h

theorem renderItems_append : ∀ (vs ws : List Json) {sep xs ys : List Char}, Separator sep →
    renderItems sep vs ++ xs = renderItems sep ws ++ ys → vs = ws ∧ xs = ys
  | [], [], sep, xs, ys, _, h => ⟨rfl, (List.cons.inj h).2⟩
  | [], w :: ws, sep, xs, ys, hsep, h => by
    rw [renderItems, renderItems, List.append_assoc, List.append_assoc] at h
    exact absurd h (renderItems_ne hsep w _ _)
  | v :: vs, [], sep, xs, ys, hsep, h => by
    rw [renderItems, renderItems, List.append_assoc, List.append_assoc] at h
    exact absurd h.symm (renderItems_ne hsep v _ _)
  | v :: vs, w :: ws, sep, xs, ys, hsep, h => by
    rw [renderItems, renderItems] at h
    simp only [List.append_assoc, List.append_cancel_left_eq] at h
    obtain ⟨rfl, htail⟩ := render_append v w (ends_renderItems vs xs) (ends_renderItems ws ys) h
    obtain ⟨rfl, hrest⟩ := renderItems_append vs ws (Or.inr rfl) htail
    exact ⟨rfl, hrest⟩

theorem renderMembers_append : ∀ (ms ns : List (String × Json)) {sep xs ys : List Char},
    Separator sep → renderMembers sep ms ++ xs = renderMembers sep ns ++ ys → ms = ns ∧ xs = ys
  | [], [], sep, xs, ys, _, h => ⟨rfl, (List.cons.inj h).2⟩
  | [], (k, v) :: ns, sep, xs, ys, hsep, h => by
    rw [renderMembers, renderMembers, List.append_assoc, List.append_assoc] at h
    exact absurd h (renderMembers_ne hsep k _ _)
  | (k, v) :: ms, [], sep, xs, ys, hsep, h => by
    rw [renderMembers, renderMembers, List.append_assoc, List.append_assoc] at h
    exact absurd h.symm (renderMembers_ne hsep k _ _)
  | (k, v) :: ms, (l, w) :: ns, sep, xs, ys, hsep, h => by
    rw [renderMembers, renderMembers] at h
    simp only [List.append_assoc, List.append_cancel_left_eq] at h
    obtain ⟨rfl, hvalue⟩ := encodeString_append h
    simp only [List.cons_append, List.cons.injEq, true_and, List.append_assoc] at hvalue
    obtain ⟨rfl, htail⟩ :=
      render_append v w (ends_renderMembers ms xs) (ends_renderMembers ns ys) hvalue
    obtain ⟨rfl, hrest⟩ := renderMembers_append ms ns (Or.inr rfl) htail
    exact ⟨rfl, hrest⟩

end

theorem render_injective {v w : Json} (h : v.render = w.render) : v = w := by
  have hends : Ends [] := by simp [Stops]
  exact (render_append v w hends hends (congrArg (· ++ []) h)).1

/-! ## Sorted members -/

mutual

/-- The value as `sort_keys` writes it. -/
def sortKeys : Json → Json
  | .arr items => .arr (sortItems items)
  | .obj members => .obj ((sortMembers members).insertionSort fun p q ↦ p.1 ≤ q.1)
  | v => v

/-- `sortKeys` for each item of an array. -/
def sortItems : List Json → List Json
  | [] => []
  | v :: vs => v.sortKeys :: sortItems vs

/-- `sortKeys` for each member's value. -/
def sortMembers : List (String × Json) → List (String × Json)
  | [] => []
  | (k, v) :: ms => (k, v.sortKeys) :: sortMembers ms

end

/-- Equality of values up to the order of members. -/
inductive Same : Json → Json → Prop
  | refl (v : Json) : Same v v
  | symm {v w : Json} (h : Same v w) : Same w v
  | trans {u v w : Json} (h : Same u v) (h' : Same v w) : Same u w
  | item (vs : List Json) {v w : Json} (ws : List Json) (h : Same v w) :
      Same (.arr (vs ++ v :: ws)) (.arr (vs ++ w :: ws))
  | member (ms : List (String × Json)) (k : String) {v w : Json} (ns : List (String × Json))
      (h : Same v w) : Same (.obj (ms ++ (k, v) :: ns)) (.obj (ms ++ (k, w) :: ns))
  | reorder {ms ns : List (String × Json)} (h : ms.Perm ns) : Same (.obj ms) (.obj ns)

theorem mem_sortMembers {ms : List (String × Json)} {p : String × Json} :
    p ∈ sortMembers ms ↔ ∃ v, (p.1, v) ∈ ms ∧ v.sortKeys = p.2 := by
  induction ms with
  | nil => simp [sortMembers]
  | cons m ms ih =>
    obtain ⟨k, w⟩ := m
    rw [sortMembers, List.mem_cons, ih]
    constructor
    · rintro (rfl | ⟨v, hv, hp⟩)
      · exact ⟨w, List.mem_cons_self, rfl⟩
      · exact ⟨v, List.mem_cons_of_mem _ hv, hp⟩
    · rintro ⟨v, hv, hp⟩
      rcases List.mem_cons.mp hv with heq | hv
      · obtain ⟨rfl, rfl⟩ := Prod.mk.inj heq
        exact Or.inl (Prod.ext rfl hp.symm)
      · exact Or.inr ⟨v, hv, hp⟩

theorem mem_sorted {ms : List (String × Json)} {p : String × Json} :
    p ∈ ms.insertionSort (fun p q ↦ p.1 ≤ q.1) ↔ p ∈ ms :=
  (List.perm_insertionSort _ ms).mem_iff

/-- Equal sorted objects have equal members. -/
theorem exists_member_of_sortKeys_eq {ms ns : List (String × Json)}
    (h : (obj ms).sortKeys = (obj ns).sortKeys) {k : String} {v : Json} (hv : (k, v) ∈ ms) :
    ∃ w, (k, w) ∈ ns ∧ w.sortKeys = v.sortKeys := by
  rw [sortKeys, sortKeys] at h
  have hmem : (k, v.sortKeys) ∈ sortMembers ms := mem_sortMembers.mpr ⟨v, hv, rfl⟩
  rw [← mem_sorted, Json.obj.inj h, mem_sorted] at hmem
  exact mem_sortMembers.mp hmem

mutual

theorem same_sortKeys : ∀ v : Json, Same v v.sortKeys
  | .null | .bool _ | .int _ | .float _ | .nonFinite _ | .str _ => .refl _
  | .arr items => same_sortItems [] items
  | .obj members =>
    (same_sortMembers [] members).trans (.reorder (List.perm_insertionSort _ _).symm)

theorem same_sortItems : ∀ us vs : List Json, Same (.arr (us ++ vs)) (.arr (us ++ sortItems vs))
  | _, [] => .refl _
  | us, v :: vs => by
    have hrest := same_sortItems (us ++ [v.sortKeys]) vs
    rw [List.append_assoc, List.append_assoc] at hrest
    exact (Same.item us vs (same_sortKeys v)).trans hrest

theorem same_sortMembers : ∀ ls ms : List (String × Json),
    Same (.obj (ls ++ ms)) (.obj (ls ++ sortMembers ms))
  | _, [] => .refl _
  | ls, (k, v) :: ms => by
    have hrest := same_sortMembers (ls ++ [(k, v.sortKeys)]) ms
    rw [List.append_assoc, List.append_assoc] at hrest
    exact (Same.member ls k ms (same_sortKeys v)).trans hrest

end

theorem same_of_sortKeys_eq {v w : Json} (h : v.sortKeys = w.sortKeys) : Same v w :=
  (same_sortKeys v).trans (h ▸ (same_sortKeys w).symm)

/-! ## The converse

Reordering members changes nothing that sorting keeps, as long as no object has a key twice: sorted
by distinct keys, the members of two permuted objects are the same list. -/

theorem sortItems_eq_map (vs : List Json) : sortItems vs = vs.map sortKeys := by
  induction vs with
  | nil => rfl
  | cons v vs ih => rw [sortItems, ih, List.map_cons]

theorem sortMembers_eq_map (ms : List (String × Json)) :
    sortMembers ms = ms.map fun m ↦ (m.1, m.2.sortKeys) := by
  induction ms with
  | nil => rfl
  | cons m ms ih => rw [sortMembers, ih, List.map_cons]

theorem itemsKeysDistinct_eq_all (vs : List Json) :
    itemsKeysDistinct vs = vs.all keysDistinct := by
  induction vs with
  | nil => rfl
  | cons v vs ih => rw [itemsKeysDistinct, ih, List.all_cons]

theorem membersKeysDistinct_eq_all (ms : List (String × Json)) :
    membersKeysDistinct ms = ms.all fun m ↦ m.2.keysDistinct := by
  induction ms with
  | nil => rfl
  | cons m ms ih => rw [membersKeysDistinct, ih, List.all_cons]

theorem keysDistinct_obj {ms : List (String × Json)} :
    (obj ms).keysDistinct = true ↔ (ms.map Prod.fst).Nodup ∧ ∀ m ∈ ms, m.2.keysDistinct = true := by
  rw [keysDistinct, Bool.and_eq_true, decide_eq_true_iff, membersKeysDistinct_eq_all,
    List.all_eq_true]

/-- Sorted by distinct keys, permuted members are one list. -/
theorem sorted_eq_of_perm {ms ns : List (String × Json)} (h : ms.Perm ns)
    (hkeys : (ms.map Prod.fst).Nodup) :
    ms.insertionSort (fun p q ↦ p.1 ≤ q.1) = ns.insertionSort fun p q ↦ p.1 ≤ q.1 := by
  have : Std.Total fun p q : String × Json ↦ p.1 ≤ q.1 := ⟨fun p q ↦ le_total p.1 q.1⟩
  have : IsTrans (String × Json) fun p q ↦ p.1 ≤ q.1 := ⟨fun _ _ _ ↦ le_trans⟩
  have hperm : (ms.insertionSort fun p q ↦ p.1 ≤ q.1).Perm (ns.insertionSort fun p q ↦ p.1 ≤ q.1) :=
    (List.perm_insertionSort _ ms).trans (h.trans (List.perm_insertionSort _ ns).symm)
  refine List.Perm.eq_of_pairwise (fun p q hp hq hpq hqp ↦ ?_) (List.pairwise_insertionSort _ ms)
    (List.pairwise_insertionSort _ ns) hperm
  exact List.inj_on_of_nodup_map hkeys (mem_sorted.mp hp) (h.mem_iff.mpr (mem_sorted.mp hq))
    (le_antisymm hpq hqp)

/-- `Same` values have distinct keys alike. -/
theorem Same.keysDistinct_iff {v w : Json} (h : Same v w) :
    v.keysDistinct = true ↔ w.keysDistinct = true := by
  induction h with
  | refl v => exact Iff.rfl
  | symm _ ih => exact ih.symm
  | trans _ _ ih ih' => exact ih.trans ih'
  | item vs ws _ ih =>
    rw [keysDistinct, keysDistinct, itemsKeysDistinct_eq_all, itemsKeysDistinct_eq_all]
    simp [ih]
  | member ms k ns _ ih =>
    rw [keysDistinct, keysDistinct, membersKeysDistinct_eq_all, membersKeysDistinct_eq_all]
    simp only [List.map_append, List.map_cons, List.all_append, List.all_cons, Bool.and_eq_true, ih]
  | reorder h =>
    rw [keysDistinct_obj, keysDistinct_obj, (h.map Prod.fst).nodup_iff]
    exact and_congr_right fun _ ↦ forall_congr' fun m ↦ imp_congr_left h.mem_iff

/-- **Values that are the same up to the order of members are sorted to one value.** -/
theorem Same.sortKeys_eq {v w : Json} (h : Same v w) (hv : v.keysDistinct = true) :
    v.sortKeys = w.sortKeys := by
  induction h with
  | refl v => rfl
  | symm h ih => exact (ih (h.keysDistinct_iff.mpr hv)).symm
  | trans h _ ih ih' => exact (ih hv).trans (ih' (h.keysDistinct_iff.mp hv))
  | @item vs v w ws _ ih =>
    rw [keysDistinct, itemsKeysDistinct_eq_all, List.all_eq_true] at hv
    have hvw := ih (hv v (by simp))
    simp only [sortKeys, sortItems_eq_map, List.map_append, List.map_cons, hvw]
  | @member ms k v w ns _ ih =>
    have hvw := ih ((keysDistinct_obj.mp hv).2 (k, v) (by simp))
    simp only [sortKeys, sortMembers_eq_map, List.map_append, List.map_cons, hvw]
  | @reorder ms ns h =>
    have hkeys : ((ms.map fun m ↦ (m.1, m.2.sortKeys)).map Prod.fst).Nodup := by
      rw [List.map_map]
      exact (keysDistinct_obj.mp hv).1
    simp only [sortKeys, sortMembers_eq_map]
    rw [sorted_eq_of_perm (h.map _) hkeys]

theorem sortKeys_eq_iff {v w : Json} (hv : v.keysDistinct = true) :
    v.sortKeys = w.sortKeys ↔ Same v w :=
  ⟨same_of_sortKeys_eq, fun h ↦ h.sortKeys_eq hv⟩

end Json

end Acheron
