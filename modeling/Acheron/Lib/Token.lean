import Mathlib.Data.List.Basic

/-!
# Delimited text

When is a text cut up in one way only? An encoding is `SelfDelimiting` if it can be read off the
front of any text that begins with it; such encodings compose. A *token*, a maximal run of
characters of some class, is delimited by what follows it: it can be read off if the rest of the
text `Stops` the class. The *words* of a text are what its separators leave.
-/

namespace Text

variable {α β χ : Type*}

/-- The encoding can be read off the front of a text. -/
def SelfDelimiting (f : α → List χ) : Prop :=
  ∀ a b xs ys, f a ++ xs = f b ++ ys → a = b ∧ xs = ys

namespace SelfDelimiting

variable {f : α → List χ} {g : β → List χ}

/-- Two encodings, one after the other. -/
theorem append (hf : SelfDelimiting f) (hg : SelfDelimiting g) :
    SelfDelimiting fun p : α × β ↦ f p.1 ++ g p.2 := by
  rintro ⟨a, b⟩ ⟨a', b'⟩ xs ys h
  dsimp only at h
  rw [List.append_assoc, List.append_assoc] at h
  obtain ⟨rfl, hmid⟩ := hf a a' _ _ h
  obtain ⟨rfl, hrest⟩ := hg b b' _ _ hmid
  exact ⟨rfl, hrest⟩

/-- A list of items, closed by a character that begins none of them. -/
theorem flatMap_append (hf : SelfDelimiting f) {stop : χ} (hstop : ∀ a, (f a).head? ≠ some stop)
    (hne : ∀ a, f a ≠ []) : SelfDelimiting fun as : List α ↦ as.flatMap f ++ [stop] := by
  have hclash : ∀ (a : α) (zs ws : List χ), f a ++ zs ≠ stop :: ws := by
    intro a zs ws h
    have hhead := congrArg List.head? h
    rw [List.head?_append_of_ne_nil _ (hne a)] at hhead
    exact hstop a hhead
  intro as
  induction as with
  | nil =>
    rintro (_ | ⟨b, bs⟩) xs ys h
    · exact ⟨rfl, List.cons.inj h |>.2⟩
    · refine absurd h.symm ?_
      simpa using hclash b _ _
  | cons a as ih =>
    rintro (_ | ⟨b, bs⟩) xs ys h
    · refine absurd h ?_
      simpa using hclash a _ _
    · simp only [List.flatMap_cons, List.append_assoc] at h
      obtain ⟨rfl, htail⟩ := hf a b _ _ h
      obtain ⟨rfl, hrest⟩ := ih bs xs ys (by simpa using htail)
      exact ⟨rfl, hrest⟩

end SelfDelimiting

/-- The text does not go on with a character of the class. -/
def Stops (p : χ → Bool) (xs : List χ) : Prop := ∀ x ∈ xs.head?, p x = false

/-- A token is delimited by a text that stops its class. -/
theorem token_append {p : χ → Bool} {ts us xs ys : List χ} (hts : ∀ t ∈ ts, p t = true)
    (hus : ∀ u ∈ us, p u = true) (hxs : Stops p xs) (hys : Stops p ys)
    (h : ts ++ xs = us ++ ys) : ts = us ∧ xs = ys := by
  induction ts generalizing us with
  | nil =>
    cases us with
    | nil => exact ⟨rfl, h⟩
    | cons u us =>
      have hstop : p u = false := hxs u (by rw [List.nil_append] at h; rw [h]; rfl)
      rw [hus u List.mem_cons_self] at hstop
      exact absurd hstop (by decide)
  | cons t ts ih =>
    cases us with
    | nil =>
      have hstop : p t = false := hys t (by rw [List.nil_append] at h; rw [← h]; rfl)
      rw [hts t List.mem_cons_self] at hstop
      exact absurd hstop (by decide)
    | cons u us =>
      obtain ⟨rfl, htail⟩ := List.cons.inj h
      obtain ⟨rfl, hrest⟩ := ih (fun x hx ↦ hts x (List.mem_cons_of_mem _ hx))
        (fun x hx ↦ hus x (List.mem_cons_of_mem _ hx)) htail
      exact ⟨rfl, hrest⟩

/-- Reading a token takes all of it. -/
theorem takeWhile_token {p : χ → Bool} {ts xs : List χ} (hts : ∀ t ∈ ts, p t = true)
    (hxs : Stops p xs) : (ts ++ xs).takeWhile p = ts := by
  rw [List.takeWhile_append_of_pos hts]
  cases xs with
  | nil => exact List.append_nil ts
  | cons x xs => rw [List.takeWhile_cons_of_neg (by simp [hxs x rfl]), List.append_nil]

/-- Reading a token leaves what follows it. -/
theorem dropWhile_token {p : χ → Bool} {ts xs : List χ} (hts : ∀ t ∈ ts, p t = true)
    (hxs : Stops p xs) : (ts ++ xs).dropWhile p = xs := by
  rw [List.dropWhile_append_of_pos hts]
  cases xs with
  | nil => rfl
  | cons x xs => exact List.dropWhile_cons_of_neg (by simp [hxs x rfl])

/-- A text that stops a class stops every smaller one. -/
theorem Stops.mono {p q : χ → Bool} {xs : List χ} (h : Stops q xs)
    (hpq : ∀ x, p x = true → q x = true) : Stops p xs := by
  intro x hx
  by_contra hp
  rw [Bool.not_eq_false] at hp
  exact absurd (hpq x hp) (by simp [h x hx])

/-! ## Words -/

/-- The words of a text: what stands between its separators, if anything does. -/
def words (p : χ → Bool) (xs : List χ) : List (List χ) :=
  (xs.splitOnP p).filter fun w ↦ !w.isEmpty

theorem words_nil {p : χ → Bool} : words p [] = [] := rfl

/-- A separator is part of no word, and no word goes across it. -/
theorem words_append_cons {p : χ → Bool} {sep : χ} (hsep : p sep = true) (xs ys : List χ) :
    words p (xs ++ sep :: ys) = words p xs ++ words p ys := by
  rw [words, List.splitOnP_append_cons xs ys hsep, List.filter_append, words, words]

/-- **Joining texts joins their words**, whatever separators the texts hold themselves. -/
theorem words_intercalate {p : χ → Bool} {sep : χ} (hsep : p sep = true) (ls : List (List χ)) :
    words p ([sep].intercalate ls) = ls.flatMap (words p) := by
  induction ls with
  | nil => exact words_nil
  | cons l ls ih =>
    cases ls with
    | nil => rw [List.intercalate_singleton, List.flatMap_singleton]
    | cons l' ls =>
      rw [List.intercalate_cons_cons, List.append_assoc, List.singleton_append,
        words_append_cons hsep, ih]
      exact List.flatMap_cons.symm

end Text
