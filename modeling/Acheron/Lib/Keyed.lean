import Mathlib.Data.List.Nodup

/-!
# Collections with a unique key

A document collection in which no two documents share a key. Uniqueness is a field of the
structure, so every operation has to re-establish it and no later proof has to assume it.

`insertMany` is the unordered bulk insert of a document store: every document of the call is
attempted, a document whose key is taken is refused as a duplicate, and the environment may refuse
any other document for a reason of its own. The environment's part is the argument `refused`,
which speaks of *positions* in the call, since two documents of one call may well share a key.
-/

namespace Keyed

/-- Documents in insertion order, no two with the same key. -/
structure Collection {κ δ : Type*} (key : δ → κ) where
  /-- The documents, oldest insertion first. -/
  docs : List δ
  /-- No key occurs twice. -/
  nodup : (docs.map key).Nodup

/-- Why a bulk insert left a document out. -/
inductive Refusal where
  /-- The key is already taken. -/
  | duplicateKey
  /-- Any other write error. -/
  | other
  deriving DecidableEq

namespace Collection

variable {κ δ : Type*} {key : δ → κ}

/-- The collection with no documents. -/
def empty : Collection key := ⟨[], List.nodup_nil⟩

instance : Membership κ (Collection key) := ⟨fun c k ↦ k ∈ c.docs.map key⟩

theorem mem_def {c : Collection key} {k : κ} : k ∈ c ↔ k ∈ c.docs.map key := Iff.rfl

theorem mem_iff_exists {c : Collection key} {k : κ} : k ∈ c ↔ ∃ d ∈ c.docs, key d = k := by
  rw [mem_def, List.mem_map]

@[simp] theorem notMem_empty (k : κ) : k ∉ (empty : Collection key) := List.not_mem_nil

/-- A collection is its documents. -/
theorem eq_of_docs_eq {c c' : Collection key} (h : c.docs = c'.docs) : c = c' := by
  obtain ⟨docs, hnodup⟩ := c
  obtain ⟨docs', hnodup'⟩ := c'
  obtain rfl : docs = docs' := h
  rfl

/-- A key names at most one document. -/
theorem eq_of_key_eq {c : Collection key} {d e : δ} (hd : d ∈ c.docs) (he : e ∈ c.docs)
    (h : key d = key e) : d = e :=
  List.inj_on_of_nodup_map c.nodup hd he h

/-- Rewrite every document by a function that keeps keys. -/
def map (c : Collection key) (f : δ → δ) (hf : ∀ d, key (f d) = key d) : Collection key where
  docs := c.docs.map f
  nodup := by
    rw [List.map_map, show key ∘ f = key from funext hf]
    exact c.nodup

theorem mem_map {c : Collection key} {f : δ → δ} {hf : ∀ d, key (f d) = key d} {k : κ} :
    k ∈ c.map f hf ↔ k ∈ c := by
  rw [mem_def, map, List.map_map, show key ∘ f = key from funext hf, mem_def]

/-- Append a document whose key is free. -/
def insert (c : Collection key) (d : δ) (h : key d ∉ c) : Collection key where
  docs := c.docs ++ [d]
  nodup := by
    rw [List.map_append, List.map_singleton, ← List.concat_eq_append]
    exact List.Nodup.concat h c.nodup

theorem mem_insert {c : Collection key} {d : δ} {h : key d ∉ c} {k : κ} :
    k ∈ c.insert d h ↔ k ∈ c ∨ k = key d := by
  rw [mem_def, insert, List.map_append, List.mem_append, List.map_singleton, List.mem_singleton,
    mem_def]

variable [DecidableEq κ]

instance (k : κ) (c : Collection key) : Decidable (k ∈ c) :=
  inferInstanceAs (Decidable (k ∈ c.docs.map key))

/-- The document under a key. -/
def find? (c : Collection key) (k : κ) : Option δ := c.docs.find? fun d ↦ key d = k

theorem find?_eq_some {c : Collection key} {k : κ} {d : δ} :
    c.find? k = some d ↔ d ∈ c.docs ∧ key d = k := by
  constructor
  · intro h
    exact ⟨List.mem_of_find?_eq_some h, by simpa using List.find?_some h⟩
  · rintro ⟨hd, rfl⟩
    cases h : c.find? (key d) with
    | none => exact absurd (List.find?_eq_none.mp h d hd) (by simp)
    | some e =>
      have he : key e = key d := by simpa using List.find?_some h
      rw [eq_of_key_eq (List.mem_of_find?_eq_some h) hd he]

theorem find?_eq_none {c : Collection key} {k : κ} : c.find? k = none ↔ k ∉ c := by
  rw [mem_iff_exists, find?, List.find?_eq_none]
  simp

/-! ## The bulk insert -/

/-- The unordered bulk insert: the collection afterwards and the refusals, in call order.
`refused i` says that the environment refuses the document at position `i`. -/
def insertMany (c : Collection key) : List δ → (ℕ → Bool) → Collection key × List Refusal
  | [], _ => (c, [])
  | d :: ds, refused =>
    if refused 0 then
      let r := insertMany c ds fun i ↦ refused (i + 1)
      (r.1, .other :: r.2)
    else if h : key d ∈ c then
      let r := insertMany c ds fun i ↦ refused (i + 1)
      (r.1, .duplicateKey :: r.2)
    else insertMany (c.insert d h) ds fun i ↦ refused (i + 1)

theorem insertMany_cons_refused {c : Collection key} {d : δ} {ds : List δ} {refused : ℕ → Bool}
    (h : refused 0 = true) :
    (c.insertMany (d :: ds) refused).1 = (c.insertMany ds fun i ↦ refused (i + 1)).1 := by
  rw [insertMany, if_pos h]

theorem insertMany_cons_mem {c : Collection key} {d : δ} {ds : List δ} {refused : ℕ → Bool}
    (h : refused 0 = false) (hd : key d ∈ c) :
    (c.insertMany (d :: ds) refused).1 = (c.insertMany ds fun i ↦ refused (i + 1)).1 := by
  rw [insertMany, if_neg (by simp [h]), dif_pos hd]

theorem insertMany_cons_notMem {c : Collection key} {d : δ} {ds : List δ} {refused : ℕ → Bool}
    (h : refused 0 = false) (hd : key d ∉ c) :
    c.insertMany (d :: ds) refused = (c.insert d hd).insertMany ds fun i ↦ refused (i + 1) := by
  rw [insertMany, if_neg (by simp [h]), dif_neg hd]

/-- A bulk insert only appends. -/
theorem docs_prefix_insertMany (c : Collection key) (ds : List δ) (refused : ℕ → Bool) :
    c.docs <+: (c.insertMany ds refused).1.docs := by
  induction ds generalizing c refused with
  | nil => exact List.prefix_refl _
  | cons d ds ih =>
    cases h : refused 0 with
    | true => rw [insertMany_cons_refused h]; exact ih c _
    | false =>
      by_cases hd : key d ∈ c
      · rw [insertMany_cons_mem h hd]; exact ih c _
      · rw [insertMany_cons_notMem h hd]
        exact (List.prefix_append c.docs [d]).trans (ih (c.insert d hd) _)

theorem mem_insertMany_of_mem {c : Collection key} {ds : List δ} {refused : ℕ → Bool} {k : κ}
    (h : k ∈ c) : k ∈ (c.insertMany ds refused).1 :=
  ((docs_prefix_insertMany c ds refused).map key).subset h

/-- **What a bulk insert stores**: the old keys, and the key of each document that is not refused
by the environment. -/
theorem mem_insertMany {c : Collection key} {ds : List δ} {refused : ℕ → Bool} {k : κ} :
    k ∈ (c.insertMany ds refused).1 ↔
      k ∈ c ∨ ∃ i d, ds[i]? = some d ∧ refused i = false ∧ key d = k := by
  induction ds generalizing c refused with
  | nil => simp [insertMany]
  | cons d ds ih =>
    have hshift : (∃ i e, (d :: ds)[i]? = some e ∧ refused i = false ∧ key e = k) ↔
        (refused 0 = false ∧ key d = k) ∨
          ∃ i e, ds[i]? = some e ∧ refused (i + 1) = false ∧ key e = k := by
      constructor
      · rintro ⟨i, e, he, hr, hk⟩
        cases i with
        | zero => exact Or.inl ⟨hr, by simp at he; exact he ▸ hk⟩
        | succ i => exact Or.inr ⟨i, e, by simpa using he, hr, hk⟩
      · rintro (⟨hr, hk⟩ | ⟨i, e, he, hr, hk⟩)
        · exact ⟨0, d, rfl, hr, hk⟩
        · exact ⟨i + 1, e, by simpa using he, hr, hk⟩
    rw [hshift]
    cases h : refused 0 with
    | true => rw [insertMany_cons_refused h, ih]; simp
    | false =>
      by_cases hd : key d ∈ c
      · rw [insertMany_cons_mem h hd, ih]
        constructor
        · rintro (hc | hr)
          · exact Or.inl hc
          · exact Or.inr (Or.inr hr)
        · rintro (hc | ⟨-, rfl⟩ | hr)
          · exact Or.inl hc
          · exact Or.inl hd
          · exact Or.inr hr
      · rw [insertMany_cons_notMem h hd, ih, mem_insert, or_assoc]
        exact or_congr_right (or_congr_left ⟨fun hk ↦ ⟨rfl, hk.symm⟩, fun hk ↦ hk.2.symm⟩)

/-- Every document afterwards was there before or is one of the call. -/
theorem mem_docs_insertMany {c : Collection key} {ds : List δ} {refused : ℕ → Bool} {d : δ}
    (h : d ∈ (c.insertMany ds refused).1.docs) : d ∈ c.docs ∨ d ∈ ds := by
  induction ds generalizing c refused with
  | nil => exact Or.inl h
  | cons e ds ih =>
    cases hr : refused 0 with
    | true =>
      rw [insertMany_cons_refused hr] at h
      exact (ih h).imp_right (List.mem_cons_of_mem e)
    | false =>
      by_cases he : key e ∈ c
      · rw [insertMany_cons_mem hr he] at h
        exact (ih h).imp_right (List.mem_cons_of_mem e)
      · rw [insertMany_cons_notMem hr he] at h
        rcases ih h with hc | hds
        · rcases List.mem_append.mp hc with hc | hc
          · exact Or.inl hc
          · exact Or.inr (List.mem_cons.mpr (Or.inl (List.mem_singleton.mp hc)))
        · exact Or.inr (List.mem_cons_of_mem e hds)

/-! ## Lookups after a bulk insert

A collection is determined by its lookups, up to the order of the documents. -/

theorem perm_of_find?_eq {c c' : Collection key} (h : ∀ k, c.find? k = c'.find? k) :
    c.docs.Perm c'.docs := by
  rw [List.perm_ext_iff_of_nodup (List.Nodup.of_map key c.nodup) (List.Nodup.of_map key c'.nodup)]
  intro d
  have hlookup := h (key d)
  constructor
  · intro hd
    rw [find?_eq_some.mpr ⟨hd, rfl⟩] at hlookup
    exact (find?_eq_some.mp hlookup.symm).1
  · intro hd
    rw [find?_eq_some.mpr ⟨hd, rfl⟩] at hlookup
    exact (find?_eq_some.mp hlookup).1

theorem find?_insert {c : Collection key} {d : δ} {h : key d ∉ c} {k : κ} :
    (c.insert d h).find? k = (c.find? k).or (if key d = k then some d else none) := by
  rw [find?, insert, List.find?_append, find?, List.find?_singleton]
  simp

/-- An insert nobody interferes with keeps the old documents and, of the new ones under a free key,
stores the first. -/
theorem find?_insertMany {c : Collection key} {ds : List δ} {k : κ} :
    (c.insertMany ds fun _ ↦ false).1.find? k = (c.find? k).or (ds.find? fun d ↦ key d = k) := by
  induction ds generalizing c with
  | nil => exact (Option.or_none).symm
  | cons d ds ih =>
    by_cases hd : key d ∈ c
    · rw [insertMany_cons_mem rfl hd, ih]
      by_cases hk : key d = k
      · obtain ⟨e, he⟩ :=
          Option.ne_none_iff_exists'.mp (mt find?_eq_none.mp (not_not.mpr (hk ▸ hd)))
        rw [he, Option.some_or, Option.some_or]
      · rw [List.find?_cons_of_neg (by simpa using hk)]
    · rw [insertMany_cons_notMem rfl hd, ih, find?_insert, Option.or_assoc]
      by_cases hk : key d = k
      · rw [if_pos hk, List.find?_cons_of_pos (by simpa using hk), Option.some_or]
      · rw [if_neg hk, List.find?_cons_of_neg (by simpa using hk), Option.none_or]

/-- An insert cut off at some point is an insert of the documents before it. -/
theorem exists_insertMany_take {c : Collection key} (ds : List δ) {refused : ℕ → Bool}
    (h : ∀ i j, i ≤ j → refused i = true → refused j = true) :
    ∃ n, (c.insertMany ds refused).1 = (c.insertMany (ds.take n) fun _ ↦ false).1 ∧
      ((∀ i, refused i = true) → n = 0) := by
  induction ds generalizing c refused with
  | nil => exact ⟨0, rfl, fun _ ↦ rfl⟩
  | cons d ds ih =>
    cases hr : refused 0 with
    | true =>
      have hall (i : ℕ) : refused i = true := h 0 i (Nat.zero_le i) hr
      obtain ⟨n, hn, hzero⟩ := @ih c (fun i ↦ refused (i + 1)) fun i j _ _ ↦ hall (j + 1)
      refine ⟨0, ?_, fun _ ↦ rfl⟩
      rw [insertMany_cons_refused hr, hn, hzero fun i ↦ hall (i + 1), List.take_zero,
        List.take_zero]
    | false =>
      have hlater (i j : ℕ) (hij : i ≤ j) (hi : refused (i + 1) = true) :
          refused (j + 1) = true := h _ _ (Nat.succ_le_succ hij) hi
      have hnot (hall : ∀ i, refused i = true) {n : ℕ} : n + 1 = 0 :=
        absurd (hall 0) (by simp [hr])
      by_cases hd : key d ∈ c
      · obtain ⟨n, hn, -⟩ := @ih c (fun i ↦ refused (i + 1)) hlater
        refine ⟨n + 1, ?_, fun hall ↦ hnot hall⟩
        rw [insertMany_cons_mem hr hd, hn, List.take_succ_cons, insertMany_cons_mem rfl hd]
      · obtain ⟨n, hn, -⟩ := @ih (c.insert d hd) (fun i ↦ refused (i + 1)) hlater
        refine ⟨n + 1, ?_, fun hall ↦ hnot hall⟩
        rw [insertMany_cons_notMem hr hd, hn, List.take_succ_cons, insertMany_cons_notMem rfl hd]

/-- An insert of distinct keys, of which any part is refused, stores under each key what an insert
nobody interferes with would store, or nothing. -/
theorem find?_insertMany_or {c : Collection key} {ds : List δ} {refused : ℕ → Bool} {k : κ}
    (hds : (ds.map key).Nodup) :
    (c.insertMany ds refused).1.find? k = c.find? k ∨
      c.find? k = none ∧ (c.insertMany ds refused).1.find? k = ds.find? fun d ↦ key d = k := by
  induction ds generalizing c refused with
  | nil => exact Or.inl rfl
  | cons d ds ih =>
    obtain ⟨hfresh, hds⟩ := List.nodup_cons.mp hds
    -- If `d` has the key, nothing after it has.
    have hrest (hk : key d = k) : (ds.find? fun e ↦ key e = k) = none := by
      rw [List.find?_eq_none]
      intro e he hek
      have hkey : key e = key d := (of_decide_eq_true hek).trans hk.symm
      exact hfresh (hkey ▸ List.mem_map_of_mem he)
    cases hr : refused 0 with
    | true =>
      rw [insertMany_cons_refused hr]
      rcases @ih c (fun i ↦ refused (i + 1)) hds with hold | ⟨hnone, hnew⟩
      · exact Or.inl hold
      · by_cases hk : key d = k
        · exact Or.inl (hnew.trans ((hrest hk).trans hnone.symm))
        · exact Or.inr ⟨hnone, by rw [hnew, List.find?_cons_of_neg (by simpa using hk)]⟩
    | false =>
      by_cases hd : key d ∈ c
      · rw [insertMany_cons_mem hr hd]
        refine (ih hds).imp_right fun ⟨hnone, hnew⟩ ↦ ⟨hnone, ?_⟩
        have hk : key d ≠ k := by
          rintro rfl
          exact find?_eq_none.mp hnone hd
        rw [hnew, List.find?_cons_of_neg (by simpa using hk)]
      · rw [insertMany_cons_notMem hr hd]
        have hstep := @ih (c.insert d hd) (fun i ↦ refused (i + 1)) hds
        rw [find?_insert] at hstep
        by_cases hk : key d = k
        · have hnone : c.find? k = none := find?_eq_none.mpr (hk ▸ hd)
          rw [if_pos hk, hnone, Option.none_or] at hstep
          rw [List.find?_cons_of_pos (by simpa using hk)]
          exact Or.inr ⟨hnone, hstep.resolve_right fun h ↦ absurd h.1 (by simp)⟩
        · rw [if_neg hk, Option.or_none] at hstep
          rwa [List.find?_cons_of_neg (by simpa using hk)]

/-! ## Removing -/

/-- Remove the document under a key, if there is one. -/
def erase (c : Collection key) (k : κ) : Collection key where
  docs := c.docs.filter fun d ↦ key d ≠ k
  nodup := c.nodup.sublist (List.filter_sublist.map key)

theorem mem_erase {c : Collection key} {k l : κ} : l ∈ c.erase k ↔ l ∈ c ∧ l ≠ k := by
  rw [mem_iff_exists, mem_iff_exists]
  constructor
  · rintro ⟨d, hd, rfl⟩
    obtain ⟨hd, hk⟩ := List.mem_filter.mp hd
    exact ⟨⟨d, hd, rfl⟩, by simpa using hk⟩
  · rintro ⟨⟨d, hd, rfl⟩, hk⟩
    exact ⟨d, List.mem_filter.mpr ⟨hd, by simpa using hk⟩, rfl⟩

end Collection

end Keyed
