import Acheron.Storage.Mongo

/-!
# Batches and retries

What the collection holds after a list of events has been written in batches, each attempted until
it goes through. A failed attempt leaves behind any part of its documents. In the end none of this
shows: the collection is the one that inserting the events one by one would have made, as
`batching_irrelevant` says.

The order of the documents does show, since a failed attempt may insert a later document first. A
collection promises no order, so two collections are compared by their documents.
-/

open Keyed

namespace Acheron

/-- A failed attempt: what it raised, and which of its documents were inserted before that. -/
abbrev FailedAttempt := CallError × (ℕ → Bool)

/-- A failed attempt to write a batch. -/
def attemptWrite (batch : List EventDocument) (c : Events) (failed : FailedAttempt) : Events :=
  (bulkWrite c batch (.raised failed.1 failed.2)).1

/-- A batch is attempted until it goes through. -/
def writeBatch (c : Events) (batch : List EventDocument) (failed : List FailedAttempt) : Events :=
  (bulkWrite (failed.foldl (attemptWrite batch) c) batch (.answered fun _ ↦ false)).1

/-- Batches written in order, each with the attempts that fail first. -/
def writeBatches (c : Events) (batches : List (List EventDocument × List FailedAttempt)) : Events :=
  batches.foldl (fun c b ↦ writeBatch c b.1 b.2) c

/-- Insert an event unless its id is taken. -/
def insertIfAbsent (c : Events) (e : EventDocument) : Events :=
  if h : (toDoc e).encode.id ∈ c then c else c.insert (toDoc e).encode h

/-- Insert events one by one. -/
def insertEach (c : Events) (events : List EventDocument) : Events := events.foldl insertIfAbsent c

/-- The document of the first event with the id. -/
def firstDoc (events : List EventDocument) (k : String) : Option (EventDoc BsonDate) :=
  (events.map fun e ↦ (toDoc e).encode).find? fun d ↦ d.id = k

theorem firstDoc_append (xs ys : List EventDocument) (k : String) :
    firstDoc (xs ++ ys) k = (firstDoc xs k).or (firstDoc ys k) := by
  rw [firstDoc, List.map_append, List.find?_append, firstDoc, firstDoc]

/-! ## What a lookup finds -/

theorem find?_dedupeLoop {τ : Type} {seen : List String} {docs : List (EventDoc τ)} {k : String}
    (hk : k ∉ seen) :
    ((dedupeLoop seen docs).find? fun d ↦ d.id = k) = docs.find? fun d ↦ d.id = k := by
  induction docs generalizing seen with
  | nil => rfl
  | cons d ds ih =>
    rw [dedupeLoop]
    by_cases hd : d.id ∈ seen
    · have hdk : d.id ≠ k := by
        rintro rfl
        exact hk hd
      rw [if_pos hd, ih hk, List.find?_cons_of_neg (by simpa using hdk)]
    · rw [if_neg hd]
      by_cases hdk : d.id = k
      · rw [List.find?_cons_of_pos (by simpa using hdk),
          List.find?_cons_of_pos (by simpa using hdk)]
      · rw [List.find?_cons_of_neg (by simpa using hdk),
          List.find?_cons_of_neg (by simpa using hdk)]
        exact ih (List.not_mem_cons_of_ne_of_not_mem (Ne.symm hdk) hk)

/-- Deduplication keeps the first document of each id. -/
theorem find?_batchDocs (batch : List EventDocument) (k : String) :
    ((batchDocs batch).find? fun d ↦ d.id = k) = firstDoc batch k := by
  have hloop := @find?_dedupeLoop DateTime [] (batch.map toDoc) k List.not_mem_nil
  have hmap : (batch.map fun e ↦ (toDoc e).encode) = (batch.map toDoc).map EventDoc.encode := by
    rw [List.map_map]
    rfl
  rw [batchDocs, firstDoc, hmap, List.find?_map, List.find?_map]
  exact congrArg (Option.map EventDoc.encode) hloop

/-- Under each id a failed attempt leaves what was there, or fills a gap as it should be filled. -/
theorem find?_attemptWrite (batch : List EventDocument) (c : Events) (failed : FailedAttempt)
    (k : String) : (attemptWrite batch c failed).find? k = c.find? k ∨
      c.find? k = none ∧ (attemptWrite batch c failed).find? k = firstDoc batch k := by
  by_cases hb : batch = []
  · subst hb
    exact Or.inl rfl
  · rw [attemptWrite, bulkWrite_of_ne_nil hb, ← find?_batchDocs]
    exact Collection.find?_insertMany_or (batchDocs_nodup batch)

theorem find?_foldl_attemptWrite (batch : List EventDocument) (c : Events)
    (failed : List FailedAttempt) (k : String) :
    (failed.foldl (attemptWrite batch) c).find? k = c.find? k ∨
      c.find? k = none ∧ (failed.foldl (attemptWrite batch) c).find? k = firstDoc batch k := by
  induction failed generalizing c with
  | nil => exact Or.inl rfl
  | cons f fs ih =>
    rw [List.foldl_cons]
    rcases find?_attemptWrite batch c f k with hold | ⟨hnone, hnew⟩
    · rw [← hold]
      exact ih _
    · rcases ih (attemptWrite batch c f) with hkept | ⟨-, hfilled⟩
      · exact Or.inr ⟨hnone, hkept.trans hnew⟩
      · exact Or.inr ⟨hnone, hfilled⟩

/-- The attempt that goes through fills the gaps that are left. -/
theorem find?_writeBatch (c : Events) (batch : List EventDocument) (failed : List FailedAttempt)
    (k : String) : (writeBatch c batch failed).find? k = (c.find? k).or (firstDoc batch k) := by
  rw [writeBatch, bulkWrite_answered, Collection.find?_insertMany]
  change (Collection.find? _ k).or (firstDoc batch k) = _
  rcases find?_foldl_attemptWrite batch c failed k with hold | ⟨hnone, hnew⟩
  · rw [hold]
  · rw [hnone, hnew, Option.or_self, Option.none_or]

theorem find?_writeBatches (c : Events) (batches : List (List EventDocument × List FailedAttempt))
    (k : String) : (writeBatches c batches).find? k
      = (c.find? k).or (firstDoc (batches.flatMap Prod.fst) k) := by
  induction batches generalizing c with
  | nil => exact (Option.or_none).symm
  | cons b bs ih =>
    have hstep : writeBatches c (b :: bs) = writeBatches (writeBatch c b.1 b.2) bs := rfl
    rw [hstep, ih, find?_writeBatch, List.flatMap_cons, firstDoc_append, Option.or_assoc]

theorem find?_insertIfAbsent (c : Events) (e : EventDocument) (k : String) :
    (insertIfAbsent c e).find? k = (c.find? k).or (firstDoc [e] k) := by
  unfold insertIfAbsent
  have hfirst : firstDoc [e] k
      = if (toDoc e).encode.id = k then some (toDoc e).encode else none := by
    rw [firstDoc, List.map_singleton, List.find?_singleton]
    simp only [decide_eq_true_eq]
  by_cases he : (toDoc e).encode.id ∈ c
  · rw [dif_pos he, hfirst]
    by_cases hk : (toDoc e).encode.id = k
    · obtain ⟨d, hd⟩ : ∃ d, c.find? k = some d := by
        rw [← Option.ne_none_iff_exists', ne_eq, Collection.find?_eq_none, not_not]
        exact hk ▸ he
      rw [hd, Option.some_or]
    · rw [if_neg hk, Option.or_none]
  · rw [dif_neg he, Collection.find?_insert, hfirst]

theorem find?_insertEach (c : Events) (events : List EventDocument) (k : String) :
    (insertEach c events).find? k = (c.find? k).or (firstDoc events k) := by
  induction events generalizing c with
  | nil => exact (Option.or_none).symm
  | cons e es ih =>
    have hstep : insertEach c (e :: es) = insertEach (insertIfAbsent c e) es := rfl
    rw [hstep, ih, find?_insertIfAbsent, Option.or_assoc, ← firstDoc_append, List.singleton_append]

/-! ## What stays -/

/-- The documents stay as they are, and what is added is not marked. -/
structure Extends (c c' : Events) : Prop where
  kept : c.docs <+: c'.docs
  unmarked : ∀ d ∈ c'.docs, d ∈ c.docs ∨ d.esIndexed = false

theorem Extends.refl (c : Events) : Extends c c := ⟨List.prefix_refl _, fun _ ↦ Or.inl⟩

theorem Extends.trans {c₁ c₂ c₃ : Events} (h : Extends c₁ c₂) (h' : Extends c₂ c₃) :
    Extends c₁ c₃ := by
  refine ⟨h.kept.trans h'.kept, fun d hd ↦ ?_⟩
  rcases h'.unmarked d hd with hd | hnew
  · exact h.unmarked d hd
  · exact Or.inr hnew

theorem extends_bulkWrite (c : Events) (batch : List EventDocument) (o : InsertOutcome) :
    Extends c (bulkWrite c batch o).1 := by
  refine ⟨?_, fun d hd ↦ unmarked_of_mem_bulkWrite hd⟩
  by_cases hb : batch = []
  · subst hb
    exact List.prefix_refl _
  · rw [bulkWrite_of_ne_nil hb]
    exact Collection.docs_prefix_insertMany _ _ _

theorem extends_foldl {β : Type} {f : Events → β → Events} (hf : ∀ c b, Extends c (f c b))
    (c : Events) (bs : List β) : Extends c (bs.foldl f c) := by
  induction bs generalizing c with
  | nil => exact .refl c
  | cons b bs ih => exact (hf c b).trans (ih (f c b))

theorem extends_writeBatches (c : Events)
    (batches : List (List EventDocument × List FailedAttempt)) :
    Extends c (writeBatches c batches) := by
  refine extends_foldl (fun c b ↦ ?_) c batches
  have hfailed : Extends c (b.2.foldl (attemptWrite b.1) c) :=
    extends_foldl (f := attemptWrite b.1)
      (fun c f ↦ extends_bulkWrite c b.1 (.raised f.1 f.2)) c b.2
  exact hfailed.trans (extends_bulkWrite _ _ _)

/-- **Batches and retries do not show.** However the events are split into batches and whatever
attempts fail, the collection holds in the end what inserting the events one by one would put into
it; what was there is unchanged, marker included, and what is new is not marked. -/
theorem batching_irrelevant (c : Events)
    (batches : List (List EventDocument × List FailedAttempt)) :
    (writeBatches c batches).docs.Perm (insertEach c (batches.flatMap Prod.fst)).docs ∧
      c.docs <+: (writeBatches c batches).docs ∧
      ∀ d ∈ (writeBatches c batches).docs, d ∈ c.docs ∨ d.esIndexed = false := by
  have hperm : (writeBatches c batches).docs.Perm (insertEach c (batches.flatMap Prod.fst)).docs :=
    Collection.perm_of_find?_eq fun k ↦ by rw [find?_writeBatches, find?_insertEach]
  have hextends := extends_writeBatches c batches
  exact ⟨hperm, hextends.kept, hextends.unmarked⟩

end Acheron
