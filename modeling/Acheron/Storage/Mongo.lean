import Mathlib.Data.List.Sort
import Acheron.Event.Document
import Acheron.Lib.Keyed

/-!
# The Mongo store

`MongoStore` as a set of functions on two collections, `events` and `dead_letter`. Everything Mongo
and the network may do to one `insert_many(ordered=False)` call is an `InsertOutcome`: the server
works through the call and reports the refused documents together in one `BulkWriteError`, or the
call raises something else after any part of it may have reached the server.

## What a normal return means

Both writers catch `BulkWriteError`, count its errors and return. The handler is written for
duplicate keys — the document is already there — but it catches the report whatever the refusals
in it are. So a normal return means *durably stored* exactly when no refusal of another kind hits
a document whose id is otherwise absent; `normal_return_stores_iff` is that statement for both
writers.
-/

open Keyed

namespace Acheron

/-- The `events` collection. -/
abbrev Events := Collection (EventDoc.id (τ := BsonDate))

/-- The `dead_letter` collection. -/
abbrev DeadLetters := Collection (DeadLetterDoc.id (τ := BsonDate))

/-- The collections of the store. -/
structure Mongo where
  events : Events
  deadLetters : DeadLetters

/-- An exception of a driver call that is not a `BulkWriteError`. -/
inductive CallError where
  /-- Another `PyMongoError`: connection lost, timeout, not primary. -/
  | pyMongo
  /-- An exception from outside `pymongo.errors`: a value BSON cannot encode. -/
  | foreign
  deriving DecidableEq

/-- What `insert_many` raises. -/
inductive DriverError where
  /-- Every refusal of the call, reported together. -/
  | bulkWriteError (writeErrors : List Refusal)
  | call (e : CallError)
  deriving DecidableEq

/-- How the server and the network meet one `insert_many(ordered=False)` call. -/
inductive InsertOutcome where
  /-- The server answers; it refuses the positions in `refused` with a write error of its own. -/
  | answered (refused : ℕ → Bool)
  /-- The call raises `e`; the positions in `sent` took effect before it did. -/
  | raised (e : CallError) (sent : ℕ → Bool)

/-- `collection.insert_many(docs, ordered=False)`. -/
def insertMany {δ : Type} {key : δ → String} (c : Collection key) (docs : List δ) :
    InsertOutcome → Collection key × Except DriverError Unit
  | .answered refused =>
    let r := c.insertMany docs refused
    (r.1, if r.2 = [] then .ok () else .error (.bulkWriteError r.2))
  | .raised e sent => ((c.insertMany docs fun i ↦ !sent i).1, .error (.call e))

/-- The loop of `_dedupe_by_id`, with the ids seen so far. -/
def dedupeLoop {τ : Type} : List String → List (EventDoc τ) → List (EventDoc τ)
  | _, [] => []
  | seen, d :: ds =>
    if d.id ∈ seen then dedupeLoop seen ds else d :: dedupeLoop (d.id :: seen) ds

/-- Drop documents with a repeated `_id`, keeping the first occurrence. -/
def dedupeById {τ : Type} (docs : List (EventDoc τ)) : List (EventDoc τ) := dedupeLoop [] docs

/-- The documents `bulk_write` hands to the driver. -/
def batchDocs (batch : List EventDocument) : List (EventDoc BsonDate) :=
  (dedupeById (batch.map toDoc)).map EventDoc.encode

/-- The `except BulkWriteError` of both writers: the refusals are counted for the log, whatever
they are, and the call returns normally. -/
def swallowRefusals {γ : Type} : γ × Except DriverError Unit → γ × Except CallError Unit
  | (c, .ok ()) => (c, .ok ())
  | (c, .error (.bulkWriteError _)) => (c, .ok ())
  | (c, .error (.call e)) => (c, .error e)

/-- `MongoStore.bulk_write`. -/
def bulkWrite (c : Events) (batch : List EventDocument) (o : InsertOutcome) :
    Events × Except CallError Unit :=
  if batch.isEmpty then (c, .ok ()) else swallowRefusals (insertMany c (batchDocs batch) o)

/-- `MongoStore.persist_dead_letters`. -/
def persistDeadLetters (c : DeadLetters) (docs : List (DeadLetterDoc DateTime))
    (o : InsertOutcome) : DeadLetters × Except CallError Unit :=
  if docs.isEmpty then (c, .ok ())
  else swallowRefusals (insertMany c (docs.map DeadLetterDoc.encode) o)

/-- `MongoStore.get_dead_letter`. -/
def getDeadLetter (c : DeadLetters) (eventId : String) : Option (DeadLetterDoc BsonDate) :=
  c.find? eventId

/-- `MongoStore.delete_dead_letter`. -/
def deleteDeadLetter (c : DeadLetters) (eventId : String) : DeadLetters := c.erase eventId

/-- `MongoStore.fetch_unindexed`: up to `limit` documents whose marker is false, oldest
`received_at` first. Mongo leaves the order of equal keys open; `tie` ranks the ids of one query. -/
def fetchUnindexed (c : Events) (tie : String → ℕ) (limit : ℕ) : List (EventRecord BsonDate) :=
  (((c.docs.filter fun d ↦ !d.esIndexed).insertionSort fun a b ↦
    a.event.receivedAt.millis < b.event.receivedAt.millis ∨
      a.event.receivedAt.millis = b.event.receivedAt.millis ∧ tie a.id ≤ tie b.id).take
        limit).map EventDoc.event

/-- Set the outbox marker of a document. -/
def EventDoc.mark {τ : Type} (ids : List String) (d : EventDoc τ) : EventDoc τ :=
  if d.id ∈ ids then { d with esIndexed := true } else d

theorem EventDoc.mark_id {τ : Type} (ids : List String) (d : EventDoc τ) :
    (d.mark ids).id = d.id := by
  unfold EventDoc.mark
  split <;> rfl

/-- `MongoStore.mark_indexed`. -/
def markIndexed (c : Events) (eventIds : List String) : Events :=
  if eventIds.isEmpty then c else c.map (EventDoc.mark eventIds) (EventDoc.mark_id eventIds)

/-! ## Deduplication -/

theorem mem_dedupeLoop_ids {τ : Type} {seen : List String} {docs : List (EventDoc τ)}
    {k : String} : (∃ d ∈ dedupeLoop seen docs, d.id = k) ↔ k ∉ seen ∧ ∃ d ∈ docs, d.id = k := by
  induction docs generalizing seen with
  | nil => simp [dedupeLoop]
  | cons d ds ih =>
    rw [dedupeLoop]
    by_cases hd : d.id ∈ seen
    · rw [if_pos hd, ih, List.exists_mem_cons_iff]
      refine and_congr_right fun hk ↦ (or_iff_right ?_).symm
      rintro rfl
      exact hk hd
    · rw [if_neg hd, List.exists_mem_cons_iff, List.exists_mem_cons_iff, ih, List.mem_cons,
        not_or]
      by_cases hk : d.id = k
      · subst hk
        simp [hd]
      · simp [hk, Ne.symm hk]

/-- Deduplication keeps every id. -/
theorem mem_dedupeById_ids {τ : Type} {docs : List (EventDoc τ)} {k : String} :
    (∃ d ∈ dedupeById docs, d.id = k) ↔ ∃ d ∈ docs, d.id = k := by
  rw [dedupeById, mem_dedupeLoop_ids]
  simp

theorem dedupeLoop_subset {τ : Type} {seen : List String} {docs : List (EventDoc τ)} :
    dedupeLoop seen docs ⊆ docs := by
  induction docs generalizing seen with
  | nil => exact List.Subset.refl _
  | cons d ds ih =>
    rw [dedupeLoop]
    split
    · exact List.subset_cons_of_subset d ih
    · exact List.cons_subset_cons d ih

theorem dedupeLoop_nodup {τ : Type} {seen : List String} {docs : List (EventDoc τ)} :
    ((dedupeLoop seen docs).map EventDoc.id).Nodup := by
  induction docs generalizing seen with
  | nil => exact List.nodup_nil
  | cons d ds ih =>
    rw [dedupeLoop]
    split
    · exact ih
    · refine List.nodup_cons.mpr ⟨fun hmem ↦ ?_, ih⟩
      obtain ⟨e, he, hid⟩ := List.mem_map.mp hmem
      exact (mem_dedupeLoop_ids.mp ⟨e, he, hid⟩).1 List.mem_cons_self

theorem batchDocs_nodup (batch : List EventDocument) :
    ((batchDocs batch).map EventDoc.id).Nodup := by
  rw [batchDocs, List.map_map]
  exact dedupeLoop_nodup

/-- The ids a batch hands to the driver are the ids of its events. -/
theorem mem_batchDocs_ids {batch : List EventDocument} {k : String} :
    (∃ d ∈ batchDocs batch, d.id = k) ↔ ∃ e ∈ batch, e.eventId = k := by
  have hencode : (∃ d ∈ batchDocs batch, d.id = k)
      ↔ ∃ d ∈ dedupeById (batch.map toDoc), d.id = k := by simp [batchDocs]
  have hdoc : (∃ d ∈ batch.map toDoc, d.id = k) ↔ ∃ e ∈ batch, e.eventId = k := by simp
  rw [hencode, mem_dedupeById_ids, hdoc]

/-- What a batch hands to the driver are encodings of its own events. -/
theorem exists_of_mem_batchDocs {batch : List EventDocument} {d : EventDoc BsonDate}
    (h : d ∈ batchDocs batch) : ∃ e ∈ batch, d = (toDoc e).encode := by
  obtain ⟨d', hd', rfl⟩ := List.mem_map.mp h
  obtain ⟨e, he, rfl⟩ := List.mem_map.mp (dedupeLoop_subset hd')
  exact ⟨e, he, rfl⟩

/-! ## One writer call

Each writer is one bulk insert with the report of refusals swallowed. For each, one lemma says what
the collection holds afterwards and one when the call returns normally. -/

namespace InsertOutcome

/-- The positions of a call that the environment keeps from taking effect. -/
def blocked : InsertOutcome → ℕ → Bool
  | .answered refused => refused
  | .raised _ sent => fun i ↦ !sent i

/-- What a writer returns or raises. -/
def result : InsertOutcome → Except CallError Unit
  | .answered _ => .ok ()
  | .raised e _ => .error e

end InsertOutcome

theorem swallowRefusals_insertMany {δ : Type} {key : δ → String} (c : Collection key)
    (docs : List δ) (o : InsertOutcome) :
    swallowRefusals (insertMany c docs o) = ((c.insertMany docs o.blocked).1, o.result) := by
  cases o with
  | raised e sent => rfl
  | answered refused =>
    rw [insertMany]
    by_cases h : (c.insertMany docs refused).2 = []
    · rw [if_pos h]
      rfl
    · rw [if_neg h]
      rfl

theorem bulkWrite_of_ne_nil {c : Events} {batch : List EventDocument} {o : InsertOutcome}
    (h : batch ≠ []) :
    bulkWrite c batch o = ((c.insertMany (batchDocs batch) o.blocked).1, o.result) := by
  rw [bulkWrite, if_neg (by simpa using h), swallowRefusals_insertMany]

theorem persistDeadLetters_of_ne_nil {c : DeadLetters} {docs : List (DeadLetterDoc DateTime)}
    {o : InsertOutcome} (h : docs ≠ []) :
    persistDeadLetters c docs o
      = ((c.insertMany (docs.map DeadLetterDoc.encode) o.blocked).1, o.result) := by
  rw [persistDeadLetters, if_neg (by simpa using h), swallowRefusals_insertMany]

theorem bulkWrite_nil {c : Events} {o : InsertOutcome} : bulkWrite c [] o = (c, .ok ()) := rfl

/-- A write keeps what is stored, whatever becomes of it. -/
theorem mem_bulkWrite_of_mem {c : Events} {batch : List EventDocument} {o : InsertOutcome}
    {k : String} (h : k ∈ c) : k ∈ (bulkWrite c batch o).1 := by
  by_cases hb : batch = []
  · subst hb
    exact h
  · rw [bulkWrite_of_ne_nil hb]
    exact Collection.mem_insertMany_of_mem h

/-- So does a persist. -/
theorem mem_persistDeadLetters_of_mem {c : DeadLetters} {docs : List (DeadLetterDoc DateTime)}
    {o : InsertOutcome} {k : String} (h : k ∈ c) : k ∈ (persistDeadLetters c docs o).1 := by
  by_cases hd : docs = []
  · subst hd
    exact h
  · rw [persistDeadLetters_of_ne_nil hd]
    exact Collection.mem_insertMany_of_mem h

/-- What a persist stores. -/
theorem mem_persistDeadLetters {c : DeadLetters} {docs : List (DeadLetterDoc DateTime)}
    {o : InsertOutcome} {k : String} : k ∈ (persistDeadLetters c docs o).1 ↔
      k ∈ c ∨ ∃ i d, docs[i]? = some d ∧ o.blocked i = false ∧ d.id = k := by
  by_cases hd : docs = []
  · subst hd
    exact ⟨Or.inl, fun h ↦ h.resolve_right (by simp)⟩
  · rw [persistDeadLetters_of_ne_nil hd, Collection.mem_insertMany]
    refine or_congr_right (exists_congr fun i ↦ ?_)
    rw [List.getElem?_map]
    rcases docs[i]? with _ | d <;> simp

/-- A document that a write adds is made from an event of the batch. -/
theorem mem_docs_bulkWrite {c : Events} {batch : List EventDocument} {o : InsertOutcome}
    {d : EventDoc BsonDate} (h : d ∈ (bulkWrite c batch o).1.docs) :
    d ∈ c.docs ∨ ∃ e ∈ batch, d = (toDoc e).encode := by
  by_cases hb : batch = []
  · subst hb
    exact Or.inl h
  · rw [bulkWrite_of_ne_nil hb] at h
    exact (Collection.mem_docs_insertMany h).imp_right exists_of_mem_batchDocs

/-- A document that a write adds is not marked. -/
theorem unmarked_of_mem_bulkWrite {c : Events} {batch : List EventDocument} {o : InsertOutcome}
    {d : EventDoc BsonDate} (h : d ∈ (bulkWrite c batch o).1.docs) :
    d ∈ c.docs ∨ d.esIndexed = false := by
  refine (mem_docs_bulkWrite h).imp_right ?_
  rintro ⟨e, -, rfl⟩
  rfl

/-! ## A call the server accepts -/

theorem insertMany_dedupeLoop {c : Events} {seen : List String} {docs : List (EventDoc DateTime)}
    (hseen : ∀ k ∈ seen, k ∈ c) :
    (c.insertMany ((dedupeLoop seen docs).map EventDoc.encode) fun _ ↦ false).1
      = (c.insertMany (docs.map EventDoc.encode) fun _ ↦ false).1 := by
  induction docs generalizing c seen with
  | nil => rfl
  | cons d ds ih =>
    rw [dedupeLoop, List.map_cons]
    by_cases hd : d.id ∈ seen
    · rw [if_pos hd, Collection.insertMany_cons_mem rfl (hseen d.id hd)]
      exact ih hseen
    · rw [if_neg hd, List.map_cons]
      by_cases hc : d.encode.id ∈ c
      · rw [Collection.insertMany_cons_mem rfl hc, Collection.insertMany_cons_mem rfl hc]
        exact ih (List.forall_mem_cons.mpr ⟨hc, hseen⟩)
      · rw [Collection.insertMany_cons_notMem rfl hc, Collection.insertMany_cons_notMem rfl hc]
        refine ih (List.forall_mem_cons.mpr ⟨?_, fun k hk ↦ ?_⟩)
        · exact Collection.mem_insert.mpr (Or.inr rfl)
        · exact Collection.mem_insert.mpr (Or.inl (hseen k hk))

/-- Deduplication does not change what an accepted call stores. -/
theorem bulkWrite_answered (c : Events) (batch : List EventDocument) :
    bulkWrite c batch (.answered fun _ ↦ false)
      = ((c.insertMany (batch.map fun e ↦ (toDoc e).encode) fun _ ↦ false).1, .ok ()) := by
  by_cases hb : batch = []
  · subst hb
    rfl
  · have hdocs := @insertMany_dedupeLoop c [] (batch.map toDoc) (by simp)
    rw [List.map_map] at hdocs
    rw [bulkWrite_of_ne_nil hb]
    exact congrArg (·, Except.ok ()) hdocs

/-- An accepted call stores every event of its batch. -/
theorem mem_bulkWrite_of_answered {c : Events} {batch : List EventDocument} {e : EventDocument}
    (h : e ∈ batch) : e.eventId ∈ (bulkWrite c batch (.answered fun _ ↦ false)).1 := by
  obtain ⟨i, hi⟩ := List.mem_iff_getElem?.mp (List.mem_map_of_mem (f := fun e ↦ (toDoc e).encode) h)
  rw [bulkWrite_answered]
  exact Collection.mem_insertMany.mpr (Or.inr ⟨i, _, hi, rfl, rfl⟩)

@[simp] theorem mem_markIndexed {c : Events} {ids : List String} {k : String} :
    k ∈ markIndexed c ids ↔ k ∈ c := by
  unfold markIndexed
  split
  · exact Iff.rfl
  · exact Keyed.Collection.mem_map

/-- What is marked after a marking was marked before it or is named by it. -/
theorem marked_of_mem_markIndexed {c : Events} {ids : List String} {d : EventDoc BsonDate}
    (h : d ∈ (markIndexed c ids).docs) (hmarked : d.esIndexed = true) :
    (∃ d' ∈ c.docs, d'.id = d.id ∧ d'.esIndexed = true) ∨ d.id ∈ ids := by
  by_cases hids : ids.isEmpty = true
  · rw [markIndexed, if_pos hids] at h
    exact Or.inl ⟨d, h, rfl, hmarked⟩
  · rw [markIndexed, if_neg hids] at h
    obtain ⟨d', hd', rfl⟩ := List.mem_map.mp h
    rw [EventDoc.mark_id]
    by_cases hid : d'.id ∈ ids
    · exact Or.inr hid
    · rw [EventDoc.mark, if_neg hid] at hmarked
      exact Or.inl ⟨d', hd', rfl, hmarked⟩

/-! ## Normal return -/

/-- Every document of the call that the server refuses with a write error other than a duplicate
key has its id in the collection anyway, from before or from another document of the call. -/
def RefusalsCovered {δ : Type} {key : δ → String} (c : Collection key) (docs : List δ) :
    InsertOutcome → Prop
  | .raised _ _ => True
  | .answered refused => ∀ i d, docs[i]? = some d → refused i = true →
      key d ∈ c ∨ ∃ j e, docs[j]? = some e ∧ refused j = false ∧ key e = key d

/-- The generic core of both writers: after an answered call every id of the call is stored exactly
when the refusals are covered. -/
theorem forall_mem_insertMany_iff {δ : Type} {key : δ → String} {c : Collection key}
    {docs : List δ} {refused : ℕ → Bool} :
    (∀ d ∈ docs, key d ∈ (c.insertMany docs refused).1)
      ↔ RefusalsCovered c docs (.answered refused) := by
  constructor
  · intro h i d hd _
    exact Collection.mem_insertMany.mp (h d (List.mem_of_getElem? hd))
  · intro h d hd
    obtain ⟨i, hi⟩ := List.mem_iff_getElem?.mp hd
    rw [Collection.mem_insertMany]
    by_cases hr : refused i = true
    · exact h i d hi hr
    · exact Or.inr ⟨i, d, hi, by simpa using hr, rfl⟩

theorem bulkWrite_stores_iff (c : Events) (batch : List EventDocument) (o : InsertOutcome) :
    ((bulkWrite c batch o).2 = .ok () → ∀ e ∈ batch, e.eventId ∈ (bulkWrite c batch o).1)
      ↔ RefusalsCovered c (batchDocs batch) o := by
  by_cases hb : batch = []
  · subst hb
    refine iff_of_true (fun _ e he ↦ absurd he List.not_mem_nil) ?_
    cases o with
    | raised e sent => trivial
    | answered refused => exact fun i d hd ↦ absurd hd (by simp [batchDocs, dedupeById, dedupeLoop])
  · rw [bulkWrite_of_ne_nil hb]
    cases o with
    | raised e sent => exact iff_of_true (fun h ↦ absurd h (by simp [InsertOutcome.result])) trivial
    | answered refused =>
      rw [← forall_mem_insertMany_iff]
      have hids : (∀ e ∈ batch, e.eventId ∈ (c.insertMany (batchDocs batch) refused).1)
          ↔ ∀ d ∈ batchDocs batch, d.id ∈ (c.insertMany (batchDocs batch) refused).1 := by
        constructor
        · intro h d hd
          obtain ⟨e, he, hid⟩ := mem_batchDocs_ids.mp ⟨d, hd, rfl⟩
          exact hid ▸ h e he
        · intro h e he
          obtain ⟨d, hd, hid⟩ := mem_batchDocs_ids.mpr ⟨e, he, rfl⟩
          exact hid ▸ h d hd
      exact ⟨fun h ↦ hids.mp (h rfl), fun h _ ↦ hids.mpr h⟩

theorem persistDeadLetters_stores_iff (c : DeadLetters) (docs : List (DeadLetterDoc DateTime))
    (o : InsertOutcome) :
    ((persistDeadLetters c docs o).2 = .ok () → ∀ d ∈ docs, d.id ∈ (persistDeadLetters c docs o).1)
      ↔ RefusalsCovered c (docs.map DeadLetterDoc.encode) o := by
  by_cases hd : docs = []
  · subst hd
    refine iff_of_true (fun _ d hd ↦ absurd hd List.not_mem_nil) ?_
    cases o with
    | raised e sent => trivial
    | answered refused => exact fun i d hd ↦ absurd hd (by simp)
  · rw [persistDeadLetters_of_ne_nil hd]
    cases o with
    | raised e sent => exact iff_of_true (fun h ↦ absurd h (by simp [InsertOutcome.result])) trivial
    | answered refused =>
      rw [← forall_mem_insertMany_iff, List.forall_mem_map]
      exact ⟨fun h ↦ h rfl, fun h _ ↦ h⟩

/-- **Normal return means durably stored, exactly when the refusals are covered.** -/
theorem normal_return_stores_iff (c : Events) (batch : List EventDocument) (o : InsertOutcome)
    (c' : DeadLetters) (docs : List (DeadLetterDoc DateTime)) (o' : InsertOutcome) :
    (((bulkWrite c batch o).2 = .ok () → ∀ e ∈ batch, e.eventId ∈ (bulkWrite c batch o).1)
        ↔ RefusalsCovered c (batchDocs batch) o) ∧
      (((persistDeadLetters c' docs o').2 = .ok () →
          ∀ d ∈ docs, d.id ∈ (persistDeadLetters c' docs o').1)
        ↔ RefusalsCovered c' (docs.map DeadLetterDoc.encode) o') :=
  ⟨bulkWrite_stores_iff c batch o, persistDeadLetters_stores_iff c' docs o'⟩

/-- One event refused with a write error that is not a duplicate key: both writers return normally
and neither collection holds it. -/
theorem normal_return_stores_nothing :
    ¬ ((bulkWrite .empty [makeEvent "e1"] (.answered fun _ ↦ true)).2 = .ok () →
        ∀ e ∈ [makeEvent "e1"],
          e.eventId ∈ (bulkWrite .empty [makeEvent "e1"] (.answered fun _ ↦ true)).1) ∧
    ¬ ((persistDeadLetters .empty [entryToDoc ⟨makeEvent "e1", "boom", .epoch⟩]
          (.answered fun _ ↦ true)).2 = .ok () →
        ∀ d ∈ [entryToDoc ⟨makeEvent "e1", "boom", .epoch⟩],
          d.id ∈ (persistDeadLetters .empty [entryToDoc ⟨makeEvent "e1", "boom", .epoch⟩]
            (.answered fun _ ↦ true)).1) := by
  refine ⟨fun h ↦ ?_, fun h ↦ ?_⟩
  · exact absurd (h rfl (makeEvent "e1") List.mem_cons_self) (by decide)
  · exact absurd (h rfl _ List.mem_cons_self) (by decide)

end Acheron
