import Acheron.Lib.Draining
import Acheron.Worker.EsIndexer

/-!
# Draining the outbox

`EsIndexer._run` as one sequential loop, with no writer beside it: `_index_pending` fetches up to
`batch_size` pending events, hands them to `bulk_index`, marks them, and says whether the batch was
full; the loop goes on without waiting as long as it was. What ends the loop is that every pass
marks what it fetched, so that each full pass shortens the outbox by a batch.

A pass that raises before the mark leaves the outbox as it was. The next pass that gets through then
does what this one would have done, so in the end only the number of passes that get through counts:
`drain_survives_faults`.

## What cannot be read

Not every document that could be stored can be read as an event again, and not every event that is
read can be dumped: an object that looks like a `DBRef` is read as one. Such a document fails every
pass that fetches it, and is never marked. `backlog_drains_iff` says that the backlog is drained
exactly when there is none.
-/

open Runs Draining

namespace Acheron

/-- The outbox, and what the indexer has done with it. -/
structure Outbox where
  events : Events
  metrics : IndexerMetrics
  /-- History: what was handed to `bulk_index`, call by call. -/
  sent : List (List EventDocument)

/-- Where a pass raises. -/
inductive PassFault where
  /-- `fetch_unindexed`. -/
  | fetch
  /-- `bulk_index`, for a request that fails. -/
  | bulkIndex

/-- What a pass meets: how the query breaks ties, and which call raises, if one does. -/
structure PassOutcome where
  tie : String → ℕ
  fault : Option PassFault

/-- `EsIndexer._index_pending`; `none` is an exception. -/
def indexPending (batchSize : ℕ) (s : Outbox) (o : PassOutcome) : Outbox × Option Bool :=
  match o.fault with
  | some .fetch => (s, none)
  | fault =>
    let docs := fetchUnindexed s.events o.tie batchSize
    if docs.isEmpty then (s, some false)
    else
      match rebuildAll docs with
      | none => (s, none)
      | some events =>
        let s' := { s with sent := s.sent ++ [events] }
        -- `bulk_index` dumps every event before it sends any.
        if !events.all EventRecord.dumps || fault.isSome then (s', none)
        else
          ({ s' with
              events := markIndexed s.events (events.map EventRecord.eventId)
              metrics := { s.metrics with
                eventsIndexed := s.metrics.eventsIndexed + events.length } },
            some (docs.length == batchSize))

/-- One turn of the loop: the outbox afterwards, and `more`. -/
def pass (batchSize : ℕ) (s : Outbox) (o : PassOutcome) : Outbox × Bool :=
  match indexPending batchSize s o with
  | (s', some more) => (s', more)
  | (s', none) =>
    ({ s' with metrics := { s'.metrics with indexFailures := s'.metrics.indexFailures + 1 } }, false)

/-- `EsIndexer._run` up to its first wait, and the passes it made; `none` if `fuel` passes are not
enough. -/
def runUntilWait (batchSize : ℕ) : ℕ → Outbox → (ℕ → PassOutcome) → Option (Outbox × ℕ)
  | 0, _, _ => none
  | fuel + 1, s, outcomes =>
    let r := pass batchSize s (outcomes 0)
    if r.2 then
      (runUntilWait batchSize fuel r.1 fun k ↦ outcomes (k + 1)).map fun t ↦ (t.1, t.2 + 1)
    else some (r.1, 1)

/-- The passes of `EsIndexer._run` over any number of waits. -/
def runPasses (batchSize : ℕ) (s : Outbox) (outcomes : List PassOutcome) : Outbox :=
  outcomes.foldl (fun s o ↦ (pass batchSize s o).1) s

/-! ## The outbox query -/

/-- The documents of the outbox. -/
def pendingDocs (c : Events) : List (EventDoc BsonDate) := c.docs.filter fun d ↦ !d.esIndexed

/-- The sort key of the outbox query. -/
def EventDoc.receivedMillis (d : EventDoc BsonDate) : ℤ := d.event.receivedAt.millis

/-- The answer to the outbox query, before it is cut. -/
def outboxOrdering (c : Events) (tie : String → ℕ) :
    Paging.Ordering EventDoc.receivedMillis (pendingDocs c) where
  items := (pendingDocs c).insertionSort fun a b ↦
    a.event.receivedAt.millis < b.event.receivedAt.millis ∨
      a.event.receivedAt.millis = b.event.receivedAt.millis ∧ tie a.id ≤ tie b.id
  perm := List.perm_insertionSort _ _
  sorted := by
    have : Std.Total fun a b : EventDoc BsonDate ↦
        a.event.receivedAt.millis < b.event.receivedAt.millis ∨
          a.event.receivedAt.millis = b.event.receivedAt.millis ∧ tie a.id ≤ tie b.id :=
      ⟨fun a b ↦ by omega⟩
    have : IsTrans (EventDoc BsonDate) fun a b ↦
        a.event.receivedAt.millis < b.event.receivedAt.millis ∨
          a.event.receivedAt.millis = b.event.receivedAt.millis ∧ tie a.id ≤ tie b.id :=
      ⟨fun a b c hab hbc ↦ by omega⟩
    refine (List.pairwise_insertionSort _ _).imp fun {a b} h ↦ ?_
    change a.event.receivedAt.millis ≤ b.event.receivedAt.millis
    omega

/-- The documents of one pass. -/
def fetchedDocs (c : Events) (tie : String → ℕ) (batchSize : ℕ) : List (EventDoc BsonDate) :=
  (outboxOrdering c tie).items.take batchSize

theorem fetchUnindexed_eq (c : Events) (tie : String → ℕ) (batchSize : ℕ) :
    fetchUnindexed c tie batchSize = (fetchedDocs c tie batchSize).map EventDoc.event := rfl

/-- Every document marked. -/
def allMarked (c : Events) : Events := c.map (fun d ↦ { d with esIndexed := true }) fun _ ↦ rfl

theorem markIndexed_docs (c : Events) (ids : List String) :
    (markIndexed c ids).docs = c.docs.map (EventDoc.mark ids) := by
  unfold markIndexed
  by_cases hids : ids.isEmpty
  · have hnone : EventDoc.mark (τ := BsonDate) [] = id := funext fun d ↦ by simp [EventDoc.mark]
    rw [if_pos hids, List.isEmpty_iff.mp hids, hnone, List.map_id]
  · rw [if_neg hids]
    rfl

/-- Marking takes the named documents out of the outbox and leaves the others as they were. -/
theorem pendingDocs_markIndexed (c : Events) (ids : List String) :
    pendingDocs (markIndexed c ids) = (pendingDocs c).filter fun d ↦ d.id ∉ ids := by
  rw [pendingDocs, pendingDocs, markIndexed_docs, List.filter_filter]
  induction c.docs with
  | nil => rfl
  | cons d ds ih =>
    rw [List.map_cons, List.filter_cons, List.filter_cons, ih]
    by_cases hid : d.id ∈ ids
    · simp [EventDoc.mark, hid]
    · simp [EventDoc.mark, hid]

theorem allMarked_markIndexed (c : Events) (ids : List String) :
    allMarked (markIndexed c ids) = allMarked c := by
  have hmark (d : EventDoc BsonDate) :
      { d.mark ids with esIndexed := true } = { d with esIndexed := true } := by
    unfold EventDoc.mark
    split <;> rfl
  apply Keyed.Collection.eq_of_docs_eq
  change (markIndexed c ids).docs.map _ = c.docs.map _
  rw [markIndexed_docs, List.map_map]
  exact List.map_congr_left fun d _ ↦ hmark d

/-- With an empty outbox, every document is marked already. -/
theorem eq_allMarked {c : Events} (h : pendingDocs c = []) : c = allMarked c := by
  apply Keyed.Collection.eq_of_docs_eq
  change c.docs = c.docs.map fun d ↦ { d with esIndexed := true }
  have hmarked (d : EventDoc BsonDate) (hd : d ∈ c.docs) : d.esIndexed = true := by
    simpa using List.filter_eq_nil_iff.mp h d hd
  conv_lhs => rw [← List.map_id c.docs]
  refine List.map_congr_left fun d hd ↦ ?_
  rw [id_eq, ← hmarked d hd]

/-- **One pass that gets through** takes its batch out of the outbox. -/
theorem pass_fetchedDocs (c : Events) (tie : String → ℕ) (batchSize : ℕ) :
    Pass EventDoc.receivedMillis batchSize (pendingDocs c) (fetchedDocs c tie batchSize)
      (pendingDocs (markIndexed c ((fetchedDocs c tie batchSize).map EventDoc.id))) := by
  have hpass := pass_of_ordering (outboxOrdering c tie) batchSize
  have hitems := (outboxOrdering c tie).perm
  -- The ids of the outbox are distinct, so marking the batch takes nothing else out.
  have hnodup : (((outboxOrdering c tie).items.take batchSize
      ++ (outboxOrdering c tie).items.drop batchSize).map EventDoc.id).Nodup := by
    rw [List.take_append_drop]
    refine (hitems.map _).nodup_iff.mpr (c.nodup.sublist ?_)
    exact List.filter_sublist.map _
  rw [List.map_append, List.nodup_append] at hnodup
  obtain ⟨-, -, hdisjoint⟩ := hnodup
  have hrest : (pendingDocs (markIndexed c ((fetchedDocs c tie batchSize).map EventDoc.id))).Perm
      ((outboxOrdering c tie).items.drop batchSize) := by
    rw [pendingDocs_markIndexed]
    refine (hitems.symm.filter _).trans ?_
    rw [← List.take_append_drop batchSize (outboxOrdering c tie).items, List.filter_append]
    have htaken : ((outboxOrdering c tie).items.take batchSize).filter
        (fun d ↦ d.id ∉ (fetchedDocs c tie batchSize).map EventDoc.id) = [] :=
      List.filter_eq_nil_iff.mpr fun d hd ↦ by simpa using ⟨d, hd, rfl⟩
    have hleft : ((outboxOrdering c tie).items.drop batchSize).filter
        (fun d ↦ d.id ∉ (fetchedDocs c tie batchSize).map EventDoc.id)
          = (outboxOrdering c tie).items.drop batchSize :=
      List.filter_eq_self.mpr fun d hd ↦ decide_eq_true fun hmem ↦
        hdisjoint _ hmem _ (List.mem_map_of_mem hd) rfl
    rw [htaken, hleft, List.nil_append, List.take_append_drop]
  refine ⟨(hrest.append_left _).trans hpass.perm, hpass.length_eq, hpass.sorted, ?_⟩
  exact fun a ha b hb ↦ hpass.below a ha b (hrest.mem_iff.mp hb)

/-! ## One turn of the loop -/

section Turn

variable {batchSize : ℕ} {s : Outbox} {tie : String → ℕ}

/-- What a pass that gets through does to the outbox. -/
def Outbox.advance (s : Outbox) (batch : List (EventDoc BsonDate)) : Outbox where
  events := markIndexed s.events (batch.map EventDoc.id)
  metrics := { s.metrics with eventsIndexed := s.metrics.eventsIndexed + batch.length }
  sent := s.sent ++ [(batch.map EventDoc.event).map EventRecord.rebuild]

theorem map_rebuild (batch : List (EventDoc BsonDate)) :
    ((batch.map EventDoc.event).map EventRecord.rebuild).map EventRecord.eventId
      = batch.map EventDoc.id := by
  rw [List.map_map, List.map_map]
  exact List.map_congr_left fun d _ ↦ d.id_eq.symm

/-- The document can be read as an event, and the event dumped. -/
def EventDoc.Readable (d : EventDoc BsonDate) : Prop :=
  d.event.rebuilds = true ∧ d.event.dumps = true

theorem rebuildAll_fetchedDocs (h : ∀ d ∈ fetchedDocs s.events tie batchSize, d.Readable) :
    rebuildAll (fetchUnindexed s.events tie batchSize) = some
        (((fetchedDocs s.events tie batchSize).map EventDoc.event).map EventRecord.rebuild) ∧
      (((fetchedDocs s.events tie batchSize).map EventDoc.event).map EventRecord.rebuild).all
        EventRecord.dumps = true := by
  rw [fetchUnindexed_eq, rebuildAll, if_pos (by simpa using fun d hd ↦ (h d hd).1)]
  exact ⟨rfl, by simpa using fun d hd ↦ (h d hd).2⟩

/-- A pass that finds something and gets through. -/
theorem pass_of_ne_nil (h : fetchedDocs s.events tie batchSize ≠ [])
    (hread : ∀ d ∈ fetchedDocs s.events tie batchSize, d.Readable) :
    pass batchSize s ⟨tie, none⟩ = (s.advance (fetchedDocs s.events tie batchSize),
      (fetchedDocs s.events tie batchSize).length == batchSize) := by
  have hne : ((fetchedDocs s.events tie batchSize).map EventDoc.event).isEmpty = false := by
    simpa using h
  obtain ⟨hrebuilt, hdumps⟩ := rebuildAll_fetchedDocs hread
  rw [fetchUnindexed_eq] at hrebuilt
  simp only [pass, indexPending, fetchUnindexed_eq, hne, Bool.false_eq_true, if_false, hrebuilt,
    hdumps, Bool.not_true, Option.isSome_none, Bool.or_self, map_rebuild, List.length_map]
  rfl

/-- A pass that finds nothing. -/
theorem pass_of_nil (h : fetchedDocs s.events tie batchSize = []) :
    pass batchSize s ⟨tie, none⟩ = (s, false) := by
  simp [pass, indexPending, fetchUnindexed_eq, h]

/-- A pass that raises marks nothing. -/
theorem pass_of_raised {o : PassOutcome} (h : (indexPending batchSize s o).2 = none) :
    (pass batchSize s o).1.events = s.events ∧
      (pass batchSize s o).1.metrics.eventsIndexed = s.metrics.eventsIndexed := by
  have hsame : (indexPending batchSize s o).1.events = s.events ∧
      (indexPending batchSize s o).1.metrics.eventsIndexed = s.metrics.eventsIndexed := by
    unfold indexPending at h ⊢
    split
    · exact ⟨rfl, rfl⟩
    · dsimp only at h ⊢
      split
      · exact ⟨rfl, rfl⟩
      · split
        · exact ⟨rfl, rfl⟩
        · split
          · exact ⟨rfl, rfl⟩
          · simp_all
  unfold pass
  split
  next hsome => exact absurd (h.symm.trans (congrArg Prod.snd hsome)) (by simp)
  next s' hnone =>
    rw [hnone] at hsame
    exact hsame

/-- **A pass** leaves the outbox as it was, or takes from it a batch that can be read. -/
theorem pass_cases (batchSize : ℕ) (s : Outbox) (o : PassOutcome) :
    (pass batchSize s o).1.events = s.events ∧
        (pass batchSize s o).1.metrics.eventsIndexed = s.metrics.eventsIndexed ∧
        (o.fault = none → (∀ d ∈ fetchedDocs s.events o.tie batchSize, d.Readable) →
          fetchedDocs s.events o.tie batchSize = []) ∨
      o.fault = none ∧ (∀ d ∈ fetchedDocs s.events o.tie batchSize, d.Readable) ∧
        (pass batchSize s o).1 = s.advance (fetchedDocs s.events o.tie batchSize) := by
  obtain ⟨tie, fault⟩ := o
  by_cases hnil : fetchedDocs s.events tie batchSize = []
  · refine Or.inl ⟨?_, ?_, fun _ _ ↦ hnil⟩
    · cases fault with
      | none => rw [pass_of_nil hnil]
      | some f => cases f <;> simp [pass, indexPending, fetchUnindexed_eq, hnil]
    · cases fault with
      | none => rw [pass_of_nil hnil]
      | some f => cases f <;> simp [pass, indexPending, fetchUnindexed_eq, hnil]
  · by_cases hgood : fault = none ∧ ∀ d ∈ fetchedDocs s.events tie batchSize, d.Readable
    · obtain ⟨rfl, hread⟩ := hgood
      exact Or.inr ⟨rfl, hread, by rw [pass_of_ne_nil hnil hread]⟩
    · -- A call that raises, or a document that cannot be read: the pass raises.
      have hraised : (indexPending batchSize s ⟨tie, fault⟩).2 = none := by
        have hne : ((fetchedDocs s.events tie batchSize).map EventDoc.event).isEmpty = false := by
          simpa using hnil
        unfold indexPending
        split
        · rfl
        · dsimp only
          rw [fetchUnindexed_eq, hne, if_neg Bool.false_ne_true]
          split
          · rfl
          next events hevents =>
            obtain rfl := rebuildAll_eq_some hevents
            unfold rebuildAll at hevents
            split at hevents
            next hrebuilds =>
              rw [if_pos]
              by_contra hthrough
              simp only [Bool.or_eq_true, not_or, Bool.not_eq_true', Bool.not_eq_true] at hthrough
              have hdumps : ∀ d ∈ fetchedDocs s.events tie batchSize, d.event.dumps = true := by
                simpa using hthrough.1
              refine hgood ⟨by simpa using hthrough.2, fun d hd ↦ ⟨?_, hdumps d hd⟩⟩
              exact List.all_eq_true.mp hrebuilds _ (List.mem_map_of_mem hd)
            next => exact absurd hevents (by simp)
      obtain ⟨hevents, hindexed⟩ := pass_of_raised hraised
      exact Or.inl ⟨hevents, hindexed, fun hfault hread ↦ absurd ⟨hfault, hread⟩ hgood⟩

theorem mem_pendingDocs_of_mem_fetchedDocs {c : Events} {tie : String → ℕ} {batchSize : ℕ}
    {d : EventDoc BsonDate} (h : d ∈ fetchedDocs c tie batchSize) : d ∈ pendingDocs c :=
  (outboxOrdering c tie).perm.mem_iff.mp (List.mem_of_mem_take h)

/-- Every document of the outbox can be read. -/
def Outbox.Readable (s : Outbox) : Prop := ∀ d ∈ pendingDocs s.events, d.Readable

/-- No pass puts anything into the outbox. -/
theorem Outbox.Readable.pass (h : s.Readable) (o : PassOutcome) :
    (pass batchSize s o).1.Readable := by
  rcases pass_cases batchSize s o with ⟨hevents, -, -⟩ | ⟨-, -, hpass⟩
  · rwa [Outbox.Readable, hevents]
  · rw [hpass]
    intro d hd
    rw [Outbox.advance, pendingDocs_markIndexed] at hd
    exact h d (List.mem_filter.mp hd).1

/-- **What cannot be read stays in the outbox.** -/
theorem mem_pendingDocs_pass {d : EventDoc BsonDate} (hd : d ∈ pendingDocs s.events)
    (hbad : ¬ d.Readable) (o : PassOutcome) :
    d ∈ pendingDocs (pass batchSize s o).1.events := by
  rcases pass_cases batchSize s o with ⟨hevents, -, -⟩ | ⟨-, hread, hpass⟩
  · rwa [hevents]
  · rw [hpass, Outbox.advance, pendingDocs_markIndexed]
    refine List.mem_filter.mpr ⟨hd, decide_eq_true fun hid ↦ hbad ?_⟩
    -- The batch has no other document with its id.
    obtain ⟨d', hd', hsame⟩ := List.mem_map.mp hid
    have hin := (List.mem_filter.mp (mem_pendingDocs_of_mem_fetchedDocs hd')).1
    obtain rfl := s.events.eq_of_key_eq hin (List.mem_filter.mp hd).1 hsame
    exact hread d' hd'

/-- Whatever a pass meets, some documents are marked and as many are counted. -/
theorem pass_advances (hsize : 1 ≤ batchSize) (s : Outbox) (o : PassOutcome) :
    allMarked (pass batchSize s o).1.events = allMarked s.events ∧
      (pass batchSize s o).1.metrics.eventsIndexed
          + (pendingDocs (pass batchSize s o).1.events).length
        = s.metrics.eventsIndexed + (pendingDocs s.events).length ∧
      (o.fault = none → s.Readable → (pendingDocs (pass batchSize s o).1.events).length
        = (pendingDocs s.events).length - batchSize) := by
  have hpass := pass_fetchedDocs s.events o.tie batchSize
  have hlen := hpass.length_rest
  have hmin := hpass.length_eq
  rcases pass_cases batchSize s o with ⟨hevents, hindexed, hnil⟩ | ⟨-, -, hadvance⟩
  · rw [hevents, hindexed]
    refine ⟨rfl, rfl, fun hfault hread ↦ ?_⟩
    rw [hnil hfault fun d hd ↦ hread d (mem_pendingDocs_of_mem_fetchedDocs hd),
      List.length_nil] at hmin
    omega
  · rw [hadvance]
    refine ⟨allMarked_markIndexed _ _, ?_, fun _ _ ↦ ?_⟩
    · simp only [Outbox.advance]
      omega
    · simp only [Outbox.advance]
      omega

end Turn

/-! ## The whole backlog -/

section Backlog

variable {batchSize : ℕ}

/-- The events a list of documents is handed out as. -/
def rebuilt (docs : List (EventDoc BsonDate)) : List EventDocument :=
  (docs.map EventDoc.event).map EventRecord.rebuild

theorem rebuilt_append (xs ys : List (EventDoc BsonDate)) :
    rebuilt (xs ++ ys) = rebuilt xs ++ rebuilt ys := by
  rw [rebuilt, List.map_append, List.map_append, rebuilt, rebuilt]

/-- Over any passes, some documents are marked and as many are counted. -/
theorem runPasses_advances (hsize : 1 ≤ batchSize) (s : Outbox) (outcomes : List PassOutcome) :
    allMarked (runPasses batchSize s outcomes).events = allMarked s.events ∧
      (runPasses batchSize s outcomes).metrics.eventsIndexed
          + (pendingDocs (runPasses batchSize s outcomes).events).length
        = s.metrics.eventsIndexed + (pendingDocs s.events).length ∧
      (s.Readable → (pendingDocs (runPasses batchSize s outcomes).events).length
        ≤ (pendingDocs s.events).length
          - batchSize * outcomes.countP fun o ↦ o.fault.isNone) := by
  induction outcomes generalizing s with
  | nil => exact ⟨rfl, rfl, by simp [runPasses]⟩
  | cons o outcomes ih =>
    obtain ⟨hmarked, hindexed, hfewer⟩ := ih (pass batchSize s o).1
    obtain ⟨hmarked', hindexed', hshort⟩ := pass_advances hsize s o
    refine ⟨hmarked.trans hmarked', hindexed.trans hindexed', fun hread ↦
      (hfewer (hread.pass o)).trans ?_⟩
    by_cases hfault : o.fault = none
    · rw [hshort hfault hread, List.countP_cons_of_pos (by simp [hfault]), Nat.mul_succ]
      omega
    · rw [List.countP_cons_of_neg (by simpa using hfault)]
      rcases pass_cases batchSize s o with ⟨hevents, -, -⟩ | ⟨hnone, -, -⟩
      · rw [hevents]
      · exact absurd hnone hfault

/-- **Only the passes that get through count.** Once there are enough of them, the outbox is empty,
whatever the others have met. -/
theorem drain_survives_faults (hsize : 1 ≤ batchSize) {s : Outbox} (hread : s.Readable)
    (outcomes : List PassOutcome)
    (h : (pendingDocs s.events).length ≤ batchSize * outcomes.countP fun o ↦ o.fault.isNone) :
    (runPasses batchSize s outcomes).events = allMarked s.events ∧
      (runPasses batchSize s outcomes).metrics.eventsIndexed
        = s.metrics.eventsIndexed + (pendingDocs s.events).length := by
  obtain ⟨hmarked, hindexed, hfewer⟩ := runPasses_advances hsize s outcomes
  have hnil : pendingDocs (runPasses batchSize s outcomes).events = [] :=
    List.length_eq_zero_iff.mp (by have := hfewer hread; omega)
  rw [hnil, List.length_nil] at hindexed
  exact ⟨(eq_allMarked hnil).trans hmarked, hindexed⟩

theorem runUntilWait_of_more {fuel : ℕ} {s t : Outbox} {outcomes : ℕ → PassOutcome}
    (h : pass batchSize s (outcomes 0) = (t, true)) :
    runUntilWait batchSize (fuel + 1) s outcomes
      = (runUntilWait batchSize fuel t fun k ↦ outcomes (k + 1)).map fun r ↦ (r.1, r.2 + 1) := by
  rw [runUntilWait, h]
  rfl

theorem runUntilWait_of_wait {fuel : ℕ} {s t : Outbox} {outcomes : ℕ → PassOutcome}
    (h : pass batchSize s (outcomes 0) = (t, false)) :
    runUntilWait batchSize (fuel + 1) s outcomes = some (t, 1) := by
  rw [runUntilWait, h]
  rfl

/-- **The loop drains**: up to its first wait it makes the passes of a drain of the outbox. -/
theorem runUntilWait_drains (hsize : 1 ≤ batchSize) {s : Outbox} (hread : s.Readable)
    (tie : ℕ → String → ℕ) {fuel : ℕ} (hfuel : (pendingDocs s.events).length / batchSize < fuel) :
    ∃ t batches,
      runUntilWait batchSize fuel s (fun k ↦ ⟨tie k, none⟩) = some (t, batches.length) ∧
      Drain EventDoc.receivedMillis batchSize (pendingDocs s.events) batches (pendingDocs t.events) ∧
      t.sent.flatten = s.sent.flatten ++ rebuilt batches.flatten ∧
      allMarked t.events = allMarked s.events ∧
      t.metrics.eventsIndexed = s.metrics.eventsIndexed + batches.flatten.length := by
  induction fuel generalizing s tie with
  | zero => exact absurd hfuel (Nat.not_lt_zero _)
  | succ fuel ih =>
    have hpass := pass_fetchedDocs s.events (tie 0) batchSize
    have hlen := hpass.length_rest
    have hbatch : ∀ d ∈ fetchedDocs s.events (tie 0) batchSize, d.Readable :=
      fun d hd ↦ hread d (mem_pendingDocs_of_mem_fetchedDocs hd)
    by_cases hfull : (fetchedDocs s.events (tie 0) batchSize).length = batchSize
    · have hne : fetchedDocs s.events (tie 0) batchSize ≠ [] :=
        List.ne_nil_of_length_pos (by omega)
      have hless : (pendingDocs (s.advance (fetchedDocs s.events (tie 0) batchSize)).events).length
          / batchSize < fuel := by
        rw [← hlen, hfull, Nat.add_div_left _ (by omega)] at hfuel
        exact Nat.lt_of_succ_lt_succ hfuel
      have hrest : (s.advance (fetchedDocs s.events (tie 0) batchSize)).Readable := by
        have hnext : (pass batchSize s ⟨tie 0, none⟩).1.Readable := hread.pass _
        rwa [pass_of_ne_nil hne hbatch] at hnext
      obtain ⟨t, batches, hrun, hdrain, hsent, hmarked, hindexed⟩ :=
        ih hrest (fun k ↦ tie (k + 1)) hless
      refine ⟨t, fetchedDocs s.events (tie 0) batchSize :: batches, ?_,
        .more hpass hfull hdrain, ?_, hmarked.trans (allMarked_markIndexed _ _), ?_⟩
      · rw [runUntilWait_of_more (by rw [pass_of_ne_nil hne hbatch, hfull, beq_self_eq_true]), hrun]
        rfl
      · rw [hsent, List.flatten_cons, rebuilt_append, ← List.append_assoc]
        simp [Outbox.advance, rebuilt]
      · rw [hindexed, List.flatten_cons, List.length_append, ← Nat.add_assoc]
        rfl
    · by_cases hnil : fetchedDocs s.events (tie 0) batchSize = []
      · have hsame : markIndexed s.events (([] : List (EventDoc BsonDate)).map EventDoc.id)
            = s.events := rfl
        rw [hnil, hsame] at hpass
        have hshort : ([] : List (EventDoc BsonDate)).length ≠ batchSize := by
          rw [List.length_nil]
          omega
        refine ⟨s, [[]], ?_, .last hpass hshort, by simp [rebuilt], rfl, by simp⟩
        exact runUntilWait_of_wait (pass_of_nil hnil)
      · refine ⟨s.advance (fetchedDocs s.events (tie 0) batchSize), [_], ?_, .last hpass hfull, ?_,
          allMarked_markIndexed _ _, ?_⟩
        · exact runUntilWait_of_wait (by rw [pass_of_ne_nil hnil hbatch, beq_false_of_ne hfull])
        · simp [Outbox.advance, rebuilt]
        · simp [Outbox.advance]

/-- More fuel changes nothing. -/
theorem runUntilWait_of_le {fuel fuel' : ℕ} {s : Outbox} {outcomes : ℕ → PassOutcome}
    {r : Outbox × ℕ} (h : runUntilWait batchSize fuel s outcomes = some r) (hle : fuel ≤ fuel') :
    runUntilWait batchSize fuel' s outcomes = some r := by
  induction fuel generalizing fuel' s outcomes r with
  | zero => exact absurd h (by simp [runUntilWait])
  | succ fuel ih =>
    obtain ⟨fuel', rfl⟩ : ∃ k, fuel' = k + 1 := ⟨fuel' - 1, by omega⟩
    rw [runUntilWait] at h ⊢
    by_cases hmore : (pass batchSize s (outcomes 0)).2 = true
    · rw [if_pos hmore] at h ⊢
      obtain ⟨r', hr', rfl⟩ := Option.map_eq_some_iff.mp h
      rw [ih hr' (Nat.le_of_succ_le_succ hle)]
      rfl
    · rw [if_neg hmore] at h ⊢
      exact h

/-- What cannot be read is still in the outbox when the loop waits. -/
theorem mem_pendingDocs_of_runUntilWait {fuel n : ℕ} {s t : Outbox} {outcomes : ℕ → PassOutcome}
    {d : EventDoc BsonDate} (h : runUntilWait batchSize fuel s outcomes = some (t, n))
    (hd : d ∈ pendingDocs s.events) (hbad : ¬ d.Readable) : d ∈ pendingDocs t.events := by
  induction fuel generalizing s outcomes n with
  | zero => exact absurd h (by simp [runUntilWait])
  | succ fuel ih =>
    have hstays : d ∈ pendingDocs (pass batchSize s (outcomes 0)).1.events :=
      mem_pendingDocs_pass hd hbad _
    rw [runUntilWait] at h
    split at h
    · obtain ⟨r, hr, hpair⟩ := Option.map_eq_some_iff.mp h
      obtain ⟨rfl, -⟩ := Prod.mk.inj hpair
      exact ih hr hstays
    · obtain ⟨rfl, -⟩ := Prod.mk.inj (Option.some.inj h)
      exact hstays

/-- With nobody else at the outbox and no call failing, the loop waits after `n / batchSize + 1`
passes, having sent the pending events in the order they came in, each once; and however many passes
fail, those that get through leave the same outbox. -/
def Outbox.Drains (batchSize : ℕ) (s : Outbox) (tie : ℕ → String → ℕ) : Prop :=
  ∃ t docs,
    (∀ fuel, (pendingDocs s.events).length / batchSize < fuel →
      runUntilWait batchSize fuel s (fun k ↦ ⟨tie k, none⟩)
        = some (t, (pendingDocs s.events).length / batchSize + 1)) ∧
    t.sent.flatten = s.sent.flatten ++ rebuilt docs ∧
    docs.Perm (pendingDocs s.events) ∧
    (docs.Pairwise fun a b ↦ a.receivedMillis ≤ b.receivedMillis) ∧
    pendingDocs t.events = [] ∧ t.events = allMarked s.events ∧
    t.metrics.eventsIndexed = s.metrics.eventsIndexed + (pendingDocs s.events).length ∧
    ∀ outcomes : List PassOutcome,
      (pendingDocs s.events).length ≤ batchSize * (outcomes.countP fun o ↦ o.fault.isNone) →
        (runPasses batchSize s outcomes).events = t.events ∧
          (runPasses batchSize s outcomes).metrics.eventsIndexed = t.metrics.eventsIndexed

theorem drains_of_readable (hsize : 1 ≤ batchSize) {s : Outbox} (hread : s.Readable)
    (tie : ℕ → String → ℕ) : s.Drains batchSize tie := by
  obtain ⟨t, batches, hrun, hdrain, hsent, hmarked, hindexed⟩ :=
    runUntilWait_drains hsize hread tie (Nat.lt_succ_self _)
  have hnil := hdrain.rest_eq_nil
  have hevents := (eq_allMarked hnil).trans hmarked
  rw [hdrain.perm.length_eq] at hindexed
  rw [hdrain.length_batches hsize] at hrun
  refine ⟨t, batches.flatten, fun fuel hfuel ↦ runUntilWait_of_le hrun hfuel, hsent, hdrain.perm,
    hdrain.sorted, hnil, hevents, hindexed, fun outcomes henough ↦ ?_⟩
  obtain ⟨hsame, hcount⟩ := drain_survives_faults hsize hread outcomes henough
  exact ⟨hsame.trans hevents.symm, hcount.trans hindexed.symm⟩

/-- **The backlog is drained, each event sent once, exactly when every document of the outbox can be
read.** A pass that raises, for a document or a call, marks nothing. -/
theorem backlog_drains_iff (hsize : 1 ≤ batchSize) (s : Outbox) (tie : ℕ → String → ℕ) :
    (s.Drains batchSize tie ↔ s.Readable) ∧
      ∀ o, (indexPending batchSize s o).2 = none → (pass batchSize s o).1.events = s.events := by
  refine ⟨⟨?_, fun hread ↦ drains_of_readable hsize hread tie⟩, fun o h ↦ (pass_of_raised h).1⟩
  rintro ⟨t, -, hrun, -, -, -, hnil, -⟩ d hd
  by_contra hbad
  have hstays := mem_pendingDocs_of_runUntilWait (hrun _ (Nat.lt_succ_self _)) hd hbad
  rw [hnil] at hstays
  exact absurd hstays List.not_mem_nil

end Backlog

/-- Two events waiting. -/
def Outbox.ofTwo : Outbox where
  events := (bulkWrite .empty [makeEvent "e1", makeEvent "e2"] (.answered fun _ ↦ false)).1
  metrics := ⟨0, 0⟩
  sent := []

/-- With batches of one, two events take three passes: the last one finds nothing. -/
theorem ofTwo_drains :
    ∃ t, runUntilWait 1 3 .ofTwo (fun _ ↦ ⟨fun _ ↦ 0, none⟩) = some (t, 3) ∧
      pendingDocs t.events = [] ∧ t.metrics.eventsIndexed = 2 := by
  have hread : Outbox.ofTwo.Readable := by
    intro d hd
    have hall : (pendingDocs Outbox.ofTwo.events).all
        (fun d ↦ d.event.rebuilds && d.event.dumps) = true := by decide
    simpa [EventDoc.Readable] using List.all_eq_true.mp hall d hd
  obtain ⟨t, docs, hrun, -, -, -, hnil, -, hindexed, -⟩ :=
    (backlog_drains_iff (Nat.le_refl 1) .ofTwo fun _ _ ↦ 0).1.mpr hread
  exact ⟨t, hrun 3 (by decide), hnil, hindexed⟩

/-- An event whose metadata is read as a `DBRef`. -/
def refEvent (eventId : String) : EventDocument :=
  { makeEvent eventId with metadata := ⟨[("$ref", .str "users"), ("$id", .int 7)], by decide⟩ }

/-- It waits, and so does another event. -/
def Outbox.ofRef : Outbox where
  events := (bulkWrite .empty [refEvent "e1", makeEvent "e2"] (.answered fun _ ↦ false)).1
  metrics := ⟨0, 0⟩
  sent := []

/-- Every pass fetches both, and raises. -/
theorem ofRef_blocks :
    ¬ ∀ (batchSize : ℕ) (s : Outbox) (tie : ℕ → String → ℕ), 1 ≤ batchSize →
      s.Drains batchSize tie := by
  intro h
  obtain ⟨t, -, hrun, -⟩ := h 2 .ofRef (fun _ _ ↦ 0) (by decide)
  have hpasses : (runUntilWait 2 2 .ofRef fun _ ↦ ⟨fun _ ↦ 0, none⟩).map Prod.snd = some 1 := by
    decide
  rw [hrun 2 (by decide)] at hpasses
  have hone : (pendingDocs Outbox.ofRef.events).length / 2 + 1 = 1 := Option.some.inj hpasses
  exact absurd hone (by decide)

/-! ## The loop and its awaits -/

/-- What the loop sees of the system it runs in. -/
def IndexerState.outbox (s : IndexerState) (sent : List (List EventDocument)) : Outbox where
  events := s.events
  metrics := s.metrics
  sent := sent

/-- **A pass of the loop is a run of the system**: with the mapping known, a pass whose requests get
through and a pass whose bulk request fails do, await by await, what `pass` does at once. -/
theorem pass_is_run (batchSize : ℕ) {s : IndexerState} (hready : s.mappingReady = true)
    (hidle : s.phase = .idle) (sent : List (List EventDocument)) (tie : String → ℕ)
    (failed : Bool) :
    ∃ as t, (indexerMachine batchSize).exec s as = some t ∧ t.phase = .idle ∧
      t.mappingReady = true ∧
      t.events = (pass batchSize (s.outbox sent)
        ⟨tie, if failed then some .bulkIndex else none⟩).1.events ∧
      t.metrics = (pass batchSize (s.outbox sent)
        ⟨tie, if failed then some .bulkIndex else none⟩).1.metrics := by
  obtain ⟨events, server, mappingReady, phase, metrics⟩ := s
  obtain rfl : mappingReady = true := hready
  obtain rfl : phase = .idle := hidle
  have hfetch : (indexerMachine batchSize).step ⟨events, server, true, .idle, metrics⟩ (.fetch tie)
      = match rebuildAll (fetchUnindexed events tie batchSize) with
        | none => some (IndexerState.failed ⟨events, server, true, .idle, metrics⟩)
        | some batch =>
          if batch.isEmpty then some ⟨events, server, true, .idle, metrics⟩
          else some (IndexerState.sending ⟨events, server, true, .idle, metrics⟩ batch) := rfl
  by_cases hnil : fetchUnindexed events tie batchSize = []
  · -- Nothing is pending, and the pass ends with the query.
    refine ⟨[.fetch tie], ⟨events, server, true, .idle, metrics⟩, ?_, rfl, rfl, ?_, ?_⟩
    · simp [Machine.exec_cons, hfetch, hnil, rebuildAll]
    · cases failed <;> simp [pass, indexPending, IndexerState.outbox, hnil]
    · cases failed <;> simp [pass, indexPending, IndexerState.outbox, hnil]
  · cases hrebuilt : rebuildAll (fetchUnindexed events tie batchSize) with
    | none =>
      -- A document is no event: the pass ends with the query, too.
      rw [hrebuilt] at hfetch
      refine ⟨[.fetch tie], _, ((indexerMachine batchSize).exec_cons_eq_some).mpr ⟨_, hfetch, rfl⟩,
        rfl, rfl, ?_, ?_⟩
      · cases failed <;> simp [pass, indexPending, IndexerState.outbox, hnil, hrebuilt,
          IndexerState.failed]
      · cases failed <;> simp [pass, indexPending, IndexerState.outbox, hnil, hrebuilt,
          IndexerState.failed]
    | some batch =>
      have hne : batch.isEmpty = false := by
        rw [rebuildAll_eq_some hrebuilt]
        simpa using hnil
      rw [hrebuilt] at hfetch
      dsimp only at hfetch
      rw [hne, if_neg Bool.false_ne_true] at hfetch
      cases hdumps : batch.all EventRecord.dumps with
      | false =>
        rw [IndexerState.sending, hdumps, if_neg Bool.false_ne_true] at hfetch
        refine ⟨[.fetch tie], _,
          ((indexerMachine batchSize).exec_cons_eq_some).mpr ⟨_, hfetch, rfl⟩, rfl, rfl, ?_, ?_⟩
        · cases failed <;> simp [pass, indexPending, IndexerState.outbox, hnil, hrebuilt, hdumps,
            IndexerState.failed]
        · cases failed <;> simp [pass, indexPending, IndexerState.outbox, hnil, hrebuilt, hdumps,
            IndexerState.failed]
      | true =>
        rw [IndexerState.sending, hdumps, if_pos rfl] at hfetch
        cases failed with
        | false =>
          refine ⟨[.fetch tie, .bulk (.answered fun _ ↦ false), .mark none], _,
            ((indexerMachine batchSize).exec_cons_eq_some).mpr ⟨_, hfetch, rfl⟩, rfl, rfl, ?_, ?_⟩
          · simp [pass, indexPending, IndexerState.outbox, hnil, hrebuilt, hdumps]
          · simp [pass, indexPending, IndexerState.outbox, hnil, hrebuilt, hdumps]
        | true =>
          refine ⟨[.fetch tie, .bulk (.transport false fun _ ↦ false)], _,
            ((indexerMachine batchSize).exec_cons_eq_some).mpr ⟨_, hfetch, rfl⟩, rfl, rfl, ?_, ?_⟩
          · simp [pass, indexPending, IndexerState.outbox, hnil, hrebuilt, hdumps,
              IndexerState.failed]
          · simp [pass, indexPending, IndexerState.outbox, hnil, hrebuilt, hdumps,
              IndexerState.failed]

end Acheron
