import Acheron.Api.Replay

/-!
# What a replay writes back

A replayed event has been through four conversions: it is dumped into its dead-letter record, the
record is encoded for BSON and read back, the model is built again from what was read, and the model
is dumped once more for `events`. Only the dates are not what they were — naive, in UTC, and cut to
the millisecond. Taking an instant to its BSON date does not change one that has been there already,
so the document written is the one that the lost write would have stored.
-/

namespace Acheron

/-- An instant in range, floored to the millisecond, reads back as itself. -/
theorem DateTime.toBson_toDateTime {t : DateTime} (h : t.bsonEncodable = true) :
    t.toBson.toDateTime.toBson = t.toBson := by
  obtain ⟨hlow, hhigh⟩ := Bool.and_eq_true_iff.mp h
  have hmin : minWall ≤ t.instant := of_decide_eq_true hlow
  have hend : t.instant < wallEnd := of_decide_eq_true hhigh
  rw [minWall] at hmin
  rw [wallEnd] at hend
  have hwall : t.toBson.toDateTime.wall = t.instant / 1000 * 1000 := by
    change max minWall (min (t.instant / 1000 * 1000) (wallEnd - 1000)) = _
    simp only [minWall, wallEnd]
    omega
  have hinstant : t.toBson.toDateTime.instant = t.instant / 1000 * 1000 := by
    rw [DateTime.instant, hwall]
    change _ - 0 * 60000000 = _
    omega
  rw [DateTime.toBson, hinstant, DateTime.toBson]
  congr 1
  omega

/-- The dates of an event, through its dead letter and back, are stored as they were. -/
theorem encode_rebuild {entry : DLQEntry} (htimestamp : entry.event.timestamp.bsonEncodable = true)
    (hreceived : entry.event.receivedAt.bsonEncodable = true) :
    (toDoc (entryToDoc entry).encode.event.rebuild).encode = (toDoc entry.event).encode := by
  have hevent : (entryToDoc entry).encode.event.rebuild.mapDates DateTime.toBson
      = entry.event.mapDates DateTime.toBson := by
    simp only [entryToDoc, DeadLetterDoc.encode, EventRecord.rebuild, EventRecord.mapDates,
      DateTime.toBson_toDateTime htimestamp, DateTime.toBson_toDateTime hreceived]
  have hid : (entryToDoc entry).encode.event.rebuild.eventId = entry.event.eventId := rfl
  simp only [EventDoc.encode, toDoc, hevent, hid]

/-- The document of a single event. -/
theorem batchDocs_singleton (e : EventDocument) : batchDocs [e] = [(toDoc e).encode] := by
  simp [batchDocs, dedupeById, dedupeLoop]

/-- A write depends on the documents of its batch only. -/
theorem bulkWrite_congr {e e' : EventDocument} (h : (toDoc e).encode = (toDoc e').encode)
    (c : Events) (o : InsertOutcome) : bulkWrite c [e] o = bulkWrite c [e'] o := by
  rw [bulkWrite_of_ne_nil (List.cons_ne_nil e []), bulkWrite_of_ne_nil (List.cons_ne_nil e' []),
    batchDocs_singleton, batchDocs_singleton, h]

/-- A record persisted under an id that was free is the one read back. -/
theorem getDeadLetter_persist {c : DeadLetters} {entry : DLQEntry} {o : InsertOutcome}
    (habsent : entry.event.eventId ∉ c) (hstored : o.blocked 0 = false) :
    getDeadLetter (persistDeadLetters c [entryToDoc entry] o).1 entry.event.eventId
      = some (entryToDoc entry).encode := by
  have hfree : (entryToDoc entry).encode.id ∉ c := habsent
  apply Keyed.Collection.find?_eq_some.mpr
  rw [persistDeadLetters_of_ne_nil (List.cons_ne_nil _ []), List.map_singleton,
    Keyed.Collection.insertMany_cons_notMem hstored hfree]
  exact ⟨List.mem_append_right _ List.mem_cons_self, rfl⟩

/-- **A replay restores exactly the lost write.** Once the dead letter of an event is stored, the
replay that reads it back goes on to a write which, on any `events` collection and with any outcome,
is the write of the event itself: the same document, under the same `_id`, not yet indexed. -/
theorem replay_restores (entry : DLQEntry) (htimestamp : entry.event.timestamp.bsonEncodable = true)
    (hreceived : entry.event.receivedAt.bsonEncodable = true) (m : Mongo) (o : InsertOutcome)
    (habsent : entry.event.eventId ∉ m.deadLetters) (hstored : o.blocked 0 = false) :
    let m' := { m with deadLetters := (persistDeadLetters m.deadLetters [entryToDoc entry] o).1 }
    ∃ event id_eq, replayStep m' (.reading entry.event.eventId) (.read none)
        = some (m', .rewriting entry.event.eventId event id_eq) ∧
      (toDoc event).encode = (toDoc entry.event).encode ∧
      (toDoc event).encode.id = entry.event.eventId ∧ (toDoc event).encode.esIndexed = false ∧
      ∀ c o', bulkWrite c [event] o' = bulkWrite c [entry.event] o' := by
  intro m'
  have hread := getDeadLetter_persist habsent hstored
  have hencode := encode_rebuild htimestamp hreceived
  refine ⟨(entryToDoc entry).encode.event.rebuild, rfl, ?_, hencode, rfl, rfl,
    fun c o' ↦ bulkWrite_congr hencode c o'⟩
  simp only [replayStep]
  split
  case h_1 hnone => exact absurd (hnone.symm.trans hread) (by simp)
  case h_2 record hsome =>
    obtain rfl := Option.some.inj (hsome.symm.trans hread)
    rfl

theorem offsetWall_mem : minWall ≤ (-1 : ℤ) ∧ (-1 : ℤ) < wallEnd := by decide

theorem offset_mem_day : ∀ m ∈ some (330 : ℤ), -1440 < m ∧ m < 1440 := by simp

/-- An event stamped one microsecond before 1970 on a clock at +05:30. -/
def offsetEntry : DLQEntry where
  event := { makeEvent "e1" with timestamp := ⟨-1, some 330, offsetWall_mem, offset_mem_day⟩ }
  reason := "down"
  failedAt := .epoch

/-- The event written back has no offset any more, and the write is the same. -/
theorem replay_restores_offsetEntry :
    let deadLetters :=
      (persistDeadLetters .empty [entryToDoc offsetEntry] (.answered fun _ ↦ false)).1
    ∃ event id_eq, replayStep ⟨.empty, deadLetters⟩ (.reading "e1") (.read none)
        = some (⟨.empty, deadLetters⟩, .rewriting "e1" event id_eq) ∧
      event ≠ offsetEntry.event ∧ (toDoc event).encode = (toDoc offsetEntry.event).encode ∧
      ∀ c o, bulkWrite c [event] o = bulkWrite c [offsetEntry.event] o := by
  intro deadLetters
  obtain ⟨event, id_eq, hread, hencode, -, -, hwrite⟩ := replay_restores offsetEntry (by decide)
    (by decide) ⟨.empty, .empty⟩ (.answered fun _ ↦ false) (Keyed.Collection.notMem_empty _) rfl
  refine ⟨event, id_eq, hread, ?_, hencode, hwrite⟩
  have hrebuilt : event = (entryToDoc offsetEntry).encode.event.rebuild := by
    have hstep := Option.some.inj hread
    exact (ReplayCall.rewriting.inj (Prod.mk.inj hstep).2).2.symm
  rw [hrebuilt]
  exact fun h ↦ absurd (congrArg (fun e : EventDocument ↦ e.timestamp.utcOffset) h) (by decide)

end Acheron
