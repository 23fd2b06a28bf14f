import Mathlib.Data.PNat.Basic
import Acheron.Lib.Paging
import Acheron.Storage.Filter

/-!
# Listings

`GET /events` and `GET /events/dlq`, read page by page. Both sort by a timestamp and by nothing
else, so where two documents have the same one Mongo may order them differently in each query; an
`Ordering` is what it answers to one. `find_events` asks for one document more than the page, which
tells whether there is a next page; `list_dead_letters` counts.

`pagination_covers_iff` says when the pages fit together.
-/

open Paging

namespace Acheron

/-- The sort key of `find_events`, newest first. -/
def EventRecord.recency (e : EventRecord BsonDate) : ℤ := -e.timestamp.millis

/-- The sort key of `list_dead_letters`, newest failure first. -/
def DeadLetterDoc.recency (d : DeadLetterDoc BsonDate) : ℤ := -d.failedAt.millis

/-- The events a filter selects, as `find` projects them. -/
def matching (c : Events) (q : EventFilters) : List (EventRecord BsonDate) :=
  (c.docs.map EventDoc.event).filter (mongoFilter q).Matches

/-- `MongoStore.find_events`: the page, whether there is a further one, and the number of matches if
it is asked for. -/
def findEvents (c : Events) (q : EventFilters) (answer : Ordering EventRecord.recency (matching c q))
    (limit offset : ℕ) (withTotal : Bool) : List (EventRecord BsonDate) × Bool × Option ℕ :=
  let docs := (answer.items.drop offset).take (limit + 1)
  (docs.take limit, decide (limit < docs.length),
    if withTotal then some (matching c q).length else none)

/-- `MongoStore.list_dead_letters`: the page and the number of records. -/
def listDeadLetters (c : DeadLetters) (answer : Ordering DeadLetterDoc.recency c.docs)
    (limit offset : ℕ) : List (DeadLetterDoc BsonDate) × ℕ :=
  ((answer.items.drop offset).take limit, c.docs.length)

/-- Page `n` of `GET /events`, read while `has_more`; each query has its own answer. -/
def eventPages (c : Events) (q : EventFilters) (limit : ℕ) (withTotal : Bool)
    (answers : ℕ → Ordering EventRecord.recency (matching c q)) (n : ℕ) :
    List (EventRecord BsonDate) × Bool :=
  let r := findEvents c q (answers n) limit (n * limit) withTotal
  (r.1, r.2.1)

/-- Page `n` of `GET /events/dlq`, read until the next offset reaches the total. -/
def deadLetterPages (c : DeadLetters) (limit : ℕ) (answers : ℕ → Ordering DeadLetterDoc.recency c.docs)
    (n : ℕ) : List (DeadLetterDoc BsonDate) × Bool :=
  let r := listDeadLetters c (answers n) limit (n * limit)
  (r.1, decide ((n + 1) * limit < r.2))

/-! ## What a page says -/

theorem matching_nodup (c : Events) (q : EventFilters) : (matching c q).Nodup := by
  have hids : (c.docs.map fun d ↦ d.event.eventId).Nodup := by
    have hid : (fun d : EventDoc BsonDate ↦ d.event.eventId) = EventDoc.id :=
      funext fun d ↦ d.id_eq.symm
    rw [hid]
    exact c.nodup
  have hevents : (c.docs.map EventDoc.event).Nodup := by
    refine List.Nodup.of_map EventRecord.eventId ?_
    rw [List.map_map]
    exact hids
  exact hevents.filter _

theorem eventPages_page (c : Events) (q : EventFilters) (limit : ℕ) (withTotal : Bool)
    (answers : ℕ → Ordering EventRecord.recency (matching c q)) (n : ℕ) :
    (eventPages c q limit withTotal answers n).1 = page (answers n).items limit n := by
  rw [eventPages, findEvents, page]
  dsimp only
  rw [List.take_take, Nat.min_eq_left (Nat.le_succ limit)]

/-- The document beyond the page tells whether there is a further page. -/
theorem eventPages_more (c : Events) (q : EventFilters) (limit : ℕ) (withTotal : Bool)
    (answers : ℕ → Ordering EventRecord.recency (matching c q)) (n : ℕ) :
    (eventPages c q limit withTotal answers n).2
      = decide ((n + 1) * limit < (matching c q).length) := by
  rw [eventPages, findEvents]
  dsimp only
  rw [List.length_take, List.length_drop, (answers n).length_items, Nat.succ_mul]
  refine decide_eq_decide.mpr ?_
  omega

theorem deadLetterPages_page (c : DeadLetters) (limit : ℕ)
    (answers : ℕ → Ordering DeadLetterDoc.recency c.docs) (n : ℕ) :
    (deadLetterPages c limit answers n).1 = page (answers n).items limit n := rfl

theorem deadLetterPages_more (c : DeadLetters) (limit : ℕ)
    (answers : ℕ → Ordering DeadLetterDoc.recency c.docs) (n : ℕ) :
    (deadLetterPages c limit answers n).2 = decide ((n + 1) * limit < c.docs.length) := rfl

/-! ## All pages -/

/-- The pages of `GET /events` cover the matches exactly when no boundary splits a timestamp. -/
theorem eventPages_cover_iff (c : Events) (q : EventFilters) (limit : ℕ+) (withTotal : Bool) :
    (∀ answers, ∃ fuel events,
        readWhile (eventPages c q limit withTotal answers) fuel 0 = some events ∧
          events.Perm (matching c q))
      ↔ Separated EventRecord.recency (matching c q) limit :=
  covers_iff (matching_nodup c q) limit.pos (eventPages_page c q limit withTotal)
    (eventPages_more c q limit withTotal)

/-- So do those of `GET /events/dlq`. -/
theorem deadLetterPages_cover_iff (c : DeadLetters) (limit : ℕ+) :
    (∀ answers, ∃ fuel records,
        readWhile (deadLetterPages c limit answers) fuel 0 = some records ∧
          records.Perm c.docs)
      ↔ Separated DeadLetterDoc.recency c.docs limit :=
  covers_iff (List.Nodup.of_map _ c.nodup) limit.pos (deadLetterPages_page c limit)
    (deadLetterPages_more c limit)

/-- **Pagination terminates, and covers every record exactly once exactly when no page boundary lies
between two records of the same timestamp.** -/
theorem pagination_covers_iff (c : Events) (q : EventFilters) (c' : DeadLetters) (limit limit' : ℕ+)
    (withTotal : Bool) :
    ((∀ answers, ∃ fuel events,
        readWhile (eventPages c q limit withTotal answers) fuel 0 = some events) ∧
      ((∀ answers, ∃ fuel events,
          readWhile (eventPages c q limit withTotal answers) fuel 0 = some events ∧
            events.Perm (matching c q))
        ↔ Separated EventRecord.recency (matching c q) limit)) ∧
    (∀ answers, ∃ fuel records,
        readWhile (deadLetterPages c' limit' answers) fuel 0 = some records) ∧
      ((∀ answers, ∃ fuel records,
          readWhile (deadLetterPages c' limit' answers) fuel 0 = some records ∧
            records.Perm c'.docs)
        ↔ Separated DeadLetterDoc.recency c'.docs limit') := by
  refine ⟨⟨fun answers ↦ ?_, eventPages_cover_iff c q limit withTotal⟩, fun answers ↦ ?_,
    deadLetterPages_cover_iff c' limit'⟩
  · exact exists_read limit.pos (eventPages_more c q limit withTotal answers)
  · exact exists_read limit'.pos (deadLetterPages_more c' limit' answers)

/-- Two events of one instant, and two records of one instant. -/
def sameInstantEvents : Events :=
  (bulkWrite .empty [makeEvent "e1", makeEvent "e2"] (.answered fun _ ↦ false)).1

def sameInstantRecords : DeadLetters :=
  (persistDeadLetters .empty [entryToDoc ⟨makeEvent "e1", "boom", .epoch⟩,
    entryToDoc ⟨makeEvent "e2", "boom", .epoch⟩] (.answered fun _ ↦ false)).1

/-- Pages of one: neither listing need cover the two. -/
theorem sameInstant_not_covered :
    ¬ (∀ answers, ∃ fuel events,
        readWhile (eventPages sameInstantEvents .none 1 false answers) fuel 0 = some events ∧
          events.Perm (matching sameInstantEvents .none)) ∧
    ¬ ∀ answers, ∃ fuel records,
        readWhile (deadLetterPages sameInstantRecords 1 answers) fuel 0 = some records ∧
          records.Perm sameInstantRecords.docs := by
  refine ⟨fun h ↦ ?_, fun h ↦ ?_⟩
  · exact (eventPages_cover_iff sameInstantEvents .none 1 false).mp h 1 (by decide) (by decide) rfl
  · exact (deadLetterPages_cover_iff sameInstantRecords 1).mp h 1 (by decide) (by decide) rfl

end Acheron
