import Acheron.Event.Iso
import Acheron.Storage.Stats

/-!
# The realtime summary

`MongoStore.aggregate_recent_counts`: the counts by type since `window_seconds` ago. The match stage
bounds the timestamps from below and not from above. Events are stamped by the client, and one that
is stamped ahead of the clock is in every summary from now on until the window has passed it.

`recent_counts_iff` says when the summary is the one of the window: when no event is ahead of the
clock, and the window begins in a year that Python has.
-/

open Paging Grouping

namespace Acheron

/-- `datetime.now(timezone.utc)`. -/
structure UtcClock where
  /-- Microseconds since 1970-01-01T00:00:00. -/
  micros : ℤ
  micros_mem : minWall ≤ micros ∧ micros < wallEnd

theorem utcOffset_mem : ∀ m ∈ some (0 : ℤ), -1440 < m ∧ m < 1440 := by simp

/-- The aware `datetime` of a UTC instant. -/
def UtcClock.toDateTime (now : UtcClock) : DateTime :=
  ⟨now.micros, some 0, now.micros_mem, utcOffset_mem⟩

/-- `now - timedelta(seconds=seconds)`; `none` is an `OverflowError`. -/
def UtcClock.ago (now : UtcClock) (seconds : ℕ) : Option DateTime :=
  if h : minWall ≤ now.micros - seconds * 1000000 ∧ now.micros - seconds * 1000000 < wallEnd then
    some (UtcClock.toDateTime ⟨now.micros - seconds * 1000000, h⟩)
  else none

/-- The summary. -/
structure RecentSummary where
  windowSeconds : ℕ
  since : String
  total : ℕ
  byType : List StatRow

/-- The orders in which Mongo may answer the aggregation, whatever `since` is. -/
abbrev RecentAnswer (c : Events) : Type :=
  ∀ since : DateTime, Ordering (StatRow.sortKey none) (statRows c (some since) none none)

/-- `MongoStore.aggregate_recent_counts`. Its pipeline is that of `aggregate_counts` with a lower
bound and no interval. -/
def aggregateRecentCounts (c : Events) (now : UtcClock) (windowSeconds : ℕ)
    (answer : RecentAnswer c) : Option RecentSummary :=
  (now.ago windowSeconds).map fun since ↦
    let byType := aggregateCounts c (some since) none none (answer since)
    { windowSeconds := windowSeconds
      since := since.pyIsoformat
      total := totalCount byType
      byType := byType }

/-- The instant is in the window, at the resolution of the store. -/
def inWindow (now : UtcClock) (windowSeconds : ℕ) (timestamp : BsonDate) : Bool :=
  (now.micros - windowSeconds * 1000000) / 1000 ≤ timestamp.millis
    && timestamp.millis ≤ now.micros / 1000

/-- The summary has a row for each type with an event in the window, with the number of these. -/
def CountsWindow (c : Events) (now : UtcClock) (windowSeconds : ℕ) (answer : RecentAnswer c) :
    Prop :=
  ∃ summary, aggregateRecentCounts c now windowSeconds answer = some summary ∧
    (∀ row, row ∈ summary.byType ↔ row.bucket = none ∧ 0 < row.count ∧
      row.count = c.docs.countP fun d ↦
        d.event.eventType = row.eventType && inWindow now windowSeconds d.event.timestamp) ∧
    (summary.byType.map StatRow.eventType).Nodup ∧
    summary.total = totalCount summary.byType

/-! ## The window -/

namespace UtcClock

variable {now : UtcClock} {seconds : ℕ}

theorem ago_eq_none (h : now.micros - seconds * 1000000 < minWall) : now.ago seconds = none := by
  rw [ago, dif_neg fun hmem ↦ absurd hmem.1 (by omega)]

/-- A reading in range is exact to the microsecond, so at the resolution of the store too. -/
theorem exists_ago (h : minWall ≤ now.micros - seconds * 1000000) :
    ∃ since, now.ago seconds = some since ∧
      since.toBson.millis = (now.micros - seconds * 1000000) / 1000 := by
  have hmem : minWall ≤ now.micros - seconds * 1000000
      ∧ now.micros - seconds * 1000000 < wallEnd := ⟨h, by have := now.micros_mem.2; omega⟩
  refine ⟨_, by rw [ago, dif_pos hmem], ?_⟩
  simp [toDateTime, DateTime.toBson, DateTime.instant]

end UtcClock

/-- Two counts of one list, of which one counts more, are the same only if it does not. -/
theorem forall_of_countP_eq {α : Type} {xs : List α} {p q : α → Bool}
    (h : xs.countP p = xs.countP fun x ↦ p x && q x) : ∀ x ∈ xs, p x = true → q x = true := by
  have hfilter : ((xs.filter p).filter q).length = (xs.filter p).length := by
    rw [List.filter_filter, ← List.countP_eq_length_filter, ← List.countP_eq_length_filter, h]
    exact List.countP_congr fun x _ ↦ by simp [and_comm]
  rw [List.length_filter_eq_length_iff] at hfilter
  exact fun x hx hp ↦ hfilter x (List.mem_filter.mpr ⟨hx, hp⟩)

section Summary

variable {c : Events} {now : UtcClock} {windowSeconds : ℕ} {answer : RecentAnswer c}

/-- The events of a type from the beginning of the window on, which is what a row counts. -/
def fromWindow (now : UtcClock) (windowSeconds : ℕ) (t : String) (d : EventDoc BsonDate) : Bool :=
  d.event.eventType = t &&
    (now.micros - windowSeconds * 1000000) / 1000 ≤ d.event.timestamp.millis

/-- The ones in the window are those of them that are not ahead of the clock. -/
theorem inWindow_eq (t : String) (d : EventDoc BsonDate) :
    (decide (d.event.eventType = t) && inWindow now windowSeconds d.event.timestamp)
      = (fromWindow now windowSeconds t d
        && decide (d.event.timestamp.millis ≤ now.micros / 1000)) := by
  rw [inWindow, fromWindow, Bool.and_assoc]

/-- The summary, when there is one. -/
theorem exists_summary (h : minWall ≤ now.micros - windowSeconds * 1000000) :
    ∃ summary, aggregateRecentCounts c now windowSeconds answer = some summary ∧
      (∀ row, row ∈ summary.byType ↔ row.bucket = none ∧ 0 < row.count ∧
        row.count = c.docs.countP (fromWindow now windowSeconds row.eventType)) ∧
      (summary.byType.map StatRow.eventType).Nodup ∧
      summary.total = totalCount summary.byType := by
  obtain ⟨since, hago, hmillis⟩ := UtcClock.exists_ago h
  rw [aggregateRecentCounts, hago]
  refine ⟨_, rfl, fun row ↦ ?_, nodup_eventType_aggregateCounts, rfl⟩
  have hrange (d : EventDoc BsonDate) : (decide (d.event.eventType = row.eventType)
      && inRange (some since) none d.event.timestamp)
        = fromWindow now windowSeconds row.eventType d := by
    simp [inRange, hmillis, fromWindow]
  simp only [mem_aggregateCounts_none, hrange]

theorem past_of_countsWindow (h : CountsWindow c now windowSeconds answer) :
    minWall ≤ now.micros - windowSeconds * 1000000 ∧
      ∀ d ∈ c.docs, d.event.timestamp.millis ≤ now.micros / 1000 := by
  by_cases hbegin : minWall ≤ now.micros - windowSeconds * 1000000
  · refine ⟨hbegin, fun d hd ↦ ?_⟩
    by_contra hlate
    obtain ⟨summary, hsome, hrows, -, -⟩ := @exists_summary c now windowSeconds answer hbegin
    obtain ⟨summary', hsome', hcounts, -, -⟩ := h
    obtain rfl := Option.some.inj (hsome.symm.trans hsome')
    have hin : fromWindow now windowSeconds d.event.eventType d = true := by
      simp only [fromWindow, decide_true, Bool.true_and, decide_eq_true_eq]
      omega
    -- The row of its type counts the late event, and should not.
    obtain ⟨-, -, hcount⟩ := (hcounts ⟨d.event.eventType, none, _⟩).mp
      ((hrows ⟨d.event.eventType, none, c.docs.countP (fromWindow now windowSeconds _)⟩).mpr
        ⟨rfl, List.countP_pos_iff.mpr ⟨d, hd, hin⟩, rfl⟩)
    simp only [inWindow_eq] at hcount
    exact hlate (of_decide_eq_true (forall_of_countP_eq hcount d hd hin))
  · obtain ⟨summary, hsome, -⟩ := h
    rw [aggregateRecentCounts, UtcClock.ago_eq_none (by omega)] at hsome
    exact absurd hsome (by simp)

theorem countsWindow_of_past (hbegin : minWall ≤ now.micros - windowSeconds * 1000000)
    (hpast : ∀ d ∈ c.docs, d.event.timestamp.millis ≤ now.micros / 1000) :
    CountsWindow c now windowSeconds answer := by
  obtain ⟨summary, hsome, hrows, hnodup, htotal⟩ :=
    @exists_summary c now windowSeconds answer hbegin
  refine ⟨summary, hsome, fun row ↦ ?_, hnodup, htotal⟩
  rw [hrows]
  refine and_congr_right fun _ ↦ and_congr_right fun _ ↦ ?_
  rw [List.countP_congr fun d hd ↦ ?_]
  rw [inWindow_eq, decide_eq_true (hpast d hd), Bool.and_true]

end Summary

/-- **The summary counts the window, exactly when no stored event is ahead of the clock** and the
window begins within Python's years. -/
theorem recent_counts_iff (c : Events) (now : UtcClock) (windowSeconds : ℕ)
    (answer : RecentAnswer c) :
    CountsWindow c now windowSeconds answer ↔
      minWall ≤ now.micros - windowSeconds * 1000000 ∧
        ∀ d ∈ c.docs, d.event.timestamp.millis ≤ now.micros / 1000 :=
  ⟨past_of_countsWindow, fun h ↦ countsWindow_of_past h.1 h.2⟩

theorem newYear_mem : minWall ≤ (1767225600000000 : ℤ) ∧ (1767225600000000 : ℤ) < wallEnd := by
  decide

theorem newYearAtOne_mem :
    minWall ≤ (1767229200000000 : ℤ) ∧ (1767229200000000 : ℤ) < wallEnd := by decide

/-- An event stamped an hour ahead of midnight, the server's time. -/
def aheadEvents : Events :=
  (bulkWrite .empty [{ makeEvent "e1" with
    timestamp := UtcClock.toDateTime ⟨1767229200000000, newYearAtOne_mem⟩ }]
    (.answered fun _ ↦ false)).1

/-- The summary of the last five minutes counts it. -/
theorem recent_counts_ahead :
    ¬ ∀ answer, CountsWindow aheadEvents ⟨1767225600000000, newYear_mem⟩ 300 answer := by
  intro h
  have hpast := (past_of_countsWindow (h fun since ↦ .sort _ _)).2 _ List.mem_cons_self
  exact absurd hpast (by decide)

end Acheron
