import Acheron.Api.Listing
import Acheron.Storage.Stats

/-!
# Counts and totals

`aggregate_counts` and the total of `find_events` count the same events in two ways: by grouping
them, and by a filter for each type. They agree on every type but one. `if event_type:` takes an
empty string for no filter at all, so the total for the events of the empty type is the total of all
events, while `$group` gives the empty type a row like any other.

`counts_match_totals_iff` is the exact condition: no event within the bounds is of the empty type,
or all of them are.
-/

open Paging Grouping

namespace Acheron

/-- The events of a type within the bounds. -/
def EventFilters.ofType (eventType : Option String) (fromTs toTs : Option DateTime) :
    EventFilters := ⟨eventType, .none, .none, fromTs, toTs⟩

section Totals

variable (c : Events) (fromTs toTs : Option DateTime)
  (answer : ∀ q, Ordering EventRecord.recency (matching c q)) (limit offset : ℕ)

/-- The total that `find_events` reports with `with_total`. -/
def reportedTotal (eventType : Option String) : Option ℕ :=
  (findEvents c (.ofType eventType fromTs toTs) (answer _) limit offset true).2.2

/-- The listing without a type filter and the counts see the same events. -/
theorem matching_ofType_none :
    matching c (.ofType none fromTs toTs) = matchStage c fromTs toTs := by
  refine List.filter_congr fun e _ ↦ ?_
  simp [EventFilters.ofType, mongoFilter, MongoFilter.Matches, truthy]

theorem reportedTotal_none : reportedTotal c fromTs toTs answer limit offset none
    = some (matchStage c fromTs toTs).length := by
  rw [← matching_ofType_none]
  rfl

/-- The total for a type: its events, or all of them if the type is the empty string. -/
theorem reportedTotal_some (t : String) :
    reportedTotal c fromTs toTs answer limit offset (some t) =
      some (if t = "" then (matchStage c fromTs toTs).length
        else (matchStage c fromTs toTs).countP fun e ↦ e.eventType = t) := by
  have htotal : reportedTotal c fromTs toTs answer limit offset (some t)
      = some (matching c (.ofType (some t) fromTs toTs)).length := rfl
  rw [htotal, ← matching_ofType_none]
  refine congrArg some ?_
  by_cases ht : t = ""
  · rw [if_pos ht]
    refine congrArg List.length (List.filter_congr fun e _ ↦ ?_)
    simp [EventFilters.ofType, mongoFilter, MongoFilter.Matches, truthy, ht]
  · rw [if_neg ht, List.countP_eq_length_filter, matching, matching, List.filter_filter]
    refine congrArg List.length (List.filter_congr fun e _ ↦ ?_)
    simp [EventFilters.ofType, mongoFilter, MongoFilter.Matches, truthy, ht, eq_comm]

variable (a : Ordering (StatRow.sortKey none) (statRows c fromTs toTs none))

/-- The total of each row's type is the row's count, and the totals add up to the total of all. -/
def CountsMatchTotals : Prop :=
  (∀ r ∈ aggregateCounts c fromTs toTs none a,
    reportedTotal c fromTs toTs answer limit offset (some r.eventType) = some r.count) ∧
  reportedTotal c fromTs toTs answer limit offset none
    = some ((aggregateCounts c fromTs toTs none a).map fun r ↦
        (reportedTotal c fromTs toTs answer limit offset (some r.eventType)).getD 0).sum

/-- The rows match exactly when the row of the empty type, if there is one, counts every event. -/
theorem rows_match_iff :
    (∀ r ∈ aggregateCounts c fromTs toTs none a,
      reportedTotal c fromTs toTs answer limit offset (some r.eventType) = some r.count) ↔
    (∀ e ∈ matchStage c fromTs toTs, e.eventType ≠ "") ∨
      ∀ e ∈ matchStage c fromTs toTs, e.eventType = "" := by
  constructor
  · intro h
    by_cases hnone : ∀ e ∈ matchStage c fromTs toTs, e.eventType ≠ ""
    · exact Or.inl hnone
    · obtain ⟨e, he, hempty⟩ : ∃ e ∈ matchStage c fromTs toTs, e.eventType = "" := by
        simpa using hnone
      -- The row of the empty type is reported as the total of all events.
      have hrow := h ⟨"", none, (matchStage c fromTs toTs).countP (·.eventType = "")⟩
        (mem_aggregateCounts.mpr (mem_statRows_none.mpr
          ⟨rfl, mem_groups.mpr ⟨⟨e, he, hempty⟩, rfl⟩⟩))
      rw [reportedTotal_some, if_pos rfl] at hrow
      have hall := List.countP_eq_length.mp (Option.some.inj hrow).symm
      exact Or.inr fun e' he' ↦ of_decide_eq_true (hall e' he')
  · intro h r hr
    obtain ⟨-, hgroup⟩ := mem_statRows_none.mp (mem_aggregateCounts.mp hr)
    obtain ⟨⟨e, he, htype⟩, hcount⟩ := mem_groups.mp hgroup
    rw [reportedTotal_some, hcount]
    refine congrArg some ?_
    rcases h with hnone | hall
    · rw [if_neg (htype ▸ hnone e he)]
    · have hempty : r.eventType = "" := htype.symm.trans (hall e he)
      rw [if_pos hempty, eq_comm, List.countP_eq_length]
      exact fun e' he' ↦ decide_eq_true ((hall e' he').trans hempty.symm)

/-- Matching rows add up. -/
theorem totals_add_up (h : ∀ r ∈ aggregateCounts c fromTs toTs none a,
      reportedTotal c fromTs toTs answer limit offset (some r.eventType) = some r.count) :
    reportedTotal c fromTs toTs answer limit offset none
      = some ((aggregateCounts c fromTs toTs none a).map fun r ↦
          (reportedTotal c fromTs toTs answer limit offset (some r.eventType)).getD 0).sum := by
  have hcounts : (aggregateCounts c fromTs toTs none a).map (fun r ↦
      (reportedTotal c fromTs toTs answer limit offset (some r.eventType)).getD 0)
        = (aggregateCounts c fromTs toTs none a).map StatRow.count :=
    List.map_congr_left fun r hr ↦ by rw [h r hr, Option.getD_some]
  rw [hcounts, reportedTotal_none]
  exact congrArg some (totalCount_aggregateCounts a).symm

end Totals

/-- **Counts and listings agree type by type, exactly when no event within the bounds is of the
empty type or all of them are.** -/
theorem counts_match_totals_iff (c : Events) (fromTs toTs : Option DateTime)
    (a : Ordering (StatRow.sortKey none) (statRows c fromTs toTs none))
    (answer : ∀ q, Ordering EventRecord.recency (matching c q)) (limit offset : ℕ) :
    CountsMatchTotals c fromTs toTs answer limit offset a ↔
      (∀ d ∈ c.docs, inRange fromTs toTs d.event.timestamp = true → d.event.eventType ≠ "") ∨
        ∀ d ∈ c.docs, inRange fromTs toTs d.event.timestamp = true → d.event.eventType = "" := by
  have hmem (P : String → Prop) : (∀ e ∈ matchStage c fromTs toTs, P e.eventType) ↔
      ∀ d ∈ c.docs, inRange fromTs toTs d.event.timestamp = true → P d.event.eventType := by
    rw [matchStage_eq]
    simp only [List.mem_filter, List.mem_map, and_imp, forall_exists_index,
      forall_apply_eq_imp_iff₂]
  rw [← hmem fun t ↦ t ≠ "", ← hmem fun t ↦ t = "",
    ← rows_match_iff c fromTs toTs answer limit offset a]
  exact ⟨And.left, fun h ↦ ⟨h, totals_add_up c fromTs toTs answer limit offset a h⟩⟩

/-- An event of the empty type beside another one. -/
def emptyTypeEvents : Events :=
  (bulkWrite .empty [{ makeEvent "e1" with eventType := "" }, makeEvent "e2"]
    (.answered fun _ ↦ false)).1

/-- The row of the empty type counts one event, and its total is two. -/
theorem emptyType_total :
    ¬ ∀ (a : Ordering (StatRow.sortKey none) (statRows emptyTypeEvents none none none))
      (answer : ∀ q, Ordering EventRecord.recency (matching emptyTypeEvents q)),
      CountsMatchTotals emptyTypeEvents none none answer 50 0 a := by
  intro h
  have hrows := (rows_match_iff emptyTypeEvents none none (fun q ↦ .sort _ _) 50 0
    (.sort _ _)).mp (h _ _).1
  rcases hrows with hnone | hall
  · exact hnone _ List.mem_cons_self rfl
  · exact absurd (hall _ (List.mem_cons_of_mem _ List.mem_cons_self)) (by decide)

end Acheron
