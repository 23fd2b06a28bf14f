import Acheron.Worker.Rollup

/-!
# `GET /events/stats`

The unfiltered, unbucketed call is served from the rollup if there is one, every other call from an
aggregation. `rollup_agrees` compares the two.
-/

open Runs Paging

namespace Acheron

/-- Where the counts come from. -/
inductive StatsSource where
  | rollup
  | live

/-- `StatsResponse`. -/
structure StatsResponse where
  data : List StatRow
  total : ℕ
  interval : Option TimeUnit
  source : StatsSource
  computedAt : Option String

/-- What `get_stats` answers. -/
inductive StatsAnswer where
  | ok (response : StatsResponse)
  /-- An `HTTPException`. -/
  | error (status : ℕ) (detail : String)
  /-- Another exception. -/
  | raised

/-- `except PyMongoError`. -/
def StatsAnswer.ofCallError : CallError → StatsAnswer
  | .pyMongo => .error 503 "Event store temporarily unavailable"
  | .foreign => .raised

/-- `get_stats`, with what the read of the rollup and the aggregation give if they are made. -/
def getStats (fromTs toTs : Option DateTime) (interval : Option TimeUnit)
    (rollup : Except CallError (Option RollupDoc)) (counts : Except CallError (List StatRow)) :
    StatsAnswer :=
  let precomputed :=
    if fromTs.isNone && toTs.isNone && interval.isNone then rollup else .ok none
  match precomputed with
  | .error e => .ofCallError e
  | .ok (some r) => .ok ⟨r.counts, r.total, none, .rollup, some r.computedAt⟩
  | .ok none =>
    match counts with
    | .error e => .ofCallError e
    | .ok data => .ok ⟨data, totalCount data, interval, .live, none⟩

/-- **The rollup is what an aggregation answered on an earlier state; its counts are at most the
present ones and do not decrease; a refresh that fails leaves it; and with no insert since its
aggregation the answer from it is the live one.** A refresh fails when it raises without effect; one
whose acknowledgement alone is lost has replaced the rollup. -/
theorem rollup_agrees {s t : RollupState} {as : List RollupAction} (hinit : rollupMachine.init s)
    (hrun : rollupMachine.exec s as = some t) :
    (∀ r, t.rollup = some r → r.total = totalCount r.counts ∧
      ∃ bs cs u, as = bs ++ cs ∧ rollupMachine.exec s bs = some u ∧
        ∀ answer : CountsAnswer u.events,
          r.counts = aggregateCounts u.events none none none answer) ∧
    (∀ r, t.rollup = some r → ∀ row ∈ r.counts, ∀ answer : CountsAnswer t.events,
      ∃ row' ∈ aggregateCounts t.events none none none answer,
        row'.eventType = row.eventType ∧ row.count ≤ row'.count) ∧
    (∀ {bs cs u}, as = bs ++ cs → rollupMachine.exec s bs = some u →
      (∀ {r r'}, u.rollup = some r → t.rollup = some r' → ∀ row ∈ r.counts,
        ∃ row' ∈ r'.counts, row'.eventType = row.eventType ∧ row.count ≤ row'.count) ∧
      ((∀ now, .upsert now ∉ cs) → t.rollup = u.rollup)) ∧
    ∀ {bs answer cs now}, as = bs ++ .aggregate answer :: cs → (∀ batch o, .insert batch o ∉ cs) →
      .upsert now ∈ cs → ∀ (answer' : CountsAnswer t.events) counts, ∃ x y,
        getStats none none none (.ok t.rollup) counts = .ok x ∧
        getStats none none none (.ok none)
          (.ok (aggregateCounts t.events none none none answer')) = .ok y ∧
        x.data = y.data ∧ x.total = y.total := by
  have hbacked : Backed t := backed_exec (backed_of_init hinit) hrun
  refine ⟨fun r hr ↦ ?_, fun r hr row hrow answer ↦ ?_, fun has hu ↦ ⟨?_, fun hnone ↦ ?_⟩, ?_⟩
  · obtain ⟨htotal, hcounts⟩ := hbacked.stored r hr
    obtain ⟨-, bs, cs, u, has, hu, hevents⟩ := passed_of_exec hinit hrun
    exact ⟨htotal, bs, cs, u, has, hu, hevents ▸ hcounts⟩
  · obtain ⟨-, hcounts⟩ := hbacked.stored r hr
    exact hcounts.mono (countsOf_aggregate _ answer) (hbacked.before.trans hbacked.behind) hrow
  · intro r r' hr hr' row hrow
    obtain rfl := has
    have hrest := rollupMachine.exec_from hrun hu
    have hearlier := backed_exec (backed_of_init hinit) hu
    exact (hearlier.stored r hr).2.mono (hbacked.stored r' hr').2 (rollupSeen_grown hearlier hrest)
      hrow
  · obtain rfl := has
    have hrest := rollupMachine.exec_from hrun hu
    exact rollup_of_no_upsert hrest hnone
  · intro bs answer cs now has hinsert hupsert answer' counts
    obtain rfl := has
    obtain ⟨u, hu, hrest⟩ := rollupMachine.exec_append_eq_some.mp hrun
    obtain ⟨r, hr, htotal, hcounts⟩ :=
      counts_of_no_insert (backed_exec (backed_of_init hinit) hu) hrest hinsert hupsert
    rw [hr]
    refine ⟨_, _, rfl, rfl, hcounts answer', ?_⟩
    rw [← hcounts answer']
    exact htotal

/-- A collection that is counted once, and again after an insert. -/
def countedRun : List RollupAction :=
  [.aggregate fun _ ↦ Ordering.sort _ _, .upsert .epoch,
    .insert [makeEvent "e1"] (.answered fun _ ↦ false), .aggregate fun _ ↦ Ordering.sort _ _,
    .upsertError, .aggregate fun _ ↦ Ordering.sort _ _, .upsert .epoch]

theorem countedRun_agrees :
    ∃ t, rollupMachine.exec ⟨.empty, none, .waiting, .empty, .empty⟩ countedRun = some t ∧
      ∀ (answer : CountsAnswer t.events) counts, ∃ x y,
        getStats none none none (.ok t.rollup) counts = .ok x ∧
        getStats none none none (.ok none)
          (.ok (aggregateCounts t.events none none none answer)) = .ok y ∧
        x.data = y.data ∧ x.total = y.total := by
  have hrun : rollupMachine.exec ⟨.empty, none, .waiting, .empty, .empty⟩ countedRun = some _ := rfl
  obtain ⟨-, -, -, hfresh⟩ := rollup_agrees ⟨rfl, rfl, rfl, rfl⟩ hrun
  have hlast : countedRun = countedRun.take 5 ++
      .aggregate (fun _ ↦ Ordering.sort _ _) :: [.upsert .epoch] := rfl
  exact ⟨_, hrun, hfresh hlast (by simp) List.mem_cons_self⟩

end Acheron
