import Acheron.Cache.CacheAside
import Acheron.Cache.Keys
import Acheron.Storage.Recent
import Acheron.Worker.Rollup

/-!
# `GET /events/stats/realtime`

The route is one `get_or_set` under one key, with `aggregate_recent_counts` as its factory: the
factory reads the clock, and then Mongo counts the events there are by then. `realtimeMachine` runs
any number of requests, while events are inserted and marked.

## The way of a summary

A summary is a `dict`, which is encoded, decoded by another request perhaps, and validated by the
response model. `RealtimeSummary.ofJson_toJson` says that the validation accepts it and gives what
it was. What the requests do with the cache is a run of `cacheMachine`, step for step, so
`cache_transparent` speaks of them; `realtime_served` reads it back: which aggregation an answer
comes from, and when.
-/

open Runs Paging Grouping

namespace Acheron

/-- `EventTypeCount`. -/
@[ext] structure EventTypeCount where
  eventType : String
  count : ℤ

/-- `RealtimeSummary`. -/
@[ext] structure RealtimeSummary where
  windowSeconds : ℤ
  since : String
  total : ℤ
  byType : List EventTypeCount

/-- A row of the aggregation, as `$project` leaves it. -/
def StatRow.toJson (row : StatRow) : Json :=
  .obj [("count", .int row.count), ("event_type", .str row.eventType)]

/-- The `dict` that `aggregate_recent_counts` returns. -/
def RecentSummary.toJson (d : RecentSummary) : Json :=
  .obj [("window_seconds", .int d.windowSeconds), ("since", .str d.since), ("total", .int d.total),
    ("by_type", .arr (d.byType.map StatRow.toJson))]

namespace Json

/-- An item of a `dict`. -/
def member (key : String) : Json → Option Json
  | .obj members => (members.find? fun m ↦ m.1 = key).map Prod.snd
  | _ => none

/-- A field of type `int`. -/
def asInt : Json → Option ℤ
  | .int n => some n
  | _ => none

/-- A field of type `str`. -/
def asStr : Json → Option String
  | .str s => some s
  | _ => none

/-- A field of a list type. -/
def asArr : Json → Option (List Json)
  | .arr items => some items
  | _ => none

end Json

/-- The validation of an `EventTypeCount`. -/
def EventTypeCount.ofJson (v : Json) : Option EventTypeCount := do
  let eventType ← (← v.member "event_type").asStr
  let count ← (← v.member "count").asInt
  some ⟨eventType, count⟩

/-- The validation of a `RealtimeSummary`. -/
def RealtimeSummary.ofJson (v : Json) : Option RealtimeSummary := do
  let windowSeconds ← (← v.member "window_seconds").asInt
  let since ← (← v.member "since").asStr
  let total ← (← v.member "total").asInt
  let byType ← (← (← v.member "by_type").asArr).mapM EventTypeCount.ofJson
  some ⟨windowSeconds, since, total, byType⟩

/-- What `get_realtime_stats` answers. -/
inductive RealtimeAnswer where
  | ok (data : RealtimeSummary) (cached : Bool)
  /-- An `HTTPException`. -/
  | error (status : ℕ) (detail : String)
  /-- Another exception. -/
  | raised

/-- `get_realtime_stats`, with what `get_or_set` returns or raises. -/
def getRealtimeStats : Except (CacheError CallError) (Json × Bool) → RealtimeAnswer
  | .ok (data, hit) =>
    match RealtimeSummary.ofJson data with
    | some summary => .ok summary hit
    | none => .raised
  | .error (.factory .pyMongo) => .error 503 "Event store temporarily unavailable"
  | .error _ => .raised

/-! ## The summary as JSON -/

namespace RecentSummary

/-- The row of the response. -/
def viewRow (row : StatRow) : EventTypeCount := ⟨row.eventType, row.count⟩

/-- The summary of the response. -/
def view (d : RecentSummary) : RealtimeSummary :=
  ⟨d.windowSeconds, d.since, d.total, d.byType.map viewRow⟩

theorem ofJson_row (row : StatRow) : EventTypeCount.ofJson row.toJson = some (viewRow row) := rfl

/-- **The response model accepts a summary, and gives what it was.** -/
theorem ofJson_toJson (d : RecentSummary) : RealtimeSummary.ofJson d.toJson = some d.view := by
  have hrows : (d.byType.map StatRow.toJson).mapM EventTypeCount.ofJson
      = some (d.byType.map viewRow) := by
    induction d.byType with
    | nil => rfl
    | cons row rows ih => rw [List.map_cons, List.mapM_cons, ofJson_row, ih]; rfl
  have hfields : RealtimeSummary.ofJson d.toJson
      = ((d.byType.map StatRow.toJson).mapM EventTypeCount.ofJson).bind fun byType ↦
          some ⟨d.windowSeconds, d.since, d.total, byType⟩ := rfl
  rw [hfields, hrows]
  rfl

theorem itemsKeysDistinct_rows (rows : List StatRow) :
    Json.itemsKeysDistinct (rows.map StatRow.toJson) = true := by
  induction rows with
  | nil => rfl
  | cons row rows ih =>
    rw [List.map_cons, Json.itemsKeysDistinct, ih, Bool.and_true]
    simp [StatRow.toJson, Json.keysDistinct, Json.membersKeysDistinct]

theorem keysDistinct_toJson (d : RecentSummary) : d.toJson.keysDistinct = true := by
  simp [toJson, Json.keysDistinct, Json.membersKeysDistinct, itemsKeysDistinct_rows]

/-- There is no float in a summary. -/
theorem floatsRepr_toJson (float : List Char → Json) (d : RecentSummary) :
    Json.FloatsRepr float d.toJson := by
  have hrows (rows : List StatRow) : Json.ItemsRepr float (rows.map StatRow.toJson) := by
    induction rows with
    | nil => trivial
    | cons row rows ih => exact ⟨⟨trivial, trivial, trivial⟩, ih⟩
  exact ⟨trivial, trivial, trivial, hrows _, trivial⟩

/-- The summary as the value of a factory. -/
def value (float : List Char → Json) (d : RecentSummary) : JsonValue float :=
  ⟨d.toJson, d.keysDistinct_toJson, d.floatsRepr_toJson float⟩

end RecentSummary

/-- What a summary of the events says, the clock having been read. -/
structure CountsFrom (c : Events) (now : UtcClock) (windowSeconds : ℕ) (d : RealtimeSummary) :
    Prop where
  window : d.windowSeconds = windowSeconds
  since : ∃ since, now.ago windowSeconds = some since ∧ d.since = since.pyIsoformat
  total : d.total = c.docs.countP fun e ↦
    (now.micros - windowSeconds * 1000000) / 1000 ≤ e.event.timestamp.millis
  types : (d.byType.map EventTypeCount.eventType).Nodup
  rows : ∀ row, row ∈ d.byType ↔
    0 < row.count ∧ row.count = c.docs.countP (fromWindow now windowSeconds row.eventType)

theorem countsFrom_aggregateRecentCounts {c : Events} {now : UtcClock} {windowSeconds : ℕ}
    {answer : RecentAnswer c} {d : RecentSummary}
    (h : aggregateRecentCounts c now windowSeconds answer = some d) :
    CountsFrom c now windowSeconds d.view := by
  obtain ⟨since, hago, rfl⟩ := Option.map_eq_some_iff.mp h
  have hbegin : minWall ≤ now.micros - windowSeconds * 1000000 := by
    by_contra hearly
    rw [UtcClock.ago_eq_none (by omega)] at hago
    cases hago
  obtain ⟨d', hd', hrows, htypes, -⟩ := @exists_summary c now windowSeconds answer hbegin
  obtain rfl := Option.some.inj (h.symm.trans hd')
  obtain ⟨since', hago', hmillis⟩ := UtcClock.exists_ago hbegin
  obtain rfl := Option.some.inj (hago.symm.trans hago')
  refine ⟨rfl, ⟨since, hago, rfl⟩, ?_, ?_, fun row ↦ ?_⟩
  · have htotal : totalCount (aggregateCounts c (some since) none none (answer since))
        = c.docs.countP fun e ↦ inRange (some since) none e.event.timestamp := by
      rw [totalCount_aggregateCounts, matchStage_eq, ← List.countP_eq_length_filter,
        List.countP_map]
      rfl
    simp [RecentSummary.view, htotal, inRange, hmillis]
  · rwa [RecentSummary.view, List.map_map]
  · rw [RecentSummary.view, List.mem_map]
    constructor
    · rintro ⟨r, hr, rfl⟩
      obtain ⟨-, hpos, hcount⟩ := (hrows r).mp hr
      exact ⟨Int.natCast_pos.mpr hpos, congrArg Int.ofNat hcount⟩
    · rintro ⟨hpos, hcount⟩
      have hrow := (hrows ⟨row.eventType, none, c.docs.countP (fromWindow now windowSeconds _)⟩).mpr
        ⟨rfl, Int.natCast_pos.mp (hcount ▸ hpos), rfl⟩
      exact ⟨_, hrow, EventTypeCount.ext rfl hcount.symm⟩

/-! ## The requests -/

/-- The events, Redis with the `get_or_set` calls of the requests, and what the clock has said to
those whose factory is under way. -/
structure RealtimeState (float : List Char → Json) (ι : Type) where
  events : Events
  cache : CacheState float ι CallError
  reading : ι → Option UtcClock

/-- What may happen next. -/
inductive RealtimeAction (float : List Char → Json) (ι : Type) where
  | insert (batch : List EventDocument) (o : InsertOutcome)
  | markIndexed (eventIds : List String)
  /-- A step of the cache, or of a request outside its factory. -/
  | cache (a : CacheAction float ι CallError)
  /-- The factory of a request reads the clock. -/
  | read (i : ι) (now : UtcClock)
  | aggregate (i : ι) (answer : ∀ c : Events, RecentAnswer c)
  | aggregateError (i : ι) (e : CallError)

/-- The step is not one of a factory. -/
def CacheAction.outside {float : List Char → Json} {ι ε : Type} : CacheAction float ι ε → Bool
  | .compute _ _ => false
  | .computeError _ _ => false
  | _ => true

section Machine

variable {float : List Char → Json} {ι : Type} [DecidableEq ι] (ttl : ℤ) (windowSeconds : ℕ)

/-- The cache of the requests. -/
abbrev summaryCache : Machine (CacheState float ι CallError) (CacheAction float ι CallError) :=
  cacheMachine (fun _ ↦ summaryKey) fun _ ↦ ttl

/-- The cache takes a step. -/
def RealtimeState.caches (s : RealtimeState float ι) (a : CacheAction float ι CallError) :
    Option (RealtimeState float ι) :=
  ((summaryCache ttl).step s.cache a).map fun cache ↦ { s with cache := cache }

/-- Any number of requests, and what happens to the events meanwhile. -/
def realtimeMachine : Machine (RealtimeState float ι) (RealtimeAction float ι) where
  init s := (summaryCache ttl).init s.cache ∧ ∀ i, s.reading i = none
  step s
    | .insert batch o => some { s with events := (bulkWrite s.events batch o).1 }
    | .markIndexed eventIds => some { s with events := Acheron.markIndexed s.events eventIds }
    | .cache a => if a.outside then s.caches ttl a else none
    | .read i now =>
      match s.cache.calls i, s.reading i with
      | .computing, none =>
        match now.ago windowSeconds with
        | some _ => some { s with reading := Function.update s.reading i (some now) }
        -- The window begins before the year 1.
        | none => s.caches ttl (.computeError i .foreign)
      | _, _ => none
    | .aggregate i answer =>
      match s.reading i with
      | some now =>
        match aggregateRecentCounts s.events now windowSeconds (answer s.events) with
        | some d => s.caches ttl (.compute i (d.value float))
        | none => none
      | none => none
    | .aggregateError i e =>
      match s.reading i with
      | some _ => s.caches ttl (.computeError i e)
      | none => none

end Machine

/-- What `get_or_set` has given a request. -/
def CachePhase.result {float : List Char → Json} {ε : Type} :
    CachePhase float ε → Option (Except (CacheError ε) (Json × Bool))
  | .returned v hit => some (.ok (v, hit))
  | .raised e => some (.error e)
  | _ => none

/-- The answer to a request, once there is one. -/
def RealtimeState.answer {float : List Char → Json} {ι : Type} (s : RealtimeState float ι) (i : ι) :
    Option RealtimeAnswer := (s.cache.calls i).result.map getRealtimeStats

/-- What a step is to the cache. -/
def onCache {float : List Char → Json} {ι : Type} (windowSeconds : ℕ) (s : RealtimeState float ι) :
    RealtimeAction float ι → Option (CacheAction float ι CallError)
  | .insert _ _ | .markIndexed _ => none
  | .cache a => some a
  | .read i now => if (now.ago windowSeconds).isSome then none else some (.computeError i .foreign)
  | .aggregate i answer =>
    ((s.reading i).bind fun now ↦
      aggregateRecentCounts s.events now windowSeconds (answer s.events)).map fun d ↦
        .compute i (d.value float)
  | .aggregateError i e => some (.computeError i e)

/-! ## What a step does -/

section Steps

variable {float : List Char → Json} {ι : Type} [DecidableEq ι] {ttl : ℤ} {windowSeconds : ℕ}
  {s t : RealtimeState float ι}

/-- What a step does. -/
inductive RealtimeMove (ttl : ℤ) (windowSeconds : ℕ) (s : RealtimeState float ι) :
    RealtimeAction float ι → RealtimeState float ι → Prop
  /-- The events change, and remain. -/
  | store {a : RealtimeAction float ι} {c : Events}
      (ha : (∃ batch o, a = .insert batch o) ∨ ∃ eventIds, a = .markIndexed eventIds)
      (hgrown : Grown s.events c) :
      RealtimeMove ttl windowSeconds s a { s with events := c }
  | cache {a : CacheAction float ι CallError} {cache : CacheState float ι CallError}
      (ha : a.outside = true) (hstep : (summaryCache ttl).step s.cache a = some cache) :
      RealtimeMove ttl windowSeconds s (.cache a) { s with cache := cache }
  | read {i : ι} {now : UtcClock} {since : DateTime} (hnone : s.reading i = none)
      (hago : now.ago windowSeconds = some since) :
      RealtimeMove ttl windowSeconds s (.read i now)
        { s with reading := Function.update s.reading i (some now) }
  | overflow {i : ι} {now : UtcClock} {cache : CacheState float ι CallError}
      (hago : now.ago windowSeconds = none)
      (hstep : (summaryCache ttl).step s.cache (.computeError i .foreign) = some cache) :
      RealtimeMove ttl windowSeconds s (.read i now) { s with cache := cache }
  | aggregate {i : ι} {answer : ∀ c : Events, RecentAnswer c} {now : UtcClock} {d : RecentSummary}
      {cache : CacheState float ι CallError} (hreading : s.reading i = some now)
      (hd : aggregateRecentCounts s.events now windowSeconds (answer s.events) = some d)
      (hstep : (summaryCache ttl).step s.cache (.compute i (d.value float)) = some cache) :
      RealtimeMove ttl windowSeconds s (.aggregate i answer) { s with cache := cache }
  | aggregateError {i : ι} {e : CallError} {cache : CacheState float ι CallError}
      (hstep : (summaryCache ttl).step s.cache (.computeError i e) = some cache) :
      RealtimeMove ttl windowSeconds s (.aggregateError i e) { s with cache := cache }

/-- **The inversion of a step.** -/
theorem realtimeMove_of_step {a : RealtimeAction float ι}
    (h : (realtimeMachine ttl windowSeconds).step s a = some t) :
    RealtimeMove ttl windowSeconds s a t := by
  cases a with
  | insert batch o =>
    exact Option.some.inj h ▸ .store (Or.inl ⟨batch, o, rfl⟩) (grown_bulkWrite s.events batch o)
  | markIndexed eventIds =>
    exact Option.some.inj h ▸ .store (Or.inr ⟨eventIds, rfl⟩) (grown_markIndexed s.events eventIds)
  | cache a =>
    simp only [realtimeMachine] at h
    split at h
    next ha =>
      obtain ⟨cache, hcache, rfl⟩ := Option.map_eq_some_iff.mp h
      exact .cache ha hcache
    next => exact absurd h (by simp)
  | read i now =>
    simp only [realtimeMachine] at h
    split at h
    next hreading =>
      split at h
      next since hago => exact Option.some.inj h ▸ .read hreading hago
      next hago =>
        obtain ⟨cache, hcache, rfl⟩ := Option.map_eq_some_iff.mp h
        exact .overflow hago hcache
    next => exact absurd h (by simp)
  | aggregate i answer =>
    simp only [realtimeMachine] at h
    split at h
    next now hreading =>
      split at h
      next d hd =>
        obtain ⟨cache, hcache, rfl⟩ := Option.map_eq_some_iff.mp h
        exact .aggregate hreading hd hcache
      next => exact absurd h (by simp)
    next => exact absurd h (by simp)
  | aggregateError i e =>
    simp only [realtimeMachine] at h
    split at h
    next =>
      obtain ⟨cache, hcache, rfl⟩ := Option.map_eq_some_iff.mp h
      exact .aggregateError hcache
    next => exact absurd h (by simp)

/-- Outside the factories the cache takes its steps. -/
theorem realtimeStep_cache {a : CacheAction float ι CallError}
    {cache : CacheState float ι CallError} (ha : a.outside = true)
    (h : (summaryCache ttl).step s.cache a = some cache) :
    (realtimeMachine ttl windowSeconds).step s (.cache a) = some { s with cache := cache } := by
  have hcaches : s.caches ttl a = some { s with cache := cache } := by
    rw [RealtimeState.caches, h, Option.map_some]
  exact (if_pos ha).trans hcaches

/-- What a step is to the cache, the cache does. -/
theorem exec_onCache {a : RealtimeAction float ι}
    (h : (realtimeMachine ttl windowSeconds).step s a = some t) :
    (summaryCache ttl).exec s.cache (onCache windowSeconds s a).toList = some t.cache := by
  have hone {b : CacheAction float ι CallError} {cache : CacheState float ι CallError}
      (hb : (summaryCache ttl).step s.cache b = some cache) :
      (summaryCache ttl).exec s.cache [b] = some cache :=
    (Machine.exec_cons_eq_some _).mpr ⟨cache, hb, rfl⟩
  have hmove := realtimeMove_of_step h
  cases hmove with
  | store ha hgrown =>
    rcases ha with ⟨batch, o, rfl⟩ | ⟨eventIds, rfl⟩
    · rfl
    · rfl
  | cache ha hstep => exact hone hstep
  | read hnone hago => rw [onCache, hago]; rfl
  | overflow hago hstep => rw [onCache, hago]; exact hone hstep
  | aggregate hreading hd hstep =>
    rw [onCache, hreading, Option.bind_some, hd]
    exact hone hstep
  | aggregateError hstep => exact hone hstep

theorem grown_realtimeStep {a : RealtimeAction float ι}
    (h : (realtimeMachine ttl windowSeconds).step s a = some t) : Grown s.events t.events := by
  have hmove := realtimeMove_of_step h
  cases hmove with
  | store ha hgrown => exact hgrown
  | cache _ _ | read _ _ | overflow _ _ | aggregate _ _ _ | aggregateError _ => exact .refl _

/-- A reading is there, or is made. -/
theorem reading_realtimeStep {a : RealtimeAction float ι} {i : ι} {now : UtcClock}
    (h : (realtimeMachine ttl windowSeconds).step s a = some t) (ht : t.reading i = some now) :
    s.reading i = some now ∨ a = .read i now := by
  have hmove := realtimeMove_of_step h
  cases hmove with
  | @read j now' since hnone hago =>
    rcases eq_or_ne i j with rfl | hne
    · obtain rfl : now' = now := by simpa using ht
      exact Or.inr rfl
    · exact Or.inl (by simpa [hne] using ht)
  | store _ _ | cache _ _ | overflow _ _ | aggregate _ _ _ | aggregateError _ => exact Or.inl ht

end Steps

/-! ## Where an answer comes from -/

section Causes

variable {float : List Char → Json} {ι : Type} [DecidableEq ι] {ttl : ℤ} {windowSeconds : ℕ}
  {s t : RealtimeState float ι} {as : List (RealtimeAction float ι)}

omit [DecidableEq ι] in
/-- What the cache sees outside the factories, it does itself. -/
theorem eq_cache_of_onCache {a : RealtimeAction float ι} {b : CacheAction float ι CallError}
    (h : onCache windowSeconds s a = some b) (hb : b.outside = true) : a = .cache b := by
  cases a with
  | cache a => exact congrArg _ (Option.some.inj h)
  | insert _ _ | markIndexed _ => exact absurd h (by simp [onCache])
  | read i now =>
    rw [onCache] at h
    split at h
    next => exact absurd h (by simp)
    next => exact absurd hb (by rw [← Option.some.inj h]; simp [CacheAction.outside])
  | aggregate i answer =>
    obtain ⟨d, -, rfl⟩ := Option.map_eq_some_iff.mp h
    exact absurd hb (by simp [CacheAction.outside])
  | aggregateError i e =>
    exact absurd hb (by rw [← Option.some.inj h]; simp [CacheAction.outside])

/-- A value comes from an aggregation. -/
theorem aggregate_of_onCache {a : RealtimeAction float ι} {i : ι} {c : JsonValue float}
    (h : onCache windowSeconds s a = some (.compute i c))
    (hstep : (realtimeMachine ttl windowSeconds).step s a = some t) :
    ∃ answer now d, a = .aggregate i answer ∧ s.reading i = some now ∧
      aggregateRecentCounts s.events now windowSeconds (answer s.events) = some d ∧
      c = d.value float := by
  cases a with
  | cache a =>
    obtain rfl := Option.some.inj h
    exact absurd hstep (by simp [realtimeMachine, CacheAction.outside])
  | insert _ _ | markIndexed _ | aggregateError _ _ => exact absurd h (by simp [onCache])
  | read i now =>
    rw [onCache] at h
    split at h
    next => exact absurd h (by simp)
    next => exact absurd (Option.some.inj h) (by simp)
  | aggregate j answer =>
    obtain ⟨d, hd, hvalue⟩ := Option.map_eq_some_iff.mp h
    obtain ⟨now, hreading, hd⟩ := Option.bind_eq_some_iff.mp hd
    obtain ⟨rfl, rfl⟩ := CacheAction.compute.inj hvalue
    exact ⟨answer, now, d, rfl, hreading, hd, rfl⟩

/-- What a factory raises comes from Mongo, or from the clock. -/
theorem error_of_onCache {a : RealtimeAction float ι} {i : ι} {e : CallError}
    (h : onCache windowSeconds s a = some (.computeError i e))
    (hstep : (realtimeMachine ttl windowSeconds).step s a = some t) :
    a = .aggregateError i e ∨
      e = .foreign ∧ ∃ now, a = .read i now ∧ now.ago windowSeconds = none := by
  cases a with
  | cache a =>
    obtain rfl := Option.some.inj h
    exact absurd hstep (by simp [realtimeMachine, CacheAction.outside])
  | insert _ _ | markIndexed _ => exact absurd h (by simp [onCache])
  | aggregate j answer =>
    obtain ⟨d, -, hvalue⟩ := Option.map_eq_some_iff.mp h
    exact absurd hvalue (by simp)
  | read j now =>
    rw [onCache] at h
    split at h
    next => exact absurd h (by simp)
    next hago =>
      obtain ⟨rfl, rfl⟩ := CacheAction.computeError.inj (Option.some.inj h)
      exact Or.inr ⟨rfl, now, rfl, by simpa using hago⟩
  | aggregateError j e' =>
    obtain ⟨rfl, rfl⟩ := CacheAction.computeError.inj (Option.some.inj h)
    exact Or.inl rfl

variable (ttl windowSeconds)

/-- The aggregation of a request has given the summary: it counts the events there were at that
moment, and that is at least those there were when the request read the clock. -/
def Summarised (s : RealtimeState float ι) (as : List (RealtimeAction float ι)) (i : ι)
    (d : RealtimeSummary) : Prop :=
  ∃ bs now cs answer ds r u, as = bs ++ .read i now :: cs ++ .aggregate i answer :: ds ∧
    (realtimeMachine ttl windowSeconds).exec s bs = some r ∧
    (realtimeMachine ttl windowSeconds).exec s (bs ++ .read i now :: cs) = some u ∧
    Grown r.events u.events ∧ CountsFrom u.events now windowSeconds d

variable {ttl windowSeconds}

/-- What is seen of a run by the cache, the cache does. -/
theorem cache_projects (h : (realtimeMachine ttl windowSeconds).exec s as = some t) :
    (summaryCache ttl).exec s.cache
      ((realtimeMachine ttl windowSeconds).trace (onCache windowSeconds) s as) = some t.cache :=
  Machine.exec_trace RealtimeState.cache (fun _ _ _ ↦ exec_onCache) h

theorem grown_realtimeExec (h : (realtimeMachine ttl windowSeconds).exec s as = some t) :
    Grown s.events t.events :=
  Machine.exec_preserves (P := fun u ↦ Grown s.events u.events)
    (fun _ _ _ hu hstep ↦ hu.trans (grown_realtimeStep hstep)) (.refl _) h

/-- **A value of a factory is a summary.** -/
theorem summarised_of_compute (hinit : (realtimeMachine ttl windowSeconds).init s)
    (h : (realtimeMachine ttl windowSeconds).exec s as = some t) {i : ι} {c : JsonValue float}
    (hc : .compute i c ∈ (realtimeMachine ttl windowSeconds).trace (onCache windowSeconds) s as) :
    ∃ d : RecentSummary, c = d.value float ∧ Summarised ttl windowSeconds s as i d.view := by
  obtain ⟨xs, ys, htrace⟩ := List.append_of_mem hc
  obtain ⟨bs, a, ds, u, v, rfl, hu, hstep, hseen, -, -⟩ := Machine.exists_step_of_trace h htrace
  obtain ⟨answer, now, d, rfl, hreading, hd, rfl⟩ := aggregate_of_onCache hseen hstep
  -- The clock was read before.
  obtain ⟨es, b, cs, r, r', rfl, hr, hnot, hb, hread⟩ :=
    Machine.exists_cause (P := fun w ↦ w.reading i = some now) (by simp [hinit.2 i]) hreading hu
  obtain rfl := (reading_realtimeStep hb hread).resolve_left hnot
  refine ⟨d, rfl, es, now, cs, answer, ds, r, u, rfl, hr, hu, ?_,
    countsFrom_aggregateRecentCounts hd⟩
  exact grown_realtimeExec (Machine.exec_from _ hu hr)

/-- What a factory has raised, when the route is answered. -/
theorem error_of_raised (hinit : (realtimeMachine ttl windowSeconds).init s)
    (h : (realtimeMachine ttl windowSeconds).exec s as = some t) {i : ι} {e : CacheError CallError}
    (hphase : t.cache.calls i = .raised e) : ∃ x, e = .factory x ∧ (.aggregateError i x ∈ as ∨
      x = .foreign ∧ ∃ now, .read i now ∈ as ∧ now.ago windowSeconds = none) := by
  obtain ⟨x, rfl, hmem⟩ := (cache_transparent hinit.1 (cache_projects h) i).1 e hphase
  refine ⟨x, rfl, ?_⟩
  obtain ⟨xs, ys, htrace⟩ := List.append_of_mem hmem
  obtain ⟨bs, a, ds, u, v, rfl, -, hstep, hseen, -, -⟩ := Machine.exists_step_of_trace h htrace
  rcases error_of_onCache hseen hstep with rfl | ⟨rfl, now, rfl, hago⟩
  · exact Or.inl (by simp)
  · exact Or.inr ⟨rfl, now, by simp, hago⟩

/-- What a request returns uncached, its own aggregation has given. -/
theorem summarised_of_miss (hinit : (realtimeMachine ttl windowSeconds).init s)
    (h : (realtimeMachine ttl windowSeconds).exec s as = some t) {i : ι} {v : Json}
    (hphase : t.cache.calls i = .returned v false) :
    ∃ d : RecentSummary, v = d.toJson ∧ Summarised ttl windowSeconds s as i d.view := by
  obtain ⟨c, rfl, hmem⟩ := (cache_transparent hinit.1 (cache_projects h) i).2.1 v hphase
  obtain ⟨d, rfl, hd⟩ := summarised_of_compute hinit h ((hmem c).mpr rfl)
  exact ⟨d, rfl, hd⟩

/-- What a request returns from the cache, an aggregation has given, and not long ago. -/
theorem summarised_of_hit (hinit : (realtimeMachine ttl windowSeconds).init s)
    (h : (realtimeMachine ttl windowSeconds).exec s as = some t) {i : ι} {v : Json}
    (hphase : t.cache.calls i = .returned v true) :
    ∃ d : RecentSummary, v = d.toJson ∧ ∃ j bs cs ds u w,
      as = bs ++ .cache (.executeSet j) :: cs ++ .cache (.get i) :: ds ∧
      Summarised ttl windowSeconds s bs j d.view ∧
      (realtimeMachine ttl windowSeconds).exec s bs = some u ∧
      (realtimeMachine ttl windowSeconds).exec s (bs ++ .cache (.executeSet j) :: cs) = some w ∧
      u.cache.now ≤ w.cache.now ∧ (w.cache.now : ℤ) ≤ u.cache.now + ttl * 1000 := by
  obtain ⟨j, c, -, rfl, xs, ys, zs, u', w', htrace, hmem, hu', hw', hle, httl⟩ :=
    (cache_transparent hinit.1 (cache_projects h) i).2.2 v hphase
  -- The `GET` of the request, and the `SET` before it, as steps of the run.
  obtain ⟨es, a, ds, w, -, rfl, hw, -, hget, hes, -⟩ := Machine.exists_step_of_trace h htrace
  obtain rfl := eq_cache_of_onCache hget rfl
  obtain ⟨bs, b, cs, u, -, rfl, hu, -, hset, hbs, -⟩ := Machine.exists_step_of_trace hw hes
  obtain rfl := eq_cache_of_onCache hset rfl
  obtain rfl : u.cache = u' := Option.some.inj ((hbs ▸ cache_projects hu).symm.trans hu')
  obtain rfl : w.cache = w' := Option.some.inj ((hes ▸ cache_projects hw).symm.trans hw')
  obtain ⟨d, rfl, hd⟩ := summarised_of_compute hinit hu (hbs.symm ▸ hmem)
  exact ⟨d, rfl, j, bs, cs, ds, u, w, rfl, hd, hu, hw, hle, httl⟩

omit [DecidableEq ι] in
/-- How a request came to its answer. -/
theorem phase_of_answer {i : ι} {x : RealtimeAnswer} (h : t.answer i = some x) :
    (∃ v hit, t.cache.calls i = .returned v hit ∧ getRealtimeStats (.ok (v, hit)) = x) ∨
      ∃ e, t.cache.calls i = .raised e ∧ getRealtimeStats (.error e) = x := by
  obtain ⟨r, hr, rfl⟩ := Option.map_eq_some_iff.mp h
  cases hphase : t.cache.calls i with
  | returned v hit =>
    rw [hphase] at hr
    exact Or.inl ⟨v, hit, rfl, congrArg _ (Option.some.inj hr)⟩
  | raised e =>
    rw [hphase] at hr
    exact Or.inr ⟨e, rfl, congrArg _ (Option.some.inj hr)⟩
  | idle | getting | answered _ | computing | setting _ =>
    exact absurd (hphase ▸ hr) (by simp [CachePhase.result])

/-- A summary is read from its JSON. -/
theorem view_eq_of_toJson_eq {d d' : RecentSummary} (h : d.toJson = d'.toJson) :
    d.view = d'.view := by
  have hview := d.ofJson_toJson
  rw [h, d'.ofJson_toJson] at hview
  exact (Option.some.inj hview).symm

/-- A summary is answered as it is. -/
theorem getRealtimeStats_toJson (d : RecentSummary) (hit : Bool) :
    getRealtimeStats (.ok (d.toJson, hit)) = .ok d.view hit := by
  rw [getRealtimeStats, d.ofJson_toJson]

/-- A value that is returned is a summary. -/
theorem exists_toJson (hinit : (realtimeMachine ttl windowSeconds).init s)
    (h : (realtimeMachine ttl windowSeconds).exec s as = some t) {i : ι} {v : Json} {hit : Bool}
    (hphase : t.cache.calls i = .returned v hit) : ∃ d : RecentSummary, v = d.toJson := by
  cases hit with
  | false =>
    obtain ⟨d, hd, -⟩ := summarised_of_miss hinit h hphase
    exact ⟨d, hd⟩
  | true =>
    obtain ⟨d, hd, -⟩ := summarised_of_hit hinit h hphase
    exact ⟨d, hd⟩

/-- An answer with data has a summary in it. -/
theorem returned_of_ok (hinit : (realtimeMachine ttl windowSeconds).init s)
    (h : (realtimeMachine ttl windowSeconds).exec s as = some t) {i : ι} {d : RealtimeSummary}
    {hit : Bool} (hanswer : t.answer i = some (.ok d hit)) :
    ∃ d' : RecentSummary, t.cache.calls i = .returned d'.toJson hit ∧ d'.view = d := by
  rcases phase_of_answer hanswer with ⟨v, hit', hphase, hx⟩ | ⟨e, hphase, hx⟩
  · obtain ⟨d', rfl⟩ := exists_toJson hinit h hphase
    rw [getRealtimeStats_toJson] at hx
    obtain ⟨rfl, rfl⟩ := RealtimeAnswer.ok.inj hx
    exact ⟨d', hphase, rfl⟩
  · obtain ⟨x, rfl, -⟩ := error_of_raised hinit h hphase
    cases x <;> exact absurd hx (by simp [getRealtimeStats])

/-- An answer without data is for what the factory of the request has raised. -/
theorem raised_of_not_ok (hinit : (realtimeMachine ttl windowSeconds).init s)
    (h : (realtimeMachine ttl windowSeconds).exec s as = some t) {i : ι} {x : RealtimeAnswer}
    (hanswer : t.answer i = some x) (hx : ∀ d hit, x ≠ .ok d hit) :
    ∃ e, x = getRealtimeStats (.error (.factory e)) ∧ (.aggregateError i e ∈ as ∨
      e = .foreign ∧ ∃ now, .read i now ∈ as ∧ now.ago windowSeconds = none) := by
  rcases phase_of_answer hanswer with ⟨v, hit, hphase, rfl⟩ | ⟨e, hphase, rfl⟩
  · obtain ⟨d, rfl⟩ := exists_toJson hinit h hphase
    exact absurd (getRealtimeStats_toJson d hit) (hx d.view hit)
  · obtain ⟨e, rfl, hcause⟩ := error_of_raised hinit h hphase
    exact ⟨e, rfl, hcause⟩

/-- **A request is answered with a summary that an aggregation has given.** Redis, whatever it
does, never makes a request fail: 503 is for an aggregation of the request's own that raised a
`PyMongoError`, and any other failure for one that raised something else, or for a clock from which
the window reaches back before the year 1. An answer that is not from the cache is what the
request's own aggregation has given. One from the cache is what the aggregation of some request
has given, whose `SET` took effect after that and at most the TTL before the `GET`. -/
theorem realtime_served (float : List Char → Json) (ι : Type) [DecidableEq ι] (ttl : ℤ)
    (windowSeconds : ℕ) (s t : RealtimeState float ι) (as : List (RealtimeAction float ι))
    (hinit : (realtimeMachine ttl windowSeconds).init s)
    (h : (realtimeMachine ttl windowSeconds).exec s as = some t) (i : ι) :
    (∀ status detail, t.answer i = some (.error status detail) →
        status = 503 ∧ .aggregateError i .pyMongo ∈ as) ∧
      (t.answer i = some .raised → .aggregateError i .foreign ∈ as ∨
        ∃ now, .read i now ∈ as ∧ now.ago windowSeconds = none) ∧
      (∀ d, t.answer i = some (.ok d false) → Summarised ttl windowSeconds s as i d) ∧
      ∀ d, t.answer i = some (.ok d true) → ∃ j bs cs ds u v,
        as = bs ++ .cache (.executeSet j) :: cs ++ .cache (.get i) :: ds ∧
        Summarised ttl windowSeconds s bs j d ∧
        (realtimeMachine ttl windowSeconds).exec s bs = some u ∧
        (realtimeMachine ttl windowSeconds).exec s (bs ++ .cache (.executeSet j) :: cs) = some v ∧
        u.cache.now ≤ v.cache.now ∧ (v.cache.now : ℤ) ≤ u.cache.now + ttl * 1000 := by
  refine ⟨fun status detail hanswer ↦ ?_, fun hanswer ↦ ?_, fun d hanswer ↦ ?_, fun d hanswer ↦ ?_⟩
  · obtain ⟨e, he, hcause⟩ := raised_of_not_ok hinit h hanswer (by simp)
    cases e with
    | pyMongo =>
      obtain ⟨rfl, -⟩ := RealtimeAnswer.error.inj he
      exact ⟨rfl, hcause.resolve_right (by simp)⟩
    | foreign => exact absurd he (by simp [getRealtimeStats])
  · obtain ⟨e, he, hcause⟩ := raised_of_not_ok hinit h hanswer (by simp)
    cases e with
    | pyMongo => exact absurd he (by simp [getRealtimeStats])
    | foreign => exact hcause.imp_right And.right
  · obtain ⟨d', hphase, rfl⟩ := returned_of_ok hinit h hanswer
    obtain ⟨d, hd, hsummarised⟩ := summarised_of_miss hinit h hphase
    rw [view_eq_of_toJson_eq hd]
    exact hsummarised
  · obtain ⟨d', hphase, rfl⟩ := returned_of_ok hinit h hanswer
    obtain ⟨d, hd, hserved⟩ := summarised_of_hit hinit h hphase
    rw [view_eq_of_toJson_eq hd]
    exact hserved

end Causes

/-- An event of midnight, the server's time. -/
def midnightEvent (eventId : String) : EventDocument :=
  { makeEvent eventId with timestamp := UtcClock.toDateTime ⟨1767225600000000, newYear_mem⟩ }

/-- Nothing is stored, and no request has arrived. -/
def RealtimeState.start : RealtimeState (fun _ ↦ .null) (Fin 2) where
  events := .empty
  cache := ⟨0, fun _ ↦ none, fun _ ↦ .idle, fun _ ↦ none, 0, 0⟩
  reading _ := none

/-- The second request finds what the first has cached, though there is another event by then. -/
def staleRun : List (RealtimeAction (fun _ ↦ .null) (Fin 2)) :=
  [.insert [midnightEvent "e1"] (.answered fun _ ↦ false), .cache (.call 0), .cache (.get 0),
    .cache (.resume 0), .read 0 ⟨1767225600000000, newYear_mem⟩,
    .aggregate 0 fun _ _ ↦ .sort _ _, .cache (.executeSet 0), .cache (.setReply 0),
    .insert [midnightEvent "e2"] (.answered fun _ ↦ false), .cache (.tick 15000), .cache (.call 1),
    .cache (.get 1)]

theorem staleRun_exec : ∃ t, ∃ d : RecentSummary,
    (realtimeMachine 15 300).exec .start staleRun = some t ∧ d.total = 1 ∧
      t.cache.calls 1 = .answered (.ok (some d.toJson.dumps)) :=
  ⟨_, _, rfl, rfl, rfl⟩

theorem staleRun_served : ∃ t, ∃ d : RealtimeSummary,
    (realtimeMachine 15 300).exec .start (staleRun ++ [.cache (.resume 1)]) = some t ∧
      t.answer 1 = some (.ok d true) ∧ d.total = 1 ∧
      ∃ j bs, Summarised 15 300 .start bs j d := by
  obtain ⟨u, d, hu, htotal, hanswered⟩ := staleRun_exec
  have hloads : Json.loads (fun _ ↦ .null) d.toJson.dumps = some d.toJson :=
    Json.loads_dumps (d.floatsRepr_toJson _) d.keysDistinct_toJson
  have hcache : (summaryCache 15).step u.cache (.resume 1) = _ := step_hit hanswered hloads
  have hrun := (Machine.exec_concat_eq_some (realtimeMachine 15 300)).mpr
    ⟨u, hu, realtimeStep_cache rfl hcache⟩
  have hanswer : RealtimeState.answer { u with cache :=
      { u.cache.goTo 1 (.returned d.toJson true) with hits := u.cache.hits + 1 } } 1
        = some (.ok d.view true) := by
    simp [RealtimeState.answer, CacheState.goTo, CachePhase.result, getRealtimeStats_toJson]
  refine ⟨_, d.view, hrun, hanswer, congrArg Nat.cast htotal, ?_⟩
  obtain ⟨-, -, -, hhit⟩ := realtime_served (fun _ ↦ .null) (Fin 2) 15 300 .start _
    (staleRun ++ [.cache (.resume 1)]) ⟨⟨fun _ ↦ rfl, fun _ ↦ rfl, fun _ ↦ rfl⟩, fun _ ↦ rfl⟩ hrun 1
  obtain ⟨j, bs, -, -, -, -, -, hsummarised, -⟩ := hhit d.view hanswer
  exact ⟨j, bs, hsummarised⟩

end Acheron
