import Acheron.Worker.Mirror
import Acheron.Worker.Origin
import Acheron.Worker.Rollup

/-!
# The platform

The application as `lifespan` puts it together: the pool, the indexer and the rollup scheduler over
one Mongo, with Elasticsearch beside it. `platformMachine` runs them in any interleaving, through
startup, service and the steps of the shutdown, and over any number of processes: a process may die
at any moment, and the next one finds what the stores hold.

## Composition

Each component keeps the machine it has on its own. What it sees of the platform is a state of that
machine, which it has in common with the others as far as the store goes, and what the others do to
the store is a step of its own environment: the marking of the indexer is a `mark` of the pool, the
writes of the pool are inserts to the indexer and to the scheduler. So what is proved of a component
holds of it here, and `Faithful` puts it together.

## Restarts

A call that is under way when the process dies, or when its task is cancelled, has the effect of one
that raises: it takes effect, in part perhaps, or not. It does so before the next process starts.
-/

open Runs

namespace Acheron

/-- Where the lifespan of the process is. -/
inductive Stage where
  /-- In the `ensure_mapping` of the startup. -/
  | mapping
  /-- The workers and the indexer run; the scheduler makes its first refresh. -/
  | starting
  | serving
  /-- In `worker.stop`. -/
  | draining
  | indexerStopped
  | rollupStopped
  | closed
  deriving DecidableEq

/-- The indexer, or the startup on its behalf, may act. -/
def Stage.indexes : Stage → Bool
  | .mapping | .starting | .serving | .draining => true
  | .indexerStopped | .rollupStopped | .closed => false

/-- The scheduler may act. -/
def Stage.refreshes : Stage → Bool
  | .starting | .serving | .draining | .indexerStopped => true
  | .mapping | .rollupStopped | .closed => false

/-- The consumers may act. -/
def Stage.consumes : Stage → Bool
  | .starting | .serving | .draining => true
  | .mapping | .indexerStopped | .rollupStopped | .closed => false

/-- An await of the indexer is over; the other actions are those of its environment. -/
def IndexerAction.ofIndexer : IndexerAction → Bool
  | .fetch _ | .lookup _ | .create _ | .bulk _ | .mark _ => true
  | .write _ _ | .crash | .lose => false

/-- The call raises. -/
def IndexerAction.raises : IndexerAction → Bool
  | .lookup raised => raised
  | .create raised => raised.isSome
  | .bulk (.transport _ _) => true
  | .mark raised => raised.isSome
  | _ => false

/-- A step of a refresh. -/
def RollupAction.ofScheduler : RollupAction → Bool
  | .aggregate _ | .aggregateError | .upsert _ | .upsertError => true
  | .insert _ _ | .markIndexed _ => false

/-- No refresh is under way. -/
def RefreshPhase.isWaiting : RefreshPhase → Bool
  | .waiting => true
  | .upserting _ => false

/-- A step of the startup has ended. -/
def IndexerPhase.isStarting : IndexerPhase → Bool
  | .starting _ => true
  | _ => false

/-- A request of a client. -/
def PoolAction.isRequest {ι ρ : Type} : PoolAction ι ρ → Bool
  | .ingest _ | .replay _ _ => true
  | _ => false

/-- A step of the pool that another component or the lifespan takes. -/
def PoolAction.isForeign {ι ρ : Type} : PoolAction ι ρ → Bool
  | .mark _ | .shutdown | .close => true
  | _ => false

/-- The process and the stores. -/
structure PlatformState (ι ρ : Type) where
  stage : Stage
  /-- The pool, the requests and Mongo. -/
  pool : PoolState ι ρ
  server : EsServer
  mappingReady : Bool
  indexing : IndexerPhase
  indexed : IndexerMetrics
  rollup : Option RollupDoc
  refreshing : RefreshPhase
  /-- History: the events the last aggregation has seen, and the one behind the rollup. -/
  seen : Events
  rollupSeen : Events
  /-- History: what earlier processes have accepted. -/
  before : List (Accepted EventDocument)

/-- What may happen next. -/
inductive PlatformAction (ι ρ : Type) where
  | pool (a : PoolAction ι ρ)
  | index (a : IndexerAction)
  | refresh (a : RollupAction)
  /-- `stop_accepting()`, and `worker.stop()` up to its `await`. -/
  | shutdown
  /-- `es_indexer.stop()`, with what becomes of the call its task is cancelled in. -/
  | stopIndexer (a : Option IndexerAction)
  /-- `rollup.stop()`; an upsert under way may have taken effect. -/
  | stopRollup (upserted : Option DateTime)
  /-- The clients are closed. -/
  | close
  /-- The index is lost. -/
  | loseIndex
  /-- The process ends, wherever it is, and another one starts. -/
  | restart

/-- What happens to the indexer, or to its server. -/
def PlatformAction.indexing {ι ρ : Type} : PlatformAction ι ρ → Option IndexerAction
  | .index a => some a
  | .stopIndexer a => a
  | .loseIndex => some .lose
  | _ => none

variable {ι ρ : Type}

/-- A new process on a Mongo. -/
def PoolState.fresh (ι ρ : Type) (maxSize : ℤ) (mongo : Mongo) : PoolState ι ρ where
  dispatch := ⟨.new maxSize, fun _ ↦ .polling, false, .idle, [], [], []⟩
  worker := ⟨mongo, .new true, ⟨0, 0, 0⟩, fun _ ↦ none, []⟩
  replays _ := .idle
  accepting := true
  lifespan := .running

namespace PlatformState

/-- Mongo's `events`. -/
def events (s : PlatformState ι ρ) : Events := s.pool.worker.mongo.events

/-- Mongo's `events` once they are others. -/
def putEvents (s : PlatformState ι ρ) (c : Events) : PlatformState ι ρ :=
  { s with pool := { s.pool with worker := { s.pool.worker with mongo :=
      { s.pool.worker.mongo with events := c } } } }

/-- What the indexer sees. -/
def indexer (s : PlatformState ι ρ) : IndexerState :=
  ⟨s.events, s.server, s.mappingReady, s.indexing, s.indexed⟩

/-- The platform once the indexer has acted. -/
def putIndexer (s : PlatformState ι ρ) (u : IndexerState) : PlatformState ι ρ :=
  { s.putEvents u.events with
    server := u.server
    mappingReady := u.mappingReady
    indexing := u.phase
    indexed := u.metrics }

/-- What the scheduler sees. -/
def scheduler (s : PlatformState ι ρ) : RollupState :=
  ⟨s.events, s.rollup, s.refreshing, s.seen, s.rollupSeen⟩

/-- The platform once the scheduler has acted. -/
def putScheduler (s : PlatformState ι ρ) (u : RollupState) : PlatformState ι ρ :=
  { s with rollup := u.rollup, refreshing := u.phase, seen := u.seen, rollupSeen := u.rollupSeen }

/-- Everything the processes so far have accepted. -/
def accepted (s : PlatformState ι ρ) : List (Accepted EventDocument) :=
  s.before ++ s.pool.dispatch.accepted

/-- Another process starts. -/
def restarted (maxSize : ℤ) (s : PlatformState ι ρ) : PlatformState ι ρ :=
  { s with
    stage := .mapping
    pool := .fresh ι ρ maxSize s.pool.worker.mongo
    mappingReady := false
    indexing := .starting false
    indexed := ⟨0, 0⟩
    refreshing := .waiting
    before := s.accepted }

end PlatformState

/-- The platform: a queue of up to `maxSize` events, batches of up to `batchSize`, `maxRetries`
retries. -/
def platformMachine (ι ρ : Type) [DecidableEq ι] [DecidableEq ρ] [Fintype ι] (maxSize : ℤ)
    (batchSize : ℕ) (maxRetries : ℤ) : Machine (PlatformState ι ρ) (PlatformAction ι ρ) where
  init s := s = s.restarted maxSize ∧ s.before = [] ∧ s.rollup = none ∧ s.seen = s.events ∧
    s.rollupSeen = s.events
  step s
    | .pool a =>
      if s.stage.consumes && !a.isForeign && (s.stage != .starting || !a.isRequest) then
        ((poolMachine ι ρ batchSize maxRetries).step s.pool a).map fun p ↦ { s with pool := p }
      else none
    | .index a =>
      if s.stage.indexes && a.ofIndexer then
        ((indexerMachine batchSize).step s.indexer a).map fun u ↦
          { s.putIndexer u with
            -- The startup goes on when `ensure_mapping` has returned or raised.
            stage := if s.stage = .mapping && !u.phase.isStarting then .starting else s.stage }
      else none
    | .refresh a =>
      if s.stage.refreshes && a.ofScheduler then
        (rollupMachine.step s.scheduler a).map fun u ↦
          { s.putScheduler u with
            -- `yield`, after the first refresh.
            stage := if s.stage = .starting && u.phase.isWaiting then .serving else s.stage }
      else none
    | .shutdown =>
      if s.stage = .serving then
        ((poolMachine ι ρ batchSize maxRetries).step s.pool .shutdown).map fun p ↦
          { s with pool := p, stage := .draining }
      else none
    | .stopIndexer a =>
      if s.stage = .draining ∧ s.pool.dispatch.join = .completed ∧
          ∀ i, (s.pool.dispatch.consumers i).ended then
        match a with
        | none => some { s with stage := .indexerStopped }
        | some a =>
          -- A cancelled task counts nothing.
          if a.raises then
            ((indexerMachine batchSize).step s.indexer a).map fun u ↦
              { s.putIndexer { u with metrics := s.indexed } with stage := .indexerStopped }
          else none
      else none
    | .stopRollup upserted =>
      if s.stage = .indexerStopped then
        match upserted with
        | none => some { s with refreshing := .waiting, stage := .rollupStopped }
        | some now => (rollupMachine.step s.scheduler (.upsert now)).map fun u ↦
            { s.putScheduler u with stage := .rollupStopped }
      else none
    | .close =>
      if s.stage = .rollupStopped then
        ((poolMachine ι ρ batchSize maxRetries).step s.pool .close).map fun p ↦
          { s with pool := p, stage := .closed }
      else none
    | .loseIndex => some { s with server := none }
    | .restart => some (s.restarted maxSize)

/-! ## What a step does -/

section Steps

variable [DecidableEq ι] [DecidableEq ρ] [Fintype ι] {maxSize : ℤ} {batchSize : ℕ} {maxRetries : ℤ}
  {s t : PlatformState ι ρ}

/-- A step is one of a component, on what it sees. -/
inductive PlatformMove (maxSize : ℤ) (batchSize : ℕ) (maxRetries : ℤ) (s : PlatformState ι ρ) :
    Option IndexerAction → PlatformState ι ρ → Prop
  | pool {a : PoolAction ι ρ} {p : PoolState ι ρ} {stage : Stage}
      (hstep : (poolMachine ι ρ batchSize maxRetries).step s.pool a = some p)
      (ha : a ≠ .close ∨ stage = .closed) (hmark : ∀ eventIds, a ≠ .mark eventIds) :
      PlatformMove maxSize batchSize maxRetries s none { s with pool := p, stage := stage }
  | index {a : IndexerAction} {u : IndexerState} {metrics : IndexerMetrics} {stage : Stage}
      (hopen : s.stage ≠ .closed) (ha : a.ofIndexer = true)
      (hstep : (indexerMachine batchSize).step s.indexer a = some u) :
      PlatformMove maxSize batchSize maxRetries s (some a)
        { s.putIndexer { u with metrics := metrics } with stage := stage }
  | refresh {a : RollupAction} {u : RollupState} {stage : Stage} (hopen : s.stage ≠ .closed)
      (ha : a.ofScheduler = true) (hstep : rollupMachine.step s.scheduler a = some u) :
      PlatformMove maxSize batchSize maxRetries s none { s.putScheduler u with stage := stage }
  /-- A task is cancelled, and leaves nothing behind. -/
  | stop {phase : RefreshPhase} {stage : Stage} (hopen : s.stage ≠ .closed)
      (hphase : phase = s.refreshing ∨ phase = .waiting) :
      PlatformMove maxSize batchSize maxRetries s none
        { s with refreshing := phase, stage := stage }
  | lose : PlatformMove maxSize batchSize maxRetries s (some .lose) { s with server := none }
  | restart : PlatformMove maxSize batchSize maxRetries s none (s.restarted maxSize)

theorem ofIndexer_of_raises {a : IndexerAction} (h : a.raises = true) : a.ofIndexer = true := by
  cases a with
  | fetch _ | lookup _ | create _ | bulk _ | mark _ => rfl
  | write _ _ | crash | lose => exact absurd h (by simp [IndexerAction.raises])

/-- **The inversion of a step.** -/
theorem move_of_platformStep {a : PlatformAction ι ρ}
    (h : (platformMachine ι ρ maxSize batchSize maxRetries).step s a = some t) :
    PlatformMove maxSize batchSize maxRetries s a.indexing t := by
  cases a with
  | pool a =>
    simp only [platformMachine] at h
    split at h
    next hguard =>
      obtain ⟨p, hp, rfl⟩ := Option.map_eq_some_iff.mp h
      refine .pool hp (Or.inl ?_) fun eventIds ↦ ?_
      · rintro rfl
        simp [PoolAction.isForeign] at hguard
      · rintro rfl
        simp [PoolAction.isForeign] at hguard
    next => exact absurd h (by simp)
  | index a =>
    simp only [platformMachine] at h
    split at h
    next hguard =>
      rw [Bool.and_eq_true] at hguard
      obtain ⟨u, hu, rfl⟩ := Option.map_eq_some_iff.mp h
      refine .index (fun hclosed ↦ ?_) hguard.2 hu
      simp [hclosed, Stage.indexes] at hguard
    next => exact absurd h (by simp)
  | refresh a =>
    simp only [platformMachine] at h
    split at h
    next hguard =>
      rw [Bool.and_eq_true] at hguard
      obtain ⟨u, hu, rfl⟩ := Option.map_eq_some_iff.mp h
      refine .refresh (fun hclosed ↦ ?_) hguard.2 hu
      simp [hclosed, Stage.refreshes] at hguard
    next => exact absurd h (by simp)
  | shutdown =>
    simp only [platformMachine] at h
    split at h
    next =>
      obtain ⟨p, hp, rfl⟩ := Option.map_eq_some_iff.mp h
      exact .pool hp (Or.inl (by simp)) (by simp)
    next => exact absurd h (by simp)
  | stopIndexer a =>
    simp only [platformMachine] at h
    split at h
    next hguard =>
      have hopen : s.stage ≠ .closed := by simp [hguard.1]
      cases a with
      | none => exact Option.some.inj h ▸ .stop hopen (Or.inl rfl)
      | some a =>
        simp only at h
        split at h
        next hraises =>
          obtain ⟨u, hu, rfl⟩ := Option.map_eq_some_iff.mp h
          exact .index hopen (ofIndexer_of_raises hraises) hu
        next => exact absurd h (by simp)
    next => exact absurd h (by simp)
  | stopRollup upserted =>
    simp only [platformMachine] at h
    split at h
    next hstage =>
      have hopen : s.stage ≠ .closed := by simp [hstage]
      cases upserted with
      | none => exact Option.some.inj h ▸ .stop hopen (Or.inr rfl)
      | some now =>
        obtain ⟨u, hu, rfl⟩ := Option.map_eq_some_iff.mp h
        exact .refresh hopen rfl hu
    next => exact absurd h (by simp)
  | close =>
    simp only [platformMachine] at h
    split at h
    next =>
      obtain ⟨p, hp, rfl⟩ := Option.map_eq_some_iff.mp h
      exact .pool hp (Or.inr rfl) (by simp)
    next => exact absurd h (by simp)
  | loseIndex => exact Option.some.inj h ▸ .lose
  | restart => exact Option.some.inj h ▸ .restart

/-- To the store, a step of the indexer is a marking. -/
theorem marks_of_indexerStep {u v : IndexerState} {a : IndexerAction} (ha : a.ofIndexer = true)
    (h : (indexerMachine batchSize).step u a = some v) :
    ∃ eventIds, v.events = markIndexed u.events eventIds := by
  have hmove := move_of_indexerStep h
  cases hmove with
  | quiet _ hevents _ _ => exact ⟨[], hevents⟩
  | answered _ _ hevents _ _ => exact ⟨[], hevents⟩
  | mark _ marked _ _ hevents _ _ => exact ⟨marked, hevents⟩
  | write _ _ _ | lose => exact absurd ha (by simp [IndexerAction.ofIndexer])

/-- To the store, a step of the scheduler is nothing. -/
theorem events_of_rollupStep {u v : RollupState} {a : RollupAction} (ha : a.ofScheduler = true)
    (h : rollupMachine.step u a = some v) : v.events = u.events := by
  have hmove := move_of_rollupStep h
  cases hmove with
  | insert | markIndexed => exact absurd ha (by simp [RollupAction.ofScheduler])
  | aggregate _ | aggregateError _ | upsert _ | upsertError _ => rfl

omit [DecidableEq ρ] [Fintype ι] in
theorem WorkerMove.extends {w w' : WorkerState ι} {a : WorkerAction ι}
    (h : WorkerMove maxRetries w a w') : Extends w.mongo.events w'.mongo.events := by
  cases h with
  | @write _ o batch _ _ => exact extends_bulkWrite _ batch o
  | skip _ _ | start _ _ | persist _ | written _ | push _ _ _ _ | bufferOnly _ _ _
  | overflow _ _ _ | backoff _ _ _ | settle _ | wake _ => exact .refl _

theorem ReplayMove.extends {m m' : Mongo} {c c' : ReplayCall} {a : ReplayAction}
    (h : ReplayMove m c a m' c') : Extends m.events m'.events := by
  cases h with
  | look _ _ _ _ => exact .refl _
  | rewrite o _ _ _ _ => exact extends_bulkWrite _ _ o
  | delete _ _ _ hm =>
    rcases hm with rfl | rfl
    · exact .refl _
    · exact .refl _

/-- To the others, a step of the pool that is its own adds events. -/
theorem extends_of_poolStep {batchSize : ℤ} (hmax : 0 ≤ maxRetries) {p q : PoolState ι ρ}
    {a : PoolAction ι ρ} (h : (poolMachine ι ρ batchSize maxRetries).step p a = some q)
    (ha : ∀ eventIds, a ≠ .mark eventIds) :
    Extends p.worker.mongo.events q.worker.mongo.events := by
  have hmove := (move_of_poolStep hmax h).2
  cases hmove with
  | refuse | dispatch _ _ _ _ _ | shutdown _ _ _ | close _ _ _ => exact .refl _
  | start _ _ hjob | work hjob _ | finish hjob _ _ => exact hjob.extends
  | replay hreplay => exact hreplay.extends
  | mark ids => exact absurd rfl (ha ids)

/-- Only `close` closes the clients. -/
theorem lifespan_of_poolStep {batchSize : ℤ} (hmax : 0 ≤ maxRetries) {p q : PoolState ι ρ}
    {a : PoolAction ι ρ} (h : (poolMachine ι ρ batchSize maxRetries).step p a = some q)
    (ha : a ≠ .close) : q.lifespan ≠ .closed := by
  obtain ⟨hopen, hmove⟩ := move_of_poolStep hmax h
  cases hmove with
  | refuse | dispatch _ _ _ _ _ | start _ _ _ | work _ _ | finish _ _ _ | replay _ | mark _ =>
    exact hopen
  | shutdown _ _ _ => simp
  | close _ _ _ => exact absurd rfl ha

end Steps

/-! ## The invariant -/

section Invariant

variable [DecidableEq ι] [DecidableEq ρ] [Fintype ι] {maxSize : ℤ} {batchSize : ℕ} {maxRetries : ℤ}
  {m : Mongo} {s t : PlatformState ι ρ}

/-- Each component keeps its invariant, and whatever the platform holds was there at the start, in
`m`, or has been accepted since. -/
structure Faithful (batchSize : ℕ) (maxRetries : ℤ) (m : Mongo) (s : PlatformState ι ρ) : Prop where
  opened : s.stage ≠ .closed → s.pool.lifespan ≠ .closed
  inHand : InHand batchSize maxRetries s.pool
  sourced : s.pool.Sourced (m.Known s.accepted)
  mirror : s.indexer.MirrorInvariant
  backed : Backed s.scheduler

/-- What the platform does to the pool, the pool does, or it is a new one. -/
theorem pool_of_platformMove {o : Option IndexerAction}
    (hopen : s.stage ≠ .closed → s.pool.lifespan ≠ .closed)
    (h : PlatformMove maxSize batchSize maxRetries s o t) :
    t.before = s.before ∧
        (∃ bs, (poolMachine ι ρ batchSize maxRetries).exec s.pool bs = some t.pool) ∨
      t = s.restarted maxSize := by
  cases h with
  | @pool a p stage hstep ha hmark =>
    exact Or.inl ⟨rfl, [a], (Machine.exec_cons_eq_some _).mpr ⟨p, hstep, rfl⟩⟩
  | @index a u metrics stage hstage ha hstep =>
    obtain ⟨eventIds, hevents⟩ := marks_of_indexerStep ha hstep
    refine Or.inl ⟨rfl, [.mark eventIds], (Machine.exec_cons_eq_some _).mpr ⟨_, ?_, rfl⟩⟩
    simp only [poolMachine, if_neg (hopen hstage)]
    rw [PlatformState.putIndexer, PlatformState.putEvents, hevents]
    rfl
  | refresh _ _ _ | stop _ _ | lose => exact Or.inl ⟨rfl, [], rfl⟩
  | restart => exact Or.inr rfl

/-- A pool run keeps what is known of the pool. -/
theorem sourced_of_poolExec {batchSize : ℤ} (hmax : 0 ≤ maxRetries) {p q : PoolState ι ρ}
    {bs : List (PoolAction ι ρ)} (h : (poolMachine ι ρ batchSize maxRetries).exec p bs = some q)
    {before : List (Accepted EventDocument)} (hin : InHand batchSize maxRetries p)
    (hp : p.Sourced (m.Known (before ++ p.dispatch.accepted))) :
    InHand batchSize maxRetries q ∧ q.Sourced (m.Known (before ++ q.dispatch.accepted)) := by
  refine Machine.exec_preserves (P := fun v ↦ InHand batchSize maxRetries v ∧
    v.Sourced (m.Known (before ++ v.dispatch.accepted))) (fun v a w hv hstep ↦ ?_) ⟨hin, hp⟩ h
  have hsub : before ++ v.dispatch.accepted ⊆ before ++ w.dispatch.accepted :=
    List.append_subset.mpr ⟨List.subset_append_left _ _, List.Subset.trans
      (accepted_subset_of_poolStep hmax hstep) (List.subset_append_right _ _)⟩
  exact ⟨hv.1.move hmax hstep, (hv.2.mono fun e he ↦ he.mono hsub).step hv.1 hmax hstep
    fun x hx ↦ Or.inr (Or.inr ⟨x, List.mem_append_right _ hx, rfl⟩)⟩

theorem init_fresh {batchSize : ℤ} (maxSize : ℤ) (m : Mongo) :
    (poolMachine ι ρ batchSize maxRetries).init (.fresh ι ρ maxSize m) :=
  ⟨⟨maxSize, rfl⟩, ⟨rfl, fun _ ↦ rfl, rfl⟩, fun _ ↦ rfl, rfl, rfl⟩

/-- A new process knows what the stores hold. -/
theorem Faithful.of_stores (hevents : ∀ d ∈ s.events.docs, m.Known s.accepted d.event.rebuild)
    (hdead : ∀ d ∈ s.pool.worker.mongo.deadLetters.docs, m.Known s.accepted d.event.rebuild)
    (hmirrors : s.indexer.Mirrors)
    (hstored : ∀ r, s.rollup = some r →
      r.total = totalCount r.counts ∧ CountsOf s.rollupSeen r.counts)
    (hbefore : Grown s.rollupSeen s.seen) (hbehind : Grown s.seen s.events) :
    Faithful batchSize maxRetries m (s.restarted maxSize) where
  opened _ := by simp [PlatformState.restarted, PoolState.fresh]
  inHand := .init (init_fresh maxSize _)
  sourced := by
    have haccepted : (s.restarted maxSize).accepted = s.accepted := List.append_nil _
    rw [haccepted]
    exact ⟨⟨hevents, hdead, fun i job hi ↦ absurd hi (by simp [PlatformState.restarted,
      PoolState.fresh]), fun e he ↦ absurd he List.not_mem_nil⟩,
      fun r k event h hr ↦ absurd hr (by simp [PlatformState.restarted, PoolState.fresh])⟩
  mirror := ⟨hmirrors, fun e he ↦ absurd he List.not_mem_nil⟩
  backed := ⟨fun counts hcounts ↦ absurd hcounts (by simp [PlatformState.scheduler,
    PlatformState.restarted]), hstored, hbefore, hbehind⟩

theorem Faithful.restart (hs : Faithful batchSize maxRetries m s) :
    Faithful batchSize maxRetries m (s.restarted maxSize) :=
  .of_stores hs.sourced.worker.events hs.sourced.worker.deadLetters hs.mirror.mirrors
    hs.backed.stored hs.backed.before hs.backed.behind

/-- To the indexer, events are added, and those there are stay. -/
theorem follows_of_grown {u v : IndexerState} (hgrown : Grown u.events v.events)
    (hserver : v.server = u.server) (hunsent : v.phase.unsent = u.phase.unsent) :
    IndexerState.Follows u v where
  stored d hd := by
    obtain ⟨d', hd', hevent⟩ := List.mem_map.mp (hgrown.subset (List.mem_map_of_mem hd))
    exact ⟨d', hd', by rw [d'.id_eq, d.id_eq, hevent], hevent⟩
  indexed k source hdoc := Or.inl (hserver ▸ hdoc)
  unsent e he := Or.inl (hunsent ▸ he)

/-- The scheduler is behind the store, however that grows. -/
theorem Backed.grow {u : RollupState} (hu : Backed u) {c : Events} (hgrown : Grown u.events c) :
    Backed { u with events := c } :=
  ⟨hu.pending, hu.stored, hu.before, hu.behind.trans hgrown⟩

/-- **The step lemma.** -/
theorem Faithful.move {o : Option IndexerAction} (hs : Faithful batchSize maxRetries m s)
    (hmax : 0 ≤ maxRetries) (h : PlatformMove maxSize batchSize maxRetries s o t) :
    Faithful batchSize maxRetries m t := by
  rcases pool_of_platformMove hs.opened h with ⟨hbefore, bs, hbs⟩ | rfl
  swap
  · exact hs.restart
  obtain ⟨hin, hsourced⟩ := sourced_of_poolExec hmax hbs hs.inHand hs.sourced
  rw [← hbefore] at hsourced
  cases h with
  | @pool a p stage hstep ha hmark =>
    have hgrown : Grown s.events p.worker.mongo.events :=
      (extends_of_poolStep hmax hstep hmark).kept.map _
    exact ⟨fun hstage ↦ lifespan_of_poolStep hmax hstep (ha.resolve_right hstage), hin, hsourced,
      hs.mirror.follow (follows_of_grown hgrown rfl rfl), hs.backed.grow hgrown⟩
  | @index a u metrics stage hstage ha hstep =>
    obtain ⟨eventIds, hevents⟩ := marks_of_indexerStep ha hstep
    have hgrown : Grown s.events u.events := hevents ▸ grown_markIndexed s.events eventIds
    have hmirror := hs.mirror.follow (IndexerState.Follows.of_step hstep)
    exact ⟨fun _ ↦ hs.opened hstage, hin, hsourced, ⟨hmirror.mirrors, hmirror.unsent⟩,
      hs.backed.grow hgrown⟩
  | @refresh a u stage hstage ha hstep =>
    have hbacked := backed_move hs.backed (move_of_rollupStep hstep)
    have hgrown : Grown u.events s.events := events_of_rollupStep ha hstep ▸ .refl _
    exact ⟨fun _ ↦ hs.opened hstage, hin, hsourced, hs.mirror, hbacked.grow hgrown⟩
  | @stop phase stage hstage hphase =>
    refine ⟨fun _ ↦ hs.opened hstage, hin, hsourced, hs.mirror, fun counts hcounts ↦ ?_,
      hs.backed.stored, hs.backed.before, hs.backed.behind⟩
    rcases hphase with rfl | rfl
    · exact hs.backed.pending counts hcounts
    · exact absurd hcounts (by simp [PlatformState.scheduler])
  | lose =>
    exact ⟨hs.opened, hin, hsourced, ⟨fun k source hdoc ↦ absurd hdoc (by
      simp [PlatformState.indexer, EsServer.docAt]), hs.mirror.unsent⟩, hs.backed⟩
  | restart => exact hs.restart

end Invariant

/-! ## Over any run -/

/-- What a rollup counts is not more than there is. -/
theorem Backed.bounds {u : RollupState} (hu : Backed u) {r : RollupDoc} (hr : u.rollup = some r) :
    r.total = totalCount r.counts ∧ r.total ≤ u.events.docs.length ∧
      ∀ row ∈ r.counts, row.count ≤ u.events.docs.countP fun d ↦
        d.event.eventType = row.eventType := by
  obtain ⟨htotal, hcounts⟩ := hu.stored r hr
  have hgrown := hu.before.trans hu.behind
  have hall (c : Events) : matchStage c none none = c.docs.map EventDoc.event :=
    List.filter_eq_self.mpr fun _ _ ↦ rfl
  refine ⟨htotal, ?_, fun row hrow ↦ ?_⟩
  · rw [htotal, hcounts (.sort _ _), totalCount_aggregateCounts, hall]
    simpa using hgrown.length_le
  · rw [hcounts (.sort _ _), mem_aggregateCounts_none] at hrow
    obtain ⟨-, -, hcount⟩ := hrow
    have hle := List.Sublist.countP_le
      (p := fun e : EventRecord BsonDate ↦ e.eventType = row.eventType) hgrown.sublist
    rw [List.countP_map, List.countP_map] at hle
    rw [hcount]
    refine le_trans (List.countP_mono_left fun d _ hd ↦ ?_) hle
    simpa [inRange] using hd

/-- The ids that may be stored. -/
def Mongo.sourceIds (m : Mongo) (accepted : List (Accepted EventDocument)) : List String :=
  m.events.docs.map EventDoc.id ++ m.deadLetters.docs.map (fun d ↦ d.event.eventId)
    ++ accepted.map fun x ↦ x.event.eventId

theorem Mongo.Known.eventId_mem {m : Mongo} {accepted : List (Accepted EventDocument)}
    {e : EventDocument} (h : m.Known accepted e) : e.eventId ∈ m.sourceIds accepted := by
  rcases h with ⟨d, hd, rfl⟩ | ⟨d, hd, rfl⟩ | ⟨x, hx, rfl⟩
  · exact List.mem_append_left _ (List.mem_append_left _ (List.mem_map.mpr ⟨d, hd, d.id_eq⟩))
  · exact List.mem_append_left _ (List.mem_append_right _ (List.mem_map.mpr ⟨d, hd, rfl⟩))
  · exact List.mem_append_right _ (List.mem_map.mpr ⟨x, hx, rfl⟩)

/-- Nothing is stored twice. -/
theorem length_docs_le_of_known {m : Mongo} {accepted : List (Accepted EventDocument)} {c : Events}
    (h : ∀ d ∈ c.docs, m.Known accepted d.event.rebuild) :
    c.docs.length ≤ m.events.docs.length + m.deadLetters.docs.length + accepted.length := by
  have hsub : c.docs.map EventDoc.id ⊆ m.sourceIds accepted := by
    intro k hk
    obtain ⟨d, hd, rfl⟩ := List.mem_map.mp hk
    exact d.id_eq ▸ (h d hd).eventId_mem
  simpa [Mongo.sourceIds, Nat.add_assoc] using (c.nodup.subperm hsub).length_le

section Runs

variable [DecidableEq ι] [DecidableEq ρ] [Fintype ι] {maxSize : ℤ} {batchSize : ℕ} {maxRetries : ℤ}
  {m : Mongo} {s t : PlatformState ι ρ}

theorem Faithful.init (h : (platformMachine ι ρ maxSize batchSize maxRetries).init s)
    (hmirrors : s.indexer.Mirrors) : Faithful batchSize maxRetries s.pool.worker.mongo s := by
  obtain ⟨hstart, -, hrollup, hseen, hrollupSeen⟩ := h
  rw [hstart]
  refine .of_stores (fun d hd ↦ Or.inl ⟨d, hd, rfl⟩) (fun d hd ↦ Or.inr (Or.inl ⟨d, hd, rfl⟩))
    hmirrors (fun r hr ↦ absurd hr (by simp [hrollup])) ?_ ?_
  · rw [hrollupSeen, hseen]
    exact .refl _
  · rw [hseen]
    exact .refl _

theorem Faithful.exec (hs : Faithful batchSize maxRetries m s) (hmax : 0 ≤ maxRetries)
    {as : List (PlatformAction ι ρ)}
    (h : (platformMachine ι ρ maxSize batchSize maxRetries).exec s as = some t) :
    Faithful batchSize maxRetries m t :=
  Machine.exec_preserves (fun _ _ _ hu hstep ↦ hu.move hmax (move_of_platformStep hstep)) hs h

/-- The pool of a process is one that has run since the process started. -/
theorem exists_poolExec (hinit : (platformMachine ι ρ maxSize batchSize maxRetries).init s)
    (hs : Faithful batchSize maxRetries m s) (hmax : 0 ≤ maxRetries)
    {as : List (PlatformAction ι ρ)}
    (h : (platformMachine ι ρ maxSize batchSize maxRetries).exec s as = some t) :
    ∃ p bs, (poolMachine ι ρ batchSize maxRetries).init p ∧
      (poolMachine ι ρ batchSize maxRetries).exec p bs = some t.pool := by
  refine (Machine.exec_preserves (P := fun u ↦ Faithful batchSize maxRetries m u ∧
    ∃ p bs, (poolMachine ι ρ batchSize maxRetries).init p ∧
      (poolMachine ι ρ batchSize maxRetries).exec p bs = some u.pool) (fun u a v hu hstep ↦ ?_)
      ⟨hs, ?_⟩ h).2
  · obtain ⟨hfaithful, p, bs, hp, hbs⟩ := hu
    have hmove := move_of_platformStep hstep
    refine ⟨hfaithful.move hmax hmove, ?_⟩
    rcases pool_of_platformMove hfaithful.opened hmove with ⟨-, cs, hcs⟩ | rfl
    · exact ⟨p, bs ++ cs, hp, (Machine.exec_append_eq_some _).mpr ⟨u.pool, hbs, hcs⟩⟩
    · exact ⟨_, [], init_fresh maxSize _, rfl⟩
  · rw [hinit.1]
    exact ⟨_, [], init_fresh maxSize _, rfl⟩

/-- Whatever the platform does, what is stored stays. -/
theorem keeps_of_platformExec (hs : Faithful batchSize maxRetries m s) (hmax : 0 ≤ maxRetries)
    {as : List (PlatformAction ι ρ)}
    (h : (platformMachine ι ρ maxSize batchSize maxRetries).exec s as = some t) :
    s.events.Keeps t.events := by
  refine (Machine.exec_preserves (P := fun u ↦ Faithful batchSize maxRetries m u ∧
    s.events.Keeps u.events) (fun u a v hu hstep ↦ ?_) ⟨hs, .refl _⟩ h).2
  have hmove := move_of_platformStep hstep
  refine ⟨hu.1.move hmax hmove, hu.2.trans ?_⟩
  rcases pool_of_platformMove hu.1.opened hmove with ⟨-, bs, hbs⟩ | rfl
  · exact Machine.exec_preserves (P := fun p ↦ u.events.Keeps p.worker.mongo.events)
      (fun _ _ _ hp hpool ↦ hp.trans (keeps_of_poolStep hmax hpool)) (.refl _) hbs
  · exact .refl _

end Runs

/-- **The platform is faithful.** In every run of the platform, over any number of processes that
end properly or die: the pool of the present process has come about as it does on its own; every
document of the index is the rendering of a stored event that was there at the start or has been
accepted by one of the processes; what is stored is never more than that, and stays as it is; and
what the rollup counts, in total and for each type, is never more than what is stored. -/
theorem platform_faithful (ι ρ : Type) [DecidableEq ι] [DecidableEq ρ] [Fintype ι] (maxSize : ℤ)
    (batchSize : ℕ) (maxRetries : ℤ) (hmax : 0 ≤ maxRetries) (s t u : PlatformState ι ρ)
    (as bs : List (PlatformAction ι ρ))
    (hinit : (platformMachine ι ρ maxSize batchSize maxRetries).init s)
    (hmirrors : s.indexer.Mirrors)
    (h : (platformMachine ι ρ maxSize batchSize maxRetries).exec s as = some t)
    (hlater : (platformMachine ι ρ maxSize batchSize maxRetries).exec t bs = some u) :
    (∃ p cs, (poolMachine ι ρ batchSize maxRetries).init p ∧
        (poolMachine ι ρ batchSize maxRetries).exec p cs = some t.pool) ∧
      (∀ k source, t.server.docAt k = some source → ∃ d ∈ t.events.docs, d.id = k ∧
        source.Mirrors d ∧ s.pool.worker.mongo.Known t.accepted d.event.rebuild) ∧
      t.events.docs.length ≤ s.events.docs.length + s.pool.worker.mongo.deadLetters.docs.length
        + t.accepted.length ∧
      t.events.Keeps u.events ∧
      ∀ r, t.rollup = some r → r.total = totalCount r.counts ∧ r.total ≤ t.events.docs.length ∧
        ∀ row ∈ r.counts, row.count ≤ t.events.docs.countP fun d ↦
          d.event.eventType = row.eventType := by
  have hstart := Faithful.init hinit hmirrors
  have ht := hstart.exec hmax h
  refine ⟨exists_poolExec hinit hstart hmax h, fun k source hdoc ↦ ?_,
    length_docs_le_of_known ht.sourced.worker.events, keeps_of_platformExec ht hmax hlater,
    fun r hr ↦ ht.backed.bounds hr⟩
  obtain ⟨d, hd, hid, hmirror⟩ := ht.mirror.mirrors k source hdoc
  exact ⟨d, hd, hid, hmirror, ht.sourced.worker.events d hd⟩

/-- A first process with one consumer, on empty stores. -/
def PlatformState.cold : PlatformState (Fin 1) (Fin 1) where
  stage := .mapping
  pool := .fresh _ _ 10 ⟨.empty, .empty⟩
  server := none
  mappingReady := false
  indexing := .starting false
  indexed := ⟨0, 0⟩
  rollup := none
  refreshing := .waiting
  seen := .empty
  rollupSeen := .empty
  before := []

/-- An event goes all the way into the index, and the process dies. -/
def indexedEventRun : List (PlatformAction (Fin 1) (Fin 1)) :=
  [.index (.lookup false), .index (.create none), .refresh (.aggregate fun _ ↦ .sort _ _),
    .refresh (.upsert .epoch), .pool (.ingest (makeEvent "e1")), .pool (.get 0),
    .pool (.collect 0), .pool (.job 0 (.call (.answered fun _ ↦ false))),
    .pool (.job 0 (.resume "" fun _ ↦ .epoch)), .index (.fetch fun _ ↦ 0),
    .index (.bulk (.answered fun _ ↦ false)), .index (.mark none), .restart]

theorem indexedEventRun_faithful :
    ∃ t, (platformMachine (Fin 1) (Fin 1) 10 1 0).exec .cold indexedEventRun = some t ∧
      t.accepted.length = 1 ∧ ∃ source, t.server.docAt "e1" = some source ∧
        ∃ d ∈ t.events.docs, d.id = "e1" ∧ source.Mirrors d := by
  have hrun : (platformMachine (Fin 1) (Fin 1) 10 1 0).exec .cold indexedEventRun = some _ := rfl
  obtain ⟨-, hmirror, -⟩ := platform_faithful (Fin 1) (Fin 1) 10 1 0 le_rfl .cold _ _
    indexedEventRun [] ⟨rfl, rfl, rfl, rfl, rfl⟩ (IndexerState.mirrors_of_empty fun _ ↦ rfl)
    hrun rfl
  obtain ⟨d, hd, hid, hsource, -⟩ := hmirror "e1" _ rfl
  exact ⟨_, hrun, rfl, _, rfl, d, hd, hid, hsource⟩

end Acheron
