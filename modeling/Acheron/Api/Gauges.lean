import Mathlib.Algebra.BigOperators.Ring.Finset
import Acheron.Lib.Ranking
import Acheron.Worker.Backlog
import Acheron.Worker.EsIndexer
import Acheron.Worker.InHand
import Acheron.Worker.Metrics

/-!
# `GET /metrics`

The snapshot an operator reads: the depth of the queue and the counters of the worker, the
dead-letter queue, the indexer and the cache, each kept by its own component. Nothing synchronizes
them, but the event loop reads them in one turn, so at every moment they fit together: what has been
accepted is queued, processed, recorded as dead, or in the hands of a consumer that has not recorded
it yet, and of these there are at most a batch for each consumer.

A batch whose push is under way is recorded and still in hand; `Job.recordedLength` keeps it from
being counted twice.
-/

open Runs

namespace Acheron

/-- What `RedisCache.metrics` counts. -/
structure CacheMetrics where
  hits : ℕ
  misses : ℕ

/-- The answer to `GET /metrics`. -/
structure MetricsResponse where
  depth : ℕ
  capacity : ℤ
  recorded : ℕ
  unpersisted : ℕ
  worker : WorkerMetrics
  esIndexer : IndexerMetrics
  cache : CacheMetrics

/-- `metrics`, the handler. -/
def metricsResponse {ι ρ : Type} (s : PoolState ι ρ) (esIndexer : IndexerMetrics)
    (cache : CacheMetrics) : MetricsResponse where
  depth := s.dispatch.queue.qsize
  capacity := s.dispatch.queue.maxsize
  recorded := s.worker.dlq.recorded
  unpersisted := s.worker.dlq.unpersisted.length
  worker := s.worker.metrics
  esIndexer := esIndexer
  cache := cache

/-- The events of a job that the dead-letter queue has recorded already. -/
def Job.recordedLength : Job → ℕ
  | .pushing batch _ | .pushed batch _ _ => batch.length
  | .writing _ _ | .wrote _ _ _ | .sleeping _ _ => 0

/-- The events recorded while they are in hand. -/
def WorkerState.recordedInHand {ι : Type} [Fintype ι] (w : WorkerState ι) : ℕ :=
  ∑ i, (w.jobs i).elim 0 Job.recordedLength

/-- What the two counters add up to. -/
def WorkerState.settled {ι : Type} (w : WorkerState ι) : ℕ :=
  w.metrics.eventsProcessed + w.dlq.recorded

variable {ι ρ : Type} [DecidableEq ι] [Fintype ι] {batchSize maxRetries : ℤ}

/-! ## One step -/

section Worker

variable {w w' : WorkerState ι} {a : WorkerAction ι}

/-- What a job has recorded, changed for one job. -/
theorem recordedInHand_update {i : ι} {job : Option Job}
    (hjobs : w'.jobs = Function.update w.jobs i job) :
    w'.recordedInHand + (w.jobs i).elim 0 Job.recordedLength
      = w.recordedInHand + job.elim 0 Job.recordedLength := by
  have hsum := sum_add_of_eq_off (f := fun j ↦ (w.jobs j).elim 0 Job.recordedLength)
    (g := fun j ↦ (w'.jobs j).elim 0 Job.recordedLength) (i := i) fun j hj ↦ by
      rw [hjobs, Function.update_of_ne hj]
  rw [WorkerState.recordedInHand, WorkerState.recordedInHand, hsum, hjobs, Function.update_self]

/-- A step that settles `k` events, in the terms of its job. -/
theorem settled_of_update {i : ι} {job : Job} {job' : Option Job} {k : ℕ}
    (hjob : w.jobs i = some job) (hjobs : w'.jobs = Function.update w.jobs i job')
    (hsettled : w'.settled = w.settled + k)
    (hk : k + job.recordedLength = job'.elim job.batch.length Job.recordedLength) :
    w'.settled + w.recordedInHand = w.settled + w'.recordedInHand
      + if w'.jobs i = none then job.batch.length else 0 := by
  have hsum := recordedInHand_update hjobs
  rw [hjob, Option.elim_some] at hsum
  rw [hjobs, Function.update_self]
  cases job' with
  | none =>
    rw [Option.elim_none] at hsum hk
    rw [if_pos rfl]
    omega
  | some job' =>
    rw [Option.elim_some] at hsum hk
    rw [if_neg (by simp)]
    omega

/-- **A step of a job settles its events when it ends**, and records them at most once before. -/
theorem account_move (htimely : ∀ i job, w.jobs i = some job → job.Timely maxRetries)
    (hmax : maxRetries ≤ 1024) (ha : ∀ i batch, a ≠ .start i batch)
    (h : WorkerMove maxRetries w a w') {job : Job} (hjob : w.jobs a.job = some job) :
    w'.settled + w.recordedInHand = w.settled + w'.recordedInHand
      + if w'.jobs a.job = none then job.batch.length else 0 := by
  cases h with
  | skip _ _ | start _ _ => exact absurd rfl (ha _ _)
  | write hi | persist hi | backoff hi _ _ | wake hi =>
    obtain rfl := Option.some.inj (hi.symm.trans hjob)
    exact settled_of_update hjob rfl (Nat.add_zero _).symm (Nat.zero_add _)
  | written hi =>
    obtain rfl := Option.some.inj (hi.symm.trans hjob)
    refine settled_of_update hjob rfl ?_ (Nat.add_zero _)
    exact Nat.add_right_comm _ _ _
  | @push _ reason now batch _ _ _ hi _ _ =>
    obtain rfl := Option.some.inj (hi.symm.trans hjob)
    refine settled_of_update hjob rfl ?_ (Nat.add_zero _)
    rw [WorkerState.settled, proceed_dlq, (w.dlq.pushMany_spec batch reason now).1,
      ← Nat.add_assoc]
    rfl
  | @bufferOnly _ reason now batch _ _ hi _ _ =>
    obtain rfl := Option.some.inj (hi.symm.trans hjob)
    refine settled_of_update hjob rfl ?_ (Nat.add_zero _)
    rw [WorkerState.settled, finish_dlq, (w.dlq.pushMany_spec batch reason now).1,
      ← Nat.add_assoc]
    rfl
  -- Excluded by the bound: the last attempt comes before the overflow.
  | overflow hi hmore hbig =>
    have hattempt : _ ≤ _ := htimely _ _ hi
    omega
  | settle hi =>
    obtain rfl := Option.some.inj (hi.symm.trans hjob)
    exact settled_of_update hjob rfl (Nat.add_zero _).symm (Nat.zero_add _)

end Worker

/-! ## The process -/

/-- The two counters stand at what has been acknowledged and what is recorded in hand. -/
def Settled (s : PoolState ι ρ) : Prop :=
  s.worker.settled = s.dispatch.finished.length + s.worker.recordedInHand

variable [DecidableEq ρ] {s t : PoolState ι ρ} {a : PoolAction ι ρ}

theorem settled_step (hs : Settled s) (hin : InHand batchSize maxRetries s)
    (hmax : maxRetries ≤ 1024) (h : PoolMove batchSize maxRetries s a t) : Settled t := by
  cases h with
  | refuse | replay _ | mark _ | close _ _ _ => exact hs
  | dispatch hstep _ _ hfinish _ =>
    rw [Settled, (running_of_step hstep hfinish).1]
    exact hs
  | @start i batch d hstep _ hjob =>
    -- A job that starts has recorded nothing.
    have hsum := recordedInHand_update
      (proceed_jobs s.worker i (.writing (batch.map Accepted.event) 0))
    rw [hjob.jobs_of_start, Option.elim_none, Option.elim_some, Job.recordedLength, Nat.add_zero,
      Nat.add_zero] at hsum
    rw [Settled, (running_of_step hstep (by simp)).1]
    dsimp only
    rw [hsum]
    exact hs
  | @work i b w hmove hjob =>
    obtain ⟨job, hold⟩ := hmove.exists_job (JobAction.of_ne_start i · b)
    have hsettled := account_move hin.timely hmax (JobAction.of_ne_start i · b) hmove hold
    rw [JobAction.job_of, if_neg hjob] at hsettled
    rw [Settled] at hs ⊢
    dsimp only
    omega
  | @finish i b w d ending hmove hnone hstep =>
    obtain ⟨job, batch, hold, -, hbatch, hfinished⟩ :=
      exists_batch_of_finish hin.linked hmove hstep
    have hsettled := account_move hin.timely hmax (JobAction.of_ne_start i · b) hmove
      (by rwa [JobAction.job_of])
    rw [JobAction.job_of, if_pos hnone, hbatch, List.length_map] at hsettled
    rw [Settled] at hs ⊢
    dsimp only
    rw [hfinished, List.length_append]
    omega
  | shutdown _ hstop hjoin =>
    rw [Settled, (running_of_step hjoin (by simp)).1, (running_of_step hstop (by simp)).1]
    exact hs

omit [DecidableEq ρ] [DecidableEq ι] [Fintype ι] in
/-- What is recorded in hand is in hand. -/
theorem recordedLength_le (hlinked : Linked s.worker s.dispatch) (i : ι) :
    (s.worker.jobs i).elim 0 Job.recordedLength ≤ (s.dispatch.consumers i).batch.length := by
  cases hjob : s.worker.jobs i with
  | none => exact Nat.zero_le _
  | some job =>
    have hbatch := hlinked i
    rw [hjob] at hbatch
    cases hc : s.dispatch.consumers i with
    | processing batch =>
      rw [hc] at hbatch
      have hlength := congrArg List.length (Option.some.inj hbatch)
      rw [List.length_map] at hlength
      rw [Option.elim_some, Consumer.batch, ← hlength]
      cases job <;> simp [Job.recordedLength, Job.batch]
    | polling | collecting _ | returned | died | overAcknowledged =>
      rw [hc] at hbatch
      exact absurd hbatch (by simp [Consumer.running])

theorem settled_of_exec (hmin : 0 ≤ maxRetries) (hmax : maxRetries ≤ 1024)
    (hinit : (poolMachine ι ρ batchSize maxRetries).init s) (hzero : s.worker.metrics = .zero)
    {as : List (PoolAction ι ρ)}
    (h : (poolMachine ι ρ batchSize maxRetries).exec s as = some t) : Settled t := by
  have hstart : Settled s := by
    obtain ⟨⟨maxSize, hd⟩, ⟨hdlq, hidle, -⟩, -⟩ := hinit
    simp [Settled, WorkerState.settled, WorkerState.recordedInHand, hzero, hdlq, hd, hidle,
      WorkerMetrics.zero, DeadLetterQueue.new]
  refine (Machine.exec_preserves (P := fun u ↦ InHand batchSize maxRetries u ∧ Settled u)
    (fun u a v hu hstep ↦ ?_) ⟨.init hinit, hstart⟩ h).2
  exact ⟨hu.1.move hmin hstep, settled_step hu.2 hu.1 hmax (move_of_poolStep hmin hstep).2⟩

/-! ## The snapshot -/

/-- The snapshot of a process that has accepted `accepted` events, with `inHand` of them in the
hands of the consumers. -/
structure MetricsResponse.Fits (m : MetricsResponse) (accepted inHand : ℕ) : Prop where
  lower : m.depth + (m.worker.eventsProcessed + m.recorded) ≤ accepted
  upper : accepted ≤ m.depth + (m.worker.eventsProcessed + m.recorded) + inHand
  buffered : m.unpersisted ≤ m.recorded
  bounded : 1 ≤ m.capacity → (m.depth : ℤ) ≤ m.capacity

/-- **The metrics fit together.** At every moment of every run the events accepted are those queued,
those processed and those recorded as dead, up to what the consumers have in hand, which is at most a
batch for each; with nothing in hand the sum is exact. The depth keeps to the capacity, the buffer
to what was recorded, and no counter ever goes back. -/
theorem metrics_fit (ι ρ : Type) [DecidableEq ι] [DecidableEq ρ] [Fintype ι]
    (batchSize maxRetries : ℤ) (hmin : 0 ≤ maxRetries) (hmax : maxRetries ≤ 1024)
    (s t u : PoolState ι ρ) (as bs : List (PoolAction ι ρ)) (esIndexer : IndexerMetrics)
    (cache : CacheMetrics) (hinit : (poolMachine ι ρ batchSize maxRetries).init s)
    (hzero : s.worker.metrics = .zero)
    (h : (poolMachine ι ρ batchSize maxRetries).exec s as = some t)
    (hlater : (poolMachine ι ρ batchSize maxRetries).exec t bs = some u) :
    (metricsResponse t esIndexer cache).Fits t.dispatch.accepted.length
        (∑ i, (t.dispatch.consumers i).batch.length) ∧
      ((∑ i, (t.dispatch.consumers i).batch.length : ℕ) : ℤ)
        ≤ Fintype.card ι * max 1 batchSize ∧
      t.worker.CountsOn u.worker := by
  have hreach : (poolMachine ι ρ batchSize maxRetries).Reachable t := ⟨s, as, hinit, h⟩
  have hin := InHand.of_reachable hmin hreach
  have hacc := hin.drain.manned.accounting
  have hsettled : t.worker.metrics.eventsProcessed + t.worker.dlq.recorded
      = t.dispatch.finished.length + t.worker.recordedInHand :=
    settled_of_exec hmin hmax hinit hzero h
  have hrecorded : t.worker.recordedInHand ≤ ∑ i, (t.dispatch.consumers i).batch.length :=
    Finset.sum_le_sum fun i _ ↦ recordedLength_le hin.linked i
  have hcard := congrArg Multiset.card hacc.accepted_eq
  simp only [Multiset.card_add, Multiset.coe_card, card_inFlight] at hcard
  refine ⟨⟨?_, ?_, (counted_of_reachable hreach).buffer, ?_⟩, ?_, countsOn_exec hlater⟩
  · simp only [metricsResponse, EventQueue.qsize]
    omega
  · simp only [metricsResponse, EventQueue.qsize]
    omega
  · exact withinCapacity_of_reachable (pool_refines_dispatch.reachable hreach)
  · have hsound : ∀ i, (t.dispatch.consumers i).Sound (max 1 batchSize) := fun i ↦ by
      have hsound := hacc.sound i
      cases hc : t.dispatch.consumers i with
      | collecting batch | processing batch =>
        rw [hc] at hsound
        simpa [Consumer.Sound] using hsound
      | polling | returned | died => trivial
      | overAcknowledged =>
        rw [hc] at hsound
        exact hsound
    have hsum := sum_batch_le (s := t.dispatch) (le_max_left 1 batchSize) hsound
    rw [Nat.cast_sum]
    exact hsum

/-- With one consumer: an event processed, and one on the queue. -/
def halfDoneRun : List (PoolAction (Fin 1) (Fin 1)) :=
  [.ingest (makeEvent "e1"), .ingest (makeEvent "e2"), .get 0, .collect 0,
    .job 0 (.call (.answered fun _ ↦ false)), .job 0 (.resume "" fun _ ↦ .epoch)]

theorem halfDoneRun_fits :
    ∃ t, (poolMachine (Fin 1) (Fin 1) 1 0).exec .open halfDoneRun = some t ∧
      (metricsResponse t ⟨0, 0⟩ ⟨0, 0⟩).depth = 1 ∧
      (metricsResponse t ⟨0, 0⟩ ⟨0, 0⟩).worker.eventsProcessed = 1 ∧
      (metricsResponse t ⟨0, 0⟩ ⟨0, 0⟩).Fits 2 (∑ i, (t.dispatch.consumers i).batch.length) :=
  ⟨_, rfl, rfl, rfl, (metrics_fit (Fin 1) (Fin 1) 1 0 le_rfl (by decide) .open _ _ halfDoneRun []
    ⟨0, 0⟩ ⟨0, 0⟩ ⟨⟨10, rfl⟩, ⟨rfl, fun _ ↦ rfl, rfl⟩, fun _ ↦ rfl, rfl, rfl⟩ rfl rfl rfl).1⟩

end Acheron
