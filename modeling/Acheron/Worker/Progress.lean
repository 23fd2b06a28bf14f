import Mathlib.Algebra.Order.Ring.Int
import Acheron.Lib.Ranking
import Acheron.Worker.InHand

/-!
# The drain comes to an end

`WorkerPool.stop` waits for `join`. Once nothing is accepted any more, the consumers have only so
much to do: each event on the queue is taken once, each batch is written at most `max_retries + 1`
times, and a batch that is dead-lettered is pushed once. `stepsLeft` counts these steps, and it is a
ranking of the process, however replays, the indexer and the timeouts come in between.

So the drain is not kept waiting by work that never ends. When no consumer has a step left, it has
completed, or it waits for an event that nobody will take (`drain_strands_iff`).
-/

open Runs

namespace Acheron

/-- The steps of a job up to its end, at most, of `retries` retries. -/
def Job.stepsLeft (retries : ℕ) : Job → ℕ
  | .writing _ attempt => 3 * (retries - attempt) + 4
  | .wrote _ attempt _ => 3 * (retries - attempt) + 3
  | .sleeping _ attempt => 3 * (retries - attempt) + 2
  | .pushing _ _ => 2
  | .pushed _ _ _ => 1

/-- The steps of a consumer up to the end of its batch, at most, beside those that take an event. -/
def Consumer.stepsLeft {α : Type} (retries : ℕ) : Consumer α → Option Job → ℕ
  | .collecting _, _ => 3 * retries + 5
  | .processing _, some job => job.stepsLeft retries
  | _, _ => 0

/-- A step of a consumer or of its job. -/
def PoolAction.works {ι ρ : Type} : PoolAction ι ρ → Bool
  | .get _ | .collect _ | .job _ _ => true
  | _ => false

variable {ι ρ : Type} [Fintype ι]

/-- The steps of one consumer, at most, up to the end of its batch. -/
def PoolState.leftAt {ι ρ : Type} (retries : ℕ) (s : PoolState ι ρ) (i : ι) : ℕ :=
  (s.dispatch.consumers i).stepsLeft retries (s.worker.jobs i)

/-- The steps of the consumers, at most, until everything queued is processed. -/
def PoolState.stepsLeft {ι ρ : Type} [Fintype ι] (retries : ℕ) (s : PoolState ι ρ) : ℕ :=
  s.dispatch.queue.qsize * (3 * retries + 6) + ∑ i, s.leftAt retries i

variable {ι ρ : Type} [DecidableEq ι] {batchSize maxRetries : ℤ} {retries : ℕ}

/-! ## One step -/

/-- A step of a job is a step less. -/
theorem stepsLeft_job {w w' : WorkerState ι} {a : WorkerAction ι} {job : Job}
    (hmax : maxRetries = retries) (ha : ∀ i batch, a ≠ .start i batch)
    (h : WorkerMove maxRetries w a w') (hjob : w.jobs a.job = some job)
    (htimely : job.Timely maxRetries) :
    (w'.jobs a.job).elim 0 (Job.stepsLeft retries) < job.stepsLeft retries := by
  have hgone {m : ℕ} (hm : 0 < m) :
      (Function.update w.jobs a.job none a.job).elim 0 (Job.stepsLeft retries) < m := by
    rwa [Function.update_self]
  have hnext {job' : Job} {m : ℕ} (hm : job'.stepsLeft retries < m) :
      (Function.update w.jobs a.job (some job') a.job).elim 0 (Job.stepsLeft retries) < m := by
    rwa [Function.update_self]
  cases h with
  | skip _ _ | start _ _ => exact absurd rfl (ha _ _)
  | write hi | persist hi =>
    obtain rfl := Option.some.inj (hi.symm.trans hjob)
    exact hnext (by simp [Job.stepsLeft])
  | written hi | bufferOnly hi _ _ | overflow hi _ _ | settle hi =>
    obtain rfl := Option.some.inj (hi.symm.trans hjob)
    exact hgone (by simp [Job.stepsLeft])
  | push _ hi _ _ | backoff hi _ _ =>
    obtain rfl := Option.some.inj (hi.symm.trans hjob)
    exact hnext (by simp [Job.stepsLeft])
  | wake hi =>
    obtain rfl := Option.some.inj (hi.symm.trans hjob)
    -- The next attempt is one retry less.
    refine hnext ?_
    simp only [Job.Timely] at htimely
    simp only [Job.stepsLeft]
    omega

theorem Consumer.stepsLeft_collecting {α : Type} (batch : List α) (job : Option Job) :
    (Consumer.collecting batch).stepsLeft retries job = 3 * retries + 5 := rfl

theorem Consumer.stepsLeft_processing {α : Type} (batch : List α) (job : Option Job) :
    (Consumer.processing batch).stepsLeft retries job = job.elim 0 (Job.stepsLeft retries) := by
  cases job <;> rfl

/-- A consumer without a batch has nothing to bring to an end. -/
theorem Consumer.stepsLeft_of_batchless {α : Type} {c : Consumer α} (job : Option Job)
    (h : ∀ batch, c ≠ .collecting batch ∧ c ≠ .processing batch) : c.stepsLeft retries job = 0 := by
  cases c with
  | collecting batch => exact absurd rfl (h batch).1
  | processing batch => exact absurd rfl (h batch).2
  | polling | returned | died | overAcknowledged => rfl

theorem Consumer.stepsLeft_afterBatch {α : Type} (acknowledged : Bool) (ending : BatchEnd)
    (job : Option Job) :
    (Consumer.afterBatch acknowledged ending : Consumer α).stepsLeft retries job = 0 := by
  refine stepsLeft_of_batchless job fun batch ↦ ?_
  cases ending <;> cases acknowledged <;> exact ⟨by simp [afterBatch], by simp [afterBatch]⟩

namespace PoolState

variable {s t : PoolState ι ρ} {i : ι}

/-- Where one consumer has moved, the steps left are less if they are for it and for the queue. -/
theorem stepsLeft_lt [Fintype ι] (hoff : ∀ j, j ≠ i → t.leftAt retries j = s.leftAt retries j)
    (hlt : t.dispatch.queue.qsize * (3 * retries + 6) + t.leftAt retries i
      < s.dispatch.queue.qsize * (3 * retries + 6) + s.leftAt retries i) :
    t.stepsLeft retries < s.stepsLeft retries := by
  have hsum := sum_add_of_eq_off hoff
  rw [stepsLeft, stepsLeft]
  omega

/-- A consumer of its own takes nothing from the others. -/
theorem leftAt_update (retries : ℕ) (s t : PoolState ι ρ) {i : ι}
    {c : Consumer (Accepted EventDocument)} {job : Option Job}
    (hconsumers : t.dispatch.consumers = Function.update s.dispatch.consumers i c)
    (hjobs : ∀ j, j ≠ i → t.worker.jobs j = s.worker.jobs j) (hjob : t.worker.jobs i = job) :
    (∀ j, j ≠ i → t.leftAt retries j = s.leftAt retries j) ∧
      t.leftAt retries i = c.stepsLeft retries job := by
  refine ⟨fun j hj ↦ ?_, ?_⟩
  · rw [leftAt, leftAt, hconsumers, Function.update_of_ne hj, hjobs j hj]
  · rw [leftAt, hconsumers, Function.update_self, hjob]

/-- Taking an event from the queue. -/
theorem stepsLeft_take [Fintype ι] {x : Accepted EventDocument}
    {q : EventQueue (Accepted EventDocument)} {batch : List (Accepted EventDocument)}
    (hget : s.dispatch.queue.getNowait = some (x, q)) (hqueue : t.dispatch.queue = q)
    (hconsumers : t.dispatch.consumers
      = Function.update s.dispatch.consumers i (.collecting batch))
    (hworker : t.worker = s.worker) : t.stepsLeft retries < s.stepsLeft retries := by
  obtain ⟨hoff, hat⟩ := leftAt_update retries s t hconsumers (fun j _ ↦ by rw [hworker]) rfl
  obtain ⟨hitems, -, -⟩ := EventQueue.getNowait_eq_some hget
  refine stepsLeft_lt hoff ?_
  have hsize : s.dispatch.queue.qsize = t.dispatch.queue.qsize + 1 := by
    rw [hqueue, EventQueue.qsize, hitems, List.length_cons, EventQueue.qsize]
  -- The event taken was worth more than a batch in the making.
  rw [hat, hsize, Nat.succ_mul t.dispatch.queue.qsize, Consumer.stepsLeft_collecting]
  omega

/-- A turn of the inner loop. -/
theorem stepsLeft_collect [DecidableEq ρ] [Fintype ι] (hmax : maxRetries = retries)
    {u : PoolState ι ρ} (hcollect : s.dispatchStep batchSize (.collect i) = some u)
    (hstart : u.startComplete batchSize maxRetries i = some t) :
    t.stepsLeft retries < s.stepsLeft retries := by
  obtain ⟨d, hd, rfl⟩ := dispatchStep_eq_some hcollect
  have hturn := turn_of_step hd
  cases hturn with
  | grow hcollecting _ hget =>
    simp only [startComplete, Function.update_self] at hstart
    obtain rfl := Option.some.inj hstart
    exact stepsLeft_take hget rfl rfl rfl
  | @close _ batch hcollecting =>
    simp only [startComplete, Function.update_self] at hstart
    obtain ⟨w, hw, hafter⟩ := Option.bind_eq_some_iff.mp hstart
    have hmove := move_of_workerStep hw
    cases hmove with
    | skip _ hneg => omega
    | start hnone _ =>
      simp only [proceed_jobs, Function.update_self] at hafter
      obtain rfl := Option.some.inj hafter
      obtain ⟨hoff, hat⟩ := leftAt_update retries s
        { s with
          dispatch := { s.dispatch with
            consumers := Function.update s.dispatch.consumers i (.processing batch) }
          worker := s.worker.proceed i (.writing (batch.map Accepted.event) 0) }
        rfl (fun j hj ↦ Function.update_of_ne hj _ _) (Function.update_self _ _ _)
      refine stepsLeft_lt hoff ?_
      rw [hat, leftAt, hcollecting, Consumer.stepsLeft_collecting, Consumer.stepsLeft_processing]
      simp [Job.stepsLeft]

omit [DecidableEq ι] in
/-- The consumer of a job processes its batch. -/
theorem exists_processing (hlinked : Linked s.worker s.dispatch) {job : Job}
    (hjob : s.worker.jobs i = some job) : ∃ batch, s.dispatch.consumers i = .processing batch := by
  have hbatch := hlinked i
  rw [hjob] at hbatch
  cases hc : s.dispatch.consumers i with
  | processing batch => exact ⟨batch, rfl⟩
  | polling | collecting _ | returned | died | overAcknowledged =>
    rw [hc] at hbatch
    exact absurd hbatch (by simp [Consumer.running])

/-- A step of a job. -/
theorem stepsLeft_work [DecidableEq ρ] [Fintype ι] (hs : InHand batchSize maxRetries s)
    (hmax : maxRetries = retries) {b : JobAction}
    (h : s.workerStep batchSize maxRetries i (b.of i) = some t) :
    t.stepsLeft retries < s.stepsLeft retries := by
  obtain ⟨w, hw, hafter⟩ := Option.bind_eq_some_iff.mp h
  have hmove := move_of_workerStep hw
  obtain ⟨job, hjob⟩ := hmove.exists_job (JobAction.of_ne_start i · b)
  have hlt := stepsLeft_job hmax (JobAction.of_ne_start i · b) hmove hjob
    (hs.timely _ job hjob)
  have hothers : ∀ j, j ≠ i → w.jobs j = s.worker.jobs j := fun j hj ↦
    hmove.jobs_ne (by rwa [JobAction.job_of])
  rw [JobAction.job_of] at hjob hlt
  obtain ⟨batch, hprocessing⟩ := exists_processing hs.linked hjob
  have hbefore : s.leftAt retries i = job.stepsLeft retries := by
    rw [leftAt, hprocessing, Consumer.stepsLeft_processing, hjob, Option.elim_some]
  cases hnext : w.jobs i with
  | some job' =>
    simp only [hnext] at hafter
    obtain rfl := Option.some.inj hafter
    refine stepsLeft_lt (i := i) (fun j hj ↦ by simp only [leftAt, hothers j hj]) ?_
    rw [hbefore, leftAt, hprocessing, Consumer.stepsLeft_processing]
    exact Nat.add_lt_add_left hlt _
  | none =>
    obtain ⟨ended, ending, hended⟩ := hmove.finished_of_ended (by rwa [JobAction.job_of])
    simp only [hnext, hended, List.getLast?_append_of_ne_nil _ (List.cons_ne_nil _ _),
      List.getLast?_singleton] at hafter
    obtain ⟨d, hd, rfl⟩ := dispatchStep_eq_some hafter
    have hturn := turn_of_step hd
    cases hturn with
    | @finish _ batch' _ hrunning =>
      have hheld : (s.dispatch.consumers i).batch = batch' := by rw [hrunning]; rfl
      obtain ⟨-, hitems, -⟩ := hs.drain.manned.accounting.acknowledged hheld
      refine stepsLeft_lt (i := i) (fun j hj ↦ ?_) ?_
      · simp only [leftAt, hothers j hj, Function.update_of_ne hj]
      · rw [hbefore, leftAt, EventQueue.qsize, hitems, ← EventQueue.qsize]
        simp only [Function.update_self, Consumer.stepsLeft_afterBatch]
        exact Nat.add_lt_add_left (Nat.zero_lt_of_lt hlt) _

omit [DecidableEq ι] in
/-- The steps left are told by the queue, the consumers and the jobs. -/
theorem stepsLeft_congr [Fintype ι] (hqueue : t.dispatch.queue = s.dispatch.queue)
    (hat : ∀ i, t.leftAt retries i = s.leftAt retries i) :
    t.stepsLeft retries = s.stepsLeft retries := by
  rw [stepsLeft, stepsLeft, hqueue, Finset.sum_congr rfl fun i _ ↦ hat i]

/-- A consumer that leaves has no batch. -/
theorem stepsLeft_leave [Fintype ι] {b : DispatchAction EventDocument ι}
    {d : DispatchState EventDocument ι}
    (h : (dispatchMachine EventDocument ι batchSize).step s.dispatch b = some d)
    (hb : b = .timeout i ∨ b = .cancel i) :
    ({ s with dispatch := d } : PoolState ι ρ).stepsLeft retries = s.stepsLeft retries := by
  have hturn := turn_of_step h
  cases hturn with
  | @leave k hpolling _ | @cancel k hpolling =>
    refine stepsLeft_congr rfl fun j ↦ ?_
    by_cases hj : j = k
    · subst hj
      simp only [leftAt, Function.update_self, hpolling, Consumer.stepsLeft]
    · simp only [leftAt, Function.update_of_ne hj]
  | stay _ _ => rfl
  | put _ | refuse _ | get _ _ | grow _ _ _ | close _ | finish _ | stop | join _ | abandon _ =>
    exact absurd hb (by simp)

end PoolState

/-! ## The ranking -/

section Ranking

variable [DecidableEq ρ] [Fintype ι] {s t : PoolState ι ρ} {a : PoolAction ι ρ}

/-- **One step.** Once nothing is accepted, a step of a consumer is a step less, and no other step
makes it more. -/
theorem stepsLeft_step (hs : InHand batchSize maxRetries s) (hclosed : s.lifespan ≠ .running)
    (hmax : maxRetries = retries)
    (h : (poolMachine ι ρ batchSize maxRetries).step s a = some t) :
    if a.works then t.stepsLeft retries < s.stepsLeft retries
    else t.stepsLeft retries ≤ s.stepsLeft retries := by
  simp only [poolMachine] at h
  split at h
  · exact absurd h (by simp)
  cases a with
  | ingest event =>
    simp only [hs.refusing hclosed] at h
    obtain rfl := Option.some.inj h
    exact le_rfl
  | get i =>
    obtain ⟨d, hd, rfl⟩ := PoolState.dispatchStep_eq_some h
    have hturn := turn_of_step hd
    cases hturn with
    | get _ hget => exact PoolState.stepsLeft_take hget rfl rfl rfl
  | collect i =>
    obtain ⟨u, hu, hstart⟩ := Option.bind_eq_some_iff.mp h
    exact PoolState.stepsLeft_collect hmax hu hstart
  | job i b => exact PoolState.stepsLeft_work hs hmax h
  | timeout i =>
    obtain ⟨d, hd, rfl⟩ := PoolState.dispatchStep_eq_some h
    exact (PoolState.stepsLeft_leave hd (Or.inl rfl)).le
  | cancel i =>
    dsimp only at h
    split at h
    · obtain ⟨d, hd, rfl⟩ := PoolState.dispatchStep_eq_some h
      exact (PoolState.stepsLeft_leave hd (Or.inr rfl)).le
    · exact absurd h (by simp)
  | replay r b =>
    obtain ⟨⟨m, c⟩, -, rfl⟩ := Option.map_eq_some_iff.mp h
    exact (PoolState.stepsLeft_congr rfl fun _ ↦ rfl).le
  | mark eventIds =>
    obtain rfl := Option.some.inj h
    exact (PoolState.stepsLeft_congr rfl fun _ ↦ rfl).le
  | shutdown => exact absurd h (by simp)
  | close =>
    dsimp only at h
    split at h
    · obtain rfl := Option.some.inj h
      exact (PoolState.stepsLeft_congr rfl fun _ ↦ rfl).le
    · exact absurd h (by simp)

omit [DecidableEq ρ] [Fintype ι] in
/-- A shutdown is not taken back. -/
theorem lifespan_ne_running (hs : s.lifespan ≠ .running) (h : DrainMove batchSize maxRetries s t a) :
    t.lifespan ≠ .running := by
  cases h with
  | ingest _ _ hflags _ | timeout _ hflags _ | cancel _ _ hflags _ => exact hflags.2 ▸ hs
  | work _ hworks _ => exact hworks.flags.2 ▸ hs
  | shutdown _ _ _ hflags _ | close _ hflags _ => simp [hflags.2]

/-- The steps left are a ranking of the process that is shutting down. -/
def drainRanking (hmax : maxRetries = retries) :
    Ranking (poolMachine ι ρ batchSize maxRetries) PoolAction.works where
  ranked s := InHand batchSize maxRetries s ∧ s.lifespan ≠ .running
  rank s := s.stepsLeft retries
  keeps s a t hs h :=
    ⟨hs.1.move (by omega) h, lifespan_ne_running hs.2 (drain_of_poolStep h)⟩
  work_lt s a t hs hworks h := by
    have hstep := stepsLeft_step hs.1 hs.2 hmax h
    rwa [if_pos hworks] at hstep
  idle_le s a t hs hworks h := by
    have hstep := stepsLeft_step hs.1 hs.2 hmax h
    rwa [if_neg (by simp [hworks])] at hstep

theorem Job.stepsLeft_le (job : Job) : job.stepsLeft retries ≤ 3 * retries + 4 := by
  cases job <;> simp only [Job.stepsLeft] <;> omega

theorem Consumer.stepsLeft_le {α : Type} (c : Consumer α) (job : Option Job) :
    c.stepsLeft retries job ≤ 3 * retries + 6 := by
  cases c with
  | processing batch =>
    cases job with
    | some job =>
      have hle : job.stepsLeft retries ≤ 3 * retries + 4 := job.stepsLeft_le
      rw [Consumer.stepsLeft]
      omega
    | none => exact Nat.zero_le _
  | collecting batch =>
    rw [Consumer.stepsLeft_collecting]
    omega
  | polling | returned | died | overAcknowledged => exact Nat.zero_le _

omit [DecidableEq ι] [DecidableEq ρ] in
/-- The bound: a full account for each event queued and each consumer. -/
theorem stepsLeft_le (s : PoolState ι ρ) : s.stepsLeft retries
    ≤ (s.dispatch.queue.qsize + Fintype.card ι) * (3 * retries + 6) := by
  have hsum := Finset.sum_le_card_nsmul Finset.univ (fun i ↦ s.leftAt retries i) (3 * retries + 6)
    fun i _ ↦ Consumer.stepsLeft_le _ _
  rw [Finset.card_univ, nsmul_eq_mul, Nat.cast_id] at hsum
  rw [PoolState.stepsLeft, Nat.add_mul]
  omega

/-! ## At rest -/

namespace PoolState

omit [DecidableEq ρ] [Fintype ι]

/-- A step of a job can be taken, if its end finds the consumer with the batch. -/
theorem workerStep_ne_none {i : ι} {b : WorkerAction ι} {batch : List (Accepted EventDocument)}
    (hstep : (workerMachine ι maxRetries).step s.worker b ≠ none)
    (hprocessing : s.dispatch.consumers i = .processing batch) :
    s.workerStep batchSize maxRetries i b ≠ none := by
  obtain ⟨w, hw⟩ := Option.ne_none_iff_exists'.mp hstep
  rw [workerStep, hw, Option.bind_some]
  dsimp only
  split
  · simp [dispatchStep, dispatchMachine, hprocessing]
  · simp

/-- A consumer that processes can go on. -/
theorem job_enabled (maxRetries : ℤ) {i : ι} {batch : List (Accepted EventDocument)}
    (hlinked : Linked s.worker s.dispatch)
    (hprocessing : s.dispatch.consumers i = .processing batch) :
    ∃ b : JobAction, s.workerStep batchSize maxRetries i (b.of i) ≠ none := by
  have hbatch := hlinked i
  rw [hprocessing] at hbatch
  obtain ⟨job, hjob, -⟩ := Option.map_eq_some_iff.mp hbatch
  cases job with
  | writing _ _ | pushing _ _ =>
    refine ⟨.call (.answered fun _ ↦ false), workerStep_ne_none ?_ hprocessing⟩
    simp [workerMachine, JobAction.of, hjob]
  | wrote _ _ result =>
    refine ⟨.resume "" fun _ ↦ .epoch, workerStep_ne_none ?_ hprocessing⟩
    cases result with
    | ok u => simp [workerMachine, JobAction.of, hjob]
    | error e => simp [workerMachine, JobAction.of, hjob]
  | sleeping _ _ =>
    refine ⟨.wake, workerStep_ne_none ?_ hprocessing⟩
    simp [workerMachine, JobAction.of, hjob]
  | pushed _ _ _ =>
    refine ⟨.resume "" fun _ ↦ .epoch, workerStep_ne_none ?_ hprocessing⟩
    simp [workerMachine, JobAction.of, hjob]

/-- So can one that collects. -/
theorem collect_enabled {i : ι} {batch : List (Accepted EventDocument)}
    (hlinked : Linked s.worker s.dispatch)
    (hcollecting : s.dispatch.consumers i = .collecting batch) :
    ((s.dispatchStep batchSize (.collect i)).bind fun u ↦
      u.startComplete batchSize maxRetries i) ≠ none := by
  have hnone : s.worker.jobs i = none := by
    have hbatch := hlinked i
    rw [hcollecting] at hbatch
    exact Option.map_eq_none_iff.mp hbatch
  -- Whether or not the batch is complete, there is a next state; and a job can be started.
  have hturn : (dispatchMachine EventDocument ι batchSize).step s.dispatch (.collect i) ≠ none := by
    simp only [dispatchMachine, hcollecting]
    split
    · split <;> simp
    · simp
  obtain ⟨d, hd⟩ := Option.ne_none_iff_exists'.mp hturn
  rw [dispatchStep, hd, Option.map_some, Option.bind_some, startComplete]
  split
  · refine workerStep_ne_none ?_ ‹_›
    simp only [workerMachine, hnone]
    split <;> simp
  · simp

end PoolState

/-- **At rest.** When no consumer has a step left, all that was accepted is processed, or an event
is queued and every consumer has ended. -/
theorem drained_of_atRest (ht : InHand batchSize maxRetries t) (hclosed : t.lifespan ≠ .running)
    (hrest : (poolMachine ι ρ batchSize maxRetries).AtRest PoolAction.works t) :
    t.dispatch.join = .completed ∨
      t.dispatch.queue.items ≠ [] ∧ ∀ i, (t.dispatch.consumers i).ended = true := by
  by_cases hdone : t.lifespan = .closed
  · exact Or.inl (ht.closed hdone)
  have hstep : ∀ a : PoolAction ι ρ, a.works = true →
      (poolMachine ι ρ batchSize maxRetries).step t a = none := hrest
  simp only [poolMachine, if_neg hdone] at hstep
  have hbatchless : ∀ i batch, t.dispatch.consumers i ≠ .collecting batch ∧
      t.dispatch.consumers i ≠ .processing batch := by
    refine fun i batch ↦ ⟨fun hc ↦ ?_, fun hc ↦ ?_⟩
    · exact PoolState.collect_enabled ht.linked hc (hstep (.collect i) rfl)
    · obtain ⟨b, hb⟩ := PoolState.job_enabled maxRetries ht.linked hc
      exact hb (hstep (.job i b) rfl)
  by_cases hqueue : t.dispatch.queue.items = []
  · -- Nothing queued and nothing in hand: nothing is unfinished, so `join` does not wait.
    have hacc := ht.drain.manned.accounting
    have hnone : inFlight t.dispatch.consumers = 0 := by
      refine Finset.sum_eq_zero fun i _ ↦ ?_
      cases hc : t.dispatch.consumers i with
      | collecting batch => exact absurd hc (hbatchless i batch).1
      | processing batch => exact absurd hc (hbatchless i batch).2
      | polling | returned | died | overAcknowledged => rfl
    have hzero : t.dispatch.queue.unfinished = 0 := by
      rw [hacc.unfinished, hnone, EventQueue.qsize, hqueue]
      rfl
    cases hjoin : t.dispatch.join with
    | completed => exact Or.inl rfl
    | waiting => exact absurd hzero (hacc.waiting hjoin)
    | idle =>
      have hdraining : t.lifespan = .draining := by
        cases hl : t.lifespan with
        | draining => rfl
        | running => exact absurd hl hclosed
        | closed => exact absurd hl hdone
      exact absurd hjoin (ht.joining hdraining)
  · refine Or.inr ⟨hqueue, fun i ↦ ?_⟩
    cases hc : t.dispatch.consumers i with
    | polling =>
      have hget := hstep (.get i) rfl
      obtain ⟨x, xs, hitems⟩ := List.exists_cons_of_ne_nil hqueue
      simp [PoolState.dispatchStep, dispatchMachine, hc, EventQueue.getNowait, hitems] at hget
    | collecting batch => exact absurd hc (hbatchless i batch).1
    | processing batch => exact absurd hc (hbatchless i batch).2
    | returned | died | overAcknowledged => rfl

end Ranking

/-- **The drain comes to an end.** From the shutdown on, whatever replays, the indexer and the
timeouts do in between, the consumers take at most `3 * max_retries + 6` steps for each event queued
and each of themselves. When they have none left, the drain has completed, or an event is queued and
every consumer has ended; and from every state their steps alone lead there. -/
theorem drain_ends (ι ρ : Type) [DecidableEq ι] [DecidableEq ρ] [Fintype ι] (batchSize : ℤ)
    (maxRetries : ℕ) (s t : PoolState ι ρ) (as : List (PoolAction ι ρ))
    (hreach : (poolMachine ι ρ batchSize maxRetries).Reachable s) (hclosed : s.lifespan ≠ .running)
    (h : (poolMachine ι ρ batchSize maxRetries).exec s as = some t) :
    (poolMachine ι ρ batchSize maxRetries).count (fun _ a _ ↦ a.works) s as
        ≤ (s.dispatch.queue.qsize + Fintype.card ι) * (3 * maxRetries + 6) ∧
      ((poolMachine ι ρ batchSize maxRetries).AtRest PoolAction.works t →
        t.dispatch.join = .completed ∨
          t.dispatch.queue.items ≠ [] ∧ ∀ i, (t.dispatch.consumers i).ended = true) ∧
      ∃ bs u, (∀ b ∈ bs, b.works = true) ∧
        (poolMachine ι ρ batchSize maxRetries).exec t bs = some u ∧
        (poolMachine ι ρ batchSize maxRetries).AtRest PoolAction.works u := by
  have hinHand := InHand.of_reachable (Int.natCast_nonneg _) hreach
  have hranked : InHand batchSize (maxRetries : ℤ) s ∧ s.lifespan ≠ .running := ⟨hinHand, hclosed⟩
  have hranked' : InHand batchSize (maxRetries : ℤ) t ∧ t.lifespan ≠ .running :=
    Machine.exec_preserves (drainRanking rfl).keeps hranked h
  refine ⟨?_, drained_of_atRest hranked'.1 hranked'.2, ?_⟩
  · have hcount := (drainRanking rfl).count_add_rank_le hranked h
    exact (Nat.le_of_add_right_le hcount).trans (stepsLeft_le s)
  · obtain ⟨bs, u, hworks, -, hrun, hrest⟩ := (drainRanking rfl).exists_atRest hranked'
    exact ⟨bs, u, hworks, hrun, hrest⟩

/-- The consumer that had one event in hand when the stop signal came takes three steps. -/
theorem servedRun_ends :
    ∃ s t, (poolMachine (Fin 1) (Fin 1) 1 0).exec .open (servedRun.take 3) = some s ∧
      (poolMachine (Fin 1) (Fin 1) 1 0).exec s (servedRun.drop 3) = some t ∧
      (poolMachine (Fin 1) (Fin 1) 1 0).count (fun _ a _ ↦ a.works) s (servedRun.drop 3)
        ≤ (s.dispatch.queue.qsize + Fintype.card (Fin 1)) * (3 * 0 + 6) := by
  refine ⟨_, _, rfl, rfl, ?_⟩
  exact (drain_ends (Fin 1) (Fin 1) 1 0 _ _ (servedRun.drop 3)
    ⟨.open, servedRun.take 3, ⟨⟨10, rfl⟩, ⟨rfl, fun _ ↦ rfl, rfl⟩, fun _ ↦ rfl, rfl, rfl⟩, rfl⟩
    (by simp) rfl).1

end Acheron
