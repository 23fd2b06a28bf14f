import Acheron.Api.Replay
import Acheron.Worker.Process

/-!
# The pool in its process

The whole path of an accepted event: `IngestionService.ingest` puts it on the queue, a consumer of
the pool takes it into a batch and processes the batch, replays run against the same store, and the
lifespan ends with `stop_accepting`, the drain, and the closing of the clients. `poolMachine` is
`dispatchMachine` and `workerMachine` side by side: a consumer whose batch is complete starts a job,
and the end of a job is the end of the consumer's batch.

The drain is one that does not time out, so no batch is cancelled while it is processed.
-/

open Runs

namespace Acheron

/-- Where the lifespan is. -/
inductive Lifespan where
  | running
  /-- In `WorkerPool.stop`. -/
  | draining
  /-- The clients are closed. -/
  | closed
  deriving DecidableEq

/-- The process. -/
structure PoolState (ι ρ : Type) where
  dispatch : DispatchState EventDocument ι
  worker : WorkerState ι
  replays : ρ → ReplayCall
  /-- `_accepting`. -/
  accepting : Bool
  lifespan : Lifespan

/-- What may happen to a job. -/
inductive JobAction where
  | call (o : InsertOutcome)
  | resume (reason : String) (now : ℕ → DateTime)
  | wake

/-- A job's action as an action of the pool's jobs. -/
def JobAction.of {ι : Type} (i : ι) : JobAction → WorkerAction ι
  | .call o => .call i o
  | .resume reason now => .resume i reason now
  | .wake => .wake i

/-- What may happen next. -/
inductive PoolAction (ι ρ : Type) where
  /-- `ingest` is called, the event being the document it builds. -/
  | ingest (event : EventDocument)
  | get (i : ι)
  | collect (i : ι)
  | timeout (i : ι)
  | job (i : ι) (a : JobAction)
  | replay (r : ρ) (a : ReplayAction)
  /-- The indexer marks events. -/
  | mark (eventIds : List String)
  /-- `stop_accepting()`, and `worker.stop()` up to its `await`. -/
  | shutdown
  /-- After the drain, consumer `i` is cancelled. -/
  | cancel (i : ι)
  /-- Every consumer has ended; the clients are closed. -/
  | close

/-- The consumer task has ended. -/
def Consumer.ended {α : Type} : Consumer α → Bool
  | .returned | .died | .overAcknowledged => true
  | _ => false

/-- A task that has ended processes no batch. -/
theorem running_of_ended {α : Type} {c : Consumer α} (h : c.ended = true) : c.running = none := by
  cases c with
  | returned | died | overAcknowledged => rfl
  | polling | collecting _ | processing _ => exact absurd h (by simp [Consumer.ended])

variable {ι ρ : Type} [DecidableEq ι] [DecidableEq ρ]

namespace PoolState

/-- A step of the dispatch. -/
def dispatchStep (batchSize : ℤ) (s : PoolState ι ρ) (a : DispatchAction EventDocument ι) :
    Option (PoolState ι ρ) :=
  ((dispatchMachine EventDocument ι batchSize).step s.dispatch a).map fun d ↦
    { s with dispatch := d }

/-- A step of the pool's jobs. If it ends the job of consumer `i`, it ends the consumer's batch. -/
def workerStep (batchSize maxRetries : ℤ) (s : PoolState ι ρ) (i : ι) (a : WorkerAction ι) :
    Option (PoolState ι ρ) :=
  ((workerMachine ι maxRetries).step s.worker a).bind fun w ↦
    let s' := { s with worker := w }
    match w.jobs i, w.finished.getLast? with
    | none, some (_, ending) => s'.dispatchStep batchSize (.finish i ending)
    | _, _ => some s'

/-- After a turn of the inner loop: a complete batch goes into `_process_batch`. -/
def startComplete (batchSize maxRetries : ℤ) (s : PoolState ι ρ) (i : ι) : Option (PoolState ι ρ) :=
  match s.dispatch.consumers i with
  | .processing batch =>
    s.workerStep batchSize maxRetries i (.start i (batch.map Accepted.event))
  | _ => some s

end PoolState

/-- The process, with batches of up to `batchSize` and `maxRetries` retries. -/
def poolMachine (ι ρ : Type) [DecidableEq ι] [DecidableEq ρ] [Fintype ι]
    (batchSize maxRetries : ℤ) : Machine (PoolState ι ρ) (PoolAction ι ρ) where
  init s := (dispatchMachine EventDocument ι batchSize).init s.dispatch ∧
    (workerMachine ι maxRetries).init s.worker ∧ (∀ r, s.replays r = .idle) ∧
    s.accepting = true ∧ s.lifespan = .running
  step s a :=
    if s.lifespan = .closed then none
    else
      match a with
      | .ingest event => if s.accepting then s.dispatchStep batchSize (.put event) else some s
      | .get i => s.dispatchStep batchSize (.get i)
      | .collect i =>
        (s.dispatchStep batchSize (.collect i)).bind fun s' ↦
          s'.startComplete batchSize maxRetries i
      | .timeout i => s.dispatchStep batchSize (.timeout i)
      | .job i a => s.workerStep batchSize maxRetries i (a.of i)
      | .replay r a =>
        (replayStep s.worker.mongo (s.replays r) a).map fun t ↦
          { s with
            worker := { s.worker with mongo := t.1 }
            replays := Function.update s.replays r t.2 }
      | .mark eventIds =>
        some { s with worker := { s.worker with mongo :=
          { s.worker.mongo with events := markIndexed s.worker.mongo.events eventIds } } }
      | .shutdown =>
        -- `stop_accepting` and `stop` run up to the `await` of `join` in one turn of the loop.
        if s.lifespan = .running then
          ({ s with accepting := false, lifespan := .draining }.dispatchStep batchSize .stop).bind
            fun s' ↦ s'.dispatchStep batchSize .join
        else none
      | .cancel i =>
        if s.dispatch.join = .completed then s.dispatchStep batchSize (.cancel i) else none
      | .close =>
        if s.lifespan = .draining ∧ s.dispatch.join = .completed ∧
            ∀ i, (s.dispatch.consumers i).ended then
          some { s with lifespan := .closed }
        else none

/-! ## What a step can do -/

omit [DecidableEq ρ] in
theorem PoolState.dispatchStep_eq_some {batchSize : ℤ} {s t : PoolState ι ρ}
    {a : DispatchAction EventDocument ι} (h : s.dispatchStep batchSize a = some t) :
    ∃ d, (dispatchMachine EventDocument ι batchSize).step s.dispatch a = some d ∧
      t = { s with dispatch := d } := by
  obtain ⟨d, hd, rfl⟩ := Option.map_eq_some_iff.mp h
  exact ⟨d, hd, rfl⟩

omit [DecidableEq ι] in
@[simp] theorem JobAction.job_of (i : ι) (a : JobAction) : (a.of i).job = i := by
  cases a <;> rfl

omit [DecidableEq ι] in
theorem JobAction.of_ne_start (i j : ι) (a : JobAction) (batch : List EventDocument) :
    a.of i ≠ .start j batch := by
  cases a <;> exact fun h ↦ by cases h

/-- The steps of the process, with a retry bound for which the retry loop is not skipped. -/
inductive PoolMove (batchSize maxRetries : ℤ) (s : PoolState ι ρ) :
    PoolAction ι ρ → PoolState ι ρ → Prop
  /-- `ingest` raises. -/
  | refuse {a : PoolAction ι ρ} : PoolMove batchSize maxRetries s a s
  /-- A step of the dispatch that neither starts nor ends a job. -/
  | dispatch {a : PoolAction ι ρ} {b : DispatchAction EventDocument ι}
      {d : DispatchState EventDocument ι}
      (hstep : (dispatchMachine EventDocument ι batchSize).step s.dispatch b = some d)
      (hput : ∀ event, b = .put event → s.accepting = true) (hjoin : b ≠ .join)
      (hfinish : ∀ i ending, b ≠ .finish i ending)
      (hcollect : ∀ i, b = .collect i → (d.consumers i).running = none) :
      PoolMove batchSize maxRetries s a { s with dispatch := d }
  /-- A complete batch becomes a job. -/
  | start {i : ι} {batch : List (Accepted EventDocument)} {d : DispatchState EventDocument ι}
      (hstep : (dispatchMachine EventDocument ι batchSize).step s.dispatch (.collect i) = some d)
      (hbatch : d.consumers i = .processing batch)
      (hjob : WorkerMove maxRetries s.worker (.start i (batch.map Accepted.event))
        (s.worker.proceed i (.writing (batch.map Accepted.event) 0))) :
      PoolMove batchSize maxRetries s (.collect i) { s with
        dispatch := d
        worker := s.worker.proceed i (.writing (batch.map Accepted.event) 0) }
  /-- A job goes on. -/
  | work {i : ι} {b : JobAction} {w : WorkerState ι}
      (hmove : WorkerMove maxRetries s.worker (b.of i) w) (hjob : w.jobs i ≠ none) :
      PoolMove batchSize maxRetries s (.job i b) { s with worker := w }
  /-- A job ends, and with it the consumer's batch. -/
  | finish {i : ι} {b : JobAction} {w : WorkerState ι} {d : DispatchState EventDocument ι}
      {ending : BatchEnd} (hmove : WorkerMove maxRetries s.worker (b.of i) w)
      (hnone : w.jobs i = none)
      (hstep : (dispatchMachine EventDocument ι batchSize).step s.dispatch (.finish i ending)
        = some d) :
      PoolMove batchSize maxRetries s (.job i b) { s with dispatch := d, worker := w }
  | replay {r : ρ} {b : ReplayAction} {m : Mongo} {c : ReplayCall}
      (hmove : ReplayMove s.worker.mongo (s.replays r) b m c) :
      PoolMove batchSize maxRetries s (.replay r b) { s with
        worker := { s.worker with mongo := m }
        replays := Function.update s.replays r c }
  | mark (eventIds : List String) : PoolMove batchSize maxRetries s (.mark eventIds)
      { s with worker := { s.worker with mongo :=
          { s.worker.mongo with events := markIndexed s.worker.mongo.events eventIds } } }
  | shutdown {d d' : DispatchState EventDocument ι} (hrunning : s.lifespan = .running)
      (hstop : (dispatchMachine EventDocument ι batchSize).step s.dispatch .stop = some d)
      (hjoin : (dispatchMachine EventDocument ι batchSize).step d .join = some d') :
      PoolMove batchSize maxRetries s .shutdown
        { s with accepting := false, lifespan := .draining, dispatch := d' }
  | close (hdraining : s.lifespan = .draining) (hdone : s.dispatch.join = .completed)
      (hended : ∀ i, (s.dispatch.consumers i).ended) :
      PoolMove batchSize maxRetries s .close { s with lifespan := .closed }

namespace PoolMove

variable {batchSize maxRetries : ℤ} {s t : PoolState ι ρ}

omit [DecidableEq ρ]

/-- A step of the dispatch that is not about jobs. -/
theorem of_dispatchStep [DecidableEq ρ] {a : PoolAction ι ρ} {b : DispatchAction EventDocument ι}
    (hput : ∀ event, b = .put event → s.accepting = true) (hjoin : b ≠ .join)
    (hfinish : ∀ i ending, b ≠ .finish i ending) (hcollect : ∀ i, b ≠ .collect i)
    (h : s.dispatchStep batchSize b = some t) : PoolMove batchSize maxRetries s a t := by
  obtain ⟨d, hd, rfl⟩ := PoolState.dispatchStep_eq_some h
  exact .dispatch hd hput hjoin hfinish fun i hi ↦ absurd hi (hcollect i)

/-- A turn of the inner loop, and the start of the job if it was the last. -/
theorem of_collect [DecidableEq ρ] (hmax : 0 ≤ maxRetries) {i : ι} {s' : PoolState ι ρ}
    (hcollect : s.dispatchStep batchSize (.collect i) = some s')
    (hstart : s'.startComplete batchSize maxRetries i = some t) :
    PoolMove batchSize maxRetries s (.collect i) t := by
  obtain ⟨d, hd, rfl⟩ := PoolState.dispatchStep_eq_some hcollect
  unfold PoolState.startComplete at hstart
  cases hbatch : d.consumers i with
  | processing batch =>
    simp only [hbatch] at hstart
    obtain ⟨w, hw, hafter⟩ := Option.bind_eq_some_iff.mp hstart
    have hmove := move_of_workerStep hw
    cases hmove with
    | skip _ hneg => omega
    | start hnone hmax =>
      simp only [proceed_jobs, Function.update_self] at hafter
      exact Option.some.inj hafter ▸ .start hd hbatch (.start hnone hmax)
  | polling | collecting _ | returned | died | overAcknowledged =>
    simp only [hbatch] at hstart
    refine Option.some.inj hstart ▸ .dispatch hd (by simp) (by simp) (by simp) fun j hj ↦ ?_
    obtain rfl := DispatchAction.collect.inj hj
    rw [hbatch]
    rfl

/-- A step of a job, and the end of the batch if it was the last. -/
theorem of_workerStep [DecidableEq ρ] {i : ι} {b : JobAction}
    (h : s.workerStep batchSize maxRetries i (b.of i) = some t) :
    PoolMove batchSize maxRetries s (.job i b) t := by
  obtain ⟨w, hw, hafter⟩ := Option.bind_eq_some_iff.mp h
  have hmove := move_of_workerStep hw
  cases hjob : w.jobs i with
  | some job =>
    simp only [hjob] at hafter
    exact Option.some.inj hafter ▸ .work hmove (by simp [hjob])
  | none =>
    obtain ⟨batch, ending, hfin⟩ := hmove.finished_of_ended (by rwa [JobAction.job_of])
    simp only [hjob, hfin, List.getLast?_append_of_ne_nil _ (List.cons_ne_nil _ _),
      List.getLast?_singleton] at hafter
    obtain ⟨d, hd, rfl⟩ := PoolState.dispatchStep_eq_some hafter
    exact .finish hmove hjob hd

end PoolMove

theorem move_of_poolStep [Fintype ι] {batchSize maxRetries : ℤ} (hmax : 0 ≤ maxRetries)
    {s t : PoolState ι ρ} {a : PoolAction ι ρ}
    (h : (poolMachine ι ρ batchSize maxRetries).step s a = some t) :
    s.lifespan ≠ .closed ∧ PoolMove batchSize maxRetries s a t := by
  simp only [poolMachine] at h
  by_cases hclosed : s.lifespan = .closed
  · rw [if_pos hclosed] at h
    exact absurd h (by simp)
  rw [if_neg hclosed] at h
  refine ⟨hclosed, ?_⟩
  cases a with
  | ingest event =>
    by_cases haccepting : s.accepting = true
    · simp only [haccepting, if_true] at h
      exact .of_dispatchStep (fun _ _ ↦ haccepting) (by simp) (by simp) (by simp) h
    · simp only [haccepting] at h
      exact Option.some.inj h ▸ .refuse
  | get i | timeout i => exact .of_dispatchStep (by simp) (by simp) (by simp) (by simp) h
  | collect i =>
    -- The turn may complete the batch, which starts its job.
    obtain ⟨s', hs', hstart⟩ := Option.bind_eq_some_iff.mp h
    exact .of_collect hmax hs' hstart
  | job i b => exact .of_workerStep h
  | replay r b =>
    obtain ⟨⟨m, c⟩, hstep, rfl⟩ := Option.map_eq_some_iff.mp h
    exact .replay (move_of_replayStep hstep)
  | mark eventIds => exact Option.some.inj h ▸ .mark eventIds
  | shutdown =>
    by_cases hrunning : s.lifespan = .running
    · rw [if_pos hrunning] at h
      obtain ⟨s', hs', hjoin⟩ := Option.bind_eq_some_iff.mp h
      obtain ⟨d, hd, rfl⟩ := PoolState.dispatchStep_eq_some hs'
      obtain ⟨d', hd', rfl⟩ := PoolState.dispatchStep_eq_some hjoin
      exact .shutdown hrunning hd hd'
    · rw [if_neg hrunning] at h
      exact absurd h (by simp)
  | cancel i =>
    dsimp only at h
    by_cases hdone : s.dispatch.join = .completed
    · rw [if_pos hdone] at h
      exact .of_dispatchStep (by simp) (by simp) (by simp) (by simp) h
    · rw [if_neg hdone] at h
      exact absurd h (by simp)
  | close =>
    dsimp only at h
    split at h
    case isTrue hready => exact Option.some.inj h ▸ .close hready.1 hready.2.1 hready.2.2
    case isFalse => exact absurd h (by simp)

end Acheron
