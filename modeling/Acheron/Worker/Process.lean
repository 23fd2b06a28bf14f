import Acheron.Queue.DeadLetter
import Acheron.Storage.Mongo
import Acheron.Worker.Dispatch

/-!
# Processing a batch

`WorkerPool._process_batch` with everything it shares: the two Mongo collections, the dead-letter
queue with its buffer, and the counters. One call is a `Job`, cut at its awaits; the driver call and
the resumption after it are separate steps, so that other jobs may run between them.

A write that fails is retried until `attempt == max_retries`, and then the whole batch goes to the
dead-letter queue. Two ways past that are modelled as they are: a negative `max_retries` makes the
loop body never run, and `math.pow(2, attempt)` raises `OverflowError` from attempt 1024 on, out of
the `except` block and out of the call.

`WorkerMove` inverts the step function once, a constructor for each branch; the invariants are case
analyses on it.
-/

open Runs

namespace Acheron

/-- The counters of `WorkerPool.metrics`. -/
structure WorkerMetrics where
  eventsProcessed : ℕ
  batchesProcessed : ℕ
  retries : ℕ

/-- Where a `_process_batch` call is. -/
inductive Job where
  /-- In `bulk_write`. -/
  | writing (batch : List EventDocument) (attempt : ℕ)
  /-- `bulk_write` has returned or raised. -/
  | wrote (batch : List EventDocument) (attempt : ℕ) (result : Except CallError Unit)
  /-- In the backoff after a failed attempt. -/
  | sleeping (batch : List EventDocument) (attempt : ℕ)
  /-- In `push_many`, with the snapshot handed to the sink. -/
  | pushing (batch : List EventDocument) (pending : List DLQEntry)
  /-- The sink has stored the snapshot, or raised. -/
  | pushed (batch : List EventDocument) (pending : List DLQEntry) (stored : Bool)

/-- The batch a job works on. -/
def Job.batch : Job → List EventDocument
  | .writing batch _ | .wrote batch _ _ | .sleeping batch _ | .pushing batch _
  | .pushed batch _ _ => batch

/-- The pool's jobs and what they share. -/
structure WorkerState (ι : Type) where
  mongo : Mongo
  dlq : DeadLetterQueue
  metrics : WorkerMetrics
  jobs : ι → Option Job
  /-- History: the batches whose processing has ended, and how. -/
  finished : List (List EventDocument × BatchEnd)

/-- What may happen next. -/
inductive WorkerAction (ι : Type) where
  /-- Consumer `i` calls `_process_batch`. -/
  | start (i : ι) (batch : List EventDocument)
  /-- The driver call of job `i` meets its outcome. -/
  | call (i : ι) (o : InsertOutcome)
  /-- Job `i` resumes; `reason` and `now` are what a dead letter would record. -/
  | resume (i : ι) (reason : String) (now : ℕ → DateTime)
  /-- The backoff of job `i` is over. -/
  | wake (i : ι)

namespace WorkerState

variable {ι : Type} [DecidableEq ι]

/-- Job `i` goes on. -/
def proceed (s : WorkerState ι) (i : ι) (job : Job) : WorkerState ι :=
  { s with jobs := Function.update s.jobs i (some job) }

/-- Job `i` ends. -/
def finish (s : WorkerState ι) (i : ι) (batch : List EventDocument) (ending : BatchEnd) :
    WorkerState ι :=
  { s with jobs := Function.update s.jobs i none, finished := s.finished ++ [(batch, ending)] }

/-- The counters after a batch that was written. -/
def countProcessed (s : WorkerState ι) (batch : List EventDocument) : WorkerState ι :=
  { s with metrics := { s.metrics with
      batchesProcessed := s.metrics.batchesProcessed + 1
      eventsProcessed := s.metrics.eventsProcessed + batch.length } }

/-- After the retries: hand the batch to the dead-letter queue. -/
def deadLetter (s : WorkerState ι) (i : ι) (batch : List EventDocument) (reason : String)
    (now : ℕ → DateTime) : WorkerState ι :=
  let r := s.dlq.pushMany batch reason now
  let s' := { s with dlq := r.1 }
  match r.2 with
  | some pending => s'.proceed i (.pushing batch pending)
  | none => s'.finish i batch .normal

/-- The `except` block of attempt `attempt`. -/
def afterFailure (maxRetries : ℤ) (s : WorkerState ι) (i : ι) (batch : List EventDocument)
    (attempt : ℕ) (reason : String) (now : ℕ → DateTime) : WorkerState ι :=
  if attempt = maxRetries then s.deadLetter i batch reason now
  else
    let s' := { s with metrics := { s.metrics with retries := s.metrics.retries + 1 } }
    -- `math.pow(2, 1024)` is out of range.
    if 1024 ≤ attempt then s'.finish i batch .raised else s'.proceed i (.sleeping batch attempt)

end WorkerState

/-- The pool's jobs, under every interleaving at their awaits. -/
def workerMachine (ι : Type) [DecidableEq ι] (maxRetries : ℤ) :
    Machine (WorkerState ι) (WorkerAction ι) where
  init s := s.dlq = .new true ∧ (∀ i, s.jobs i = none) ∧ s.finished = []
  step s
    | .start i batch =>
      match s.jobs i with
      | some _ => none
      | none =>
        -- With a negative bound `range(max_retries + 1)` is empty.
        if maxRetries < 0 then some ((s.countProcessed batch).finish i batch .normal)
        else some (s.proceed i (.writing batch 0))
    | .call i o =>
      match s.jobs i with
      | some (.writing batch attempt) =>
        let r := bulkWrite s.mongo.events batch o
        some ({ s with mongo := { s.mongo with events := r.1 } }.proceed i
          (.wrote batch attempt r.2))
      | some (.pushing batch pending) =>
        let r := persistDeadLetters s.mongo.deadLetters (pending.map entryToDoc) o
        some ({ s with mongo := { s.mongo with deadLetters := r.1 } }.proceed i
          (.pushed batch pending r.2.isOk))
      | _ => none
    | .resume i reason now =>
      match s.jobs i with
      | some (.wrote batch _ (.ok ())) => some ((s.countProcessed batch).finish i batch .normal)
      | some (.wrote batch attempt (.error _)) =>
        some (s.afterFailure maxRetries i batch attempt reason now)
      | some (.pushed batch pending stored) =>
        some ({ s with dlq := s.dlq.resume pending stored }.finish i batch .normal)
      | _ => none
    | .wake i =>
      match s.jobs i with
      | some (.sleeping batch attempt) => some (s.proceed i (.writing batch (attempt + 1)))
      | _ => none

/-! ## What a step can do -/

section Frame

variable {ι : Type} [DecidableEq ι] (s : WorkerState ι) (i : ι)

@[simp] theorem proceed_mongo (job : Job) : (s.proceed i job).mongo = s.mongo := rfl

@[simp] theorem proceed_dlq (job : Job) : (s.proceed i job).dlq = s.dlq := rfl

@[simp] theorem proceed_finished (job : Job) : (s.proceed i job).finished = s.finished := rfl

@[simp] theorem finish_mongo (batch : List EventDocument) (ending : BatchEnd) :
    (s.finish i batch ending).mongo = s.mongo := rfl

@[simp] theorem finish_dlq (batch : List EventDocument) (ending : BatchEnd) :
    (s.finish i batch ending).dlq = s.dlq := rfl

@[simp] theorem finish_finished (batch : List EventDocument) (ending : BatchEnd) :
    (s.finish i batch ending).finished = s.finished ++ [(batch, ending)] := rfl

@[simp] theorem proceed_jobs (job : Job) :
    (s.proceed i job).jobs = Function.update s.jobs i (some job) := rfl

@[simp] theorem finish_jobs (batch : List EventDocument) (ending : BatchEnd) :
    (s.finish i batch ending).jobs = Function.update s.jobs i none := rfl

/-- What holds of every job still holds when one goes on. -/
theorem forall_jobs_proceed {Q : Job → Prop} {job : Job}
    (h : ∀ j job, s.jobs j = some job → Q job) (hjob : Q job) :
    ∀ j job', (s.proceed i job).jobs j = some job' → Q job' := by
  intro j job' hj
  by_cases hji : j = i
  · subst hji
    obtain rfl : job = job' := by simpa [WorkerState.proceed] using hj
    exact hjob
  · exact h j job' (by simpa [WorkerState.proceed, hji] using hj)

/-- What holds of every job still holds when one ends. -/
theorem forall_jobs_finish {Q : Job → Prop} {batch : List EventDocument} {ending : BatchEnd}
    (h : ∀ j job, s.jobs j = some job → Q job) :
    ∀ j job', (s.finish i batch ending).jobs j = some job' → Q job' := by
  intro j job' hj
  by_cases hji : j = i
  · subst hji
    exact absurd hj (by simp [WorkerState.finish])
  · exact h j job' (by simpa [WorkerState.finish, hji] using hj)

end Frame

variable {ι : Type} [DecidableEq ι]

/-- The steps of the pool's jobs, one constructor for each branch of the source. -/
inductive WorkerMove (maxRetries : ℤ) (s : WorkerState ι) : WorkerAction ι → WorkerState ι → Prop
  | skip {i : ι} {batch : List EventDocument} (hnone : s.jobs i = none) (hneg : maxRetries < 0) :
      WorkerMove maxRetries s (.start i batch) ((s.countProcessed batch).finish i batch .normal)
  | start {i : ι} {batch : List EventDocument} (hnone : s.jobs i = none) (hmax : 0 ≤ maxRetries) :
      WorkerMove maxRetries s (.start i batch) (s.proceed i (.writing batch 0))
  | write {i : ι} {o : InsertOutcome} {batch : List EventDocument} {attempt : ℕ}
      (hjob : s.jobs i = some (.writing batch attempt)) :
      WorkerMove maxRetries s (.call i o)
        ({ s with mongo := { s.mongo with events := (bulkWrite s.mongo.events batch o).1 } }.proceed i
          (.wrote batch attempt (bulkWrite s.mongo.events batch o).2))
  | persist {i : ι} {o : InsertOutcome} {batch : List EventDocument} {pending : List DLQEntry}
      (hjob : s.jobs i = some (.pushing batch pending)) :
      WorkerMove maxRetries s (.call i o)
        ({ s with mongo := { s.mongo with deadLetters :=
            (persistDeadLetters s.mongo.deadLetters (pending.map entryToDoc) o).1 } }.proceed i
          (.pushed batch pending
            (persistDeadLetters s.mongo.deadLetters (pending.map entryToDoc) o).2.isOk))
  | written {i : ι} {reason : String} {now : ℕ → DateTime} {batch : List EventDocument}
      {attempt : ℕ} (hjob : s.jobs i = some (.wrote batch attempt (.ok ()))) :
      WorkerMove maxRetries s (.resume i reason now)
        ((s.countProcessed batch).finish i batch .normal)
  | push {i : ι} {reason : String} {now : ℕ → DateTime} {batch : List EventDocument}
      {attempt : ℕ} {e : CallError} (pending : List DLQEntry)
      (hjob : s.jobs i = some (.wrote batch attempt (.error e))) (hlast : attempt = maxRetries)
      (hpush : (s.dlq.pushMany batch reason now).2 = some pending) :
      WorkerMove maxRetries s (.resume i reason now)
        ({ s with dlq := (s.dlq.pushMany batch reason now).1 }.proceed i (.pushing batch pending))
  | bufferOnly {i : ι} {reason : String} {now : ℕ → DateTime} {batch : List EventDocument}
      {attempt : ℕ} {e : CallError} (hjob : s.jobs i = some (.wrote batch attempt (.error e)))
      (hlast : attempt = maxRetries) (hpush : (s.dlq.pushMany batch reason now).2 = none) :
      WorkerMove maxRetries s (.resume i reason now)
        ({ s with dlq := (s.dlq.pushMany batch reason now).1 }.finish i batch .normal)
  | overflow {i : ι} {reason : String} {now : ℕ → DateTime} {batch : List EventDocument}
      {attempt : ℕ} {e : CallError} (hjob : s.jobs i = some (.wrote batch attempt (.error e)))
      (hmore : (attempt : ℤ) ≠ maxRetries) (hbig : 1024 ≤ attempt) :
      WorkerMove maxRetries s (.resume i reason now)
        ({ s with metrics := { s.metrics with retries := s.metrics.retries + 1 } }.finish i batch
          .raised)
  | backoff {i : ι} {reason : String} {now : ℕ → DateTime} {batch : List EventDocument}
      {attempt : ℕ} {e : CallError} (hjob : s.jobs i = some (.wrote batch attempt (.error e)))
      (hmore : (attempt : ℤ) ≠ maxRetries) (hsmall : attempt < 1024) :
      WorkerMove maxRetries s (.resume i reason now)
        ({ s with metrics := { s.metrics with retries := s.metrics.retries + 1 } }.proceed i
          (.sleeping batch attempt))
  | settle {i : ι} {reason : String} {now : ℕ → DateTime} {batch : List EventDocument}
      {pending : List DLQEntry} {stored : Bool}
      (hjob : s.jobs i = some (.pushed batch pending stored)) :
      WorkerMove maxRetries s (.resume i reason now)
        ({ s with dlq := s.dlq.resume pending stored }.finish i batch .normal)
  | wake {i : ι} {batch : List EventDocument} {attempt : ℕ}
      (hjob : s.jobs i = some (.sleeping batch attempt)) :
      WorkerMove maxRetries s (.wake i) (s.proceed i (.writing batch (attempt + 1)))

theorem move_of_workerStep {maxRetries : ℤ} {s t : WorkerState ι} {a : WorkerAction ι}
    (h : (workerMachine ι maxRetries).step s a = some t) : WorkerMove maxRetries s a t := by
  cases a with
  | start i batch =>
    simp only [workerMachine] at h
    split at h
    case h_1 => exact absurd h (by simp)
    case h_2 hnone =>
      by_cases hneg : maxRetries < 0
      · rw [if_pos hneg] at h
        exact Option.some.inj h ▸ .skip hnone hneg
      · rw [if_neg hneg] at h
        exact Option.some.inj h ▸ .start hnone (by omega)
  | call i o =>
    simp only [workerMachine] at h
    split at h
    case h_1 hjob => exact Option.some.inj h ▸ .write hjob
    case h_2 hjob => exact Option.some.inj h ▸ .persist hjob
    case h_3 => exact absurd h (by simp)
  | resume i reason now =>
    simp only [workerMachine] at h
    split at h
    case h_1 hjob => exact Option.some.inj h ▸ .written hjob
    case h_2 batch attempt e hjob =>
      obtain rfl := Option.some.inj h
      -- After a failed write: dead-letter on the last attempt, else back off.
      unfold WorkerState.afterFailure
      by_cases hlast : attempt = maxRetries
      · rw [if_pos hlast, WorkerState.deadLetter]
        cases hpush : (s.dlq.pushMany batch reason now).2 with
        | some pending => exact .push pending hjob hlast hpush
        | none => exact .bufferOnly hjob hlast hpush
      · rw [if_neg hlast]
        by_cases hbig : 1024 ≤ attempt
        · rw [if_pos hbig]
          exact .overflow hjob hlast hbig
        · rw [if_neg hbig]
          exact .backoff hjob hlast (by omega)
    case h_3 hjob => exact Option.some.inj h ▸ .settle hjob
    case h_4 => exact absurd h (by simp)
  | wake i =>
    simp only [workerMachine] at h
    split at h
    case h_1 hjob => exact Option.some.inj h ▸ .wake hjob
    case h_2 => exact absurd h (by simp)

/-- The job an action is about. -/
def WorkerAction.job : WorkerAction ι → ι
  | .start i _ | .call i _ | .resume i _ _ | .wake i => i

namespace WorkerMove

variable {maxRetries : ℤ} {s t : WorkerState ι} {a : WorkerAction ι}

/-- A step changes one job. -/
theorem jobs_ne (h : WorkerMove maxRetries s a t) {j : ι} (hj : j ≠ a.job) :
    t.jobs j = s.jobs j := by
  cases h <;> exact Function.update_of_ne hj _ _

/-- Only a start needs no job. -/
theorem exists_job (h : WorkerMove maxRetries s a t) (ha : ∀ i batch, a ≠ .start i batch) :
    ∃ job, s.jobs a.job = some job := by
  cases h with
  | skip _ _ | start _ _ => exact absurd rfl (ha _ _)
  | write hjob | persist hjob | written hjob | push _ hjob _ _ | bufferOnly hjob _ _
  | overflow hjob _ _ | backoff hjob _ _ | settle hjob | wake hjob => exact ⟨_, hjob⟩

/-- A step removes nothing from `events`. -/
theorem mem_events (h : WorkerMove maxRetries s a t) {k : String} (hk : k ∈ s.mongo.events) :
    k ∈ t.mongo.events := by
  cases h with
  | write _ => exact mem_bulkWrite_of_mem hk
  | _ => exact hk

/-- A job goes on with the batch it has, or ends. -/
theorem batch_eq (h : WorkerMove maxRetries s a t) {job job' : Job}
    (hs : s.jobs a.job = some job) (ht : t.jobs a.job = some job') : job'.batch = job.batch := by
  have hproceed {c : Job} (hc : Function.update s.jobs a.job (some c) a.job = some job') :
      c = job' := by simpa using hc
  have hfinish (hc : Function.update s.jobs a.job none a.job = some job') : False := by
    simp at hc
  cases h with
  | start hnone _ => exact absurd (hnone.symm.trans hs) (by simp)
  | skip _ _ | written _ | bufferOnly _ _ _ | overflow _ _ _ | settle _ => exact (hfinish ht).elim
  | write hjob | push _ hjob _ _ | persist hjob | backoff hjob _ _ | wake hjob =>
    obtain rfl := hproceed ht
    obtain rfl := Option.some.inj (hjob.symm.trans hs)
    rfl

/-- A job that has ended is on record. -/
theorem finished_of_ended (h : WorkerMove maxRetries s a t) (hnone : t.jobs a.job = none) :
    ∃ batch ending, t.finished = s.finished ++ [(batch, ending)] := by
  have hproceed {c : Job} (hc : Function.update s.jobs a.job (some c) a.job = none) : False := by
    simp at hc
  cases h with
  | skip _ _ | written _ | bufferOnly _ _ _ | overflow _ _ _ | settle _ => exact ⟨_, _, rfl⟩
  | start _ _ | write _ | push _ _ _ _ | persist _ | backoff _ _ _ | wake _ =>
    exact (hproceed hnone).elim

end WorkerMove

end Acheron
