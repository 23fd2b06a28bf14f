import Acheron.Lib.Ledger
import Acheron.Worker.Retry

/-!
# The worker's counters

The counters of `WorkerPool.metrics` and the `recorded` of the dead-letter queue are shared by all
consumers and moved on different branches of the retry loop. The pool is run here with a ledger
beside it: what each `_process_batch` call has done so far, in the terms of the sequential call, and
the ended calls with how they ended. Each counter is a weight on these effects, so it stands at the
total of the ledger under every interleaving. What an ended call has done takes one of three forms,
and the equations between the counters hold form by form.
-/

open Runs Ledgers

namespace Acheron

/-- What a `_process_batch` call of the pool does. -/
abbrev PoolEffect := BatchEffect EventDocument CallError

/-- The batches and what was done with each. -/
abbrev BatchLedger (ι : Type) := Ledger ι (List EventDocument × BatchEnd) PoolEffect

variable {ι : Type} [DecidableEq ι]

/-- What an action does for the batch of its job. -/
def effectsOf (maxRetries : ℤ) (s : WorkerState ι) : WorkerAction ι → List PoolEffect
  | .start _ batch => if maxRetries < 0 then [.processed batch] else []
  | .call i o =>
    match s.jobs i with
    | some (.writing batch _) => [.write batch (bulkWrite s.mongo.events batch o).2]
    | _ => []
  | .resume i _ _ =>
    match s.jobs i with
    | some (.wrote batch _ (.ok ())) => [.processed batch]
    | some (.wrote batch attempt (.error e)) =>
      if attempt = maxRetries then [.push batch e] else [.retry]
    | _ => []
  | .wake _ => []

/-- The entry of one step, which closes the call if its job has ended. -/
def account (maxRetries : ℤ) (s : WorkerState ι) (a : WorkerAction ι) (t : WorkerState ι)
    (L : BatchLedger ι) : BatchLedger ι :=
  let L' := L.note a.job (effectsOf maxRetries s a)
  match t.jobs a.job, t.finished.getLast? with
  | none, some k => L'.close a.job k
  | _, _ => L'

/-- `WorkerPool.__init__` sets every counter to zero. -/
def WorkerMetrics.zero : WorkerMetrics := ⟨0, 0, 0⟩

/-- A new pool, with its ledger. -/
def auditMachine (ι : Type) [DecidableEq ι] (maxRetries : ℤ) :
    Machine (WorkerState ι × BatchLedger ι) (WorkerAction ι) where
  init p := ((workerMachine ι maxRetries).withHistory (account maxRetries) .empty).init p ∧
    p.1.metrics = .zero
  step := ((workerMachine ι maxRetries).withHistory (account maxRetries) .empty).step

/-! ## The counters as weights -/

/-- What an effect adds to `events_processed`. -/
def BatchEffect.eventsProcessed {α ε : Type} : BatchEffect α ε → ℕ
  | .processed batch => batch.length
  | _ => 0

/-- What an effect adds to `batches_processed`. -/
def BatchEffect.batchesProcessed {α ε : Type} : BatchEffect α ε → ℕ
  | .processed _ => 1
  | _ => 0

/-- What an effect adds to `retries`. -/
def BatchEffect.retries {α ε : Type} : BatchEffect α ε → ℕ
  | .retry => 1
  | _ => 0

/-- What an effect adds to the `recorded` of the dead-letter queue. -/
def BatchEffect.recorded {α ε : Type} : BatchEffect α ε → ℕ
  | .push batch _ => batch.length
  | _ => 0

/-- A failed attempt. -/
def BatchEffect.failures {α ε : Type} : BatchEffect α ε → ℕ
  | .write _ (.error _) => 1
  | _ => 0

/-- The `bulk_write` calls among the effects. -/
def writesOf {α ε : Type} (xs : List (BatchEffect α ε)) : List (Except ε Unit) :=
  xs.filterMap fun
    | .write _ result => some result
    | _ => none

/-- Some `bulk_write` returned normally. -/
def wasWritten {α ε : Type} (xs : List (BatchEffect α ε)) : Bool := (writesOf xs).any Except.isOk

/-- A `push_many` call. -/
def BatchEffect.isPush {α ε : Type} : BatchEffect α ε → Bool
  | .push _ _ => true
  | _ => false

/-- The batch was passed to `push_many`. -/
def wasSent {α ε : Type} (xs : List (BatchEffect α ε)) : Bool := xs.any BatchEffect.isPush

/-- `_process_batch` returned. -/
def BatchEnd.isNormal : BatchEnd → Bool
  | .normal => true
  | _ => false

/-! ## What a call has done -/

/-- What a job has done by the time it is where it is. -/
def Job.Did (maxRetries : ℤ) : Option Job → List PoolEffect → Prop
  | none, xs => xs = []
  | some (.writing batch attempt), xs =>
    attempt ≤ maxRetries ∧ attempt ≤ 1024 ∧ ∃ excs, excs.length = attempt ∧
      xs = retried batch excs
  | some (.wrote batch attempt result), xs =>
    attempt ≤ maxRetries ∧ attempt ≤ 1024 ∧ ∃ excs, excs.length = attempt ∧
      xs = retried batch excs ++ [.write batch result]
  | some (.sleeping batch attempt), xs =>
    attempt < maxRetries ∧ attempt < 1024 ∧ ∃ excs, excs.length = attempt + 1 ∧
      xs = retried batch excs
  | some (.pushing batch _), xs | some (.pushed batch _ _), xs =>
    ∃ excs e, (excs.length : ℤ) = maxRetries ∧ excs.length ≤ 1024 ∧
      xs = retried batch excs ++ [.write batch (.error e), .push batch e]

/-- **What an ended call has done**: written its batch after some retries, dead-lettered it after
the last one, or gone down with the overflow of a backoff. -/
inductive Ended (maxRetries : ℤ) (batch : List EventDocument) : BatchEnd → List PoolEffect → Prop
  | written (excs : List CallError) (h : (excs.length : ℤ) ≤ maxRetries)
      (hsmall : excs.length ≤ 1024) :
      Ended maxRetries batch .normal (retried batch excs ++ [.write batch (.ok ()), .processed batch])
  | deadLettered (excs : List CallError) (e : CallError) (h : (excs.length : ℤ) = maxRetries)
      (hsmall : excs.length ≤ 1024) :
      Ended maxRetries batch .normal
        (retried batch excs ++ [.write batch (.error e), .push batch e])
  | overflowed (excs : List CallError) (h : (excs.length : ℤ) ≤ maxRetries)
      (hbig : excs.length = 1025) : Ended maxRetries batch .raised (retried batch excs)

/-- The ledger is right: each open call has done what its job says, each ended call is of one of
the three forms, and every counter stands at its total. -/
structure Audited [Fintype ι] (maxRetries : ℤ) (p : WorkerState ι × BatchLedger ι) : Prop where
  opened : ∀ i, Job.Did maxRetries (p.1.jobs i) (p.2.opened i)
  closed : ∀ r ∈ p.2.closed, Ended maxRetries r.1.1 r.1.2 r.2
  finished : p.1.finished = p.2.closed.map Prod.fst
  eventsProcessed : p.1.metrics.eventsProcessed = p.2.total BatchEffect.eventsProcessed
  batchesProcessed : p.1.metrics.batchesProcessed = p.2.total BatchEffect.batchesProcessed
  retries : p.1.metrics.retries = p.2.total BatchEffect.retries
  recorded : p.1.dlq.recorded = p.2.total BatchEffect.recorded

/-! ## One step -/

section Account

variable {maxRetries : ℤ} {s u : WorkerState ι} {a : WorkerAction ι} {L : BatchLedger ι} {i : ι}
  {xs : List PoolEffect}

theorem account_proceed {job : Job} (hi : a.job = i) (hxs : effectsOf maxRetries s a = xs) :
    account maxRetries s a (u.proceed i job) L = L.note i xs := by
  subst hi hxs
  simp [account]

theorem account_finish {batch : List EventDocument} {ending : BatchEnd} (hi : a.job = i)
    (hxs : effectsOf maxRetries s a = xs) :
    account maxRetries s a (u.finish i batch ending) L = (L.note i xs).close i (batch, ending) := by
  subst hi hxs
  simp [account]

end Account

/-- Up to the slot of the job, `u` is `s` with the counters moved by `xs`. -/
structure Counts (s u : WorkerState ι) (xs : List PoolEffect) : Prop where
  jobs : u.jobs = s.jobs
  finished : u.finished = s.finished
  eventsProcessed : u.metrics.eventsProcessed
    = s.metrics.eventsProcessed + weigh BatchEffect.eventsProcessed xs
  batchesProcessed : u.metrics.batchesProcessed
    = s.metrics.batchesProcessed + weigh BatchEffect.batchesProcessed xs
  retries : u.metrics.retries = s.metrics.retries + weigh BatchEffect.retries xs
  recorded : u.dlq.recorded = s.dlq.recorded + weigh BatchEffect.recorded xs

namespace Audited

variable [Fintype ι] {maxRetries : ℤ} {s u : WorkerState ι} {a : WorkerAction ι}
  {L : BatchLedger ι} {i : ι} {xs : List PoolEffect}

/-- A job that goes on. -/
theorem proceed {job : Job} (h : Audited maxRetries (s, L)) (i : ι) (hi : a.job = i)
    (hxs : effectsOf maxRetries s a = xs) (hcounts : Counts s u xs)
    (hdid : Job.Did maxRetries (some job) (L.opened i ++ xs)) :
    Audited maxRetries (u.proceed i job, account maxRetries s a (u.proceed i job) L) := by
  rw [account_proceed hi hxs]
  constructor
  case opened =>
    intro j
    rcases eq_or_ne j i with rfl | hj
    · simpa using hdid
    · simpa [hj, hcounts.jobs] using h.opened j
  case closed => exact h.closed
  case finished => exact hcounts.finished.trans h.finished
  case eventsProcessed =>
    simpa [WorkerState.proceed, ← h.eventsProcessed] using hcounts.eventsProcessed
  case batchesProcessed =>
    simpa [WorkerState.proceed, ← h.batchesProcessed] using hcounts.batchesProcessed
  case retries => simpa [WorkerState.proceed, ← h.retries] using hcounts.retries
  case recorded => simpa [← h.recorded] using hcounts.recorded

/-- A job that ends. -/
theorem finish {batch : List EventDocument} {ending : BatchEnd} (h : Audited maxRetries (s, L))
    (i : ι) (hi : a.job = i) (hxs : effectsOf maxRetries s a = xs) (hcounts : Counts s u xs)
    (hended : Ended maxRetries batch ending (L.opened i ++ xs)) :
    Audited maxRetries
      (u.finish i batch ending, account maxRetries s a (u.finish i batch ending) L) := by
  rw [account_finish hi hxs]
  constructor
  case opened =>
    intro j
    rcases eq_or_ne j i with rfl | hj
    · simp [Job.Did]
    · simpa [hj, hcounts.jobs] using h.opened j
  case closed =>
    intro r hr
    rcases List.mem_append.mp hr with hr | hr
    · exact h.closed r hr
    · obtain rfl := List.mem_singleton.mp hr
      simpa using hended
  case finished =>
    have hfinished : s.finished = L.closed.map Prod.fst := h.finished
    simp [hcounts.finished, hfinished]
  case eventsProcessed =>
    simpa [WorkerState.finish, ← h.eventsProcessed] using hcounts.eventsProcessed
  case batchesProcessed =>
    simpa [WorkerState.finish, ← h.batchesProcessed] using hcounts.batchesProcessed
  case retries => simpa [WorkerState.finish, ← h.retries] using hcounts.retries
  case recorded => simpa [← h.recorded] using hcounts.recorded

omit [DecidableEq ι] in
/-- What the job of a slot has done. -/
theorem did (h : Audited maxRetries (s, L)) {job : Job} (hjob : s.jobs i = some job) :
    Job.Did maxRetries (some job) (L.opened i) := hjob ▸ h.opened i

/-- **The step lemma.** -/
theorem move (hmax : 0 ≤ maxRetries) (h : Audited maxRetries (s, L)) {t : WorkerState ι}
    {a : WorkerAction ι} (hmove : WorkerMove maxRetries s a t) :
    Audited maxRetries (t, account maxRetries s a t L) := by
  induction hmove with
  | skip _ hneg => exact absurd hneg (not_lt.mpr hmax)
  | @start i batch hnone _ =>
    have hopened : L.opened i = [] := by simpa [hnone, Job.Did] using h.opened i
    have heff : effectsOf maxRetries s (.start i batch) = [] := if_neg (not_lt.mpr hmax)
    exact h.proceed i rfl heff ⟨rfl, rfl, rfl, rfl, rfl, rfl⟩
      ⟨hmax, Nat.zero_le _, [], rfl, by simp [hopened, retried]⟩
  | @write i o batch attempt hjob =>
    obtain ⟨hle, hsmall, excs, hlen, hxs⟩ := h.did hjob
    have heff : effectsOf maxRetries s (.call i o)
        = [.write batch (bulkWrite s.mongo.events batch o).2] := by simp [effectsOf, hjob]
    refine h.proceed i rfl heff ⟨rfl, rfl, ?_, ?_, ?_, ?_⟩ ⟨hle, hsmall, excs, hlen, by rw [hxs]⟩
    all_goals rfl
  | @persist i o batch pending hjob =>
    obtain ⟨excs, e, hlen, hsmall, hxs⟩ := h.did hjob
    have heff : effectsOf maxRetries s (.call i o) = [] := by simp [effectsOf, hjob]
    exact h.proceed i rfl heff ⟨rfl, rfl, rfl, rfl, rfl, rfl⟩
      ⟨excs, e, hlen, hsmall, by simpa using hxs⟩
  | @written i reason now batch attempt hjob =>
    obtain ⟨hle, hsmall, excs, hlen, hxs⟩ := h.did hjob
    have heff : effectsOf maxRetries s (.resume i reason now) = [.processed batch] := by
      simp [effectsOf, hjob]
    refine h.finish i rfl heff ⟨rfl, rfl, ?_, ?_, ?_, ?_⟩ ?_
    all_goals try rfl
    rw [hxs, List.append_assoc]
    exact .written excs (hlen ▸ hle) (hlen ▸ hsmall)
  | @push i reason now batch attempt e pending hjob hlast hpush =>
    obtain ⟨-, hsmall, excs, hlen, hxs⟩ := h.did hjob
    have heff : effectsOf maxRetries s (.resume i reason now) = [.push batch e] := by
      simp [effectsOf, hjob, hlast]
    refine h.proceed i rfl heff ⟨rfl, rfl, rfl, rfl, rfl, ?_⟩
      ⟨excs, e, hlen ▸ hlast, hlen ▸ hsmall, by simp [hxs]⟩
    exact (s.dlq.pushMany_spec batch reason now).1
  | @bufferOnly i reason now batch attempt e hjob hlast _ =>
    obtain ⟨-, hsmall, excs, hlen, hxs⟩ := h.did hjob
    have heff : effectsOf maxRetries s (.resume i reason now) = [.push batch e] := by
      simp [effectsOf, hjob, hlast]
    refine h.finish i rfl heff ⟨rfl, rfl, rfl, rfl, rfl, ?_⟩ ?_
    · exact (s.dlq.pushMany_spec batch reason now).1
    · rw [hxs, List.append_assoc]
      exact .deadLettered excs e (hlen ▸ hlast) (hlen ▸ hsmall)
  | @overflow i reason now batch attempt e hjob hmore hbig =>
    obtain ⟨hle, hsmall, excs, hlen, hxs⟩ := h.did hjob
    have heff : effectsOf maxRetries s (.resume i reason now) = [.retry] := by
      simp [effectsOf, hjob, hmore]
    refine h.finish i rfl heff ⟨rfl, rfl, rfl, rfl, rfl, rfl⟩ ?_
    rw [hxs, List.append_assoc]
    exact retried_concat batch excs e ▸ .overflowed _ (by simp; omega) (by simp; omega)
  | @backoff i reason now batch attempt e hjob hmore hsmall =>
    obtain ⟨hle, -, excs, hlen, hxs⟩ := h.did hjob
    have heff : effectsOf maxRetries s (.resume i reason now) = [.retry] := by
      simp [effectsOf, hjob, hmore]
    refine h.proceed i rfl heff ⟨rfl, rfl, rfl, rfl, rfl, rfl⟩
      ⟨lt_of_le_of_ne hle hmore, hsmall, excs ++ [e], ?_, ?_⟩
    · simp [hlen]
    · rw [hxs, ← retried_concat, List.append_assoc]
      rfl
  | @settle i reason now batch pending stored hjob =>
    obtain ⟨excs, e, hlen, hsmall, hxs⟩ := h.did hjob
    have heff : effectsOf maxRetries s (.resume i reason now) = [] := by simp [effectsOf, hjob]
    refine h.finish i rfl heff ⟨rfl, rfl, rfl, rfl, rfl, rfl⟩ ?_
    rw [hxs, List.append_nil]
    exact .deadLettered excs e hlen hsmall
  | @wake i batch attempt hjob =>
    obtain ⟨hlt, hsmall, excs, hlen, hxs⟩ := h.did hjob
    have heff : effectsOf maxRetries s (.wake i) = [] := rfl
    exact h.proceed i rfl heff ⟨rfl, rfl, rfl, rfl, rfl, rfl⟩
      ⟨by push_cast; omega, hsmall, excs, hlen, by simpa using hxs⟩

end Audited

/-! ## One ended call -/

section Weights

variable (batch : List EventDocument) (excs : List CallError)

@[simp] theorem writesOf_append (xs ys : List PoolEffect) :
    writesOf (xs ++ ys) = writesOf xs ++ writesOf ys := List.filterMap_append

@[simp] theorem writesOf_write (result : Except CallError Unit) (xs : List PoolEffect) :
    writesOf (.write batch result :: xs) = result :: writesOf xs := rfl

@[simp] theorem writesOf_processed (xs : List PoolEffect) :
    writesOf (.processed batch :: xs) = writesOf xs := rfl

@[simp] theorem writesOf_push (e : CallError) (xs : List PoolEffect) :
    writesOf (.push batch e :: xs) = writesOf xs := rfl

@[simp] theorem writesOf_retry (xs : List PoolEffect) : writesOf (.retry :: xs) = writesOf xs := rfl

@[simp] theorem writesOf_nil : writesOf ([] : List PoolEffect) = [] := rfl

@[simp] theorem writesOf_retried : writesOf (retried batch excs) = excs.map .error := by
  induction excs with
  | nil => rfl
  | cons e excs ih => simp [ih]

@[simp] theorem wasSent_append (xs ys : List PoolEffect) :
    wasSent (xs ++ ys) = (wasSent xs || wasSent ys) := List.any_append

@[simp] theorem wasSent_nil : wasSent ([] : List PoolEffect) = false := rfl

@[simp] theorem wasSent_cons (x : PoolEffect) (xs : List PoolEffect) :
    wasSent (x :: xs) = (x.isPush || wasSent xs) := List.any_cons

@[simp] theorem wasSent_retried : wasSent (retried batch excs) = false := by
  induction excs with
  | nil => rfl
  | cons e excs ih => simpa [BatchEffect.isPush] using ih

@[simp] theorem wasWritten_append (xs ys : List PoolEffect) :
    wasWritten (xs ++ ys) = (wasWritten xs || wasWritten ys) := by
  rw [wasWritten, writesOf_append, List.any_append, wasWritten, wasWritten]

@[simp] theorem wasWritten_ok (xs : List PoolEffect) :
    wasWritten (.write batch (.ok ()) :: xs) = true := rfl

@[simp] theorem wasWritten_error (e : CallError) (xs : List PoolEffect) :
    wasWritten (.write batch (.error e) :: xs) = wasWritten xs := rfl

@[simp] theorem wasWritten_push (e : CallError) (xs : List PoolEffect) :
    wasWritten (.push batch e :: xs) = wasWritten xs := rfl

@[simp] theorem wasWritten_nil : wasWritten ([] : List PoolEffect) = false := rfl

@[simp] theorem wasWritten_retried : wasWritten (retried batch excs) = false := by
  induction excs with
  | nil => rfl
  | cons e excs ih => exact ih

/-- A weight on retried attempts. -/
theorem weigh_retried {w : PoolEffect → ℕ} {c : ℕ}
    (h : ∀ e, w (.write batch (.error e)) + w .retry = c) :
    weigh w (retried batch excs) = excs.length * c := by
  induction excs with
  | nil => simp
  | cons e excs ih =>
    have he := h e
    rw [retried_cons, weigh_cons, weigh_cons, ih, List.length_cons, Nat.succ_mul]
    omega

end Weights

namespace Ended

variable {maxRetries : ℤ} {batch : List EventDocument} {ending : BatchEnd} {xs : List PoolEffect}

/-- A call that returns has counted each of its events, here or there. -/
theorem events (h : Ended maxRetries batch ending xs) :
    weigh BatchEffect.eventsProcessed xs + weigh BatchEffect.recorded xs
      = if ending.isNormal then batch.length else 0 := by
  have hprocessed (excs : List CallError) :
      weigh BatchEffect.eventsProcessed (retried batch excs) = excs.length * 0 :=
    weigh_retried _ _ fun _ ↦ rfl
  have hrecorded (excs : List CallError) :
      weigh BatchEffect.recorded (retried batch excs) = excs.length * 0 :=
    weigh_retried _ _ fun _ ↦ rfl
  induction h with
  | written excs _ _ =>
    simp [hprocessed, hrecorded, BatchEffect.eventsProcessed, BatchEffect.recorded,
      BatchEnd.isNormal]
  | deadLettered excs e _ _ => simp [hprocessed, hrecorded, BatchEffect.eventsProcessed,
      BatchEffect.recorded, BatchEnd.isNormal]
  | overflowed excs _ _ => simp [hprocessed, hrecorded, BatchEnd.isNormal]

theorem batches (h : Ended maxRetries batch ending xs) :
    weigh BatchEffect.batchesProcessed xs = (wasWritten xs).toNat := by
  have hprocessed (excs : List CallError) :
      weigh BatchEffect.batchesProcessed (retried batch excs) = excs.length * 0 :=
    weigh_retried _ _ fun _ ↦ rfl
  induction h with
  | written excs _ _ => simp [hprocessed, BatchEffect.batchesProcessed]
  | deadLettered excs e _ _ => simp [hprocessed, BatchEffect.batchesProcessed]
  | overflowed excs _ _ => simp [hprocessed]

/-- Each failed attempt is followed by a retry or by the dead-letter queue. -/
theorem failures (h : Ended maxRetries batch ending xs) :
    weigh BatchEffect.retries xs + (wasSent xs).toNat = weigh BatchEffect.failures xs := by
  have hretries (excs : List CallError) :
      weigh BatchEffect.retries (retried batch excs) = excs.length * 1 :=
    weigh_retried _ _ fun _ ↦ rfl
  have hfailures (excs : List CallError) :
      weigh BatchEffect.failures (retried batch excs) = excs.length * 1 :=
    weigh_retried _ _ fun _ ↦ rfl
  induction h with
  | written excs _ _ =>
    simp [hretries, hfailures, BatchEffect.retries, BatchEffect.failures, BatchEffect.isPush]
  | deadLettered excs e _ _ =>
    simp [hretries, hfailures, BatchEffect.retries, BatchEffect.failures, BatchEffect.isPush]
  | overflowed excs _ _ => simp [hretries, hfailures]

end Ended

/-- At most `max_retries + 1` attempts, of which all but the last failed. -/
def Bounded (maxRetries : ℤ) (xs : List PoolEffect) : Prop :=
  ((writesOf xs).length : ℤ) ≤ maxRetries + 1 ∧ ∀ r ∈ (writesOf xs).dropLast, ∃ e, r = .error e

section Bounded

variable {maxRetries : ℤ} {batch : List EventDocument} {excs : List CallError}

theorem bounded_retried (h : (excs.length : ℤ) ≤ maxRetries + 1) :
    Bounded maxRetries (retried batch excs) := by
  refine ⟨by simpa using h, fun r hr ↦ ?_⟩
  obtain ⟨e, -, rfl⟩ := List.mem_map.mp (by simpa using List.mem_of_mem_dropLast hr)
  exact ⟨e, rfl⟩

theorem bounded_last {xs : List PoolEffect} {r : Except CallError Unit}
    (h : (excs.length : ℤ) ≤ maxRetries) (hxs : writesOf xs = excs.map .error ++ [r]) :
    Bounded maxRetries xs := by
  refine ⟨by simpa [hxs] using h, fun r hr ↦ ?_⟩
  rw [hxs, List.dropLast_concat] at hr
  obtain ⟨e, -, rfl⟩ := List.mem_map.mp hr
  exact ⟨e, rfl⟩

theorem Ended.bounded {ending : BatchEnd} {xs : List PoolEffect}
    (h : Ended maxRetries batch ending xs) : Bounded maxRetries xs := by
  induction h with
  | written excs hle _ => exact bounded_last hle (r := .ok ()) (by simp)
  | deadLettered excs e hle _ => exact bounded_last hle.le (r := .error e) (by simp)
  | overflowed excs hle _ => exact bounded_retried (by omega)

theorem Job.Did.bounded {job : Option Job} {xs : List PoolEffect} (hmax : 0 ≤ maxRetries)
    (h : Job.Did maxRetries job xs) : Bounded maxRetries xs := by
  induction job with
  | none =>
    obtain rfl : xs = [] := h
    exact ⟨by simp; omega, fun r hr ↦ absurd hr List.not_mem_nil⟩
  | some job =>
    induction job with
    | writing batch attempt =>
      obtain ⟨hle, -, excs, hlen, rfl⟩ := h
      exact bounded_retried (by omega)
    | wrote batch attempt result =>
      obtain ⟨hle, -, excs, hlen, rfl⟩ := h
      exact bounded_last (hlen ▸ hle) (r := result) (by simp)
    | sleeping batch attempt =>
      obtain ⟨hle, -, excs, hlen, rfl⟩ := h
      exact bounded_retried (by omega)
    | pushing batch pending =>
      obtain ⟨excs, e, hlen, -, rfl⟩ := h
      exact bounded_last hlen.le (r := .error e) (by simp)
    | pushed batch pending stored =>
      obtain ⟨excs, e, hlen, -, rfl⟩ := h
      exact bounded_last hlen.le (r := .error e) (by simp)

end Bounded

/-! ## The sequential call

An ended call of the pool has done what the sequential call does that meets the same answers. -/

section Sequential

variable {maxRetries : ℤ} {batch : List EventDocument} {excs : List CallError}

/-- The sequential call that meets `excs` and then `result`. -/
def meeting (maxRetries : ℤ) (batch : List EventDocument) (base : FiniteDouble) (loop : EventLoop)
    (excs : List CallError) (result : Except CallError Unit) :
    RetryContext EventDocument CallError where
  batch := batch
  maxRetries := maxRetries
  baseDelay := base
  loop := loop
  write j := (excs[j]?).elim result .error

variable {base : FiniteDouble} {loop : EventLoop} {draw : ℕ → Draw}

/-- The call comes to the attempt after `excs`. -/
theorem seen_meeting (result : Except CallError Unit)
    (hbase : ∀ j < 1024, |base.value * 2 ^ j| < 2 ^ 1024) (hle : (excs.length : ℤ) ≤ maxRetries)
    (hsmall : excs.length ≤ 1024) :
    ∃ remaining lastExc, ((meeting maxRetries batch base loop excs result).processBatch draw).seen
      = ((meeting maxRetries batch base loop excs result).attempts draw (remaining + 1) excs.length
        lastExc).seen.after (retried batch excs) := by
  apply RetryContext.seen_processBatch
  · intro i hi
    simp [meeting, hi]
  · exact hle
  · intro j hj
    apply RetryContext.resumes_of_backoffReturns
    exact ⟨by omega, fun hbig ↦ absurd (hbase j (by omega)) (not_lt.mpr hbig)⟩

/-- **An ended call is a sequential call**: with a base delay that stays in range, there are answers
on which `_process_batch`, run on its own, does the same and ends the same way. -/
theorem Ended.sequential {ending : BatchEnd} {xs : List PoolEffect}
    (h : Ended maxRetries batch ending xs)
    (hbase : ∀ j < 1024, |base.value * 2 ^ j| < 2 ^ 1024) :
    ∃ excs result, ((meeting maxRetries batch base loop excs result).processBatch draw).seen
      = ⟨xs, if ending.isNormal then .returned else .raised⟩ := by
  have hwrite (excs : List CallError) (result : Except CallError Unit) :
      (meeting maxRetries batch base loop excs result).write excs.length = result := by
    simp [meeting]
  induction h with
  | written excs hle hsmall =>
    obtain ⟨remaining, lastExc, hseen⟩ := seen_meeting (.ok ()) hbase hle hsmall
    refine ⟨excs, .ok (), hseen.trans ?_⟩
    rw [RetryContext.attempts_of_ok (hwrite excs _)]
    rfl
  | deadLettered excs e hlast hsmall =>
    obtain ⟨remaining, lastExc, hseen⟩ := seen_meeting (.error e) hbase hlast.le hsmall
    refine ⟨excs, .error e, hseen.trans ?_⟩
    rw [RetryContext.attempts_of_last (hwrite excs _) hlast]
    rfl
  | overflowed excs hle hbig =>
    -- The last failure is the one whose backoff overflows.
    obtain ⟨excs, e, rfl⟩ : ∃ front e, excs = front ++ [e] :=
      ⟨_, _, (List.dropLast_append_getLast (List.ne_nil_of_length_pos (by omega))).symm⟩
    have hlen : excs.length = 1024 := by simpa using hbig
    have hmore : (excs.length : ℤ) < maxRetries := by
      simp only [List.length_append, List.length_singleton] at hle
      omega
    obtain ⟨remaining, lastExc, hseen⟩ := seen_meeting (.error e) hbase hmore.le hlen.le
    refine ⟨excs, .error e, hseen.trans ?_⟩
    rw [RetryContext.attempts_of_overflow (hwrite excs _) hmore.ne hlen.ge, ← retried_concat]
    rfl

end Sequential

/-! ## Every run -/

section Runs

variable [Fintype ι] {maxRetries : ℤ} {p : WorkerState ι × BatchLedger ι}

theorem audited_init (h : (auditMachine ι maxRetries).init p) : Audited maxRetries p := by
  obtain ⟨⟨⟨hdlq, hjobs, hfinished⟩, hledger⟩, hmetrics⟩ := h
  constructor
  case opened =>
    intro i
    rw [hjobs i, hledger]
    rfl
  case closed =>
    intro r hr
    rw [hledger] at hr
    exact absurd hr List.not_mem_nil
  case finished =>
    rw [hfinished, hledger]
    rfl
  case recorded =>
    rw [hdlq, hledger, Ledger.total_empty]
    rfl
  all_goals
    rw [hmetrics, hledger, Ledger.total_empty]
    rfl

theorem audited_of_reachable (hmax : 0 ≤ maxRetries)
    (h : (auditMachine ι maxRetries).Reachable p) : Audited maxRetries p := by
  refine h.invariant (fun _ ↦ audited_init) fun q a r haudited hstep ↦ ?_
  have hpaired : ((workerMachine ι maxRetries).withHistory (account maxRetries) .empty).step q a
      = some r := hstep
  obtain ⟨hmove, hrecord⟩ := Machine.withHistory_step_eq_some.mp hpaired
  have hnext := Audited.move hmax haudited (move_of_workerStep hmove)
  rwa [← hrecord] at hnext

omit [Fintype ι] in
/-- **Every run of the pool has its ledger**, and every ledger is that of a run. -/
theorem exists_ledger_iff {t : WorkerState ι} :
    (∃ L, (auditMachine ι maxRetries).Reachable (t, L)) ↔
      ∃ s as, (workerMachine ι maxRetries).init s ∧ s.metrics = .zero ∧
        (workerMachine ι maxRetries).exec s as = some t := by
  have hstep : (auditMachine ι maxRetries).step
      = ((workerMachine ι maxRetries).withHistory (account maxRetries) .empty).step := rfl
  constructor
  · rintro ⟨L, ⟨s, L₀⟩, as, ⟨⟨hinit, -⟩, hmetrics⟩, hrun⟩
    rw [Machine.exec_congr _ hstep] at hrun
    exact ⟨s, as, hinit, hmetrics, Machine.exec_of_withHistory hrun⟩
  · rintro ⟨s, as, hinit, hmetrics, hrun⟩
    obtain ⟨L, hL⟩ := Machine.exists_exec_withHistory hrun (.empty : BatchLedger ι)
    exact ⟨L, (s, .empty), as, ⟨⟨hinit, rfl⟩, hmetrics⟩,
      (Machine.exec_congr _ hstep _ _).trans hL⟩

/-- **The counters conserve events.** Whatever the interleaving, each batch makes at most
`max_retries + 1` attempts and stops at its first success; and when no batch is in flight,
`events_processed` and `recorded` add up to the events of the batches whose processing returned,
`batches_processed` is the number of batches written, and `retries` is the number of failed attempts
less the batches sent to the dead-letter queue. -/
theorem metrics_conserve (hmax : 0 ≤ maxRetries) (h : (auditMachine ι maxRetries).Reachable p) :
    (∀ i, Bounded maxRetries (p.2.opened i)) ∧ (∀ r ∈ p.2.closed, Bounded maxRetries r.2) ∧
      ((∀ i, p.1.jobs i = none) →
        p.1.metrics.eventsProcessed + p.1.dlq.recorded
            = ((p.1.finished.filter (·.2.isNormal)).map (·.1.length)).sum ∧
          p.1.metrics.batchesProcessed = p.2.closed.countP (fun r ↦ wasWritten r.2) ∧
          (p.1.metrics.retries : ℤ) = p.2.settled BatchEffect.failures
            - p.2.closed.countP (fun r ↦ wasSent r.2)) := by
  have haudited := audited_of_reachable hmax h
  refine ⟨fun i ↦ (haudited.opened i).bounded hmax, fun r hr ↦ (haudited.closed r hr).bounded, ?_⟩
  intro hidle
  have hopened (i : ι) : p.2.opened i = [] := by
    have hdid := haudited.opened i
    rwa [hidle i] at hdid
  refine ⟨?_, ?_, ?_⟩
  · have hsum := Ledger.settled_add fun r hr ↦ (haudited.closed r hr).events
    rw [haudited.eventsProcessed, haudited.recorded, Ledger.total_eq_settled hopened,
      Ledger.total_eq_settled hopened, sum_map_filter, haudited.finished, List.map_map]
    exact hsum
  · rw [haudited.batchesProcessed, Ledger.total_eq_settled hopened]
    exact Ledger.settled_eq_countP fun r hr ↦ (haudited.closed r hr).batches
  · have hsum : p.2.settled BatchEffect.retries + (p.2.closed.map fun r ↦ (wasSent r.2).toNat).sum
        = p.2.settled BatchEffect.failures :=
      Ledger.settled_add fun r hr ↦ (haudited.closed r hr).failures
    rw [sum_map_toNat (fun r : _ × List PoolEffect ↦ wasSent r.2)] at hsum
    rw [haudited.retries, Ledger.total_eq_settled hopened]
    omega

end Runs

/-- A batch that is written at the second attempt. -/
def retriedRun : List (WorkerAction (Fin 1)) :=
  [.start 0 [makeEvent "e1"], .call 0 (.raised .pyMongo fun _ ↦ false),
    .resume 0 "down" fun _ ↦ .epoch, .wake 0, .call 0 (.answered fun _ ↦ false),
    .resume 0 "" fun _ ↦ .epoch]

theorem metrics_conserve_retriedRun :
    ∃ p : WorkerState (Fin 1) × BatchLedger (Fin 1),
      (auditMachine (Fin 1) 1).exec
          (⟨⟨.empty, .empty⟩, .new true, .zero, fun _ ↦ none, []⟩, .empty) retriedRun = some p ∧
        (∀ i, p.1.jobs i = none) ∧ p.1.metrics = ⟨1, 1, 1⟩ ∧
        p.1.metrics.eventsProcessed + p.1.dlq.recorded
          = ((p.1.finished.filter (·.2.isNormal)).map (·.1.length)).sum ∧
        p.1.metrics.batchesProcessed = p.2.closed.countP (fun r ↦ wasWritten r.2) ∧
        (p.1.metrics.retries : ℤ) = p.2.settled BatchEffect.failures
          - p.2.closed.countP (fun r ↦ wasSent r.2) := by
  have hreach : ∃ p, (auditMachine (Fin 1) 1).exec
      (⟨⟨.empty, .empty⟩, .new true, .zero, fun _ ↦ none, []⟩, .empty) retriedRun = some p ∧
        p.1.metrics = ⟨1, 1, 1⟩ ∧ ∀ i, p.1.jobs i = none :=
    ⟨_, rfl, rfl, fun i ↦ Subsingleton.elim 0 i ▸ rfl⟩
  obtain ⟨p, hrun, hmetrics, hidle⟩ := hreach
  have hconserve := metrics_conserve (by decide)
    ⟨_, retriedRun, ⟨⟨⟨rfl, fun _ ↦ rfl, rfl⟩, rfl⟩, rfl⟩, hrun⟩
  exact ⟨p, hrun, hidle, hmetrics, hconserve.2.2 hidle⟩

end Acheron
