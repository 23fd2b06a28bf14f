import Mathlib.Algebra.BigOperators.Ring.Finset
import Acheron.Worker.Backlog
import Acheron.Worker.Shutdown

/-!
# A drain that times out

`WorkerPool.stop` waits for the queue with a timeout. When it passes, every consumer is cancelled
where it is: one that polls returns; one that processes a batch leaves it, as no `except Exception`
on the way catches a `CancelledError`. The call it was in may still take effect, in the driver.

`cutMachine` is the process with this way out. Nobody waits for the queue any more, so what the
`finally` of a cancelled consumer acknowledges is of no account: its batch and its job are kept as
they were when it was cut. `timed_out_drain` says what is lost: no more than is on the queue and in
the batches of the consumers that were cut.
-/

open Runs

namespace Acheron

/-- The process, and what has become of the drain. -/
structure CutState (ι ρ : Type) where
  pool : PoolState ι ρ
  /-- `wait_for` has raised `TimeoutError`. -/
  timedOut : Bool
  /-- The task was cancelled in `_process_batch`. -/
  cut : ι → Bool
  /-- The clients are closed, after a drain that timed out. -/
  closed : Bool

/-- What may happen next. -/
inductive CutAction (ι ρ : Type) where
  | pool (a : PoolAction ι ρ)
  /-- The timeout of the drain passes. -/
  | timeOut
  /-- Consumer `i` is cancelled. -/
  | cancel (i : ι)
  /-- Every consumer has ended; the clients are closed. -/
  | close

/-- The consumer whose task takes the step; a call under way is no longer its own. -/
def PoolAction.task {ι ρ : Type} : PoolAction ι ρ → Option ι
  | .get i | .collect i | .timeout i | .job i (.resume _ _) | .job i .wake | .cancel i => some i
  | .job _ (.call _) | .ingest _ | .replay _ _ | .mark _ | .shutdown | .close => none

variable {ι ρ : Type} [DecidableEq ι] [DecidableEq ρ]

/-- The process with a drain that may time out. -/
def cutMachine (ι ρ : Type) [DecidableEq ι] [DecidableEq ρ] [Fintype ι]
    (batchSize maxRetries : ℤ) : Machine (CutState ι ρ) (CutAction ι ρ) where
  init s := (poolMachine ι ρ batchSize maxRetries).init s.pool ∧ s.timedOut = false ∧
    (∀ i, s.cut i = false) ∧ s.closed = false
  step s a :=
    if s.closed then none
    else
      match a with
      | .pool a =>
        if ∀ i, a.task = some i → s.cut i = false then
          ((poolMachine ι ρ batchSize maxRetries).step s.pool a).map fun p ↦ { s with pool := p }
        else none
      | .timeOut =>
        if s.pool.lifespan = .draining then
          (s.pool.dispatchStep batchSize .abandonJoin).map fun p ↦
            { s with pool := p, timedOut := true }
        else none
      | .cancel i =>
        if s.timedOut then
          match s.pool.dispatch.consumers i with
          | .polling =>
            (s.pool.dispatchStep batchSize (.cancel i)).map fun p ↦ { s with pool := p }
          | .processing _ => some { s with cut := Function.update s.cut i true }
          | _ => none
        else none
      | .close =>
        if s.timedOut ∧ ∀ i, (s.pool.dispatch.consumers i).ended ∨ s.cut i then
          some { s with closed := true }
        else none

/-- A step of the pool in which the server refuses only duplicates, and no push overwrites what
another has buffered. -/
def CutState.Orderly (s : CutState ι ρ) : CutAction ι ρ → Prop
  | .pool a => PoolState.OnlyDuplicates a ∧ s.pool.Covers a
  | .timeOut | .cancel _ | .close => True

/-! ## What a step does -/

variable [Fintype ι] {batchSize maxRetries : ℤ} {s t : CutState ι ρ} {a : CutAction ι ρ}

/-- The steps. -/
inductive CutMove (batchSize maxRetries : ℤ) (s : CutState ι ρ) :
    CutAction ι ρ → CutState ι ρ → Prop
  | pool {a : PoolAction ι ρ} {p : PoolState ι ρ}
      (hstep : (poolMachine ι ρ batchSize maxRetries).step s.pool a = some p) :
      CutMove batchSize maxRetries s (.pool a) { s with pool := p }
  | timeOut {d : DispatchState EventDocument ι} (hdraining : s.pool.lifespan = .draining)
      (hstep : (dispatchMachine EventDocument ι batchSize).step s.pool.dispatch .abandonJoin
        = some d) :
      CutMove batchSize maxRetries s .timeOut
        { s with pool := { s.pool with dispatch := d }, timedOut := true }
  | leave {i : ι} {d : DispatchState EventDocument ι} (htimed : s.timedOut = true)
      (hstep : (dispatchMachine EventDocument ι batchSize).step s.pool.dispatch (.cancel i)
        = some d) :
      CutMove batchSize maxRetries s (.cancel i)
        { s with pool := { s.pool with dispatch := d } }
  | cut {i : ι} (htimed : s.timedOut = true) :
      CutMove batchSize maxRetries s (.cancel i)
        { s with cut := Function.update s.cut i true }
  | close (htimed : s.timedOut = true)
      (hended : ∀ i, (s.pool.dispatch.consumers i).ended ∨ s.cut i) :
      CutMove batchSize maxRetries s .close { s with closed := true }

/-- **The inversion of a step.** -/
theorem move_of_cutStep (h : (cutMachine ι ρ batchSize maxRetries).step s a = some t) :
    s.closed = false ∧ CutMove batchSize maxRetries s a t := by
  simp only [cutMachine] at h
  split at h
  next => exact absurd h (by simp)
  next hopen =>
    refine ⟨by simpa using hopen, ?_⟩
    rcases a with a | _ | i | _
    · simp only at h
      split at h
      next =>
        obtain ⟨p, hp, rfl⟩ := Option.map_eq_some_iff.mp h
        exact .pool hp
      next => exact absurd h (by simp)
    · simp only at h
      split at h
      next hdraining =>
        obtain ⟨p, hp, rfl⟩ := Option.map_eq_some_iff.mp h
        obtain ⟨d, hd, rfl⟩ := PoolState.dispatchStep_eq_some hp
        exact .timeOut hdraining hd
      next => exact absurd h (by simp)
    · simp only at h
      split at h
      next htimed =>
        split at h
        next =>
          obtain ⟨p, hp, rfl⟩ := Option.map_eq_some_iff.mp h
          obtain ⟨d, hd, rfl⟩ := PoolState.dispatchStep_eq_some hp
          exact .leave htimed hd
        next => exact Option.some.inj h ▸ .cut htimed
        next => exact absurd h (by simp)
      next => exact absurd h (by simp)
    · simp only at h
      split at h
      next hguard => exact Option.some.inj h ▸ .close hguard.1 hguard.2
      next => exact absurd h (by simp)

omit [Fintype ι] in
/-- Once abandoned, the drain is not taken up again. -/
theorem PoolMove.abandoned {p q : PoolState ι ρ} {b : PoolAction ι ρ}
    (h : PoolMove batchSize maxRetries p b q)
    (hp : p.lifespan = .draining ∧ p.dispatch.join = .idle) :
    q.lifespan = .draining ∧ q.dispatch.join = .idle := by
  cases h with
  | refuse | work _ _ | replay _ | mark _ => exact hp
  | dispatch hstep _ hjoin _ _ => exact ⟨hp.1, join_of_move (move_of_step hstep) hjoin hp.2⟩
  | start hstep _ _ => exact ⟨hp.1, join_of_move (move_of_step hstep) (by simp) hp.2⟩
  | finish _ _ hstep => exact ⟨hp.1, join_of_move (move_of_step hstep) (by simp) hp.2⟩
  | shutdown hrunning _ _ => exact absurd (hp.1.symm.trans hrunning) (by simp)
  | close _ hdone _ => exact absurd (hp.2.symm.trans hdone) (by simp)

/-! ## The invariant -/

/-- The process keeps its invariant through the cut, and nothing is cut before the timeout. -/
structure CutInvariant (batchSize maxRetries : ℤ) (s : CutState ι ρ) : Prop where
  pool : PoolInvariant batchSize maxRetries s.pool
  dispatch : (dispatchMachine EventDocument ι batchSize).Reachable s.pool.dispatch
  abandoned : s.timedOut = true → s.pool.lifespan = .draining ∧ s.pool.dispatch.join = .idle
  whole : s.timedOut = false → (∀ i, s.cut i = false) ∧ s.closed = false
  ended : s.closed = true → ∀ i, (s.pool.dispatch.consumers i).ended ∨ s.cut i

namespace CutInvariant

theorem init (h : (cutMachine ι ρ batchSize maxRetries).init s) :
    CutInvariant batchSize maxRetries s := by
  obtain ⟨hpool, htimed, hcut, hclosed⟩ := h
  exact ⟨.init hpool, .of_init hpool.1, fun h ↦ absurd h (by simp [htimed]), fun _ ↦ ⟨hcut, hclosed⟩,
    fun h ↦ absurd h (by simp [hclosed])⟩

/-- **The step lemma.** -/
theorem move (hs : CutInvariant batchSize maxRetries s) (hmin : 0 ≤ maxRetries)
    (hmax : maxRetries ≤ 1024) (horderly : s.Orderly a) (hopen : s.closed = false)
    (h : CutMove batchSize maxRetries s a t) : CutInvariant batchSize maxRetries t := by
  cases h with
  | @pool a p hstep =>
    obtain ⟨hlive, hmove⟩ := move_of_poolStep hmin hstep
    obtain ⟨bs, hbs⟩ := pool_refines_dispatch.step _ _ _ hstep
    exact ⟨hs.pool.move hlive hmax horderly.1 horderly.2 hmove, hs.dispatch.exec hbs,
      fun htimed ↦ hmove.abandoned (hs.abandoned htimed), hs.whole,
      fun hclosed ↦ absurd (hopen.symm.trans hclosed) (by simp)⟩
  | @timeOut d hdraining hstep =>
    have hidle : d.join = .idle := by
      have hturn := turn_of_step hstep
      cases hturn with
      | abandon _ => rfl
    exact ⟨hs.pool.dispatch (by simp [hdraining]) hstep (by simp) (by simp) (by simp) (by simp),
      hs.dispatch.step hstep, fun _ ↦ ⟨hdraining, hidle⟩, fun htimed ↦ absurd htimed (by simp),
      fun hclosed ↦ absurd (hopen.symm.trans hclosed) (by simp)⟩
  | leave htimed hstep =>
    obtain ⟨hdraining, hidle⟩ := hs.abandoned htimed
    exact ⟨hs.pool.dispatch (by simp [hdraining]) hstep (by simp) (by simp) (by simp) (by simp),
      hs.dispatch.step hstep,
      fun _ ↦ ⟨hdraining, join_of_move (move_of_step hstep) (by simp) hidle⟩, hs.whole,
      fun hclosed ↦ absurd (hopen.symm.trans hclosed) (by simp)⟩
  | cut htimed =>
    exact ⟨hs.pool, hs.dispatch, hs.abandoned, fun hfalse ↦ absurd (htimed.symm.trans hfalse)
      (by simp), fun hclosed ↦ absurd (hopen.symm.trans hclosed) (by simp)⟩
  | close htimed hended =>
    exact ⟨hs.pool, hs.dispatch, hs.abandoned, fun hfalse ↦ absurd (htimed.symm.trans hfalse)
      (by simp), fun _ ↦ hended⟩

end CutInvariant

/-! ## What is lost -/

/-- The batches of the consumers that were cut. -/
noncomputable def CutState.cutBatches (s : CutState ι ρ) : List (Accepted EventDocument) :=
  (Finset.univ.filter fun i ↦ s.cut i = true).toList.flatMap fun i ↦
    (s.pool.dispatch.consumers i).batch

/-- The process has ended, whichever way the drain has. -/
def CutState.Ended (s : CutState ι ρ) : Prop := s.closed = true ∨ s.pool.lifespan = .closed

omit [DecidableEq ι] [DecidableEq ρ] in
theorem mem_cutBatches {x : Accepted EventDocument} :
    x ∈ s.cutBatches ↔ ∃ i, s.cut i = true ∧ x ∈ (s.pool.dispatch.consumers i).batch := by
  simp [CutState.cutBatches]

omit [DecidableEq ι] [DecidableEq ρ] in
/-- The batches that were cut are no more than one a consumer. -/
theorem length_cutBatches_le (hbatch : 1 ≤ batchSize)
    (hsound : ∀ i, (s.pool.dispatch.consumers i).Sound batchSize) :
    (s.cutBatches.length : ℤ) ≤ Fintype.card ι * batchSize := by
  have hle : s.cutBatches.length ≤ ∑ i, (s.pool.dispatch.consumers i).batch.length := by
    rw [CutState.cutBatches, List.length_flatMap, Finset.sum_map_toList]
    exact Finset.sum_le_sum_of_subset (Finset.filter_subset _ _)
  have hsum := sum_batch_le hbatch hsound
  rw [← Nat.cast_sum] at hsum
  omega

/-- A task that has ended holds no batch. -/
theorem batch_of_ended {α : Type} {c : Consumer α} (h : c.ended = true) : c.batch = [] := by
  cases c with
  | returned | died | overAcknowledged => rfl
  | polling | collecting _ | processing _ => exact absurd h (by simp [Consumer.ended])

namespace CutInvariant

omit [DecidableEq ρ] in
/-- A consumer that has not been cut has ended. -/
theorem ended_or_cut (hs : CutInvariant batchSize maxRetries s) (hend : s.Ended) (i : ι) :
    (s.pool.dispatch.consumers i).ended ∨ s.cut i :=
  hend.elim (fun hclosed ↦ hs.ended hclosed i) fun hclosed ↦ Or.inl ((hs.pool.closed hclosed).2 i)

omit [DecidableEq ρ] in
/-- **Where an accepted event is** when the process has ended. -/
theorem found (hs : CutInvariant batchSize maxRetries s) (hend : s.Ended)
    {x : Accepted EventDocument} (hx : x ∈ s.pool.dispatch.accepted) :
    x ∈ s.pool.dispatch.queue.items ++ s.cutBatches ∨
      s.pool.worker.mongo.Holds x.event.eventId ∨
      x.event ∈ entryEvents s.pool.worker.dlq.unpersisted ∨
      ∃ i job, s.cut i = true ∧ s.pool.worker.jobs i = some job ∧
        x.event ∈ entryEvents job.pending := by
  have hx' : x ∈ (s.pool.dispatch.accepted : Multiset (Accepted EventDocument)) := hx
  rw [hs.pool.accounting.accepted_eq, Multiset.mem_add, Multiset.mem_add,
    Accounting.mem_inFlight] at hx'
  rcases hx' with (⟨i, hi⟩ | hfinished) | hqueued
  · refine Or.inl (List.mem_append_right _ (mem_cutBatches.mpr ⟨i, ?_, hi⟩))
    refine (hs.ended_or_cut hend i).resolve_left fun hended ↦ absurd hi ?_
    rw [batch_of_ended hended]
    exact List.not_mem_nil
  · rcases hs.pool.secured x hfinished with hheld | hbuf | ⟨i, job, hjob, hin⟩
    · exact Or.inr (Or.inl hheld)
    · exact Or.inr (Or.inr (Or.inl hbuf))
    · refine Or.inr (Or.inr (Or.inr ⟨i, job, ?_, hjob, hin⟩))
      refine (hs.ended_or_cut hend i).resolve_left fun hended ↦ ?_
      have hidle := hs.pool.linked i
      rw [running_of_ended hended, hjob] at hidle
      exact absurd hidle (by simp)
  · exact Or.inl (List.mem_append_left _ hqueued)

end CutInvariant

/-- **What a drain that times out may lose.** Take a run of the process, with any number of
consumers, that ends with the clients closed, whether the drain has timed out or not, in which the
server refuses only duplicates and no push overwrites what another has buffered. Every accepted
event is then in the store, in the buffer of the dead-letter queue or in the snapshot of a push that
was cut, but for a list of events no longer than the capacity of the queue and a batch a consumer:
these were on the queue, or in a batch that was cut. If the drain has not timed out, there are
none. -/
theorem timed_out_drain (ι ρ : Type) [DecidableEq ι] [DecidableEq ρ] [Fintype ι]
    (batchSize maxRetries : ℤ) (hbatch : 1 ≤ batchSize) (hmin : 0 ≤ maxRetries)
    (hmax : maxRetries ≤ 1024) (s t : CutState ι ρ) (as : List (CutAction ι ρ))
    (hinit : (cutMachine ι ρ batchSize maxRetries).init s)
    (h : (cutMachine ι ρ batchSize maxRetries).exec s as = some t)
    (horderly : (cutMachine ι ρ batchSize maxRetries).Along CutState.Orderly s as)
    (hend : t.Ended) (hcapacity : 1 ≤ t.pool.dispatch.queue.maxsize) :
    ∃ lost : List (Accepted EventDocument),
      (lost.length : ℤ) ≤ t.pool.dispatch.queue.maxsize + Fintype.card ι * batchSize ∧
        (t.timedOut = false → lost = []) ∧
        (∀ x ∈ lost, x ∈ t.pool.dispatch.queue.items ∨
          ∃ i, t.cut i = true ∧ x ∈ (t.pool.dispatch.consumers i).batch) ∧
        ∀ x ∈ t.pool.dispatch.accepted, x ∈ lost ∨
          t.pool.worker.mongo.Holds x.event.eventId ∨
          x.event ∈ entryEvents t.pool.worker.dlq.unpersisted ∨
          ∃ i job, t.cut i = true ∧ t.pool.worker.jobs i = some job ∧
            x.event ∈ entryEvents job.pending := by
  have ht : CutInvariant batchSize maxRetries t :=
    Machine.exec_preserves_along (fun u a v hu ha hstep ↦
      hu.move hmin hmax ha (move_of_cutStep hstep).1 (move_of_cutStep hstep).2) (.init hinit)
      horderly h
  have hqueue := withinCapacity_of_reachable ht.dispatch hcapacity
  have hbatches := length_cutBatches_le hbatch ht.pool.accounting.sound
  cases htimed : t.timedOut with
  | true =>
    refine ⟨t.pool.dispatch.queue.items ++ t.cutBatches, ?_, fun hfalse ↦ absurd hfalse (by simp),
      fun x hx ↦ (List.mem_append.mp hx).imp_right mem_cutBatches.mp, fun x hx ↦ ht.found hend hx⟩
    rw [List.length_append]
    push_cast
    omega
  | false =>
    have hclosed : t.pool.lifespan = .closed :=
      hend.resolve_left (by simp [(ht.whole htimed).2])
    refine ⟨[], ?_, fun _ ↦ rfl, fun x hx ↦ absurd hx List.not_mem_nil, fun x hx ↦ ?_⟩
    · rw [List.length_nil]
      push_cast
      omega
    · exact Or.inr ((ht.pool.of_closed hclosed hx).imp_right Or.inl)

/-- The one consumer is writing when the drain times out; the write gets through all the same. -/
def cutRun : List (CutAction (Fin 1) (Fin 1)) :=
  [.pool (.ingest (makeEvent "e1")), .pool (.ingest (makeEvent "e2")), .pool (.get 0),
    .pool (.collect 0), .pool .shutdown, .timeOut, .cancel 0,
    .pool (.job 0 (.call (.answered fun _ ↦ false))), .close]

/-- A process with one consumer, before any of it. -/
def CutState.uncut : CutState (Fin 1) (Fin 1) := ⟨.open, false, fun _ ↦ false, false⟩

theorem uncut_init : (cutMachine (Fin 1) (Fin 1) 1 0).init .uncut :=
  ⟨⟨⟨10, rfl⟩, ⟨rfl, fun _ ↦ rfl, rfl⟩, fun _ ↦ rfl, rfl, rfl⟩, rfl, fun _ ↦ rfl, rfl⟩

theorem cutRun_orderly :
    (cutMachine (Fin 1) (Fin 1) 1 0).Along CutState.Orderly .uncut cutRun := by
  have hall : ∀ a ∈ cutRun, ∀ s : CutState (Fin 1) (Fin 1), s.Orderly a := by
    simp [cutRun, CutState.Orderly, PoolState.OnlyDuplicates, PoolState.Covers,
      InsertOutcome.OnlyDuplicates]
  exact fun bs a cs u heq _ ↦ hall a (heq ▸ by simp) u

theorem cutRun_ends : ∃ t, (cutMachine (Fin 1) (Fin 1) 1 0).exec .uncut cutRun = some t ∧
    t.closed = true ∧ t.timedOut = true ∧ t.pool.dispatch.queue.maxsize = 10 ∧
    t.pool.dispatch.accepted.length = 2 := ⟨_, rfl, rfl, rfl, rfl, rfl⟩

theorem cutRun_loses : ∃ t, (cutMachine (Fin 1) (Fin 1) 1 0).exec .uncut cutRun = some t ∧
    t.timedOut = true ∧ t.pool.dispatch.accepted.length = 2 ∧
    ∃ lost : List (Accepted EventDocument),
      (lost.length : ℤ) ≤ t.pool.dispatch.queue.maxsize + Fintype.card (Fin 1) * 1 ∧
        ∀ x ∈ t.pool.dispatch.accepted, x ∈ lost ∨
          t.pool.worker.mongo.Holds x.event.eventId ∨
          x.event ∈ entryEvents t.pool.worker.dlq.unpersisted ∨
          ∃ i job, t.cut i = true ∧ t.pool.worker.jobs i = some job ∧
            x.event ∈ entryEvents job.pending := by
  obtain ⟨t, hrun, hclosed, htimed, hmaxsize, haccepted⟩ := cutRun_ends
  obtain ⟨lost, hlength, -, -, hall⟩ := timed_out_drain (Fin 1) (Fin 1) 1 0 le_rfl le_rfl
    (by decide) .uncut t cutRun uncut_init hrun cutRun_orderly (Or.inl hclosed) (by omega)
  exact ⟨t, hrun, htimed, haccepted, lost, hlength, hall⟩

end Acheron
