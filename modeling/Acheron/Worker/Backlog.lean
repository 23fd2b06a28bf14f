import Mathlib.Algebra.Order.Ring.Int
import Acheron.Worker.Drain

/-!
# The backlog in memory

Where the accepted events are that no store holds yet: on the queue, in the batches of the
consumers, or in the buffer of the dead-letter queue. The first two are bounded by the capacity of
the queue and the batches of the pool, and the bound is kept by refusing: `put_nowait` raises
exactly when the queue is full. The buffer is not. An event that exhausts its retries leaves its
batch for the buffer and so frees a slot for the next, and while Mongo is down no persist empties
the buffer; all that can be said of its size is that each entry has been counted in `recorded`.
-/

open Runs

namespace Acheron

namespace EventQueue

variable {α : Type}

/-- Acknowledging leaves the buffer and its capacity alone. -/
theorem acknowledge_frame (q : EventQueue α) (n : ℕ) :
    (q.acknowledge n).1.items = q.items ∧ (q.acknowledge n).1.maxsize = q.maxsize := by
  induction n generalizing q with
  | zero => exact ⟨rfl, rfl⟩
  | succ n ih =>
    rw [acknowledge]
    by_cases hzero : q.unfinished = 0
    · rw [taskDone, if_pos hzero]
      exact ⟨rfl, rfl⟩
    · rw [taskDone, if_neg hzero]
      exact ih _

/-- A queue with a capacity is full when it holds that many. -/
theorem full_iff {q : EventQueue α} (hcapacity : 1 ≤ q.maxsize) :
    q.full = true ↔ q.maxsize ≤ q.items.length := by
  rw [full, if_neg (by omega), decide_eq_true_iff, qsize]

end EventQueue

/-! ## The queue and the batches -/

section Dispatch

variable {α ι : Type} [DecidableEq ι] {batchSize : ℤ} {s t : DispatchState α ι}

/-- The queue holds no more than its capacity. -/
def DispatchState.WithinCapacity (s : DispatchState α ι) : Prop :=
  1 ≤ s.queue.maxsize → (s.queue.items.length : ℤ) ≤ s.queue.maxsize

theorem withinCapacity_move (hs : s.WithinCapacity) {a : DispatchAction α ι}
    (h : Move batchSize s a t) : t.WithinCapacity := by
  induction h with
  | accept event q hput =>
    obtain ⟨hroom, hitems, -, hmax⟩ := EventQueue.putNowait_eq_some hput
    intro hcapacity
    dsimp only at hcapacity ⊢
    rw [hmax] at hcapacity ⊢
    -- A put is let through only below the capacity.
    have hnot : ¬ s.queue.maxsize ≤ s.queue.items.length := fun hfull ↦
      absurd ((EventQueue.full_iff hcapacity).mpr hfull) (by simp [hroom])
    rw [hitems, List.length_append, List.length_singleton]
    push_cast
    omega
  | take i x q hget _ =>
    obtain ⟨hitems, -, hmax⟩ := EventQueue.getNowait_eq_some hget
    intro hcapacity
    have hbefore := hs (hmax ▸ hcapacity)
    rw [hitems, List.length_cons] at hbefore
    dsimp only
    rw [hmax]
    push_cast at hbefore
    omega
  | acknowledge i batch _ _ =>
    obtain ⟨hitems, hmax⟩ := s.queue.acknowledge_frame batch.length
    intro hcapacity
    dsimp only at hcapacity ⊢
    rw [hmax] at hcapacity ⊢
    rw [hitems]
    exact hs hcapacity
  | advance _ _ _ _ | signal _ | join _ | abandon => exact hs

theorem withinCapacity_of_reachable (h : (dispatchMachine α ι batchSize).Reachable s) :
    s.WithinCapacity := by
  refine h.invariant (fun s hinit ↦ ?_) fun s a t hs hstep ↦
    withinCapacity_move hs (move_of_step hstep)
  obtain ⟨maxSize, rfl⟩ := hinit
  exact fun hcapacity ↦ le_trans (by simp [EventQueue.new]) hcapacity

/-- A batch is at most as long as it may be. -/
theorem Consumer.Sound.length_le {c : Consumer α} (hbatch : 1 ≤ batchSize)
    (h : c.Sound batchSize) : (c.batch.length : ℤ) ≤ batchSize := by
  match c, h with
  | .collecting batch, h | .processing batch, h => exact h.2.trans_eq (max_eq_right hbatch)
  | .polling, _ | .returned, _ | .died, _ => exact le_trans (by simp [Consumer.batch]) hbatch

omit [DecidableEq ι] in
/-- The batches together hold at most one full batch a consumer. -/
theorem sum_batch_le [Fintype ι] (hbatch : 1 ≤ batchSize)
    (h : ∀ i, (s.consumers i).Sound batchSize) :
    ∑ i, ((s.consumers i).batch.length : ℤ) ≤ Fintype.card ι * batchSize := by
  have hle := Finset.sum_le_card_nsmul Finset.univ
    (fun i ↦ ((s.consumers i).batch.length : ℤ)) batchSize fun i _ ↦ (h i).length_le hbatch
  rwa [Finset.card_univ, nsmul_eq_mul] at hle

end Dispatch

/-! ## The buffer -/

section Worker

variable {ι : Type} [DecidableEq ι] {maxRetries : ℤ} {s t : WorkerState ι} {a : WorkerAction ι}

theorem length_entryEvents (entries : List DLQEntry) :
    (entryEvents entries).length = entries.length := List.length_map _

/-- Neither the buffer nor a snapshot has more entries than were counted. -/
structure WorkerState.Counted (s : WorkerState ι) : Prop where
  buffer : s.dlq.unpersisted.length ≤ s.dlq.recorded
  snapshots : ∀ i job, s.jobs i = some job → job.pending.length ≤ s.dlq.recorded

theorem WorkerState.Counted.move (hs : s.Counted) (h : WorkerMove maxRetries s a t) :
    t.Counted := by
  induction h with
  | skip _ _ | written _ | overflow _ _ _ =>
    exact ⟨hs.buffer, forall_jobs_finish (Q := fun job ↦ job.pending.length ≤ _) _ _ hs.snapshots⟩
  | start _ _ | write _ | backoff _ _ _ | wake _ =>
    refine ⟨hs.buffer, forall_jobs_proceed (Q := fun job ↦ job.pending.length ≤ _) _ _
      hs.snapshots ?_⟩
    exact Nat.zero_le _
  | persist hjob =>
    have hsnapshot := hs.snapshots _ _ hjob
    exact ⟨hs.buffer, forall_jobs_proceed (Q := fun job ↦ job.pending.length ≤ _) _ _
      hs.snapshots hsnapshot⟩
  | @push i reason now batch _ _ pending _ _ hpush =>
    -- Buffer and snapshot grow by the batch, and so does the counter.
    have hcount := (s.dlq.pushMany_spec batch reason now).1
    obtain ⟨hbuffer, hpending⟩ := DeadLetterQueue.pushMany_eq_some hpush
    have hlength := congrArg List.length hpending
    rw [length_entryEvents, List.length_append, length_entryEvents] at hlength
    have hbefore := hs.buffer
    refine ⟨?_, forall_jobs_proceed (Q := fun job ↦ job.pending.length ≤ _) _ _
      (fun j job hj ↦ ?_) ?_⟩
    · rw [proceed_dlq, hbuffer, hcount]
      omega
    · have hsnapshot := hs.snapshots j job hj
      rw [proceed_dlq, hcount]
      omega
    · rw [proceed_dlq, hcount, Job.pending]
      omega
  | @bufferOnly i reason now batch _ _ _ _ hpush =>
    have hcount := (s.dlq.pushMany_spec batch reason now).1
    have hlength := congrArg List.length (DeadLetterQueue.entryEvents_of_pushMany_eq_none hpush)
    rw [length_entryEvents, List.length_append, length_entryEvents] at hlength
    have hbefore := hs.buffer
    refine ⟨?_, forall_jobs_finish (Q := fun job ↦ job.pending.length ≤ _) _ _ fun j job hj ↦ ?_⟩
    · rw [finish_dlq, hcount, hlength]
      omega
    · have hsnapshot := hs.snapshots j job hj
      rw [finish_dlq, hcount]
      omega
  | @settle _ _ _ _ pending stored hjob =>
    refine ⟨?_, forall_jobs_finish (Q := fun job ↦ job.pending.length ≤ _) _ _ hs.snapshots⟩
    -- `_unpersisted = pending` after a failed persist: the snapshot becomes the buffer.
    match stored with
    | true => exact Nat.zero_le _
    | false => exact hs.snapshots _ _ hjob

end Worker

/-! ## The process -/

variable {ι ρ : Type} [DecidableEq ι] {batchSize maxRetries : ℤ} {s t : PoolState ι ρ}

variable [DecidableEq ρ] [Fintype ι]

theorem counted_of_reachable (h : (poolMachine ι ρ batchSize maxRetries).Reachable s) :
    s.worker.Counted := by
  refine h.invariant (P := fun s ↦ s.worker.Counted) (fun s hinit ↦ ?_) fun s a t hs hstep ↦ ?_
  · obtain ⟨-, ⟨hdlq, hidle, -⟩, -⟩ := hinit
    refine ⟨?_, fun i job hj ↦ absurd hj (by simp [hidle])⟩
    rw [hdlq]
    exact Nat.zero_le _
  · rcases (drain_of_poolStep hstep).workerEffect with ⟨b, hmove⟩ | ⟨m, hm⟩
    · exact hs.move hmove
    · rw [hm]
      exact ⟨hs.buffer, hs.snapshots⟩

/-- An ingest by a process that accepts events is refused exactly when the queue is full, and then
it changes nothing. -/
theorem refused_iff_full {event : EventDocument} (haccepting : s.accepting = true)
    (hcapacity : 1 ≤ s.dispatch.queue.maxsize) (hwithin : s.dispatch.WithinCapacity)
    (h : (poolMachine ι ρ batchSize maxRetries).step s (.ingest event) = some t) :
    t = s ∧ (s.dispatch.queue.items.length : ℤ) = s.dispatch.queue.maxsize ∨
      t.dispatch.accepted = s.dispatch.accepted ++ [⟨s.dispatch.accepted.length, event⟩] ∧
        (s.dispatch.queue.items.length : ℤ) < s.dispatch.queue.maxsize := by
  have hbound := hwithin hcapacity
  simp only [poolMachine, haccepting, if_true] at h
  by_cases hclosed : s.lifespan = .closed
  · rw [if_pos hclosed] at h
    exact absurd h (by simp)
  rw [if_neg hclosed] at h
  obtain ⟨d, hd, rfl⟩ := PoolState.dispatchStep_eq_some h
  have hturn := turn_of_step hd
  cases hturn with
  | refuse hnone =>
    have hfull := (EventQueue.full_iff hcapacity).mp (EventQueue.putNowait_eq_none.mp hnone)
    exact Or.inl ⟨rfl, by omega⟩
  | put hput =>
    obtain ⟨hroom, -, -, -⟩ := EventQueue.putNowait_eq_some hput
    have hnot : ¬ s.dispatch.queue.maxsize ≤ s.dispatch.queue.items.length := fun hfull ↦
      absurd ((EventQueue.full_iff hcapacity).mpr hfull) (by simp [hroom])
    exact Or.inr ⟨rfl, by omega⟩

/-- **The backlog is bounded up to the dead letters.** At every moment the queue and the batches
hold at most the capacity and a full batch a consumer; an ingest is refused exactly when the queue
is full; and the buffer of the dead-letter queue holds at most what has been recorded. -/
theorem backlog_bounded (ι ρ : Type) [DecidableEq ι] [DecidableEq ρ] [Fintype ι]
    (batchSize maxRetries : ℤ) (hbatch : 1 ≤ batchSize) (s : PoolState ι ρ)
    (h : (poolMachine ι ρ batchSize maxRetries).Reachable s)
    (hcapacity : 1 ≤ s.dispatch.queue.maxsize) :
    (s.dispatch.queue.items.length : ℤ) + ∑ i, ((s.dispatch.consumers i).batch.length : ℤ)
        ≤ s.dispatch.queue.maxsize + Fintype.card ι * batchSize ∧
      s.worker.dlq.unpersisted.length ≤ s.worker.dlq.recorded ∧
      ∀ event t, (poolMachine ι ρ batchSize maxRetries).step s (.ingest event) = some t →
        s.accepting = true →
          (t.dispatch.accepted = s.dispatch.accepted
              ↔ (s.dispatch.queue.items.length : ℤ) = s.dispatch.queue.maxsize) ∧
            (t.dispatch.accepted = s.dispatch.accepted → t = s) := by
  have hdispatch := pool_refines_dispatch.reachable h
  have hwithin := withinCapacity_of_reachable hdispatch
  have hqueue := hwithin hcapacity
  have hbatches := sum_batch_le hbatch (Accounting.of_reachable hdispatch).sound
  refine ⟨by omega, (counted_of_reachable h).buffer, fun event t hstep haccepting ↦ ?_⟩
  rcases refused_iff_full haccepting hcapacity hwithin hstep with ⟨rfl, hfull⟩ | ⟨hacc, hroom⟩
  · exact ⟨iff_of_true rfl hfull, fun _ ↦ rfl⟩
  · have hgrown : t.dispatch.accepted ≠ s.dispatch.accepted := by simp [hacc]
    exact ⟨iff_of_false hgrown (by omega), fun hsame ↦ absurd hsame hgrown⟩

/-- One consumer on a queue with room for one event. -/
def PoolState.narrow : PoolState (Fin 1) (Fin 1) :=
  ⟨⟨.new 1, fun _ ↦ .polling, false, .idle, [], [], []⟩, .idle, fun _ ↦ .idle, true, .running⟩

/-- An event waits on the queue of one, and the next is refused. -/
theorem narrowRun_refused :
    ∃ s, (poolMachine (Fin 1) (Fin 1) 1 0).exec .narrow [.ingest (makeEvent "e1")] = some s ∧
      s.worker.dlq.unpersisted.length ≤ s.worker.dlq.recorded ∧
      ∃ t, (poolMachine (Fin 1) (Fin 1) 1 0).step s (.ingest (makeEvent "e2")) = some t ∧ t = s := by
  have hbounded := backlog_bounded (Fin 1) (Fin 1) 1 0 le_rfl _
    ⟨.narrow, [.ingest (makeEvent "e1")],
      ⟨⟨1, rfl⟩, ⟨rfl, fun _ ↦ rfl, rfl⟩, fun _ ↦ rfl, rfl, rfl⟩, rfl⟩ le_rfl
  obtain ⟨hfull, hsame⟩ := hbounded.2.2 (makeEvent "e2") _ rfl rfl
  exact ⟨_, rfl, hbounded.2.1, _, rfl, hsame (hfull.mpr rfl)⟩

/-! ## The buffer has no bound -/

/-- The queue is empty and the consumer polls, with `n` entries in the buffer. -/
structure PoolState.Buffering (n : ℕ) (s : PoolState (Fin 1) (Fin 1)) : Prop where
  queue : s.dispatch.queue = .new 1
  polling : s.dispatch.consumers = fun _ ↦ .polling
  idle : s.worker.jobs = fun _ ↦ none
  sink : s.worker.dlq.hasSink = true
  accepting : s.accepting = true
  running : s.lifespan = .running
  buffer : s.worker.dlq.unpersisted.length = n

/-- The one consumer is about to resume from a persist that has failed. -/
structure PoolState.Failing (n : ℕ) (x : Accepted EventDocument) (pending : List DLQEntry)
    (s : PoolState (Fin 1) (Fin 1)) : Prop where
  queue : s.dispatch.queue = ⟨[], 1, 1, false, by simp⟩
  processing : s.dispatch.consumers 0 = .processing [x]
  job : s.worker.jobs 0 = some (.pushed [x.event] pending false)
  sink : s.worker.dlq.hasSink = true
  accepting : s.accepting = true
  running : s.lifespan = .running
  pending : pending.length = n

/-- While Mongo is down an event is accepted, and neither its write nor its persist gets through. -/
theorem failing_of_buffering {n : ℕ} {s : PoolState (Fin 1) (Fin 1)} (h : s.Buffering n) :
    ∃ u x pending, (poolMachine (Fin 1) (Fin 1) 1 0).exec s (outageRun.take 6) = some u ∧
      u.Failing (n + 1) x pending := by
  obtain ⟨⟨queue, consumers, stopping, join, acc, deq, fin⟩,
    ⟨mongo, ⟨hasSink, buffer, recorded⟩, metrics, jobs, ended⟩, replays, accepting, lifespan⟩ := s
  obtain ⟨rfl, rfl, rfl, rfl, rfl, rfl, rfl⟩ := h
  have hfailed : (persistDeadLetters mongo.deadLetters
      ((buffer ++ pushEntries [makeEvent "e1"] "timed out" fun _ ↦ .epoch).map entryToDoc)
      (.raised .pyMongo fun _ ↦ false)).2.isOk = false := by
    rw [persistDeadLetters_of_ne_nil (by simp [pushEntries])]
    rfl
  refine ⟨_, ⟨acc.length, makeEvent "e1"⟩,
    buffer ++ pushEntries [makeEvent "e1"] "timed out" fun _ ↦ .epoch, rfl, rfl, rfl, ?_, rfl, rfl,
    rfl, ?_⟩
  · exact congrArg (fun stored ↦ some (Job.pushed [makeEvent "e1"]
      (buffer ++ pushEntries [makeEvent "e1"] "timed out" fun _ ↦ .epoch) stored)) hfailed
  · rw [List.length_append, length_pushEntries, List.length_singleton]

/-- The consumer resumes: the snapshot is the buffer, and the slot of the event is free. -/
theorem buffering_of_failing {n : ℕ} {x : Accepted EventDocument} {pending : List DLQEntry}
    {s : PoolState (Fin 1) (Fin 1)} (h : s.Failing n x pending) :
    ∃ t, (poolMachine (Fin 1) (Fin 1) 1 0).exec s (outageRun.drop 6) = some t ∧ t.Buffering n := by
  have hworker : (workerMachine (Fin 1) 0).step s.worker (.resume 0 "" fun _ ↦ .epoch)
      = some ({ s.worker with dlq := s.worker.dlq.resume pending false }.finish 0 [x.event]
          .normal) := by
    simp only [workerMachine, h.job]
  have hdispatch : (dispatchMachine EventDocument (Fin 1) 1).step s.dispatch (.finish 0 .normal)
      = some { s.dispatch with
          queue := .new 1
          consumers := Function.update s.dispatch.consumers 0 .polling
          join := if s.dispatch.join = .waiting then .completed else s.dispatch.join
          finished := s.dispatch.finished ++ [x] } := by
    simp [dispatchMachine, h.processing, h.queue, EventQueue.acknowledge, EventQueue.taskDone,
      EventQueue.new, Consumer.afterBatch]
  have hstep : (poolMachine (Fin 1) (Fin 1) 1 0).step s (.job 0 (.resume "" fun _ ↦ .epoch))
      = some { s with
          worker := { s.worker with dlq := s.worker.dlq.resume pending false }.finish 0 [x.event]
            .normal
          dispatch := { s.dispatch with
            queue := .new 1
            consumers := Function.update s.dispatch.consumers 0 .polling
            join := if s.dispatch.join = .waiting then .completed else s.dispatch.join
            finished := s.dispatch.finished ++ [x] } } := by
    simp [poolMachine, h.running, PoolState.workerStep, JobAction.of, hworker,
      PoolState.dispatchStep, hdispatch]
  have hone {β : Type} (f : Fin 1 → β) (b : β) : Function.update f 0 b = fun _ ↦ b := by
    funext i
    rw [Fin.fin_one_eq_zero i, Function.update_self]
  refine ⟨_, (Machine.exec_cons_eq_some _).mpr ⟨_, hstep, rfl⟩, rfl, hone _ _, hone _ _, h.sink,
    h.accepting, h.running, h.pending⟩

/-- **No capacity bounds the buffer.** With room for one event on the queue and one in the batch,
any number of entries can be in the buffer. -/
theorem exists_buffering (n : ℕ) :
    ∃ s, (poolMachine (Fin 1) (Fin 1) 1 0).Reachable s ∧ s.Buffering n := by
  -- Each outage run adds one entry and frees the slot it took on the queue.
  induction n with
  | zero =>
    have hinit : (poolMachine (Fin 1) (Fin 1) 1 0).init .narrow :=
      ⟨⟨1, rfl⟩, ⟨rfl, fun _ ↦ rfl, rfl⟩, fun _ ↦ rfl, rfl, rfl⟩
    exact ⟨.narrow, .of_init hinit, rfl, rfl, rfl, rfl, rfl, rfl, rfl⟩
  | succ n ih =>
    obtain ⟨s, hs, hbuffering⟩ := ih
    obtain ⟨u, x, pending, hsu, hfailing⟩ := failing_of_buffering hbuffering
    obtain ⟨t, hut, ht⟩ := buffering_of_failing hfailing
    exact ⟨t, (hs.exec hsu).exec hut, ht⟩

/-- Three events, one after the other, exhaust their retries while Mongo is down. -/
theorem backlog_exceeds_capacity :
    ¬ ∀ s : PoolState (Fin 1) (Fin 1), (poolMachine (Fin 1) (Fin 1) 1 0).Reachable s →
      s.dispatch.queue.maxsize = 1 →
        (s.dispatch.queue.items.length : ℤ) + ∑ i, ((s.dispatch.consumers i).batch.length : ℤ) +
          s.worker.dlq.unpersisted.length ≤ 1 + 1 * 1 := by
  intro h
  obtain ⟨s, hreach, hs⟩ := exists_buffering 3
  have hbound := h s hreach (by rw [hs.queue, EventQueue.new])
  rw [hs.buffer, hs.queue, hs.polling] at hbound
  exact absurd hbound (by simp [EventQueue.new, Consumer.batch])

end Acheron
