import Mathlib.Algebra.BigOperators.Group.Finset.Basic
import Mathlib.Algebra.Order.BigOperators.Group.Finset
import Mathlib.Data.Fintype.Basic
import Acheron.Lib.Runs
import Acheron.Queue.EventQueue

/-!
# Dispatch

`WorkerPool._consume`, for any number of consumers on one queue, and the drain that
`WorkerPool.stop` waits for. What a batch is processed *into* is left out: a batch in processing
ends normally, by an exception or by a cancellation, whenever the environment says so.

The steps are cut finer than the event loop cuts them — every `get`, every turn of the inner
`get_nowait` loop and every completion is a step of its own — so the interleavings here include
those of the program.

## Accounting

`Accounting` is the inductive invariant. An accepted event carries its acceptance number, which
stands for the identity of the object; the history variables `accepted`, `dequeued` and
`finished` list the events put, got and acknowledged. `dispatch_exactly_once` reads the invariant
as the guarantee: every accepted event is in exactly one place.
-/

open Runs

namespace Acheron

/-- An accepted event, numbered in acceptance order. -/
structure Accepted (α : Type) where
  seq : ℕ
  event : α

/-- How `_process_batch` may end. -/
inductive BatchEnd where
  | normal
  | raised
  | cancelled

/-- Where a consumer task is. -/
inductive Consumer (α : Type) where
  /-- In `wait_for(get(), 1.0)`. -/
  | polling
  /-- In the inner loop, with the batch so far. -/
  | collecting (batch : List α)
  /-- In `_process_batch`. -/
  | processing (batch : List α)
  /-- Stopped, or cancelled while polling. -/
  | returned
  /-- Ended by what `_process_batch` raised. -/
  | died
  /-- Ended by the `ValueError` of a `task_done` too many. -/
  | overAcknowledged

/-- `join()` as the drain awaits it. -/
inductive Join where
  | idle
  | waiting
  | completed
  deriving DecidableEq

/-- The queue, its consumers and the drain. -/
structure DispatchState (α ι : Type) where
  queue : EventQueue (Accepted α)
  consumers : ι → Consumer (Accepted α)
  /-- `_stop_event`. -/
  stopping : Bool
  join : Join
  /-- History: the events accepted, dequeued and acknowledged. -/
  accepted : List (Accepted α)
  dequeued : List (Accepted α)
  finished : List (Accepted α)

/-- What may happen next. -/
inductive DispatchAction (α ι : Type) where
  /-- A producer calls `put_nowait`. -/
  | put (event : α)
  /-- Consumer `i` gets its first event. -/
  | get (i : ι)
  /-- Consumer `i` takes a turn of the inner loop. -/
  | collect (i : ι)
  /-- `_process_batch` ends, and the `finally` acknowledges the batch. -/
  | finish (i : ι) (ending : BatchEnd)
  /-- The wait of consumer `i` times out. -/
  | timeout (i : ι)
  /-- Consumer `i` is cancelled while polling. -/
  | cancel (i : ι)
  /-- `_stop_event.set()`. -/
  | stop
  /-- `join()` is called. -/
  | join
  /-- The drain times out. -/
  | abandonJoin

/-- The state of a consumer after the `finally`, which may itself have raised. -/
def Consumer.afterBatch {α : Type} (acknowledged : Bool) : BatchEnd → Consumer α
  | .normal => if acknowledged then .polling else .overAcknowledged
  | .raised | .cancelled => if acknowledged then .died else .overAcknowledged

/-- The batch a consumer holds. -/
def Consumer.batch {α : Type} : Consumer α → List α
  | .collecting batch | .processing batch => batch
  | _ => []

/-- The batch a consumer has in `_process_batch`. -/
def Consumer.running {α : Type} : Consumer α → Option (List α)
  | .processing batch => some batch
  | _ => none

variable {α ι : Type} [DecidableEq ι]

/-- `N` consumers on one queue. -/
def dispatchMachine (α ι : Type) [DecidableEq ι] (batchSize : ℤ) :
    Machine (DispatchState α ι) (DispatchAction α ι) where
  init s := ∃ maxSize, s = ⟨.new maxSize, fun _ ↦ .polling, false, .idle, [], [], []⟩
  step s
    | .put event =>
      let x : Accepted α := ⟨s.accepted.length, event⟩
      -- `QueueFull` leaves everything as it was.
      match s.queue.putNowait x with
      | none => some s
      | some q => some { s with queue := q, accepted := s.accepted ++ [x] }
    | .get i =>
      match s.consumers i, s.queue.getNowait with
      | .polling, some (x, q) =>
        some { s with
          queue := q
          consumers := Function.update s.consumers i (.collecting [x])
          dequeued := s.dequeued ++ [x] }
      | _, _ => none
    -- One turn of the `while len(batch) < batch_size` loop; on `QueueEmpty` the batch goes off.
    | .collect i =>
      match s.consumers i with
      | .collecting batch =>
        if (batch.length : ℤ) < batchSize then
          match s.queue.getNowait with
          | some (x, q) =>
            some { s with
              queue := q
              consumers := Function.update s.consumers i (.collecting (batch ++ [x]))
              dequeued := s.dequeued ++ [x] }
          | none =>
            some { s with consumers := Function.update s.consumers i (.processing batch) }
        else some { s with consumers := Function.update s.consumers i (.processing batch) }
      | _ => none
    | .finish i ending =>
      match s.consumers i with
      | .processing batch =>
        -- `task_done` for each event of the batch, whatever `_process_batch` did.
        let r := s.queue.acknowledge batch.length
        some { s with
          queue := r.1
          consumers := Function.update s.consumers i (.afterBatch r.2 ending)
          join := if s.join = .waiting ∧ r.1.finished then .completed else s.join
          finished := s.finished ++ batch }
      | _ => none
    | .timeout i =>
      match s.consumers i with
      | .polling =>
        -- On a timeout the consumer asks for the stop event only, not for the queue.
        if s.stopping then some { s with consumers := Function.update s.consumers i .returned }
        else some s
      | _ => none
    | .cancel i =>
      match s.consumers i with
      | .polling => some { s with consumers := Function.update s.consumers i .returned }
      | _ => none
    | .stop => some { s with stopping := true }
    | .join =>
      match s.join with
      | .idle =>
        some { s with
          join := if s.queue.unfinished = 0 ∨ s.queue.finished then .completed else .waiting }
      | _ => none
    | .abandonJoin =>
      match s.join with
      | .waiting => some { s with join := .idle }
      | _ => none

/-! ## What a step can do -/

/-- The steps. -/
inductive Turn (batchSize : ℤ) (s : DispatchState α ι) :
    DispatchAction α ι → DispatchState α ι → Prop
  | put {event : α} {q : EventQueue (Accepted α)}
      (hput : s.queue.putNowait ⟨s.accepted.length, event⟩ = some q) :
      Turn batchSize s (.put event)
        { s with queue := q, accepted := s.accepted ++ [⟨s.accepted.length, event⟩] }
  | refuse {event : α} (hfull : s.queue.putNowait ⟨s.accepted.length, event⟩ = none) :
      Turn batchSize s (.put event) s
  | get {i : ι} {x : Accepted α} {q : EventQueue (Accepted α)}
      (hpolling : s.consumers i = .polling) (hget : s.queue.getNowait = some (x, q)) :
      Turn batchSize s (.get i) { s with
        queue := q
        consumers := Function.update s.consumers i (.collecting [x])
        dequeued := s.dequeued ++ [x] }
  | grow {i : ι} {batch : List (Accepted α)} {x : Accepted α} {q : EventQueue (Accepted α)}
      (hcollecting : s.consumers i = .collecting batch) (hroom : (batch.length : ℤ) < batchSize)
      (hget : s.queue.getNowait = some (x, q)) :
      Turn batchSize s (.collect i) { s with
        queue := q
        consumers := Function.update s.consumers i (.collecting (batch ++ [x]))
        dequeued := s.dequeued ++ [x] }
  | close {i : ι} {batch : List (Accepted α)} (hcollecting : s.consumers i = .collecting batch) :
      Turn batchSize s (.collect i)
        { s with consumers := Function.update s.consumers i (.processing batch) }
  | finish {i : ι} {batch : List (Accepted α)} {ending : BatchEnd}
      (hprocessing : s.consumers i = .processing batch) :
      Turn batchSize s (.finish i ending) { s with
        queue := (s.queue.acknowledge batch.length).1
        consumers := Function.update s.consumers i
          (.afterBatch (s.queue.acknowledge batch.length).2 ending)
        join := if s.join = .waiting ∧ (s.queue.acknowledge batch.length).1.finished then
          .completed else s.join
        finished := s.finished ++ batch }
  | leave {i : ι} (hpolling : s.consumers i = .polling) (hstopping : s.stopping = true) :
      Turn batchSize s (.timeout i)
        { s with consumers := Function.update s.consumers i .returned }
  | stay {i : ι} (hpolling : s.consumers i = .polling) (hstopping : s.stopping = false) :
      Turn batchSize s (.timeout i) s
  | cancel {i : ι} (hpolling : s.consumers i = .polling) :
      Turn batchSize s (.cancel i)
        { s with consumers := Function.update s.consumers i .returned }
  | stop : Turn batchSize s .stop { s with stopping := true }
  | join (hidle : s.join = .idle) : Turn batchSize s .join { s with
      join := if s.queue.unfinished = 0 ∨ s.queue.finished then .completed else .waiting }
  | abandon (hwaiting : s.join = .waiting) :
      Turn batchSize s .abandonJoin { s with join := .idle }

theorem turn_of_step {batchSize : ℤ} {s t : DispatchState α ι} {a : DispatchAction α ι}
    (h : (dispatchMachine α ι batchSize).step s a = some t) : Turn batchSize s a t := by
  cases a with
  | put event =>
    simp only [dispatchMachine] at h
    split at h
    case h_1 hfull => exact Option.some.inj h ▸ .refuse hfull
    case h_2 hput => exact Option.some.inj h ▸ .put hput
  | get i =>
    simp only [dispatchMachine] at h
    split at h
    case h_1 hpolling hget => exact Option.some.inj h ▸ .get hpolling hget
    case h_2 => exact absurd h (by simp)
  | collect i =>
    simp only [dispatchMachine] at h
    split at h
    case h_1 batch hcollecting =>
      -- The batch goes off when it is full, or when the queue has nothing more for it.
      split at h
      · split at h
        · exact Option.some.inj h ▸ .grow hcollecting ‹_› ‹_›
        · exact Option.some.inj h ▸ .close hcollecting
      · exact Option.some.inj h ▸ .close hcollecting
    case h_2 => exact absurd h (by simp)
  | finish i ending =>
    simp only [dispatchMachine] at h
    split at h
    case h_1 hprocessing => exact Option.some.inj h ▸ .finish hprocessing
    case h_2 => exact absurd h (by simp)
  | timeout i =>
    simp only [dispatchMachine] at h
    split at h
    case h_1 hpolling =>
      cases hstopping : s.stopping with
      | true =>
        rw [if_pos hstopping] at h
        exact Option.some.inj h ▸ .leave hpolling hstopping
      | false =>
        rw [if_neg (by simp [hstopping])] at h
        exact Option.some.inj h ▸ .stay hpolling hstopping
    case h_2 => exact absurd h (by simp)
  | cancel i =>
    simp only [dispatchMachine] at h
    split at h
    case h_1 hpolling => exact Option.some.inj h ▸ .cancel hpolling
    case h_2 => exact absurd h (by simp)
  | stop => exact Option.some.inj h ▸ .stop
  | join =>
    simp only [dispatchMachine] at h
    split at h
    case h_1 hidle => exact Option.some.inj h ▸ .join hidle
    case h_2 => exact absurd h (by simp)
  | abandonJoin =>
    simp only [dispatchMachine] at h
    split at h
    case h_1 hwaiting => exact Option.some.inj h ▸ .abandon hwaiting
    case h_2 => exact absurd h (by simp)

/-- A consumer within the bounds: a batch it holds has 1 to `max 1 batchSize` events, and it has not
acknowledged more than it got. -/
def Consumer.Sound {α : Type} (batchSize : ℤ) : Consumer α → Prop
  | .collecting batch | .processing batch =>
    1 ≤ batch.length ∧ (batch.length : ℤ) ≤ max 1 batchSize
  | .overAcknowledged => False
  | _ => True

/-- The steps, told by their effect on the events. -/
inductive Move (batchSize : ℤ) (s : DispatchState α ι) :
    DispatchAction α ι → DispatchState α ι → Prop
  /-- An event is accepted. -/
  | accept (event : α) (q : EventQueue (Accepted α))
      (hput : s.queue.putNowait ⟨s.accepted.length, event⟩ = some q) :
      Move batchSize s (.put event)
        { s with queue := q, accepted := s.accepted ++ [⟨s.accepted.length, event⟩] }
  /-- A consumer with room in its batch takes the next event. -/
  | take {a : DispatchAction α ι} (i : ι) (x : Accepted α) (q : EventQueue (Accepted α))
      (hget : s.queue.getNowait = some (x, q))
      (hroom : (s.consumers i).batch = [] ∨ ((s.consumers i).batch.length : ℤ) < batchSize) :
      Move batchSize s a { s with
        queue := q
        consumers := Function.update s.consumers i (.collecting ((s.consumers i).batch ++ [x]))
        dequeued := s.dequeued ++ [x] }
  /-- A consumer moves on, with the same batch or none. -/
  | advance {a : DispatchAction α ι} (i : ι) (c : Consumer (Accepted α))
      (hbatch : c.batch = (s.consumers i).batch)
      (hsound : (s.consumers i).Sound batchSize → c.Sound batchSize) :
      Move batchSize s a { s with consumers := Function.update s.consumers i c }
  /-- A batch ends and is acknowledged. -/
  | acknowledge {a : DispatchAction α ι} (i : ι) (batch : List (Accepted α)) (ending : BatchEnd)
      (hbatch : s.consumers i = .processing batch) :
      Move batchSize s a { s with
        queue := (s.queue.acknowledge batch.length).1
        consumers := Function.update s.consumers i
          (.afterBatch (s.queue.acknowledge batch.length).2 ending)
        join := if s.join = .waiting ∧ (s.queue.acknowledge batch.length).1.finished then
          .completed else s.join
        finished := s.finished ++ batch }
  /-- The stop event is set, or nothing happens. -/
  | signal {a : DispatchAction α ι} (stopping : Bool) :
      Move batchSize s a { s with stopping := stopping }
  /-- The drain starts. -/
  | join (hidle : s.join = .idle) : Move batchSize s .join { s with
      join := if s.queue.unfinished = 0 ∨ s.queue.finished then .completed else .waiting }
  /-- The drain gives up. -/
  | abandon : Move batchSize s .abandonJoin { s with join := .idle }

theorem move_of_step {batchSize : ℤ} {s t : DispatchState α ι} {a : DispatchAction α ι}
    (h : (dispatchMachine α ι batchSize).step s a = some t) : Move batchSize s a t := by
  have hturn := turn_of_step h
  induction hturn with
  | put hput => exact .accept _ _ hput
  | refuse _ | stay _ _ => exact .signal s.stopping
  | @get i x q hpolling hget =>
    have hnil : (s.consumers i).batch = [] := by rw [hpolling]; rfl
    have hmove : Move batchSize s (.get i) _ := .take i x q hget (Or.inl hnil)
    rwa [hnil] at hmove
  | @grow i batch x q hcollecting hroom hget =>
    have hbatch : (s.consumers i).batch = batch := by rw [hcollecting]; rfl
    have hmove : Move batchSize s (.collect i) _ := .take i x q hget (Or.inr (hbatch ▸ hroom))
    rwa [hbatch] at hmove
  | close hcollecting =>
    exact .advance _ _ (by rw [hcollecting]; rfl) (by rw [hcollecting]; exact id)
  | finish hprocessing => exact .acknowledge _ _ _ hprocessing
  | leave hpolling _ | cancel hpolling =>
    exact .advance _ .returned (by rw [hpolling]; rfl) fun _ ↦ trivial
  | stop => exact .signal true
  | join hidle => exact .join hidle
  | abandon _ => exact .abandon

theorem running_afterBatch {β : Type} (acknowledged : Bool) (ending : BatchEnd) :
    (Consumer.afterBatch acknowledged ending : Consumer β).running = none := by
  cases ending <;> cases acknowledged <;> rfl

/-- Only `finish` acknowledges, and only the last turn of the inner loop sets a batch running. -/
theorem running_of_step {batchSize : ℤ} {s t : DispatchState α ι} {a : DispatchAction α ι}
    (h : (dispatchMachine α ι batchSize).step s a = some t) (ha : ∀ i ending, a ≠ .finish i ending) :
    t.finished = s.finished ∧ ∀ i, (t.consumers i).running = (s.consumers i).running ∨
      a = .collect i ∧ (s.consumers i).running = none := by
  have hupdate {i : ι} {c : Consumer (Accepted α)} (hi : (s.consumers i).running = none)
      (hc : c.running = none ∨ a = .collect i) (j : ι) :
      (Function.update s.consumers i c j).running = (s.consumers j).running ∨
        a = .collect j ∧ (s.consumers j).running = none := by
    by_cases hj : j = i
    · subst hj
      rw [Function.update_self]
      exact hc.imp (fun hc ↦ hc.trans hi.symm) fun ha ↦ ⟨ha, hi⟩
    · exact Or.inl (by rw [Function.update_of_ne hj])
  have hturn := turn_of_step h
  induction hturn with
  | finish _ => exact absurd rfl (ha _ _)
  -- Every other step that changes a consumer changes one that runs no batch.
  | get hpolling _ | leave hpolling _ | cancel hpolling =>
    exact ⟨rfl, hupdate (by rw [hpolling]; rfl) (Or.inl rfl)⟩
  | grow hcollecting _ _ | close hcollecting =>
    exact ⟨rfl, hupdate (by rw [hcollecting]; rfl) (Or.inr rfl)⟩
  | put _ | refuse _ | stay _ _ | stop | join _ | abandon _ => exact ⟨rfl, fun _ ↦ Or.inl rfl⟩

/-- Only `join` starts a drain. -/
theorem join_of_move {batchSize : ℤ} {s t : DispatchState α ι} {a : DispatchAction α ι}
    (h : Move batchSize s a t) (ha : a ≠ .join) (hidle : s.join = .idle) : t.join = .idle := by
  cases h with
  | accept _ _ _ | take _ _ _ _ _ | advance _ _ _ _ | signal _ => exact hidle
  | acknowledge _ _ _ _ => exact (if_neg (by simp [hidle])).trans hidle
  | join _ => exact absurd rfl ha
  | abandon => rfl

/-- The end of a batch acknowledges all of it. -/
theorem step_finish {batchSize : ℤ} {s t : DispatchState α ι} {i : ι} {ending : BatchEnd}
    (h : (dispatchMachine α ι batchSize).step s (.finish i ending) = some t) :
    ∃ batch, s.consumers i = .processing batch ∧ t.finished = s.finished ++ batch ∧
      (t.consumers i).running = none ∧ ∀ j, j ≠ i → t.consumers j = s.consumers j := by
  have hturn := turn_of_step h
  cases hturn with
  | @finish _ batch _ hprocessing =>
    refine ⟨batch, hprocessing, rfl, ?_, fun j hj ↦ Function.update_of_ne hj _ _⟩
    dsimp only
    rw [Function.update_self]
    exact running_afterBatch _ _

/-! ## The invariant -/

variable [Fintype ι]

/-- The events in the hands of the consumers. -/
def inFlight {α : Type} (consumers : ι → Consumer α) : Multiset α :=
  ∑ i, ((consumers i).batch : Multiset α)

omit [DecidableEq ι] in
theorem card_inFlight {α : Type} (consumers : ι → Consumer α) :
    (inFlight consumers).card = ∑ i, (consumers i).batch.length :=
  map_sum Multiset.cardHom _ _

omit [DecidableEq ι] in
theorem batch_le_inFlight {α : Type} (consumers : ι → Consumer α) (i : ι) :
    ((consumers i).batch : Multiset α) ≤ inFlight consumers :=
  Finset.single_le_sum (f := fun i ↦ ((consumers i).batch : Multiset α))
    (fun _ _ ↦ Multiset.zero_le _) (Finset.mem_univ i)

/-- Moving one consumer on exchanges its batch. -/
theorem inFlight_update {α : Type} (consumers : ι → Consumer α) (i : ι) (c : Consumer α) :
    inFlight (Function.update consumers i c) + (consumers i).batch
      = inFlight consumers + c.batch := by
  have hrest : ∑ j ∈ Finset.univ.erase i, ((Function.update consumers i c j).batch : Multiset α)
      = ∑ j ∈ Finset.univ.erase i, ((consumers j).batch : Multiset α) :=
    Finset.sum_congr rfl fun j hj ↦ by rw [Function.update_of_ne (Finset.ne_of_mem_erase hj)]
  rw [inFlight, inFlight, ← Finset.add_sum_erase _ _ (Finset.mem_univ i),
    ← Finset.add_sum_erase _ (fun j ↦ ((consumers j).batch : Multiset α)) (Finset.mem_univ i),
    hrest, Function.update_self, add_right_comm, add_comm (c.batch : Multiset α), add_right_comm]

omit [Fintype ι] in
theorem forall_update {α : Type} {P : Consumer α → Prop} {consumers : ι → Consumer α} {i : ι}
    {c : Consumer α} (hc : P c) (h : ∀ j, P (consumers j)) :
    ∀ j, P (Function.update consumers i c j) :=
  (Function.forall_update_iff consumers fun _ c ↦ P c).mpr ⟨hc, fun j _ ↦ h j⟩

/-- Acceptance numbers count up, the queue is what was accepted and not yet dequeued, and what was
dequeued is shared out among the batches and the finished events. -/
structure Accounting (batchSize : ℤ) (s : DispatchState α ι) : Prop where
  numbered : s.accepted.map Accepted.seq = List.range s.accepted.length
  fifo : s.accepted = s.dequeued ++ s.queue.items
  shared : (s.dequeued : Multiset (Accepted α)) = inFlight s.consumers + s.finished
  ordered : ∀ i, (s.consumers i).batch.Sublist s.dequeued
  sound : ∀ i, (s.consumers i).Sound batchSize
  unfinished : s.queue.unfinished = s.queue.qsize + (inFlight s.consumers).card
  waiting : s.join = .waiting → s.queue.unfinished ≠ 0

namespace Accounting

variable {batchSize : ℤ} {s t : DispatchState α ι}

theorem init (h : (dispatchMachine α ι batchSize).init s) : Accounting batchSize s := by
  obtain ⟨maxSize, rfl⟩ := h
  have hnone : inFlight (fun _ : ι ↦ (.polling : Consumer (Accepted α))) = 0 :=
    Finset.sum_eq_zero fun _ _ ↦ rfl
  refine ⟨rfl, rfl, ?_, fun _ ↦ List.nil_sublist _, fun _ ↦ trivial, ?_, fun h ↦ ?_⟩
  · rw [hnone]
    rfl
  · rw [hnone]
    rfl
  · exact absurd h (by simp)

omit [DecidableEq ι] in
/-- Accepting an event appends it to the queue. -/
theorem accept (hs : Accounting batchSize s) {x : Accepted α} {q : EventQueue (Accepted α)}
    (hseq : x.seq = s.accepted.length) (hput : s.queue.putNowait x = some q) :
    Accounting batchSize { s with queue := q, accepted := s.accepted ++ [x] } := by
  obtain ⟨-, hitems, hunf, -⟩ := EventQueue.putNowait_eq_some hput
  refine ⟨?_, ?_, hs.shared, hs.ordered, hs.sound, ?_, fun _ ↦ ?_⟩
  · rw [List.map_append, hs.numbered, List.map_singleton, hseq, List.length_append,
      List.length_singleton, List.range_succ]
  · rw [hitems, hs.fifo, List.append_assoc]
  · have hlen : q.qsize = s.queue.qsize + 1 := by simp [EventQueue.qsize, hitems]
    rw [hunf, hlen, hs.unfinished, add_right_comm]
  · rw [hunf]
    exact Nat.succ_ne_zero _

/-- Taking an event moves it from the head of the queue to the end of a batch. -/
theorem take (hs : Accounting batchSize s) {i : ι} {x : Accepted α}
    {q : EventQueue (Accepted α)} (hget : s.queue.getNowait = some (x, q))
    (hroom : (s.consumers i).batch = [] ∨ ((s.consumers i).batch.length : ℤ) < batchSize) :
    Accounting batchSize { s with
      queue := q
      consumers := Function.update s.consumers i (.collecting ((s.consumers i).batch ++ [x]))
      dequeued := s.dequeued ++ [x] } := by
  obtain ⟨hitems, hunf, -⟩ := EventQueue.getNowait_eq_some hget
  have hmore : inFlight (Function.update s.consumers i (.collecting ((s.consumers i).batch ++ [x])))
      = inFlight s.consumers + {x} := by
    have hflight := inFlight_update s.consumers i (.collecting ((s.consumers i).batch ++ [x]))
    rw [Consumer.batch.eq_1, ← Multiset.coe_add,
      add_comm ((s.consumers i).batch : Multiset (Accepted α)), ← add_assoc] at hflight
    exact add_right_cancel hflight
  refine ⟨hs.numbered, ?_, ?_, ?_, ?_, ?_, fun hj ↦ hunf ▸ hs.waiting hj⟩
  · rw [hs.fifo, hitems, List.append_assoc, List.singleton_append]
  · rw [hmore, ← Multiset.coe_add, hs.shared, Multiset.coe_singleton, add_right_comm]
  · refine forall_update (P := fun c ↦ c.batch.Sublist (s.dequeued ++ [x])) ?_ fun j ↦ ?_
    · exact (hs.ordered i).append (List.Sublist.refl _)
    · exact (hs.ordered j).trans (List.sublist_append_left _ _)
  · refine forall_update ?_ hs.sound
    rw [Consumer.Sound, List.length_append, List.length_singleton]
    rcases hroom with hnil | hlt
    · rw [hnil, List.length_nil]
      omega
    · omega
  · have hlen : s.queue.qsize = q.qsize + 1 := by simp [EventQueue.qsize, hitems]
    have hold := hs.unfinished
    have hcard := congrArg Multiset.card hmore
    rw [Multiset.card_add, Multiset.card_singleton] at hcard
    dsimp only
    omega

/-- A consumer that keeps its batch changes no account. -/
theorem advance (hs : Accounting batchSize s) {i : ι} {c : Consumer (Accepted α)}
    (hbatch : c.batch = (s.consumers i).batch)
    (hsound : (s.consumers i).Sound batchSize → c.Sound batchSize) :
    Accounting batchSize { s with consumers := Function.update s.consumers i c } := by
  have hsame : inFlight (Function.update s.consumers i c) = inFlight s.consumers := by
    have hflight := inFlight_update s.consumers i c
    rw [hbatch] at hflight
    exact add_right_cancel hflight
  refine ⟨hs.numbered, hs.fifo, hsame ▸ hs.shared, ?_, ?_, hsame ▸ hs.unfinished, hs.waiting⟩
  · exact forall_update (P := fun c ↦ c.batch.Sublist s.dequeued) (hbatch ▸ hs.ordered i) hs.ordered
  · exact forall_update (hsound (hs.sound i)) hs.sound

omit [DecidableEq ι] in
/-- A batch in processing is covered by the unfinished count, so its acknowledgements all return. -/
theorem acknowledged (hs : Accounting batchSize s) {i : ι} {batch : List (Accepted α)}
    (hbatch : (s.consumers i).batch = batch) :
    (s.queue.acknowledge batch.length).2 = true ∧
      (s.queue.acknowledge batch.length).1.items = s.queue.items ∧
      (s.queue.acknowledge batch.length).1.unfinished = s.queue.unfinished - batch.length := by
  refine EventQueue.acknowledge_of_le ?_
  have hle := Multiset.card_le_card (batch_le_inFlight s.consumers i)
  rw [hbatch, Multiset.coe_card] at hle
  rw [hs.unfinished]
  omega

/-- Acknowledging a batch moves it from the consumer to the finished events. -/
theorem acknowledge (hs : Accounting batchSize s) {i : ι} {batch : List (Accepted α)}
    {ending : BatchEnd} {join : Join} (hbatch : s.consumers i = .processing batch)
    (hjoin : join = .waiting → (s.queue.acknowledge batch.length).1.finished = false) :
    Accounting batchSize { s with
      queue := (s.queue.acknowledge batch.length).1
      consumers := Function.update s.consumers i
        (.afterBatch (s.queue.acknowledge batch.length).2 ending)
      join := join
      finished := s.finished ++ batch } := by
  have hheld : (s.consumers i).batch = batch := by rw [hbatch]; rfl
  obtain ⟨hok, hitems, hunf⟩ := hs.acknowledged hheld
  have hafter : (Consumer.afterBatch true ending : Consumer (Accepted α)).batch = [] ∧
      (Consumer.afterBatch true ending : Consumer (Accepted α)).Sound batchSize := by
    cases ending <;> exact ⟨rfl, trivial⟩
  have hless : inFlight (Function.update s.consumers i (.afterBatch true ending)) + batch
      = inFlight s.consumers := by
    have hflight := inFlight_update s.consumers i (.afterBatch true ending)
    rw [hafter.1, Multiset.coe_nil, add_zero, hbatch] at hflight
    exact hflight
  rw [hok]
  refine ⟨hs.numbered, ?_, ?_, ?_, ?_, ?_, fun hj hzero ↦ ?_⟩
  · rw [hitems, hs.fifo]
  · rw [hs.shared, ← hless, ← Multiset.coe_add, add_assoc,
      add_comm (batch : Multiset (Accepted α))]
  · exact forall_update (P := fun c ↦ c.batch.Sublist s.dequeued) (hafter.1 ▸ List.nil_sublist _)
      hs.ordered
  · exact forall_update hafter.2 hs.sound
  · have hsize : (s.queue.acknowledge batch.length).1.qsize = s.queue.qsize := by
      rw [EventQueue.qsize, hitems, EventQueue.qsize]
    have hcard := congrArg Multiset.card hless
    rw [Multiset.card_add, Multiset.coe_card] at hcard
    have hold := hs.unfinished
    dsimp only
    omega
  · have hfin := (s.queue.acknowledge batch.length).1.finished_iff.mpr hzero
    exact absurd hfin (by simp [hjoin hj])

theorem move (hs : Accounting batchSize s) {a : DispatchAction α ι} (h : Move batchSize s a t) :
    Accounting batchSize t := by
  cases h with
  | accept event q hput => exact hs.accept rfl hput
  | take i x q hget hroom => exact hs.take hget hroom
  | advance i c hbatch hsound => exact hs.advance hbatch hsound
  | acknowledge i batch ending hbatch =>
    refine hs.acknowledge hbatch fun hj ↦ ?_
    by_cases hdone : s.join = .waiting ∧ (s.queue.acknowledge batch.length).1.finished
    · rw [if_pos hdone] at hj
      exact absurd hj (by simp)
    · rw [if_neg hdone] at hj
      simpa [hj] using hdone
  | signal stopping => exact { hs with }
  | join hidle =>
    refine { hs with waiting := fun hj hzero ↦ ?_ }
    rw [if_pos (Or.inl hzero)] at hj
    exact absurd hj (by simp)
  | abandon => exact { hs with waiting := fun hj ↦ absurd hj (by simp) }

theorem of_reachable (h : (dispatchMachine α ι batchSize).Reachable s) : Accounting batchSize s :=
  h.invariant (fun _ ↦ init) fun _ _ _ hs hstep ↦ hs.move (move_of_step hstep)

end Accounting

/-! ## Exactly one place -/

/-- Where an accepted event can be. -/
inductive Place (ι : Type) where
  | queue
  | batch (i : ι)
  | finished

namespace DispatchState

omit [DecidableEq ι] [Fintype ι]

/-- The events at a place. -/
def place (s : DispatchState α ι) : Place ι → List (Accepted α)
  | .queue => s.queue.items
  | .batch i => (s.consumers i).batch
  | .finished => s.finished

/-- Every accepted event has been acknowledged. -/
def AllFinished (s : DispatchState α ι) : Prop := ∀ x ∈ s.accepted, x ∈ s.finished

end DispatchState

namespace Accounting

variable {batchSize : ℤ} {s t : DispatchState α ι}

omit [DecidableEq ι]

theorem accepted_nodup (hs : Accounting batchSize s) : s.accepted.Nodup := by
  refine List.Nodup.of_map Accepted.seq ?_
  rw [hs.numbered]
  exact List.nodup_range

/-- What was accepted is shared out among the places. -/
theorem accepted_eq (hs : Accounting batchSize s) :
    (s.accepted : Multiset (Accepted α))
      = (inFlight s.consumers + s.finished) + s.queue.items := by
  rw [hs.fifo, ← Multiset.coe_add, hs.shared]

theorem mem_inFlight {β : Type} {consumers : ι → Consumer β} {x : β} :
    x ∈ inFlight consumers ↔ ∃ i, x ∈ (consumers i).batch := by
  simp [inFlight, Multiset.mem_sum]

/-- No event is in two batches. -/
theorem batch_unique {β : Type} {consumers : ι → Consumer β} (hnodup : (inFlight consumers).Nodup)
    {i j : ι} {x : β} (hi : x ∈ (consumers i).batch) (hj : x ∈ (consumers j).batch) : i = j := by
  classical
  by_contra hne
  have hpair : ((consumers i).batch : Multiset β) + (consumers j).batch ≤ inFlight consumers := by
    rw [← Finset.sum_pair (f := fun i ↦ ((consumers i).batch : Multiset β)) hne]
    exact Finset.sum_le_sum_of_subset (Finset.subset_univ _)
  have hdisj := (Multiset.nodup_add.mp (Multiset.nodup_of_le hpair hnodup)).2.2
  exact Multiset.disjoint_left.mp hdisj hi hj

/-- No event is at two places. -/
theorem place_unique (hs : Accounting batchSize s) {x : Accepted α} {p q : Place ι}
    (hp : x ∈ s.place p) (hq : x ∈ s.place q) : p = q := by
  have hnodup := Multiset.coe_nodup.mpr hs.accepted_nodup
  rw [hs.accepted_eq, Multiset.nodup_add, Multiset.nodup_add] at hnodup
  obtain ⟨⟨hflight, -, hbf⟩, -, hrest⟩ := hnodup
  have hbatch : ∀ i, x ∈ (s.consumers i).batch → x ∉ s.finished ∧ x ∉ s.queue.items := by
    intro i hx
    have hmem := mem_inFlight.mpr ⟨i, hx⟩
    exact ⟨Multiset.disjoint_left.mp hbf hmem,
      Multiset.disjoint_left.mp hrest (Multiset.mem_add.mpr (Or.inl hmem))⟩
  have hfinished : x ∈ s.finished → x ∉ s.queue.items := fun hx ↦
    Multiset.disjoint_left.mp hrest (Multiset.mem_add.mpr (Or.inr hx))
  match p, q with
  | .queue, .queue | .finished, .finished => rfl
  | .batch i, .batch j => exact congrArg Place.batch (batch_unique hflight hp hq)
  | .batch i, .queue => exact absurd hq (hbatch i hp).2
  | .queue, .batch i => exact absurd hp (hbatch i hq).2
  | .batch i, .finished => exact absurd hq (hbatch i hp).1
  | .finished, .batch i => exact absurd hp (hbatch i hq).1
  | .finished, .queue => exact absurd hq (hfinished hp)
  | .queue, .finished => exact absurd hp (hfinished hq)

/-- Exactly the accepted events are somewhere. -/
theorem exists_place (hs : Accounting batchSize s) {x : Accepted α} :
    (∃ p, x ∈ s.place p) ↔ x ∈ s.accepted := by
  have hmem : x ∈ s.accepted ↔ ((∃ i, x ∈ (s.consumers i).batch) ∨ x ∈ s.finished) ∨
      x ∈ s.queue.items := by
    rw [← Multiset.mem_coe, hs.accepted_eq, Multiset.mem_add, Multiset.mem_add, mem_inFlight,
      Multiset.mem_coe, Multiset.mem_coe]
  rw [hmem]
  constructor
  · rintro ⟨p, hp⟩
    match p with
    | .queue => exact Or.inr hp
    | .batch i => exact Or.inl (Or.inl ⟨i, hp⟩)
    | .finished => exact Or.inl (Or.inr hp)
  · rintro ((⟨i, hx⟩ | hx) | hx)
    · exact ⟨.batch i, hx⟩
    · exact ⟨.finished, hx⟩
    · exact ⟨.queue, hx⟩

/-- Nothing is unfinished exactly when every accepted event has been acknowledged. -/
theorem unfinished_eq_zero_iff (hs : Accounting batchSize s) :
    s.queue.unfinished = 0 ↔ s.AllFinished := by
  have hcount : s.queue.unfinished = 0 ↔ s.queue.items = [] ∧ inFlight s.consumers = 0 := by
    rw [hs.unfinished, Nat.add_eq_zero_iff, EventQueue.qsize, List.length_eq_zero_iff,
      Multiset.card_eq_zero]
  rw [hcount]
  constructor
  · rintro ⟨hitems, hflight⟩ x hx
    obtain ⟨p, hp⟩ := hs.exists_place.mpr hx
    match p with
    | .finished => exact hp
    | .queue => exact absurd (show x ∈ s.queue.items from hp) (by simp [hitems])
    | .batch i => exact absurd (hflight ▸ mem_inFlight.mpr ⟨i, hp⟩) (Multiset.notMem_zero x)
  · intro hall
    have hgone : ∀ (p : Place ι) x, x ∈ s.place p → p = .finished := fun p x hp ↦
      hs.place_unique hp (hall x (hs.exists_place.mp ⟨p, hp⟩))
    refine ⟨?_, ?_⟩
    · refine List.eq_nil_iff_forall_not_mem.mpr fun x hx ↦ ?_
      exact absurd (hgone .queue x hx) (by simp)
    · refine Multiset.eq_zero_of_forall_notMem fun x hx ↦ ?_
      obtain ⟨i, hi⟩ := mem_inFlight.mp hx
      exact absurd (hgone (.batch i) x hi) (by simp)

end Accounting

/-- What holds of the dispatch at every moment. -/
structure ExactlyOnce (batchSize : ℤ) (s : DispatchState α ι) : Prop where
  /-- Events leave the queue in acceptance order, each at most once. -/
  inOrder : s.accepted = s.dequeued ++ s.queue.items
  once : s.dequeued.Nodup
  /-- Every accepted event is in exactly one place. -/
  onePlace : ∀ x ∈ s.accepted, ∃! p, x ∈ s.place p
  /-- A place lists accepted events only, none of them twice. -/
  placed : ∀ p, (s.place p).Nodup ∧ ∀ x ∈ s.place p, x ∈ s.accepted
  /-- A batch is in acceptance order and within its bounds. -/
  batchOrder : ∀ i, (s.consumers i).batch.Sublist s.accepted
  batchSize : ∀ i batch, s.consumers i = .collecting batch ∨ s.consumers i = .processing batch →
    1 ≤ batch.length ∧ (batch.length : ℤ) ≤ max 1 batchSize
  /-- The unfinished count. -/
  unfinished : s.queue.unfinished = s.queue.qsize + ∑ i, (s.consumers i).batch.length
  /-- No `task_done` is one too many, so none raises. -/
  acknowledged : s.finished.length ≤ s.dequeued.length
  noValueError : ∀ i, s.consumers i ≠ .overAcknowledged
  /-- While the drain waits, some accepted event is not finished. -/
  waiting : s.join = .waiting → ¬ s.AllFinished

namespace Accounting

variable {batchSize : ℤ} {s t : DispatchState α ι}

omit [DecidableEq ι] in
theorem place_nodup (hs : Accounting batchSize s) (p : Place ι) : (s.place p).Nodup := by
  have hdequeued : s.dequeued.Nodup := (hs.fifo ▸ hs.accepted_nodup).of_append_left
  match p with
  | .queue => exact (hs.fifo ▸ hs.accepted_nodup).of_append_right
  | .batch i => exact hdequeued.sublist (hs.ordered i)
  | .finished =>
    have hnodup := Multiset.coe_nodup.mpr hdequeued
    rw [hs.shared, Multiset.nodup_add] at hnodup
    exact Multiset.coe_nodup.mp hnodup.2.1

omit [DecidableEq ι] in
theorem exactlyOnce (hs : Accounting batchSize s) : ExactlyOnce batchSize s where
  inOrder := hs.fifo
  once := (hs.fifo ▸ hs.accepted_nodup).of_append_left
  onePlace x hx := by
    obtain ⟨p, hp⟩ := hs.exists_place.mpr hx
    exact ⟨p, hp, fun q hq ↦ hs.place_unique hq hp⟩
  placed p := ⟨hs.place_nodup p, fun x hx ↦ hs.exists_place.mp ⟨p, hx⟩⟩
  batchOrder i := by
    rw [hs.fifo]
    exact (hs.ordered i).trans (List.sublist_append_left _ _)
  batchSize i batch hbatch := by
    have hsound := hs.sound i
    rcases hbatch with h | h <;> rwa [h] at hsound
  unfinished := by rw [hs.unfinished, card_inFlight]
  acknowledged := by
    have hcard := congrArg Multiset.card hs.shared
    rw [Multiset.card_add, Multiset.coe_card, Multiset.coe_card] at hcard
    omega
  noValueError i hi := by
    have hsound := hs.sound i
    rwa [hi] at hsound
  waiting hj hall := hs.waiting hj (hs.unfinished_eq_zero_iff.mpr hall)

omit [DecidableEq ι] in
theorem completed_iff (ht : Accounting batchSize t)
    (h : t.join = .waiting ∨ t.join = .completed ∧ t.queue.unfinished = 0) :
    t.join = .completed ↔ t.AllFinished := by
  rw [← ht.unfinished_eq_zero_iff]
  rcases h with hwait | ⟨hdone, hzero⟩
  · exact iff_of_false (by simp [hwait]) (ht.waiting hwait)
  · exact iff_of_true hdone hzero

/-- A drain under way completes with the step that finishes the last accepted event. -/
theorem join_waiting (hs : Accounting batchSize s) {a : DispatchAction α ι}
    (h : Move batchSize s a t) (hwait : s.join = .waiting) (ha : a ≠ .abandonJoin) :
    t.join = .completed ↔ t.AllFinished := by
  refine (hs.move h).completed_iff ?_
  cases h with
  | accept _ _ _ | take _ _ _ _ _ | advance _ _ _ _ | signal _ => exact Or.inl hwait
  | acknowledge i batch ending hbatch =>
    by_cases hfin : (s.queue.acknowledge batch.length).1.finished = true
    · refine Or.inr ⟨if_pos ⟨hwait, hfin⟩, ?_⟩
      exact (s.queue.acknowledge batch.length).1.finished_iff.mp hfin
    · exact Or.inl ((if_neg fun h ↦ hfin h.2).trans hwait)
  | join hidle => exact absurd (hwait.symm.trans hidle) (by decide)
  | abandon => exact absurd rfl ha

/-- If nothing is accepted once a drain has completed, everything accepted stays finished. -/
theorem drained_move (hs : Accounting batchSize s) {a : DispatchAction α ι}
    (h : Move batchSize s a t) (hput : ∀ event, a = .put event → s.join ≠ .completed)
    (hdrained : s.join = .completed → s.AllFinished) (hjoin : t.join = .completed) :
    t.AllFinished := by
  have ht := hs.move h
  cases h with
  | accept event _ _ => exact absurd hjoin (hput event rfl)
  | take _ _ _ _ _ | advance _ _ _ _ | signal _ => exact hdrained hjoin
  | acknowledge i batch ending hbatch =>
    by_cases hdone : s.join = .waiting ∧ (s.queue.acknowledge batch.length).1.finished
    · exact ht.unfinished_eq_zero_iff.mp ((EventQueue.finished_iff _).mp hdone.2)
    · rw [if_neg hdone] at hjoin
      exact fun x hx ↦ List.mem_append_left _ (hdrained hjoin x hx)
  | join hidle =>
    by_cases hzero : s.queue.unfinished = 0
    · exact ht.unfinished_eq_zero_iff.mp hzero
    · rw [if_neg (by rw [s.queue.finished_iff, or_self]; exact hzero)] at hjoin
      exact absurd hjoin (by simp)
  | abandon => exact absurd hjoin (by simp)

/-- A drain completes at once when nothing is left to finish. -/
theorem join_called (hs : Accounting batchSize s)
    (h : (dispatchMachine α ι batchSize).step s .join = some t) :
    t.join = .completed ↔ t.AllFinished := by
  refine (hs.move (move_of_step h)).completed_iff ?_
  have hturn := turn_of_step h
  cases hturn with
  | join _ =>
    by_cases hzero : s.queue.unfinished = 0
    · exact Or.inr ⟨if_pos (Or.inl hzero), hzero⟩
    · refine Or.inl (if_neg ?_)
      rw [s.queue.finished_iff, or_self]
      exact hzero

end Accounting

/-- **Exactly-once dispatch.** At every moment every accepted event is in exactly one place, in
acceptance order, with the unfinished count to match; and `join` completes with the step that
finishes the last accepted event, or at once when there is none. -/
theorem dispatch_exactly_once (batchSize : ℤ) (s : DispatchState α ι)
    (h : (dispatchMachine α ι batchSize).Reachable s) :
    ExactlyOnce batchSize s ∧
      ∀ a t, (dispatchMachine α ι batchSize).step s a = some t →
        s.join = .waiting ∧ a ≠ .abandonJoin ∨ a = .join → (t.join = .completed ↔ t.AllFinished) := by
  have hs := Accounting.of_reachable h
  refine ⟨hs.exactlyOnce, fun a t hstep hjoin ↦ ?_⟩
  rcases hjoin with ⟨hwait, ha⟩ | rfl
  · exact hs.join_waiting (move_of_step hstep) hwait ha
  · exact hs.join_called hstep

/-- Two consumers, batches of two, three events: the first consumer takes two of them, the second
the last, and the drain is waiting for both. -/
def drainingRun : List (DispatchAction String (Fin 2)) :=
  [.put "a", .put "b", .put "c", .get 0, .collect 0, .collect 0, .get 1, .collect 1, .join]

theorem drainingRun_exactly_once :
    ∃ s, (dispatchMachine String (Fin 2) 2).exec
        ⟨.new 10, fun _ ↦ .polling, false, .idle, [], [], []⟩ drainingRun = some s ∧
      s.join = .waiting ∧ s.queue.unfinished = 3 ∧ ExactlyOnce 2 s := by
  refine ⟨_, rfl, rfl, rfl, (dispatch_exactly_once 2 _ ⟨_, drainingRun, ⟨10, rfl⟩, rfl⟩).1⟩

end Acheron
