import Mathlib.Data.Int.Basic
import Mathlib.Data.List.Basic

/-!
# The event queue

`EventQueue` wraps an `asyncio.Queue`: a bounded buffer, the count `_unfinished_tasks` of items put
and not yet acknowledged, and the event `_finished` that `join` waits for. Everything but `get` and
`join` is synchronous, and `get` removes its item by a `get_nowait` in the step in which it returns,
so a wait that times out or is cancelled removes nothing.

The flag and the count move together; that they agree is a field of the structure.
-/

namespace Acheron

/-- `EventQueue`, over any type of item. -/
structure EventQueue (α : Type) where
  /-- The buffered items, next out first. -/
  items : List α
  /-- The capacity; not positive means unbounded. -/
  maxsize : ℤ
  /-- `_unfinished_tasks`. -/
  unfinished : ℕ
  /-- `_finished`, what `join` waits for. -/
  finished : Bool
  finished_iff : finished = true ↔ unfinished = 0

namespace EventQueue

variable {α : Type}

/-- `EventQueue.__init__`. -/
def new (maxSize : ℤ) : EventQueue α := ⟨[], maxSize, 0, true, by simp⟩

/-- `EventQueue.qsize`. -/
def qsize (q : EventQueue α) : ℕ := q.items.length

/-- `EventQueue.full`. -/
def full (q : EventQueue α) : Bool :=
  if q.maxsize ≤ 0 then false else decide (q.maxsize ≤ q.qsize)

/-- `EventQueue.put_nowait`; `none` is `QueueFull`. -/
def putNowait (q : EventQueue α) (x : α) : Option (EventQueue α) :=
  if q.full then none
  else some ⟨q.items ++ [x], q.maxsize, q.unfinished + 1, false, by simp⟩

/-- `EventQueue.get_nowait`; `none` is `QueueEmpty`. -/
def getNowait (q : EventQueue α) : Option (α × EventQueue α) :=
  match q.items with
  | [] => none
  | x :: xs => some (x, { q with items := xs })

/-- `EventQueue.task_done`; `none` is the `ValueError` of a call too many. -/
def taskDone (q : EventQueue α) : Option (EventQueue α) :=
  if q.unfinished = 0 then none
  else some ⟨q.items, q.maxsize, q.unfinished - 1, q.unfinished - 1 = 0, by simp⟩

/-- `for _ in batch: task_done()`, on a batch of `n`: the queue afterwards, and whether every call
returned. -/
def acknowledge (q : EventQueue α) : ℕ → EventQueue α × Bool
  | 0 => (q, true)
  | n + 1 =>
    match q.taskDone with
    | none => (q, false)
    | some q' => q'.acknowledge n

/-! ## What the operations do -/

theorem putNowait_eq_some {q r : EventQueue α} {x : α} (h : q.putNowait x = some r) :
    q.full = false ∧ r.items = q.items ++ [x] ∧ r.unfinished = q.unfinished + 1 ∧
      r.maxsize = q.maxsize := by
  unfold putNowait at h
  by_cases hfull : q.full = true
  · rw [if_pos hfull] at h
    exact absurd h (by simp)
  · rw [if_neg hfull] at h
    obtain rfl := Option.some.inj h
    exact ⟨by simpa using hfull, rfl, rfl, rfl⟩

theorem putNowait_eq_none {q : EventQueue α} {x : α} : q.putNowait x = none ↔ q.full = true := by
  simp [putNowait]

theorem getNowait_eq_some {q r : EventQueue α} {x : α} (h : q.getNowait = some (x, r)) :
    q.items = x :: r.items ∧ r.unfinished = q.unfinished ∧ r.maxsize = q.maxsize := by
  unfold getNowait at h
  split at h
  · exact absurd h (by simp)
  · obtain ⟨rfl, rfl⟩ := Prod.mk.inj (Option.some.inj h)
    exact ⟨‹_›, rfl, rfl⟩

/-- Acknowledging no more than is unfinished never raises. -/
theorem acknowledge_of_le {q : EventQueue α} {n : ℕ} (h : n ≤ q.unfinished) :
    (q.acknowledge n).2 = true ∧ (q.acknowledge n).1.items = q.items ∧
      (q.acknowledge n).1.unfinished = q.unfinished - n := by
  induction n generalizing q with
  | zero => exact ⟨rfl, rfl, rfl⟩
  | succ n ih =>
    have hpos : q.unfinished ≠ 0 := by omega
    obtain ⟨r, hr, hitems, hunf⟩ : ∃ r, q.taskDone = some r ∧ r.items = q.items ∧
        r.unfinished = q.unfinished - 1 := by
      rw [taskDone, if_neg hpos]
      exact ⟨_, rfl, rfl, rfl⟩
    have hstep : q.acknowledge (n + 1) = r.acknowledge n := by rw [acknowledge, hr]
    obtain ⟨hok, hitems', hunf'⟩ := ih (q := r) (by omega)
    rw [hstep]
    exact ⟨hok, hitems'.trans hitems, by omega⟩

end EventQueue

end Acheron
