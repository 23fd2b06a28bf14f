import Mathlib.Algebra.Order.Field.Power
import Mathlib.Data.Rat.Cast.Order
import Mathlib.Tactic.NormNum
import Acheron.Worker.Process

/-!
# The retry loop of one batch

`WorkerPool._process_batch` as one sequential call: the `for` loop over `range(max_retries + 1)`,
the backoff computed inside the `except` block, and what follows the loop. The awaited calls answer
from a stream, so that the run is a function of the configuration, of how each `bulk_write` ends and
of what `random.random()` returns.

## Where the delay is not a number of seconds

The delay is `random.uniform(0, base_delay * math.pow(2, attempt))`, in doubles. `math.pow` raises
from attempt 1024 on; before that the product of a finite `base_delay` may already be infinite, and
an infinite product times a draw of `0.0` is NaN. How long `asyncio.sleep` takes over such a delay
is up to the event loop, whose timer is a parameter here.

## When a batch settles

`Settles` asks that, whatever is drawn, the call returns and has either written the batch or handed
it to the dead-letter queue once. `settles_iff` is the exact condition: the range is not empty, and
each backoff that the failures lead to is one that comes back.
-/

namespace Acheron

/-! ## Doubles -/

/-- A finite double, `mantissa * 2 ^ exponent`. -/
structure FiniteDouble where
  mantissa : ℤ
  exponent : ℤ
  mantissa_lt : |mantissa| < 2 ^ 53
  exponent_le : exponent ≤ 971

/-- The number a finite double stands for. -/
def FiniteDouble.value (x : FiniteDouble) : ℚ := x.mantissa * (2 : ℚ) ^ x.exponent

/-- A double, as far as a delay goes; a finite one up to rounding. -/
inductive Double where
  | finite (value : ℚ)
  | infinite (negative : Bool)
  | nan

/-- A value of `random.random()`. -/
structure Draw where
  value : ℚ
  nonneg : 0 ≤ value
  lt_one : value < 1

/-- The draws that tell the infinite delays apart. -/
def Draw.zero : Draw := ⟨0, le_rfl, one_pos⟩

theorem Draw.half_bounds : (0 : ℚ) ≤ 1 / 2 ∧ (1 / 2 : ℚ) < 1 := by norm_num

def Draw.half : Draw := ⟨1 / 2, Draw.half_bounds.1, Draw.half_bounds.2⟩

/-- `math.pow(2, k)`; `none` is `OverflowError`. -/
def mathPow2 (k : ℕ) : Option ℚ := if k < 1024 then some (2 ^ k) else none

/-- The product with a power of two: exact, unless it is out of range. -/
def FiniteDouble.mul (x : FiniteDouble) (p : ℚ) : Double :=
  if |x.value * p| < 2 ^ 1024 then .finite (x.value * p) else .infinite (x.value < 0)

theorem FiniteDouble.mul_of_lt {x : FiniteDouble} {p : ℚ} (h : |x.value * p| < 2 ^ 1024) :
    x.mul p = .finite (x.value * p) := if_pos h

theorem FiniteDouble.mul_of_le {x : FiniteDouble} {p : ℚ} (h : 2 ^ 1024 ≤ |x.value * p|) :
    x.mul p = .infinite (x.value < 0) := if_neg (not_lt.mpr h)

/-- `random.uniform(0, b)`, which is `0 + (b - 0) * random()`. -/
def uniform (b : Double) (r : Draw) : Double :=
  match b with
  | .finite v => .finite (v * r.value)
  | .infinite negative => if r.value = 0 then .nan else .infinite negative
  | .nan => .nan

/-! ## Sleeping -/

/-- How an awaited call ends. -/
inductive CallEnd where
  | returned
  | raised
  /-- The call is never resumed. -/
  | hung
  deriving DecidableEq

/-- The timer of the event loop, on the delays that are no number of seconds. -/
structure EventLoop where
  infinity : CallEnd
  nan : CallEnd

/-- `asyncio.sleep(delay)`: `if delay <= 0` it yields once, else it asks the loop's timer. -/
def EventLoop.sleep (loop : EventLoop) : Double → CallEnd
  | .finite _ | .infinite true => .returned
  | .infinite false => loop.infinity
  | .nan => loop.nan

/-! ## The call -/

/-- What a `_process_batch` call does, in order. -/
inductive BatchEffect (α ε : Type) where
  /-- `mongo.bulk_write(batch)`, and how it ended. -/
  | write (batch : List α) (result : Except ε Unit)
  /-- `_retries += 1`. -/
  | retry
  /-- `asyncio.sleep(delay)`. -/
  | sleep (delay : Double)
  /-- `dlq.push_many(batch, str(last_exc))`. -/
  | push (batch : List α) (lastExc : ε)
  /-- `_batches_processed += 1` and `_events_processed += len(batch)`. -/
  | processed (batch : List α)

/-- A whole call: what it did and how it ended. -/
structure BatchRun (α ε : Type) where
  effects : List (BatchEffect α ε)
  ending : CallEnd

variable {α ε : Type}

/-- The call that does `effects` first. -/
def BatchRun.after (effects : List (BatchEffect α ε)) (r : BatchRun α ε) : BatchRun α ε :=
  ⟨effects ++ r.effects, r.ending⟩

/-- What `_process_batch` is given: its settings, the loop it runs on, and the answers it meets. -/
structure RetryContext (α ε : Type) where
  batch : List α
  maxRetries : ℤ
  baseDelay : FiniteDouble
  loop : EventLoop
  /-- How the `bulk_write` of each attempt ends. -/
  write : ℕ → Except ε Unit

namespace RetryContext

variable (c : RetryContext α ε) (draw : ℕ → Draw)

/-- After the loop. -/
def afterLoop : Option ε → BatchRun α ε
  | some lastExc => ⟨[.push c.batch lastExc], .returned⟩
  | none => ⟨[.processed c.batch], .returned⟩

/-- The delay after attempt `attempt`; `none` is `OverflowError`. -/
def delay (attempt : ℕ) : Option Double :=
  (mathPow2 attempt).map fun p ↦ uniform (c.baseDelay.mul p) (draw attempt)

/-- The loop, with `remaining` values of the range left and `attempt` the next of them. -/
def attempts : ℕ → ℕ → Option ε → BatchRun α ε
  | 0, _, lastExc => c.afterLoop lastExc
  | remaining + 1, attempt, _ =>
    match c.write attempt with
    | .ok () => (c.afterLoop none).after [.write c.batch (.ok ())]
    | .error exc =>
      if attempt = c.maxRetries then (c.afterLoop (some exc)).after [.write c.batch (.error exc)]
      else
        match c.delay draw attempt with
        | none => ⟨[.write c.batch (.error exc), .retry], .raised⟩
        | some d =>
          match c.loop.sleep d with
          | .returned =>
            (attempts remaining (attempt + 1) (some exc)).after
              [.write c.batch (.error exc), .retry, .sleep d]
          | ending => ⟨[.write c.batch (.error exc), .retry, .sleep d], ending⟩

/-- `WorkerPool._process_batch`. -/
def processBatch : BatchRun α ε := c.attempts draw (c.maxRetries + 1).toNat 0 none

/-! ## What the call owes -/

end RetryContext

namespace BatchRun

variable (r : BatchRun α ε) (batch : List α)

/-- Some `bulk_write` of the batch returned normally. -/
def Wrote : Prop := .write batch (.ok ()) ∈ r.effects

/-- What was passed to `push_many`, call by call. -/
def pushed : List (List α) := r.effects.filterMap fun
  | .push batch _ => some batch
  | _ => none

/-- The call returned, with the batch either written or dead-lettered once. -/
def Settled : Prop :=
  r.ending = .returned ∧ (r.Wrote batch ∧ r.pushed = [] ∨ ¬ r.Wrote batch ∧ r.pushed = [batch])

end BatchRun

namespace RetryContext

variable (c : RetryContext α ε) (draw : ℕ → Draw)

/-- Whatever is drawn, the call settles its batch. -/
def Settles : Prop := ∀ draw, (c.processBatch draw).Settled c.batch

/-- Attempt `j` and those from `attempt` before it fail. -/
def FailsFrom (attempt j : ℕ) : Prop := ∀ i, attempt ≤ i → i ≤ j → ∃ exc, c.write i = .error exc

/-- The backoff after attempt `j` comes back, with the draw it gets. -/
def Resumes (j : ℕ) : Prop := ∃ d, c.delay draw j = some d ∧ c.loop.sleep d = .returned

/-- **The condition on one backoff**: the power is in range, and where the product is not, the loop
comes back from what a draw makes of it. -/
def BackoffReturns (j : ℕ) : Prop :=
  j < 1024 ∧ (2 ^ 1024 ≤ |c.baseDelay.value * 2 ^ j| →
    c.loop.nan = .returned ∧ (0 < c.baseDelay.value → c.loop.infinity = .returned))

/-! ## One backoff -/

variable {c}

theorem delay_of_lt {j : ℕ} (hj : j < 1024) :
    c.delay draw j = some (uniform (c.baseDelay.mul (2 ^ j)) (draw j)) := by
  simp [delay, mathPow2, hj]

theorem delay_eq_none {j : ℕ} (hj : 1024 ≤ j) : c.delay draw j = none := by
  simp [delay, mathPow2, hj]

/-- A product out of range is no zero. -/
theorem value_ne_zero {x : FiniteDouble} {p : ℚ} (h : 2 ^ 1024 ≤ |x.value * p|) : x.value ≠ 0 := by
  intro hzero
  rw [hzero, zero_mul, abs_zero] at h
  exact absurd h (not_le.mpr (pow_pos two_pos 1024))

theorem resumes_of_backoffReturns {j : ℕ} (h : c.BackoffReturns j) : c.Resumes draw j := by
  obtain ⟨hj, hinf⟩ := h
  refine ⟨_, delay_of_lt draw hj, ?_⟩
  rcases lt_or_ge |c.baseDelay.value * 2 ^ j| (2 ^ 1024) with hfin | hbig
  · rw [FiniteDouble.mul_of_lt hfin]
    rfl
  · obtain ⟨hnan, hpos⟩ := hinf hbig
    rw [FiniteDouble.mul_of_le hbig, uniform]
    by_cases hzero : (draw j).value = 0
    · rw [if_pos hzero]
      exact hnan
    · rw [if_neg hzero]
      rcases lt_or_gt_of_ne (value_ne_zero hbig) with hneg | hbase
      · simp [hneg, EventLoop.sleep]
      · simpa [not_lt.mpr hbase.le, EventLoop.sleep] using hpos hbase

theorem backoffReturns_of_resumes {j : ℕ} (h : ∀ draw, c.Resumes draw j) : c.BackoffReturns j := by
  have hj : j < 1024 := by
    by_contra hge
    obtain ⟨d, hd, -⟩ := h fun _ ↦ Draw.zero
    exact absurd hd (by simp [delay_eq_none _ (not_lt.mp hge)])
  refine ⟨hj, fun hbig ↦ ?_⟩
  have hsleep (draw : ℕ → Draw) : c.loop.sleep
      (uniform (.infinite (c.baseDelay.value < 0)) (draw j)) = .returned := by
    obtain ⟨d, hd, hret⟩ := h draw
    rw [delay_of_lt draw hj, FiniteDouble.mul_of_le hbig] at hd
    exact Option.some.inj hd ▸ hret
  constructor
  · simpa [uniform, Draw.zero, EventLoop.sleep] using hsleep fun _ ↦ Draw.zero
  · intro hpos
    simpa [uniform, Draw.half, not_lt.mpr hpos.le, EventLoop.sleep] using hsleep fun _ ↦ Draw.half

/-! ## The loop -/

theorem failsFrom_self {attempt : ℕ} {exc : ε} (h : c.write attempt = .error exc) :
    c.FailsFrom attempt attempt := by
  intro i hle hge
  obtain rfl : i = attempt := by omega
  exact ⟨exc, h⟩

theorem FailsFrom.cons {attempt j : ℕ} {exc : ε} (h : c.write attempt = .error exc)
    (hrest : c.FailsFrom (attempt + 1) j) : c.FailsFrom attempt j := by
  intro i hle hge
  rcases eq_or_lt_of_le hle with rfl | hlt
  · exact ⟨exc, h⟩
  · exact hrest i hlt hge

theorem FailsFrom.mono {attempt attempt' j : ℕ} (h : c.FailsFrom attempt j)
    (hle : attempt ≤ attempt') : c.FailsFrom attempt' j := fun i hi ↦ h i (hle.trans hi)

end RetryContext

namespace BatchRun

variable (c : RetryContext α ε)

/-- What stands after the loop settles a batch, unless nothing stands before it. -/
theorem settled_written :
    ((c.afterLoop none).after [.write c.batch (.ok ())]).Settled c.batch := by
  simp [Settled, Wrote, pushed, after, RetryContext.afterLoop]

theorem settled_pushed (exc : ε) :
    ((c.afterLoop (some exc)).after [.write c.batch (.error exc)]).Settled c.batch := by
  simp [Settled, Wrote, pushed, after, RetryContext.afterLoop]

theorem not_settled_empty : ¬ (c.afterLoop none).Settled c.batch := by
  simp [Settled, Wrote, pushed, RetryContext.afterLoop]

/-- A failed attempt before the call changes nothing of what it owes. -/
theorem settled_after_failure {r : BatchRun α ε} {exc : ε} {d : Double} (h : r.Settled c.batch) :
    (r.after [.write c.batch (.error exc), .retry, .sleep d]).Settled c.batch := by
  simpa [Settled, Wrote, pushed, after] using h

end BatchRun

namespace RetryContext

variable {c : RetryContext α ε} {draw : ℕ → Draw}

theorem settled_attempts {remaining attempt : ℕ} {lastExc : Option ε}
    (hrange : (attempt : ℤ) + remaining = c.maxRetries + 1) (hne : remaining ≠ 0)
    (h : ∀ j, attempt ≤ j → (j : ℤ) < c.maxRetries → c.FailsFrom attempt j → c.Resumes draw j) :
    (c.attempts draw remaining attempt lastExc).Settled c.batch := by
  induction remaining generalizing attempt lastExc with
  | zero => exact absurd rfl hne
  | succ remaining ih =>
    simp only [attempts]
    split
    case h_1 => exact BatchRun.settled_written c
    case h_2 exc herr =>
      by_cases hlast : attempt = c.maxRetries
      · rw [if_pos hlast]
        exact BatchRun.settled_pushed c exc
      · rw [if_neg hlast]
        push_cast at hrange
        obtain ⟨d, hd, hret⟩ := h attempt le_rfl (by omega) (failsFrom_self herr)
        rw [hd]
        simp only [hret]
        refine BatchRun.settled_after_failure c (ih (by push_cast; omega) (by omega) ?_)
        intro j hle hlt hfails
        exact h j (by omega) hlt (hfails.cons herr)

theorem resumes_of_returned {remaining attempt : ℕ} {lastExc : Option ε}
    (hrange : (attempt : ℤ) + remaining = c.maxRetries + 1)
    (h : (c.attempts draw remaining attempt lastExc).ending = .returned)
    {j : ℕ} (hle : attempt ≤ j) (hlt : (j : ℤ) < c.maxRetries) (hfails : c.FailsFrom attempt j) :
    c.Resumes draw j := by
  induction remaining generalizing attempt lastExc with
  | zero =>
    push_cast at hrange
    omega
  | succ remaining ih =>
    obtain ⟨exc, herr⟩ := hfails attempt le_rfl hle
    push_cast at hrange
    simp only [attempts, herr, if_neg (show (attempt : ℤ) ≠ c.maxRetries by omega)] at h
    split at h
    case h_1 hd => exact absurd h (by simp)
    case h_2 d hd =>
      split at h
      case h_1 hret =>
        rcases eq_or_lt_of_le hle with rfl | hgt
        · exact ⟨d, hd, hret⟩
        · exact ih (by push_cast; omega) h hgt (hfails.mono (Nat.le_succ attempt))
      case h_2 hret => exact absurd h hret

/-- With a negative bound the call returns at once, and counts the batch as processed. -/
theorem processBatch_of_neg (hneg : c.maxRetries < 0) : c.processBatch draw = c.afterLoop none := by
  have hempty : (c.maxRetries + 1).toNat = 0 := by omega
  rw [processBatch, hempty, attempts]

theorem settles_of_backoffReturns (hmax : 0 ≤ c.maxRetries)
    (h : ∀ j : ℕ, (j : ℤ) < c.maxRetries → c.FailsFrom 0 j → c.BackoffReturns j) : c.Settles :=
  fun draw ↦ settled_attempts (by omega) (by omega) fun j _ hlt hfails ↦
    resumes_of_backoffReturns draw (h j hlt hfails)

/-- Settings that keep the longest backoff in range settle every batch, on every event loop. -/
theorem settles_of_le (hmax : 0 ≤ c.maxRetries) (hpow : c.maxRetries ≤ 1024)
    (hbase : |c.baseDelay.value| * 2 ^ (c.maxRetries - 1).toNat < 2 ^ 1024) : c.Settles := by
  refine settles_of_backoffReturns hmax fun j hlt _ ↦ ⟨by omega, fun hbig ↦ absurd hbig ?_⟩
  have hle : (2 : ℚ) ^ j ≤ 2 ^ (c.maxRetries - 1).toNat :=
    pow_le_pow_right₀ one_le_two (by omega)
  rw [not_le, abs_mul, abs_of_pos (pow_pos two_pos j : (0 : ℚ) < 2 ^ j)]
  exact lt_of_le_of_lt (mul_le_mul_of_nonneg_left hle (abs_nonneg _)) hbase

/-- **Every batch is written or dead-lettered** exactly when the range is not empty and each backoff
that the failures lead to comes back. -/
theorem settles_iff (c : RetryContext α ε) :
    c.Settles ↔ 0 ≤ c.maxRetries ∧
      ∀ j : ℕ, (j : ℤ) < c.maxRetries → c.FailsFrom 0 j → c.BackoffReturns j := by
  constructor
  · intro h
    have hmax : 0 ≤ c.maxRetries := by
      by_contra hneg
      have hsettled := h fun _ ↦ Draw.zero
      rw [processBatch_of_neg (not_le.mp hneg)] at hsettled
      exact BatchRun.not_settled_empty _ hsettled
    refine ⟨hmax, fun j hlt hfails ↦ backoffReturns_of_resumes fun draw ↦ ?_⟩
    exact resumes_of_returned (by omega) (h draw).1 j.zero_le hlt hfails
  · rintro ⟨hmax, h⟩
    exact settles_of_backoffReturns hmax h

theorem one_mantissa : |(1 : ℤ)| < 2 ^ 53 := by norm_num

theorem neg_one_exponent : (-1 : ℤ) ≤ 971 := by norm_num

/-- `retry_base_delay_seconds = 0.5`. -/
def defaultBaseDelay : FiniteDouble := ⟨1, -1, one_mantissa, neg_one_exponent⟩

/-- A call with `max_retries` as given, whose `bulk_write` always ends the same way. -/
def steady (maxRetries : ℤ) (result : Except String Unit) : RetryContext String String :=
  ⟨["evt"], maxRetries, defaultBaseDelay, ⟨.returned, .returned⟩, fun _ ↦ result⟩

/-- With `max_retries = -1` a batch is neither written nor dead-lettered, and with `1025` an outage
of 1025 attempts ends the call by `OverflowError`. -/
theorem not_settles_steady :
    ¬ (steady (-1) (.ok ())).Settles ∧ ¬ (steady 1025 (.error "down")).Settles := by
  constructor
  · intro h
    have hsettled := h fun _ ↦ Draw.zero
    rw [processBatch_of_neg (by decide)] at hsettled
    exact BatchRun.not_settled_empty _ hsettled
  · intro h
    have hfails : (steady 1025 (.error "down")).FailsFrom 0 1024 := fun _ _ _ ↦ ⟨"down", rfl⟩
    obtain ⟨d, hd, -⟩ := resumes_of_returned (by decide) (h fun _ ↦ Draw.zero).1
      (Nat.zero_le 1024) (by decide) hfails
    exact absurd hd (by simp [delay_eq_none _ le_rfl])

end RetryContext

/-! ## What is seen of a call -/

/-- Attempts that failed and were followed by a retry. -/
def retried (batch : List α) (excs : List ε) : List (BatchEffect α ε) :=
  excs.flatMap fun e ↦ [.write batch (.error e), .retry]

@[simp] theorem retried_nil (batch : List α) : retried batch ([] : List ε) = [] := rfl

@[simp] theorem retried_cons (batch : List α) (e : ε) (excs : List ε) :
    retried batch (e :: excs) = .write batch (.error e) :: .retry :: retried batch excs := rfl

theorem retried_concat (batch : List α) (excs : List ε) (e : ε) :
    retried batch excs ++ [.write batch (.error e), .retry] = retried batch (excs ++ [e]) := by
  simp [retried]

/-- Everything but the sleeps. -/
def BatchEffect.seen : BatchEffect α ε → Bool
  | .sleep _ => false
  | _ => true

/-- A call without its sleeps. -/
def BatchRun.seen (r : BatchRun α ε) : BatchRun α ε := ⟨r.effects.filter BatchEffect.seen, r.ending⟩

theorem BatchRun.seen_after (r : BatchRun α ε) (effects : List (BatchEffect α ε)) :
    (r.after effects).seen = r.seen.after (effects.filter BatchEffect.seen) := by
  simp [seen, after]

namespace RetryContext

variable {c : RetryContext α ε} {draw : ℕ → Draw}

section Attempt

variable {remaining attempt : ℕ} {lastExc : Option ε} {exc : ε}

theorem attempts_of_ok (h : c.write attempt = .ok ()) :
    c.attempts draw (remaining + 1) attempt lastExc
      = (c.afterLoop none).after [.write c.batch (.ok ())] := by
  rw [attempts, h]

theorem attempts_of_last (h : c.write attempt = .error exc)
    (hlast : (attempt : ℤ) = c.maxRetries) :
    c.attempts draw (remaining + 1) attempt lastExc
      = (c.afterLoop (some exc)).after [.write c.batch (.error exc)] := by
  simp only [attempts, h, if_pos hlast]

theorem attempts_of_overflow (h : c.write attempt = .error exc)
    (hmore : (attempt : ℤ) ≠ c.maxRetries) (hbig : 1024 ≤ attempt) :
    c.attempts draw (remaining + 1) attempt lastExc
      = ⟨[.write c.batch (.error exc), .retry], .raised⟩ := by
  simp only [attempts, h, if_neg hmore, delay_eq_none draw hbig]

end Attempt

/-- Failed attempts whose backoffs come back lead on to the next attempt. -/
theorem seen_attempts {excs : List ε} {remaining attempt : ℕ} {lastExc : Option ε}
    (hfails : ∀ i (hi : i < excs.length), c.write (attempt + i) = .error excs[i])
    (hmax : (attempt : ℤ) + excs.length ≤ c.maxRetries)
    (hresumes : ∀ j, attempt ≤ j → j < attempt + excs.length → c.Resumes draw j) :
    ∃ lastExc', (c.attempts draw (excs.length + remaining) attempt lastExc).seen
      = (c.attempts draw remaining (attempt + excs.length) lastExc').seen.after
        (retried c.batch excs) := by
  induction excs generalizing attempt lastExc with
  | nil => exact ⟨lastExc, by simp [BatchRun.after]⟩
  | cons e excs ih =>
    have herr : c.write attempt = .error e := hfails 0 (by simp)
    obtain ⟨d, hd, hret⟩ := hresumes attempt le_rfl (by simp)
    rw [List.length_cons] at hmax hresumes
    obtain ⟨lastExc', hrest⟩ : ∃ lastExc',
        (c.attempts draw (excs.length + remaining) (attempt + 1) (some e)).seen
          = (c.attempts draw remaining (attempt + 1 + excs.length) lastExc').seen.after
            (retried c.batch excs) :=
      ih (fun i hi ↦ (congrArg c.write (by omega)).trans (hfails (i + 1) (by simpa using hi)))
        (by push_cast at hmax ⊢; omega) fun j hle hlt ↦ hresumes j (by omega) (by omega)
    refine ⟨lastExc', ?_⟩
    have hnotlast : (attempt : ℤ) ≠ c.maxRetries := by push_cast at hmax; omega
    rw [List.length_cons, show excs.length + 1 + remaining = excs.length + remaining + 1 by omega,
      attempts]
    simp only [herr, if_neg hnotlast, hd, hret]
    have hseen : List.filter BatchEffect.seen [.write c.batch (.error e), .retry, .sleep d]
        = [.write c.batch (.error e), .retry] := rfl
    rw [BatchRun.seen_after, hrest, hseen, show attempt + 1 + excs.length
      = attempt + (excs.length + 1) by omega]
    rfl

/-- A call whose first attempts fail, with backoffs that come back, comes to the next attempt. -/
theorem seen_processBatch (c : RetryContext α ε) (draw : ℕ → Draw) (excs : List ε)
    (hfails : ∀ i (hi : i < excs.length), c.write i = .error excs[i])
    (hmax : (excs.length : ℤ) ≤ c.maxRetries)
    (hresumes : ∀ j < excs.length, c.Resumes draw j) :
    ∃ remaining lastExc, (c.processBatch draw).seen
      = (c.attempts draw (remaining + 1) excs.length lastExc).seen.after (retried c.batch excs) := by
  have hrange : (c.maxRetries + 1).toNat
      = excs.length + ((c.maxRetries - excs.length).toNat + 1) := by omega
  refine ⟨(c.maxRetries - excs.length).toNat, ?_⟩
  have hseen : ∃ lastExc,
      (c.attempts draw (excs.length + ((c.maxRetries - excs.length).toNat + 1)) 0 none).seen
        = (c.attempts draw ((c.maxRetries - excs.length).toNat + 1) (0 + excs.length)
          lastExc).seen.after (retried c.batch excs) :=
    seen_attempts (fun i hi ↦ (congrArg c.write (Nat.zero_add i)).trans (hfails i hi))
      (by simpa using hmax) fun j _ hlt ↦ hresumes j (by omega)
  rwa [← hrange, Nat.zero_add] at hseen

end RetryContext

end Acheron
