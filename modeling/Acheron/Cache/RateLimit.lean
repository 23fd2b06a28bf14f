import Mathlib.Data.NNRat.Floor
import Acheron.Cache.Keys
import Acheron.Lib.Runs

/-!
# Rate limiting

`RedisCache.check_rate_limit` is an `INCR` on the counter of the caller and the current window, and,
for the call that counts one, an `EXPIRE` of `window_seconds` later on. `rateMachine` runs any
family of calls under a clock that does not go back. An `INCR` is executed at the time its call has
read; an `EXPIRE` may be executed later, or fail, and a key vanishes only when its expiry has
passed.

## Why a counter outlives its window

The expiry is set at the earliest when the counter is created, which is within the window, for a
window's length. So it lies beyond the window's end: a counter that has vanished belongs to a window
that is over. `Counted` keeps this together with what the counters say of the history.
-/

open Runs
open scoped NNRat

namespace Acheron

/-- A Redis counter, with the time at which it expires, if any. -/
structure Counter where
  count : ℕ
  expiry : Option ℚ≥0

/-- The counters of Redis. -/
abbrev Counters := String → Option Counter

/-- `INCR key`: the counters afterwards, and the count. -/
def incr (counters : Counters) (key : String) : Counters × ℕ :=
  match counters key with
  | none => (Function.update counters key (some ⟨1, none⟩), 1)
  | some c => (Function.update counters key (some { c with count := c.count + 1 }), c.count + 1)

/-- `EXPIRE`, with the time at which the key will expire; nothing happens to a key that is gone. -/
def expireAt (counters : Counters) (key : String) (time : ℚ≥0) : Counters :=
  Function.update counters key ((counters key).map fun c ↦ { c with expiry := some time })

/-- `int(time.time()) // window_seconds`. -/
def bucketOf (windowSeconds : ℕ) (time : ℚ≥0) : ℕ := ⌊time⌋₊ / windowSeconds

/-- Where a `check_rate_limit` call is. -/
inductive RatePhase where
  /-- `INCR` is under way. -/
  | counting
  /-- `EXPIRE` is under way, for the counter of a bucket. -/
  | expiring (bucket : ℕ)
  | returned (allowed : Bool)
  deriving DecidableEq

/-- The clock, the counters and the calls. -/
@[ext] structure RateState (ι : Type) where
  now : ℚ≥0
  counters : Counters
  calls : ι → RatePhase
  /-- History: the calls in the order of their `INCR`, each with the time it read. -/
  log : List (ι × ℚ≥0)

/-- What may happen next. -/
inductive RateAction (ι : Type) where
  | tick (time : ℚ≥0)
  | incr (i : ι)
  | expire (i : ι)
  /-- The `EXPIRE` raises, having taken effect or not. -/
  | expireError (i : ι) (took : Bool)
  /-- A counter vanishes. -/
  | vanish (x : String) (bucket : ℕ)

variable {ι : Type} [DecidableEq ι] (identifier : ι → String) (limit windowSeconds : ℕ)

/-- The calls of any number of identifiers. -/
def rateMachine : Machine (RateState ι) (RateAction ι) where
  init s := (∀ key, s.counters key = none) ∧ (∀ i, s.calls i = .counting) ∧ s.log = []
  step s
    | .tick time => if s.now ≤ time then some { s with now := time } else none
    | .incr i =>
      match s.calls i with
      | .counting =>
        let bucket := bucketOf windowSeconds s.now
        -- `INCR` counts the call; the first one of a window goes on to its `EXPIRE`.
        let r := Acheron.incr s.counters (rateLimitKey (identifier i) bucket)
        let phase := if r.2 = 1 then .expiring bucket else .returned (decide (r.2 ≤ limit))
        some { s with
          counters := r.1
          calls := Function.update s.calls i phase
          log := s.log ++ [(i, s.now)] }
      | _ => none
    | .expire i =>
      match s.calls i with
      | .expiring bucket => some { s with
          counters := expireAt s.counters (rateLimitKey (identifier i) bucket)
            (s.now + windowSeconds)
          calls := Function.update s.calls i (.returned (decide (1 ≤ limit))) }
      | _ => none
    | .expireError i took =>
      match s.calls i with
      | .expiring bucket => some { s with
          counters := if took then expireAt s.counters (rateLimitKey (identifier i) bucket)
            (s.now + windowSeconds) else s.counters
          -- The check fails open.
          calls := Function.update s.calls i (.returned true) }
      | _ => none
    | .vanish x bucket =>
      let key := rateLimitKey x bucket
      match s.counters key with
      | some ⟨_, some expiry⟩ =>
        -- A counter without an expiry never vanishes.
        if expiry ≤ s.now then some { s with counters := Function.update s.counters key none }
        else none
      | _ => none

/-- The clock, and the steps that concern an identifier. -/
def RateAction.concerns (x : String) : RateAction ι → Bool
  | .tick _ => true
  | .incr i | .expire i | .expireError i _ => decide (identifier i = x)
  | .vanish y _ => decide (y = x)

namespace RateState

/-- The requests an identifier has made in a window, in the order in which they were counted. -/
def requestsIn (s : RateState ι) (x : String) (b : ℕ) : List ι :=
  (s.log.filter fun e ↦ identifier e.1 = x ∧ bucketOf windowSeconds e.2 = b).map Prod.fst

/-- The number of requests of an identifier that were allowed, of those made in an interval. -/
def allowedBetween (s : RateState ι) (x : String) (start finish : ℚ≥0) : ℕ :=
  s.log.countP fun e ↦
    identifier e.1 = x ∧ start ≤ e.2 ∧ e.2 ≤ finish ∧ s.calls e.1 = .returned true

open Classical in
/-- What is there of one identifier. -/
noncomputable def onIdentifier (s : RateState ι) (x : String) : RateState ι where
  now := s.now
  counters key := if ∃ b : ℕ, key = rateLimitKey x b then s.counters key else none
  calls i := if identifier i = x then s.calls i else .counting
  log := s.log.filter fun e ↦ identifier e.1 = x

/-- What the counters and the answers say of the history. -/
structure Counted (s : RateState ι) : Prop where
  past : ∀ e ∈ s.log, e.2 ≤ s.now
  logged : ∀ {i}, s.calls i = .counting → ∀ e ∈ s.log, e.1 ≠ i
  counter : ∀ {x b c}, s.counters (rateLimitKey x (b : ℕ)) = some c →
    c.count = (s.requestsIn identifier windowSeconds x b).length ∧
      ∀ expiry ∈ c.expiry, ((b + 1) * windowSeconds : ℕ) ≤ expiry
  gone : ∀ {x b}, s.counters (rateLimitKey x (b : ℕ)) = none →
    s.requestsIn identifier windowSeconds x b ≠ [] → ((b + 1) * windowSeconds : ℕ) ≤ s.now
  pending : ∀ {i b}, s.calls i = .expiring b → (b * windowSeconds : ℕ) ≤ s.now ∧
    ∀ x b k, (s.requestsIn identifier windowSeconds x b)[k]? = some i → k = 0
  decided : ∀ {x b k i allowed}, (s.requestsIn identifier windowSeconds x b)[k]? = some i →
    s.calls i = .returned allowed → allowed = decide (k < limit)

end RateState

open RateState

/-! ## Windows -/

variable {identifier limit windowSeconds}

theorem bucketOf_mul_le (time : ℚ≥0) :
    (bucketOf windowSeconds time * windowSeconds : ℕ) ≤ time := by
  have hle : bucketOf windowSeconds time * windowSeconds ≤ ⌊time⌋₊ := Nat.div_mul_le_self _ _
  exact (Nat.cast_le.mpr hle).trans (Nat.floor_le zero_le)

theorem lt_bucketOf_succ_mul (hw : 1 ≤ windowSeconds) (time : ℚ≥0) :
    time < ((bucketOf windowSeconds time + 1) * windowSeconds : ℕ) := by
  refine (Nat.floor_lt zero_le).mp ?_
  exact Nat.lt_mul_of_div_lt (Nat.lt_succ_self _) hw

/-- An interval of a window's length meets two windows. -/
theorem bucketOf_of_mem_interval (hw : 1 ≤ windowSeconds) {start time : ℚ≥0} (hle : start ≤ time)
    (htime : time ≤ start + windowSeconds) :
    bucketOf windowSeconds time = bucketOf windowSeconds start ∨
      bucketOf windowSeconds time = bucketOf windowSeconds start + 1 := by
  have hlow : bucketOf windowSeconds start ≤ bucketOf windowSeconds time :=
    Nat.div_le_div_right (Nat.floor_mono hle)
  have hfloor : ⌊time⌋₊ ≤ ⌊start⌋₊ + windowSeconds := by
    rw [← Nat.floor_add_natCast zero_le]
    exact Nat.floor_mono htime
  have hhigh : bucketOf windowSeconds time ≤ bucketOf windowSeconds start + 1 := by
    rw [bucketOf, bucketOf, ← Nat.add_div_right _ hw]
    exact Nat.div_le_div_right hfloor
  omega

/-! ## One step -/

variable {s t : RateState ι}

/-- The steps. -/
inductive RateMove (identifier : ι → String) (limit windowSeconds : ℕ) (s : RateState ι) :
    RateAction ι → RateState ι → Prop
  | tick {time : ℚ≥0} (hle : s.now ≤ time) :
      RateMove identifier limit windowSeconds s (.tick time) { s with now := time }
  | count {i : ι} {b : ℕ} {counters : Counters} {n : ℕ} (hphase : s.calls i = .counting)
      (hb : b = bucketOf windowSeconds s.now)
      (hincr : incr s.counters (rateLimitKey (identifier i) b) = (counters, n)) :
      RateMove identifier limit windowSeconds s (.incr i) { s with
        counters := counters
        calls := Function.update s.calls i
          (if n = 1 then .expiring b else .returned (decide (n ≤ limit)))
        log := s.log ++ [(i, s.now)] }
  | expire {i : ι} {b : ℕ} (hphase : s.calls i = .expiring b) :
      RateMove identifier limit windowSeconds s (.expire i) { s with
        counters := expireAt s.counters (rateLimitKey (identifier i) b) (s.now + windowSeconds)
        calls := Function.update s.calls i (.returned (decide (1 ≤ limit))) }
  | expireError {i : ι} {b : ℕ} {took : Bool} (hphase : s.calls i = .expiring b) :
      RateMove identifier limit windowSeconds s (.expireError i took) { s with
        counters := if took then expireAt s.counters (rateLimitKey (identifier i) b)
          (s.now + windowSeconds) else s.counters
        calls := Function.update s.calls i (.returned true) }
  | vanish {x : String} {b n : ℕ} {expiry : ℚ≥0}
      (hkey : s.counters (rateLimitKey x b) = some ⟨n, some expiry⟩) (hle : expiry ≤ s.now) :
      RateMove identifier limit windowSeconds s (.vanish x b)
        { s with counters := Function.update s.counters (rateLimitKey x b) none }

theorem rateStep_iff {a : RateAction ι} :
    (rateMachine identifier limit windowSeconds).step s a = some t ↔
      RateMove identifier limit windowSeconds s a t := by
  constructor
  · intro h
    match a with
    | .tick time =>
      by_cases hle : s.now ≤ time
      · obtain rfl := Option.some.inj ((if_pos hle).symm.trans h)
        exact .tick hle
      · exact absurd ((if_neg hle).symm.trans h) (by simp)
    | .incr i =>
      simp only [rateMachine] at h
      split at h
      case h_1 hphase =>
        obtain rfl := Option.some.inj h
        exact .count hphase rfl rfl
      case h_2 => exact absurd h (by simp)
    | .expire i =>
      simp only [rateMachine] at h
      split at h
      case h_1 hphase =>
        obtain rfl := Option.some.inj h
        exact .expire hphase
      case h_2 => exact absurd h (by simp)
    | .expireError i took =>
      simp only [rateMachine] at h
      split at h
      case h_1 hphase =>
        obtain rfl := Option.some.inj h
        exact .expireError hphase
      case h_2 => exact absurd h (by simp)
    | .vanish x b =>
      simp only [rateMachine] at h
      split at h
      case h_1 n expiry hkey =>
        by_cases hle : expiry ≤ s.now
        · obtain rfl := Option.some.inj ((if_pos hle).symm.trans h)
          exact .vanish hkey hle
        · exact absurd ((if_neg hle).symm.trans h) (by simp)
      case h_2 => exact absurd h (by simp)
  · intro h
    induction h with
    | tick hle => exact if_pos hle
    | count hphase hb hincr =>
      obtain rfl := hb
      simp [rateMachine, hphase, hincr]
    | expire hphase => simp [rateMachine, hphase]
    | expireError hphase => simp [rateMachine, hphase]
    | vanish hkey hle => simp [rateMachine, hkey, hle]

/-! ## What the operations do -/

theorem incr_self {counters counters' : Counters} {key : String} {n : ℕ}
    (h : incr counters key = (counters', n)) :
    counters' key = some ⟨n, (counters key).bind Counter.expiry⟩ := by
  rw [incr] at h
  rcases hkey : counters key with _ | c
  · rw [hkey] at h
    obtain ⟨rfl, rfl⟩ := Prod.mk.inj h
    exact Function.update_self _ _ _
  · rw [hkey] at h
    obtain ⟨rfl, rfl⟩ := Prod.mk.inj h
    exact Function.update_self _ _ _

theorem incr_of_ne {counters counters' : Counters} {key key' : String} {n : ℕ}
    (h : incr counters key = (counters', n)) (hne : key' ≠ key) :
    counters' key' = counters key' := by
  rw [incr] at h
  split at h
  · obtain ⟨rfl, -⟩ := Prod.mk.inj h
    exact Function.update_of_ne hne _ _
  · obtain ⟨rfl, -⟩ := Prod.mk.inj h
    exact Function.update_of_ne hne _ _

theorem expireAt_eq_none {counters : Counters} {key key' : String} {time : ℚ≥0} :
    expireAt counters key time key' = none ↔ counters key' = none := by
  rcases eq_or_ne key' key with rfl | hne
  · simp [expireAt]
  · simp [expireAt, hne]

/-- `EXPIRE` leaves the count, and sets no expiry but its own. -/
theorem expireAt_eq_some {counters : Counters} {key key' : String} {time : ℚ≥0} {c : Counter}
    (h : expireAt counters key time key' = some c) :
    ∃ c₀, counters key' = some c₀ ∧ c.count = c₀.count ∧
      (c.expiry = c₀.expiry ∨ key' = key ∧ c.expiry = some time) := by
  rcases eq_or_ne key' key with rfl | hne
  · rw [expireAt, Function.update_self] at h
    obtain ⟨c₀, hc₀, rfl⟩ := Option.map_eq_some_iff.mp h
    exact ⟨c₀, hc₀, rfl, Or.inr ⟨rfl, rfl⟩⟩
  · rw [expireAt, Function.update_of_ne hne] at h
    exact ⟨c, h, rfl, Or.inl rfl⟩

omit [DecidableEq ι] in
/-- A request is counted where it belongs. -/
theorem requestsIn_concat (now : ℚ≥0) (counters : Counters) (calls : ι → RatePhase)
    (log : List (ι × ℚ≥0)) (i : ι) (time : ℚ≥0) (x : String) (b : ℕ) :
    requestsIn identifier windowSeconds ⟨now, counters, calls, log ++ [(i, time)]⟩ x b =
      requestsIn identifier windowSeconds ⟨now, counters, calls, log⟩ x b ++
        if identifier i = x ∧ bucketOf windowSeconds time = b then [i] else [] := by
  rw [requestsIn, requestsIn, List.filter_append, List.map_append]
  refine congrArg _ ?_
  by_cases h : identifier i = x ∧ bucketOf windowSeconds time = b
  · rw [if_pos h]
    simp [h]
  · rw [if_neg h, List.filter_cons_of_neg (by simpa using h)]
    rfl

omit [DecidableEq ι] in
theorem mem_log_of_getElem? {x : String} {b k : ℕ} {i : ι}
    (h : (s.requestsIn identifier windowSeconds x b)[k]? = some i) : ∃ e ∈ s.log, e.1 = i := by
  obtain ⟨e, he, rfl⟩ := List.mem_map.mp (List.mem_of_getElem? h)
  exact ⟨e, (List.mem_filter.mp he).1, rfl⟩

theorem getElem?_concat {α : Type} {xs : List α} {a b : α} {k : ℕ} (h : (xs ++ [a])[k]? = some b) :
    xs[k]? = some b ∨ k = xs.length ∧ a = b := by
  rcases lt_trichotomy k xs.length with hlt | rfl | hgt
  · rw [List.getElem?_append_left hlt] at h
    exact Or.inl h
  · rw [List.getElem?_concat_length] at h
    exact Or.inr ⟨rfl, Option.some.inj h⟩
  · rw [List.getElem?_eq_none (by simp; omega)] at h
    exact absurd h (by simp)

/-! ## The counters say what happened -/

omit [DecidableEq ι] in
/-- The count an `INCR` answers is the number of requests in the window, its own included: the
counter of the current window has not vanished. -/
theorem incr_count (hs : s.Counted identifier limit windowSeconds) (hw : 1 ≤ windowSeconds)
    {x : String} {b : ℕ} {counters : Counters} {n : ℕ} (hb : b = bucketOf windowSeconds s.now)
    (hincr : incr s.counters (rateLimitKey x b) = (counters, n)) :
    n = (s.requestsIn identifier windowSeconds x b).length + 1 := by
  rw [incr] at hincr
  split at hincr
  case h_1 hnone =>
    obtain ⟨-, rfl⟩ := Prod.mk.inj hincr
    by_contra hne
    have hsome : s.requestsIn identifier windowSeconds x b ≠ [] := by
      rintro hnil
      rw [hnil] at hne
      exact hne rfl
    rw [hb] at hnone hsome
    exact absurd (hs.gone hnone hsome) (not_le.mpr (lt_bucketOf_succ_mul hw s.now))
  case h_2 c hsome =>
    obtain ⟨-, rfl⟩ := Prod.mk.inj hincr
    rw [(hs.counter hsome).1]

omit [DecidableEq ι] in
/-- The clock goes on. -/
theorem counted_tick (hs : s.Counted identifier limit windowSeconds) {time : ℚ≥0}
    (hle : s.now ≤ time) : Counted identifier limit windowSeconds { s with now := time } where
  past e he := (hs.past e he).trans hle
  logged := hs.logged
  counter := hs.counter
  gone hnone hsome := (hs.gone hnone hsome).trans hle
  pending hi := by
    obtain ⟨hb, hfirst⟩ := hs.pending hi
    exact ⟨hb.trans hle, hfirst⟩
  decided := hs.decided

/-! ### An `INCR`

In the lemmas, `b` is the current window and `n` the count answered. -/

section Count

variable {i : ι} {b n : ℕ} {counters counters' : Counters} {calls : ι → RatePhase}

omit [DecidableEq ι] in
/-- The requests of a window are those before it, or those before and the new one. -/
theorem getElem?_requestsIn_concat (hb : b = bucketOf windowSeconds s.now)
    (hn : n = (s.requestsIn identifier windowSeconds (identifier i) b).length + 1) {x : String}
    {d k : ℕ} {j : ι}
    (hj : (requestsIn identifier windowSeconds
      ⟨s.now, counters, calls, s.log ++ [(i, s.now)]⟩ x d)[k]? = some j) :
    (s.requestsIn identifier windowSeconds x d)[k]? = some j ∨ i = j ∧ k + 1 = n := by
  rw [requestsIn_concat] at hj
  by_cases hhere : identifier i = x ∧ bucketOf windowSeconds s.now = d
  · rw [if_pos hhere] at hj
    refine (getElem?_concat hj).imp_right fun ⟨hk, hij⟩ ↦ ⟨hij, ?_⟩
    rw [hn, hk, hb, ← hhere.1, ← hhere.2]
    rfl
  · rw [if_neg hhere, List.append_nil] at hj
    exact Or.inl hj

omit [DecidableEq ι] in
/-- A counter afterwards is as it was, or is the one that has counted. -/
theorem counter_incr (hs : s.Counted identifier limit windowSeconds)
    (hb : b = bucketOf windowSeconds s.now)
    (hn : n = (s.requestsIn identifier windowSeconds (identifier i) b).length + 1)
    (hincr : incr s.counters (rateLimitKey (identifier i) b) = (counters, n)) {x : String} {d : ℕ}
    {c : Counter} (hc : counters (rateLimitKey x d) = some c) :
    c.count = (requestsIn identifier windowSeconds
        ⟨s.now, counters', calls, s.log ++ [(i, s.now)]⟩ x d).length ∧
      ∀ expiry ∈ c.expiry, ((d + 1) * windowSeconds : ℕ) ≤ expiry := by
  rw [requestsIn_concat]
  by_cases hhere : identifier i = x ∧ bucketOf windowSeconds s.now = d
  · rw [if_pos hhere, List.length_append, List.length_singleton]
    obtain ⟨rfl, rfl⟩ := hhere
    obtain rfl := hb
    obtain rfl := Option.some.inj ((incr_self hincr).symm.trans hc)
    refine ⟨hn, fun expiry hexpiry ↦ ?_⟩
    obtain ⟨c₀, hc₀, hc₀expiry⟩ := Option.bind_eq_some_iff.mp hexpiry
    exact (hs.counter hc₀).2 expiry hc₀expiry
  · rw [if_neg hhere, List.append_nil]
    refine hs.counter ((incr_of_ne hincr ?_).symm.trans hc)
    rintro heq
    obtain ⟨hx, hd⟩ := rateLimitKey_inj heq
    exact hhere ⟨hx.symm, hb.symm.trans (Nat.cast_inj.mp hd).symm⟩

omit [DecidableEq ι] in
/-- A window without a counter had none before, so it is over. -/
theorem gone_incr (hs : s.Counted identifier limit windowSeconds)
    (hb : b = bucketOf windowSeconds s.now)
    (hincr : incr s.counters (rateLimitKey (identifier i) b) = (counters, n)) {x : String} {d : ℕ}
    (hnone : counters (rateLimitKey x d) = none)
    (hsome : requestsIn identifier windowSeconds
      ⟨s.now, counters', calls, s.log ++ [(i, s.now)]⟩ x d ≠ []) :
    ((d + 1) * windowSeconds : ℕ) ≤ s.now := by
  have hne : rateLimitKey x d ≠ rateLimitKey (identifier i) b := by
    intro heq
    rw [heq] at hnone
    exact absurd ((incr_self hincr).symm.trans hnone) (by simp)
  have hthere : ¬ (identifier i = x ∧ bucketOf windowSeconds s.now = d) := by
    rintro ⟨rfl, rfl⟩
    exact hne (hb ▸ rfl)
  rw [requestsIn_concat, if_neg hthere, List.append_nil] at hsome
  exact hs.gone ((incr_of_ne hincr hne).symm.trans hnone) hsome

omit [DecidableEq ι] in
/-- A call that counts is not in the log yet. -/
theorem requestsIn_ne_of_counting (hs : s.Counted identifier limit windowSeconds)
    (hphase : s.calls i = .counting) {x : String} {d k : ℕ} :
    (s.requestsIn identifier windowSeconds x d)[k]? ≠ some i := by
  intro hk
  obtain ⟨e, he, hei⟩ := mem_log_of_getElem? hk
  exact hs.logged hphase e he hei

/-- After an `INCR`, what the counters and the answers say is still so. -/
theorem counted_count (hs : s.Counted identifier limit windowSeconds) (hw : 1 ≤ windowSeconds)
    (hphase : s.calls i = .counting) (hb : b = bucketOf windowSeconds s.now)
    (hincr : incr s.counters (rateLimitKey (identifier i) b) = (counters, n)) :
    Counted identifier limit windowSeconds { s with
      counters := counters
      calls := Function.update s.calls i
        (if n = 1 then .expiring b else .returned (decide (n ≤ limit)))
      log := s.log ++ [(i, s.now)] } := by
  have hn := incr_count hs hw hb hincr
  refine ⟨?_, ?_, counter_incr hs hb hn hincr, gone_incr hs hb hincr, ?_, ?_⟩
  · intro e he
    rcases List.mem_append.mp he with he | he
    · exact hs.past e he
    · obtain rfl := List.mem_singleton.mp he
      exact le_rfl
  · intro j hj e he
    have hji : j ≠ i := by
      rintro rfl
      dsimp only at hj
      rw [Function.update_self] at hj
      split at hj <;> exact absurd hj (by simp)
    rcases List.mem_append.mp he with he | he
    · exact hs.logged ((Function.update_of_ne hji _ _).symm.trans hj) e he
    · obtain rfl := List.mem_singleton.mp he
      exact hji.symm
  · intro j d hj
    rcases eq_or_ne j i with rfl | hji
    · -- The call sets an expiry only if it has counted one, so it is the first of its window.
      dsimp only at hj
      rw [Function.update_self] at hj
      have hone : n = 1 := by
        by_contra hone
        rw [if_neg hone] at hj
        exact absurd hj (by simp)
      rw [if_pos hone] at hj
      obtain rfl : b = d := RatePhase.expiring.inj hj
      refine ⟨hb ▸ bucketOf_mul_le s.now, fun x d k hk ↦ ?_⟩
      rcases getElem?_requestsIn_concat hb hn hk with hk | ⟨-, hk⟩
      · exact absurd hk (requestsIn_ne_of_counting hs hphase)
      · omega
    · obtain ⟨hd, hfirst⟩ := hs.pending ((Function.update_of_ne hji _ _).symm.trans hj)
      refine ⟨hd, fun x d k hk ↦ ?_⟩
      rcases getElem?_requestsIn_concat hb hn hk with hk | ⟨hij, -⟩
      · exact hfirst x d k hk
      · exact absurd hij.symm hji
  · intro x d k j allowed hk hj
    rcases eq_or_ne j i with rfl | hji
    · rcases getElem?_requestsIn_concat hb hn hk with hk | ⟨-, hk⟩
      · exact absurd hk (requestsIn_ne_of_counting hs hphase)
      · dsimp only at hj
        rw [Function.update_self] at hj
        have hone : n ≠ 1 := by
          rintro hone
          rw [if_pos hone] at hj
          exact absurd hj (by simp)
        rw [if_neg hone] at hj
        rw [← RatePhase.returned.inj hj, ← hk]
        exact decide_eq_decide.mpr Nat.succ_le_iff
    · rcases getElem?_requestsIn_concat hb hn hk with hk | ⟨hij, -⟩
      · exact hs.decided hk ((Function.update_of_ne hji _ _).symm.trans hj)
      · exact absurd hij.symm hji

end Count

/-- The call that counted one returns, whether or not its `EXPIRE` has taken effect. -/
theorem counted_return (hs : s.Counted identifier limit windowSeconds) (hlimit : 1 ≤ limit) {i : ι}
    {b : ℕ} (hphase : s.calls i = .expiring b) {counters : Counters}
    (hcounters : counters = s.counters ∨
      counters = expireAt s.counters (rateLimitKey (identifier i) b) (s.now + windowSeconds)) :
    Counted identifier limit windowSeconds
      { s with counters := counters, calls := Function.update s.calls i (.returned true) } := by
  obtain ⟨hb, hfirst⟩ := hs.pending hphase
  have hnone : ∀ {k}, counters k = none ↔ s.counters k = none := by
    intro k
    rcases hcounters with rfl | rfl
    · exact Iff.rfl
    · exact expireAt_eq_none
  refine ⟨hs.past, ?_, ?_, fun hk hsome ↦ hs.gone (hnone.mp hk) hsome, ?_, ?_⟩
  · intro j hj
    have hji : j ≠ i := by
      rintro rfl
      simp at hj
    exact hs.logged ((Function.update_of_ne hji _ _).symm.trans hj)
  · intro x d c hc
    rcases hcounters with rfl | rfl
    · exact hs.counter hc
    · obtain ⟨c₀, hc₀, hcount, hexpiry⟩ := expireAt_eq_some hc
      obtain ⟨hlen, hold⟩ := hs.counter hc₀
      refine ⟨hcount.trans hlen, fun expiry he ↦ ?_⟩
      rcases hexpiry with hsame | ⟨hk, hset⟩
      · exact hold expiry (hsame ▸ he)
      · -- The key was created no earlier than its window began.
        obtain rfl : s.now + windowSeconds = expiry := Option.some.inj (hset.symm.trans he)
        obtain ⟨-, hd⟩ := rateLimitKey_inj hk
        obtain rfl := Nat.cast_inj.mp hd
        rw [Nat.succ_mul, Nat.cast_add]
        exact add_le_add_left hb _
  · intro j d hj
    have hji : j ≠ i := by
      rintro rfl
      simp at hj
    exact hs.pending ((Function.update_of_ne hji _ _).symm.trans hj)
  · intro x d k j allowed hk hj
    rcases eq_or_ne j i with rfl | hji
    · obtain rfl := hfirst x d k hk
      dsimp only at hj
      rw [Function.update_self] at hj
      rw [← RatePhase.returned.inj hj]
      exact (decide_eq_true hlimit).symm
    · exact hs.decided hk ((Function.update_of_ne hji _ _).symm.trans hj)

omit [DecidableEq ι] in
/-- A key vanishes; its window is over. -/
theorem counted_vanish (hs : s.Counted identifier limit windowSeconds) {y : String} {d n : ℕ}
    {expiry : ℚ≥0} (hkey : s.counters (rateLimitKey y (d : ℕ)) = some ⟨n, some expiry⟩)
    (hle : expiry ≤ s.now) :
    Counted identifier limit windowSeconds
      { s with counters := Function.update s.counters (rateLimitKey y d) none } := by
  refine ⟨hs.past, hs.logged, ?_, ?_, hs.pending, hs.decided⟩
  · intro x b c hc
    have hne : rateLimitKey x b ≠ rateLimitKey y d := by
      intro heq
      rw [heq] at hc
      simp at hc
    exact hs.counter ((Function.update_of_ne hne _ _).symm.trans hc)
  · intro x b hnone hsome
    rcases eq_or_ne (rateLimitKey x b) (rateLimitKey y d) with heq | hne
    · exact ((hs.counter (heq ▸ hkey)).2 expiry rfl).trans hle
    · exact hs.gone ((Function.update_of_ne hne _ _).symm.trans hnone) hsome

/-- **Every step keeps the counters in accord with the history.** -/
theorem counted_move (hlimit : 1 ≤ limit) (hw : 1 ≤ windowSeconds) {a : RateAction ι}
    (hs : s.Counted identifier limit windowSeconds)
    (h : RateMove identifier limit windowSeconds s a t) :
    t.Counted identifier limit windowSeconds := by
  induction h with
  | tick hle => exact counted_tick hs hle
  | count hphase hb hincr => exact counted_count hs hw hphase hb hincr
  | expire hphase =>
    rw [decide_eq_true hlimit]
    exact counted_return hs hlimit hphase (Or.inr rfl)
  | @expireError i b took hphase =>
    refine counted_return hs hlimit hphase ?_
    rcases took with _ | _
    · exact Or.inl rfl
    · exact Or.inr rfl
  | vanish hkey hle => exact counted_vanish hs hkey hle

omit [DecidableEq ι] in
theorem counted_of_init (hcounters : ∀ key, s.counters key = none)
    (hcalls : ∀ i, s.calls i = .counting) (hlog : s.log = []) :
    s.Counted identifier limit windowSeconds := by
  have hnone : ∀ {x b}, s.requestsIn identifier windowSeconds x b = [] := by
    simp [requestsIn, hlog]
  refine ⟨by simp [hlog], by simp [hlog], ?_, fun _ hsome ↦ absurd hnone hsome, ?_, ?_⟩
  · intro x b c hc
    exact absurd ((hcounters _).symm.trans hc) (by simp)
  · intro i b hi
    exact absurd ((hcalls i).symm.trans hi) (by simp)
  · intro x b k i allowed hk
    rw [hnone] at hk
    exact absurd hk (by simp)

theorem counted_exec (hlimit : 1 ≤ limit) (hw : 1 ≤ windowSeconds) {as : List (RateAction ι)}
    (hs : s.Counted identifier limit windowSeconds)
    (hrun : (rateMachine identifier limit windowSeconds).exec s as = some t) :
    t.Counted identifier limit windowSeconds :=
  Machine.exec_preserves (fun _ _ _ hu hstep ↦ counted_move hlimit hw hu (rateStep_iff.mp hstep)) hs
    hrun

/-! ## One window -/

theorem filter_eq_take {α : Type} {p : α → Bool} {xs : List α} {n : ℕ}
    (h : ∀ k a, xs[k]? = some a → (p a = true ↔ k < n)) : xs.filter p = xs.take n := by
  induction xs generalizing n with
  | nil => simp
  | cons x xs ih =>
    have hx := h 0 x rfl
    rcases n with _ | n
    · have hnil := ih fun k a hk ↦ (h (k + 1) a hk).trans (by simp : k + 1 < 0 ↔ k < 0)
      rw [List.filter_cons_of_neg (by simp [hx]), hnil, List.take_zero, List.take_zero]
    · have htail := ih fun k a hk ↦ (h (k + 1) a hk).trans Nat.succ_lt_succ_iff
      rw [List.filter_cons_of_pos (hx.mpr (Nat.succ_pos n)), htail, List.take_succ_cons]

theorem filter_eq_drop {α : Type} {p : α → Bool} {xs : List α} {n : ℕ}
    (h : ∀ k a, xs[k]? = some a → (p a = true ↔ n ≤ k)) : xs.filter p = xs.drop n := by
  induction xs generalizing n with
  | nil => simp
  | cons x xs ih =>
    have hx := h 0 x rfl
    rcases n with _ | n
    · have htail := ih fun k a hk ↦ (h (k + 1) a hk).trans (by simp : 0 ≤ k + 1 ↔ 0 ≤ k)
      rw [List.filter_cons_of_pos (hx.mpr le_rfl), htail, List.drop_zero, List.drop_zero]
    · have htail := ih fun k a hk ↦ (h (k + 1) a hk).trans Nat.succ_le_succ_iff
      rw [List.filter_cons_of_neg (by simp [hx]), htail, List.drop_succ_cons]

omit [DecidableEq ι] in
/-- A request is refused exactly if `limit` came before it in its window. -/
theorem refused_iff (hs : s.Counted identifier limit windowSeconds) (hlimit : 1 ≤ limit)
    {x : String} {b k : ℕ} {i : ι} (hi : (s.requestsIn identifier windowSeconds x b)[k]? = some i) :
    s.calls i = .returned false ↔ limit ≤ k := by
  rcases hphase : s.calls i with _ | d | allowed
  · obtain ⟨e, he, hei⟩ := mem_log_of_getElem? hi
    exact absurd hei (hs.logged hphase e he)
  · obtain rfl := (hs.pending hphase).2 x b k hi
    exact iff_of_false (by simp) (by omega)
  · have hdecided := hs.decided hi hphase
    rw [hdecided, RatePhase.returned.injEq, decide_eq_false_iff_not, not_lt]

omit [DecidableEq ι] in
/-- The requests of a window that are refused are those after the first `limit`. -/
theorem refused_eq_drop (hs : s.Counted identifier limit windowSeconds) (hlimit : 1 ≤ limit)
    (x : String) (b : ℕ) :
    (s.requestsIn identifier windowSeconds x b).filter (s.calls · = .returned false)
      = (s.requestsIn identifier windowSeconds x b).drop limit := by
  refine filter_eq_drop fun k i hi ↦ ?_
  rw [decide_eq_true_iff]
  exact refused_iff hs hlimit hi

omit [DecidableEq ι] in
/-- When all have their answer, those that are allowed are the first `limit`. -/
theorem allowed_eq_take (hs : s.Counted identifier limit windowSeconds) (hlimit : 1 ≤ limit)
    {x : String} {b : ℕ} (hall : ∀ i ∈ s.requestsIn identifier windowSeconds x b,
      ∃ allowed, s.calls i = .returned allowed) :
    (s.requestsIn identifier windowSeconds x b).filter (s.calls · = .returned true)
      = (s.requestsIn identifier windowSeconds x b).take limit := by
  refine filter_eq_take fun k i hi ↦ ?_
  have hrefused := refused_iff hs hlimit hi
  obtain ⟨allowed, hphase⟩ := hall i (List.mem_of_getElem? hi)
  rw [hphase, RatePhase.returned.injEq] at hrefused
  rw [decide_eq_true_iff, hphase, RatePhase.returned.injEq, ← not_le, ← hrefused,
    Bool.not_eq_false]

/-! ## Any interval -/

omit [DecidableEq ι] in
/-- However many have their answer, at most `limit` requests of a window are allowed. -/
theorem countP_allowed_le (hs : s.Counted identifier limit windowSeconds) (hlimit : 1 ≤ limit)
    (x : String) (b : ℕ) :
    s.log.countP (fun e ↦ decide (s.calls e.1 = .returned true) &&
      decide (identifier e.1 = x ∧ bucketOf windowSeconds e.2 = b)) ≤ limit := by
  have hopen : (s.requestsIn identifier windowSeconds x b).filter
      (fun i ↦ !decide (s.calls i = .returned false))
        = (s.requestsIn identifier windowSeconds x b).take limit := by
    refine filter_eq_take fun k i hi ↦ ?_
    rw [Bool.not_eq_true', decide_eq_false_iff_not, refused_iff hs hlimit hi, not_le]
  have hcount : (s.requestsIn identifier windowSeconds x b).countP
      (fun i ↦ decide (s.calls i = .returned true)) ≤ limit := by
    calc (s.requestsIn identifier windowSeconds x b).countP
          (fun i ↦ decide (s.calls i = .returned true))
        ≤ (s.requestsIn identifier windowSeconds x b).countP
            (fun i ↦ !decide (s.calls i = .returned false)) := by
          refine List.countP_mono_left fun i _ hi ↦ ?_
          rw [of_decide_eq_true hi]
          rfl
      _ = ((s.requestsIn identifier windowSeconds x b).take limit).length := by
          rw [List.countP_eq_length_filter, hopen]
      _ ≤ limit := List.length_take_le _ _
  rwa [requestsIn, List.countP_map, List.countP_filter] at hcount

omit [DecidableEq ι] in
/-- In an interval of a window's length, at most `2 * limit` requests are allowed. -/
theorem allowedBetween_le (hs : s.Counted identifier limit windowSeconds) (hlimit : 1 ≤ limit)
    (hw : 1 ≤ windowSeconds) (x : String) (start : ℚ≥0) :
    s.allowedBetween identifier x start (start + windowSeconds) ≤ 2 * limit := by
  let b := bucketOf windowSeconds start
  have hfirst := countP_allowed_le hs hlimit x b
  have hsecond := countP_allowed_le hs hlimit x (b + 1)
  rw [allowedBetween, List.countP_eq_countP_filter_add _ _
    fun e ↦ decide (bucketOf windowSeconds e.2 = b), List.countP_filter, List.countP_filter,
    two_mul]
  refine Nat.add_le_add (le_trans ?_ hfirst) (le_trans ?_ hsecond)
  · refine List.countP_mono_left fun e _ he ↦ ?_
    simp only [Bool.and_eq_true, decide_eq_true_eq] at he ⊢
    exact ⟨he.1.2.2.2, he.1.1, he.2⟩
  · refine List.countP_mono_left fun e _ he ↦ ?_
    simp only [Bool.and_eq_true, decide_eq_true_eq, Bool.not_eq_true', decide_eq_false_iff_not]
      at he ⊢
    have hbucket := (bucketOf_of_mem_interval hw he.1.2.1 he.1.2.2.1).resolve_left he.2
    exact ⟨he.1.2.2.2, he.1.1, hbucket⟩

/-! ## Other identifiers -/

open Classical in
/-- An `INCR` of a key sees and changes that key only. -/
theorem incr_restrict {counters counters' : Counters} {key : String} {n : ℕ} {p : String → Prop}
    (hp : p key) (h : incr counters key = (counters', n)) :
    incr (fun k ↦ if p k then counters k else none) key
      = ((fun k ↦ if p k then counters' k else none), n) := by
  have hkey : (if p key then counters key else none) = counters key := if_pos hp
  rw [incr] at h ⊢
  rw [hkey]
  split at h
  · obtain ⟨rfl, rfl⟩ := Prod.mk.inj h
    rw [ite_update_of_pos hp]
  · obtain ⟨rfl, rfl⟩ := Prod.mk.inj h
    rw [ite_update_of_pos hp]

open Classical in
theorem expireAt_restrict {counters : Counters} {key : String} {time : ℚ≥0} {p : String → Prop}
    (hp : p key) : (fun k ↦ if p k then expireAt counters key time k else none)
      = expireAt (fun k ↦ if p k then counters k else none) key time := by
  rw [expireAt, expireAt, ite_update_of_pos hp, if_pos hp]

open Classical in
/-- A step that concerns an identifier runs on what is there of it. -/
theorem RateMove.onIdentifier {a : RateAction ι} {x : String}
    (h : RateMove identifier limit windowSeconds s a t) (ha : a.concerns identifier x = true) :
    RateMove identifier limit windowSeconds (s.onIdentifier identifier x) a
      (t.onIdentifier identifier x) := by
  have hcall : ∀ {i}, identifier i = x → (s.onIdentifier identifier x).calls i = s.calls i :=
    fun hi ↦ if_pos hi
  induction h with
  | tick hle => exact .tick hle
  | @count i b counters n hphase hb hincr =>
    obtain rfl : identifier i = x := of_decide_eq_true ha
    have hmove : RateMove identifier limit windowSeconds (s.onIdentifier identifier (identifier i))
        (.incr i) _ := .count ((hcall rfl).trans hphase) hb (incr_restrict ⟨b, rfl⟩ hincr)
    convert hmove using 1
    ext1
    · rfl
    · rfl
    · exact ite_update_of_pos rfl
    · simp [RateState.onIdentifier]
  | @expire i b hphase =>
    obtain rfl : identifier i = x := of_decide_eq_true ha
    have hmove : RateMove identifier limit windowSeconds (s.onIdentifier identifier (identifier i))
        (.expire i) _ := .expire ((hcall rfl).trans hphase)
    convert hmove using 1
    ext1
    · rfl
    · exact expireAt_restrict ⟨b, rfl⟩
    · exact ite_update_of_pos rfl
    · rfl
  | @expireError i b took hphase =>
    obtain rfl : identifier i = x := of_decide_eq_true ha
    have hmove : RateMove identifier limit windowSeconds (s.onIdentifier identifier (identifier i))
        (.expireError i took) _ := .expireError ((hcall rfl).trans hphase)
    convert hmove using 1
    ext1
    · rfl
    · rcases took with _ | _
      · rfl
      · exact expireAt_restrict ⟨b, rfl⟩
    · exact ite_update_of_pos rfl
    · rfl
  | @vanish y b n expiry hkey hle =>
    obtain rfl : y = x := of_decide_eq_true ha
    have hkey' : (s.onIdentifier identifier y).counters (rateLimitKey y b)
        = some ⟨n, some expiry⟩ := (if_pos ⟨b, rfl⟩).trans hkey
    have hmove : RateMove identifier limit windowSeconds (s.onIdentifier identifier y)
        (.vanish y b) _ := .vanish hkey' hle
    convert hmove using 1
    ext1
    · rfl
    · exact ite_update_of_pos ⟨b, rfl⟩
    · rfl
    · rfl

open Classical in
/-- A step that does not concern it changes nothing of it. -/
theorem RateMove.onIdentifier_eq {a : RateAction ι} {x : String}
    (h : RateMove identifier limit windowSeconds s a t) (ha : a.concerns identifier x = false) :
    t.onIdentifier identifier x = s.onIdentifier identifier x := by
  have hforeign : ∀ {y : String} {b : ℕ}, y ≠ x →
      ¬ ∃ d : ℕ, rateLimitKey y b = rateLimitKey x d := by
    rintro y b hne ⟨d, heq⟩
    exact hne (rateLimitKey_inj heq).1
  induction h with
  | tick => exact absurd ha (by simp [RateAction.concerns])
  | @count i b counters n hphase hb hincr =>
    have hi : identifier i ≠ x := of_decide_eq_false ha
    ext1
    · rfl
    · refine funext fun key ↦ ite_congr rfl (fun hkey ↦ ?_) fun _ ↦ rfl
      refine incr_of_ne hincr ?_
      rintro rfl
      exact hforeign hi hkey
    · exact ite_update_of_neg hi
    · simp [RateState.onIdentifier, hi]
  | @expire i b hphase =>
    have hi : identifier i ≠ x := of_decide_eq_false ha
    ext1
    · rfl
    · exact ite_update_of_neg (hforeign hi)
    · exact ite_update_of_neg hi
    · rfl
  | @expireError i b took hphase =>
    have hi : identifier i ≠ x := of_decide_eq_false ha
    ext1
    · rfl
    · rcases took with _ | _
      · rfl
      · exact ite_update_of_neg (hforeign hi)
    · exact ite_update_of_neg hi
    · rfl
  | @vanish y b n expiry hkey hle =>
    have hy : y ≠ x := of_decide_eq_false ha
    ext1
    · rfl
    · exact ite_update_of_neg (hforeign hy)
    · rfl
    · rfl

omit [DecidableEq ι] in
theorem onIdentifier_of_init (hcounters : ∀ key, s.counters key = none)
    (hcalls : ∀ i, s.calls i = .counting) (hlog : s.log = []) (x : String) :
    s.onIdentifier identifier x = s := by
  ext1
  · rfl
  · refine funext fun key ↦ ?_
    dsimp only [onIdentifier]
    rw [hcounters key, ite_self]
  · refine funext fun i ↦ ?_
    dsimp only [onIdentifier]
    rw [hcalls i, ite_self]
  · dsimp only [onIdentifier]
    rw [hlog, List.filter_nil]

/-! ## Rate-limit safety -/

/-- **In each window the first `limit` requests of an identifier are allowed and the others are not;
in any interval of a window's length at most `2 * limit` are allowed; and the answers to an
identifier are those it would get alone.** -/
theorem rate_limit_safe (identifier : ι → String) {limit windowSeconds : ℕ} (hlimit : 1 ≤ limit)
    (hw : 1 ≤ windowSeconds) {s t : RateState ι} {as : List (RateAction ι)}
    (hinit : (rateMachine identifier limit windowSeconds).init s)
    (hrun : (rateMachine identifier limit windowSeconds).exec s as = some t) :
    (∀ x b, (t.requestsIn identifier windowSeconds x b).filter (t.calls · = .returned false)
        = (t.requestsIn identifier windowSeconds x b).drop limit ∧
      ((∀ i ∈ t.requestsIn identifier windowSeconds x b, ∃ allowed,
          t.calls i = .returned allowed) →
        (t.requestsIn identifier windowSeconds x b).filter (t.calls · = .returned true)
          = (t.requestsIn identifier windowSeconds x b).take limit ∧
        ((t.requestsIn identifier windowSeconds x b).filter (t.calls · = .returned true)).length
          = min (t.requestsIn identifier windowSeconds x b).length limit)) ∧
    (∀ x start, t.allowedBetween identifier x start (start + windowSeconds) ≤ 2 * limit) ∧
    ∀ x, ∃ u, (rateMachine identifier limit windowSeconds).exec s
        (as.filter (·.concerns identifier x)) = some u ∧
      ∀ i, identifier i = x → u.calls i = t.calls i := by
  obtain ⟨hcounters, hcalls, hlog⟩ := hinit
  have hs : t.Counted identifier limit windowSeconds :=
    counted_exec hlimit hw (counted_of_init hcounters hcalls hlog) hrun
  refine ⟨fun x b ↦ ⟨refused_eq_drop hs hlimit x b, fun hall ↦ ?_⟩,
    fun x start ↦ allowedBetween_le hs hlimit hw x start, fun x ↦ ?_⟩
  · have htake := allowed_eq_take hs hlimit hall
    refine ⟨htake, ?_⟩
    rw [htake, List.length_take, Nat.min_comm]
  · have hfilter := Machine.exec_filter (onIdentifier identifier · x) (·.concerns identifier x)
      (fun u a v ha hstep ↦ rateStep_iff.mpr ((rateStep_iff.mp hstep).onIdentifier ha))
      (fun _ _ _ _ _ _ ha _ hstep ↦ (rateStep_iff.mp hstep).onIdentifier_eq ha) hrun
    rw [onIdentifier_of_init hcounters hcalls hlog] at hfilter
    exact ⟨_, hfilter, fun i hi ↦ if_pos hi⟩

/-- Two callers, the first of which calls twice. -/
def callers : Fin 3 → String
  | 0 => "::1"
  | 1 => "::1"
  | 2 => "::1:0"

/-- All three call in the first minute. -/
def minuteRun : List (RateAction (Fin 3)) :=
  [.incr 0, .incr 2, .expire 0, .incr 1, .expireError 2 false]

theorem minuteRun_safe :
    ∃ t, (rateMachine callers 1 60).exec ⟨0, fun _ ↦ none, fun _ ↦ .counting, []⟩ minuteRun = some t ∧
      (t.requestsIn callers 60 "::1" 0).filter (t.calls · = .returned false)
        = (t.requestsIn callers 60 "::1" 0).drop 1 ∧
      t.allowedBetween callers "::1" 0 (0 + 60) ≤ 2 * 1 := by
  have hrun : (rateMachine callers 1 60).exec ⟨0, fun _ ↦ none, fun _ ↦ .counting, []⟩ minuteRun
      = some _ := rfl
  obtain ⟨hwindow, hinterval, -⟩ := rate_limit_safe callers le_rfl (by decide)
    ⟨fun _ ↦ rfl, fun _ ↦ rfl, rfl⟩ hrun
  exact ⟨_, hrun, (hwindow "::1" 0).1, hinterval "::1" 0⟩

end Acheron
