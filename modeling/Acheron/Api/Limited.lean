import Acheron.Api.Acknowledged
import Acheron.Cache.RateLimit

/-!
# `POST /events` behind its rate limit

The route depends on `_enforce_rate_limit`, which runs before the handler: with a limit configured,
a request is counted in the window of its client, and goes on to the handler if `check_rate_limit`
allows it. `gateMachine` puts `rateMachine` in front of `apiMachine`, a request passing from the one
to the other. A Redis error lets it pass.

The limiter and the idempotency check use different keys of one Redis (`redisKey_ne_rateLimitKey`),
so the counters and the claims are kept apart here. The clock is that of the limiter; the handler
has none. The window is 60 seconds.

## Behind the gate

Seen from behind the gate, a run is a run of the handler alone, on the requests that were let
through (`handler_projects`); seen from the front, it is a run of the limiter (`limiter_projects`).
What has been proved of either holds here, and the gate adds that an answer 202 has been allowed.
-/

open Runs
open scoped NNRat

namespace Acheron

/-- The answer to a request over the limit. -/
def Response.rateLimited : Response := .error 429 "Rate limit exceeded; slow down"

/-- Where a request is. -/
inductive GatePhase where
  | absent
  /-- In `_enforce_rate_limit`. -/
  | checking (body : EventCreate) (idempotencyKey : Option String)
  /-- In the handler. -/
  | through
  /-- Answered 429 by the limiter. -/
  | limited

/-- The limiter, the handler, and where each request is. -/
structure GateState (ι : Type) where
  rate : RateState ι
  api : ApiState ι
  gate : ι → GatePhase

/-- What may happen next. -/
inductive GateAction (ι : Type) where
  | arrive (i : ι) (body : EventCreate) (idempotencyKey : Option String)
  | rate (a : RateAction ι)
  /-- The `INCR` of a request raises, having taken effect or not. -/
  | incrError (i : ι) (took : Bool)
  /-- `check_rate_limit` has returned. -/
  | resume (i : ι)
  | request (i : ι) (a : RequestAction)
  | background (a : BackgroundAction)

/-- `request.client.host if request.client else "unknown"`. -/
def clientIp (client : Option String) : String := client.getD "unknown"

namespace GateState

variable {ι : Type}

/-- Only a request in the limiter calls `INCR`. -/
def calls (s : GateState ι) : RateAction ι → Bool
  | .incr i =>
    match s.gate i with
    | .checking _ _ => true
    | _ => false
  | .tick _ | .expire _ | .expireError _ _ | .vanish _ _ => true

/-- The answer to a request. -/
def answer (s : GateState ι) (i : ι) : Option Response :=
  match s.gate i with
  | .limited => some .rateLimited
  | .through => (s.api.requests i).bind Request.response
  | .absent | .checking _ _ => none

/-- The request is answered 202. -/
def acceptedAt (s : GateState ι) (i : ι) : Bool :=
  match s.answer i with
  | some (.accepted _ _) => true
  | _ => false

end GateState

section Machine

variable {ι : Type} [DecidableEq ι] (client : ι → Option String) (limit : ℤ)
  (sha256 uuid5 : String → String)

/-- The limiter of the route. -/
abbrev gateLimiter : Machine (RateState ι) (RateAction ι) :=
  rateMachine (fun i ↦ clientIp (client i)) limit.toNat 60

/-- The route, with its dependency. -/
def gateMachine : Machine (GateState ι) (GateAction ι) where
  init s := (gateLimiter client limit).init s.rate ∧ (apiMachine ι sha256 uuid5).init s.api ∧
    ∀ i, s.gate i = .absent
  step s
    | .arrive i body idempotencyKey =>
      match s.gate i with
      | .absent =>
        -- `if limit <= 0: return`, and the handler begins.
        if limit ≤ 0 then
          ((apiMachine ι sha256 uuid5).step s.api (.begin i body idempotencyKey)).map fun api ↦
            { s with api := api, gate := Function.update s.gate i .through }
        else some { s with gate := Function.update s.gate i (.checking body idempotencyKey) }
      | _ => none
    | .rate a =>
      if s.calls a then
        ((gateLimiter client limit).step s.rate a).map fun rate ↦ { s with rate := rate }
      else none
    | .incrError i took =>
      match s.gate i, s.rate.calls i with
      | .checking _ _, .counting =>
        let key := rateLimitKey (clientIp (client i)) (bucketOf 60 s.rate.now)
        some { s with rate := { s.rate with
          counters := if took then (incr s.rate.counters key).1 else s.rate.counters
          -- The check fails open.
          calls := Function.update s.rate.calls i (.returned true) } }
      | _, _ => none
    | .resume i =>
      match s.gate i, s.rate.calls i with
      | .checking body idempotencyKey, .returned true =>
        ((apiMachine ι sha256 uuid5).step s.api (.begin i body idempotencyKey)).map fun api ↦
          { s with api := api, gate := Function.update s.gate i .through }
      | .checking _ _, .returned false =>
        some { s with gate := Function.update s.gate i .limited }
      | _, _ => none
    | .request i a =>
      ((apiMachine ι sha256 uuid5).step s.api (.request i a)).map fun api ↦ { s with api := api }
    | .background a =>
      ((apiMachine ι sha256 uuid5).step s.api (.background a)).map fun api ↦ { s with api := api }

end Machine

/-! ## What a step can do -/

section Step

variable {ι : Type} [DecidableEq ι] {client : ι → Option String} {limit : ℤ}
  {sha256 uuid5 : String → String} {s t : GateState ι}

/-- The steps. -/
inductive GateMove (client : ι → Option String) (limit : ℤ) (sha256 uuid5 : String → String)
    (s : GateState ι) : GateAction ι → GateState ι → Prop
  /-- A request goes on to the handler. -/
  | pass {a : GateAction ι} {i : ι} {body : EventCreate} {idempotencyKey : Option String}
      {api : ApiState ι}
      (hbegin : (apiMachine ι sha256 uuid5).step s.api (.begin i body idempotencyKey) = some api)
      (hallowed : limit ≤ 0 ∨ s.rate.calls i = .returned true) :
      GateMove client limit sha256 uuid5 s a
        { s with api := api, gate := Function.update s.gate i .through }
  /-- A request waits for the limiter. -/
  | wait {i : ι} {body : EventCreate} {idempotencyKey : Option String}
      (habsent : s.gate i = .absent) (hlimit : 0 < limit) :
      GateMove client limit sha256 uuid5 s (.arrive i body idempotencyKey)
        { s with gate := Function.update s.gate i (.checking body idempotencyKey) }
  | rate {a : RateAction ι} {rate : RateState ι}
      (hcalls : ∀ i, a = .incr i → ∃ body key, s.gate i = .checking body key)
      (hstep : (gateLimiter client limit).step s.rate a = some rate) :
      GateMove client limit sha256 uuid5 s (.rate a) { s with rate := rate }
  | incrError {i : ι} {took : Bool} {counters : Counters}
      (hgate : ∃ body key, s.gate i = .checking body key) (hcounting : s.rate.calls i = .counting) :
      GateMove client limit sha256 uuid5 s (.incrError i took) { s with rate := { s.rate with
        counters := counters
        calls := Function.update s.rate.calls i (.returned true) } }
  | limit {i : ι} (hgate : ∃ body key, s.gate i = .checking body key)
      (hrefused : s.rate.calls i = .returned false) :
      GateMove client limit sha256 uuid5 s (.resume i)
        { s with gate := Function.update s.gate i .limited }
  | handle {a : GateAction ι} {b : ApiAction ι} {api : ApiState ι}
      (hb : ∀ i body key, b ≠ .begin i body key)
      (hstep : (apiMachine ι sha256 uuid5).step s.api b = some api) :
      GateMove client limit sha256 uuid5 s a { s with api := api }

theorem move_of_gateStep {a : GateAction ι}
    (h : (gateMachine client limit sha256 uuid5).step s a = some t) :
    GateMove client limit sha256 uuid5 s a t := by
  cases a with
  | arrive i body key =>
    simp only [gateMachine] at h
    split at h
    case h_1 habsent =>
      by_cases hlimit : limit ≤ 0
      · rw [if_pos hlimit] at h
        obtain ⟨api, hapi, rfl⟩ := Option.map_eq_some_iff.mp h
        exact .pass hapi (Or.inl hlimit)
      · rw [if_neg hlimit] at h
        exact Option.some.inj h ▸ .wait habsent (by omega)
    case h_2 => exact absurd h (by simp)
  | rate a =>
    simp only [gateMachine] at h
    by_cases hcalls : s.calls a = true
    · rw [if_pos hcalls] at h
      obtain ⟨rate, hrate, rfl⟩ := Option.map_eq_some_iff.mp h
      refine .rate ?_ hrate
      rintro i rfl
      simp only [GateState.calls] at hcalls
      split at hcalls
      case h_1 body key hgate => exact ⟨body, key, hgate⟩
      case h_2 => exact absurd hcalls (by simp)
    · rw [if_neg hcalls] at h
      exact absurd h (by simp)
  | incrError i took =>
    simp only [gateMachine] at h
    split at h
    case h_1 body key hgate hcounting =>
      exact Option.some.inj h ▸ .incrError ⟨body, key, hgate⟩ hcounting
    case h_2 => exact absurd h (by simp)
  | resume i =>
    simp only [gateMachine] at h
    split at h
    case h_1 hgate hallowed =>
      obtain ⟨api, hapi, rfl⟩ := Option.map_eq_some_iff.mp h
      exact .pass hapi (Or.inr hallowed)
    case h_2 body key hgate hrefused =>
      exact Option.some.inj h ▸ .limit ⟨body, key, hgate⟩ hrefused
    case h_3 => exact absurd h (by simp)
  | request i a | background a =>
    obtain ⟨api, hapi, rfl⟩ := Option.map_eq_some_iff.mp h
    exact .handle (by simp) hapi

/-! ## The invariant -/

/-- The handler has the requests that were let through, and those the limiter has let through. -/
structure Gated (limit : ℤ) (s : GateState ι) : Prop where
  entered : ∀ i, s.api.requests i ≠ none → s.gate i = .through
  allowed : ∀ i, s.gate i = .through → limit ≤ 0 ∨ s.rate.calls i = .returned true
  refused : ∀ i, s.gate i = .limited → s.rate.calls i = .returned false
  disabled : limit ≤ 0 → (∀ i, s.gate i = .absent ∨ s.gate i = .through) ∧
    (∀ key, s.rate.counters key = none) ∧ ∀ i, s.rate.calls i = .counting

/-- A call that has returned has returned. -/
theorem returned_of_rateMove {identifier : ι → String} {n windowSeconds : ℕ} {r r' : RateState ι}
    {a : RateAction ι} (h : RateMove identifier n windowSeconds r a r') {i : ι} {allowed : Bool}
    (hi : r.calls i = .returned allowed) : r'.calls i = .returned allowed := by
  cases h with
  | tick _ | vanish _ _ => exact hi
  | count hphase _ _ | expire hphase | expireError hphase =>
    exact update_eq_of_eq hi (by simp [hphase])

/-- A call that has been through its `INCR` is in the log. -/
theorem logged_of_rateMove {identifier : ι → String} {n windowSeconds : ℕ} {r r' : RateState ι}
    {a : RateAction ι} (h : RateMove identifier n windowSeconds r a r')
    (hr : ∀ i, r.calls i ≠ .counting → ∃ e ∈ r.log, e.1 = i) :
    ∀ i, r'.calls i ≠ .counting → ∃ e ∈ r'.log, e.1 = i := by
  cases h with
  | tick _ | vanish _ _ => exact hr
  | @count j _ _ _ _ _ _ =>
    intro i hi
    rcases eq_or_ne i j with rfl | hne
    · exact ⟨(i, r.now), List.mem_append_right _ List.mem_cons_self, rfl⟩
    · obtain ⟨e, he, hei⟩ := hr i fun hc ↦ hi ((Function.update_of_ne hne _ _).trans hc)
      exact ⟨e, List.mem_append_left _ he, hei⟩
  | expire hphase | expireError hphase =>
    exact fun i hi ↦ hr i fun hc ↦ hi (update_eq_of_eq hc (by simp [hphase]))

theorem gated_init (h : (gateMachine client limit sha256 uuid5).init s) : Gated limit s := by
  obtain ⟨⟨hcounters, hcalls, -⟩, ⟨-, hrequests⟩, hgate⟩ := h
  exact ⟨fun i hi ↦ absurd (hrequests i) hi, fun i hi ↦ absurd hi (by simp [hgate]),
    fun i hi ↦ absurd hi (by simp [hgate]), fun _ ↦ ⟨fun i ↦ Or.inl (hgate i), hcounters, hcalls⟩⟩

/-- Only `begin` brings a request to the handler. -/
theorem requests_of_handle {u v : ApiState ι} {b : ApiAction ι}
    (hb : ∀ i body key, b ≠ .begin i body key) (h : (apiMachine ι sha256 uuid5).step u b = some v)
    {i : ι} (hi : v.requests i ≠ none) : u.requests i ≠ none := by
  cases b with
  | begin j body key => exact absurd rfl (hb j body key)
  | request j a =>
    obtain ⟨r, r', hr, -, hrequests⟩ := step_request h
    rcases eq_or_ne i j with rfl | hne
    · rw [hr]
      simp
    · rwa [hrequests, Function.update_of_ne hne] at hi
  | background a => rwa [(step_background h).2] at hi

/-- **The step lemma.** -/
theorem gated_move (hs : Gated limit s) {a : GateAction ι}
    (h : GateMove client limit sha256 uuid5 s a t) : Gated limit t := by
  cases h with
  | @pass _ i body key api hbegin hallowed =>
    obtain ⟨-, -, hrequests⟩ := step_begin hbegin
    refine ⟨fun j hj ↦ ?_, fun j hj ↦ ?_,
      fun j hj ↦ hs.refused j (eq_of_update_eq hj (by simp)), fun hoff ↦ ⟨fun j ↦ ?_, ?_⟩⟩
    · rcases eq_or_ne j i with rfl | hne
      · exact Function.update_self _ _ _
      · dsimp only at hj
        rw [hrequests, Function.update_of_ne hne] at hj
        exact (Function.update_of_ne hne _ _).trans (hs.entered j hj)
    · rcases eq_or_ne j i with rfl | hne
      · exact hallowed
      · exact hs.allowed j ((Function.update_of_ne hne _ _).symm.trans hj)
    · rcases eq_or_ne j i with rfl | hne
      · exact Or.inr (Function.update_self _ _ _)
      · dsimp only
        rw [Function.update_of_ne hne]
        exact (hs.disabled hoff).1 j
    · exact (hs.disabled hoff).2
  | @wait i body key habsent hlimit =>
    exact ⟨fun j hj ↦ update_eq_of_eq (hs.entered j hj) (by simp [habsent]),
      fun j hj ↦ hs.allowed j (eq_of_update_eq hj (by simp)),
      fun j hj ↦ hs.refused j (eq_of_update_eq hj (by simp)), fun hoff ↦ absurd hlimit (by omega)⟩
  | @rate a rate hcalls hstep =>
    have hmove := rateStep_iff.mp hstep
    refine ⟨hs.entered, fun i hi ↦ (hs.allowed i hi).imp_right (returned_of_rateMove hmove),
      fun i hi ↦ returned_of_rateMove hmove (hs.refused i hi), fun hoff ↦ ?_⟩
    obtain ⟨hgate, hcounters, hcounting⟩ := hs.disabled hoff
    refine ⟨hgate, ?_⟩
    -- With the limiter off no request calls it, and time passes over no counter.
    cases hmove with
    | tick _ => exact ⟨hcounters, hcounting⟩
    | @count i _ _ _ _ _ _ =>
      obtain ⟨body, key, hi⟩ := hcalls i rfl
      exact absurd (hgate i) (by simp [hi])
    | expire hphase | expireError hphase =>
      exact absurd ((hcounting _).symm.trans hphase) (by simp)
    | vanish hkey _ => exact absurd ((hcounters _).symm.trans hkey) (by simp)
  | @incrError i took counters hgate hcounting =>
    obtain ⟨body, key, hi⟩ := hgate
    exact ⟨hs.entered,
      fun j hj ↦ (hs.allowed j hj).imp_right (update_eq_of_eq · (by simp [hcounting])),
      fun j hj ↦ update_eq_of_eq (hs.refused j hj) (by simp [hcounting]),
      fun hoff ↦ absurd ((hs.disabled hoff).1 i) (by simp [hi])⟩
  | @limit i hgate hrefused =>
    obtain ⟨body, key, hi⟩ := hgate
    refine ⟨fun j hj ↦ update_eq_of_eq (hs.entered j hj) (by simp [hi]),
      fun j hj ↦ hs.allowed j (eq_of_update_eq hj (by simp)), fun j hj ↦ ?_,
      fun hoff ↦ absurd ((hs.disabled hoff).1 i) (by simp [hi])⟩
    rcases eq_or_ne j i with rfl | hne
    · exact hrefused
    · exact hs.refused j ((Function.update_of_ne hne _ _).symm.trans hj)
  | handle hb hstep =>
    exact ⟨fun i hi ↦ hs.entered i (requests_of_handle hb hstep hi), hs.allowed, hs.refused,
      hs.disabled⟩

end Step

/-! ## Both sides of the gate -/

section Run

variable {ι : Type} [DecidableEq ι] {client : ι → Option String} {limit : ℤ}
  {sha256 uuid5 : String → String} {s t : GateState ι} {as : List (GateAction ι)}

/-- Redis answers the `INCR` of a step. -/
def Answers (_ : GateState ι) : GateAction ι → Prop
  | .incrError _ _ => False
  | _ => True

/-- Seen from behind the gate, a run is a run of the handler. -/
theorem handler_projects (h : (gateMachine client limit sha256 uuid5).exec s as = some t) :
    ∃ bs, (apiMachine ι sha256 uuid5).exec s.api bs = some t.api := by
  refine exec_projects GateState.api (C := fun _ _ ↦ True) (fun u a v _ hstep ↦ ?_)
    (fun _ _ _ _ _ _ ↦ trivial) h
  have hone {b : ApiAction ι} {api : ApiState ι}
      (hb : (apiMachine ι sha256 uuid5).step u.api b = some api) :
      ∃ bs, (apiMachine ι sha256 uuid5).exec u.api bs = some api :=
    ⟨[b], (Machine.exec_cons_eq_some _).mpr ⟨api, hb, rfl⟩⟩
  have hmove := move_of_gateStep hstep
  cases hmove with
  | pass hbegin _ => exact hone hbegin
  | handle _ hb => exact hone hb
  | wait _ _ | rate _ _ | incrError _ _ | limit _ _ => exact ⟨[], rfl⟩

/-- Seen from the front, a run in which every `INCR` is answered is a run of the limiter. -/
theorem limiter_projects (hanswers : (gateMachine client limit sha256 uuid5).Along Answers s as)
    (h : (gateMachine client limit sha256 uuid5).exec s as = some t) :
    ∃ bs, (gateLimiter client limit).exec s.rate bs = some t.rate := by
  refine exec_projects GateState.rate (fun u a v hanswer hstep ↦ ?_) hanswers h
  have hmove := move_of_gateStep hstep
  cases hmove with
  | @rate b rate _ hb => exact ⟨[b], (Machine.exec_cons_eq_some _).mpr ⟨rate, hb, rfl⟩⟩
  | incrError _ _ => exact hanswer.elim
  | pass _ _ | wait _ _ | limit _ _ | handle _ _ => exact ⟨[], rfl⟩

theorem gated_exec (hinit : (gateMachine client limit sha256 uuid5).init s)
    (h : (gateMachine client limit sha256 uuid5).exec s as = some t) : Gated limit t :=
  Machine.exec_preserves (fun _ _ _ hu hstep ↦ gated_move hu (move_of_gateStep hstep))
    (gated_init hinit) h

/-- What the handler has been given has been counted. -/
theorem logged_exec (hinit : (gateMachine client limit sha256 uuid5).init s)
    (hanswers : (gateMachine client limit sha256 uuid5).Along Answers s as)
    (h : (gateMachine client limit sha256 uuid5).exec s as = some t) :
    ∀ i, t.rate.calls i ≠ .counting → ∃ e ∈ t.rate.log, e.1 = i := by
  refine Machine.exec_preserves_along
    (P := fun u ↦ ∀ i, u.rate.calls i ≠ .counting → ∃ e ∈ u.rate.log, e.1 = i)
    (fun u a v hu hanswer hstep ↦ ?_) (fun i hi ↦ absurd (hinit.1.2.1 i) hi) hanswers h
  have hmove := move_of_gateStep hstep
  cases hmove with
  | rate _ hb => exact logged_of_rateMove (rateStep_iff.mp hb) hu
  | incrError _ _ => exact hanswer.elim
  | pass _ _ | wait _ _ | limit _ _ | handle _ _ => exact hu

end Run

namespace GateState

variable {ι : Type} (s : GateState ι) (client : ι → Option String)

/-- The requests of a client answered 202, of those counted in a window. -/
def acceptedIn (x : String) (bucket : ℕ) : ℕ :=
  s.rate.log.countP fun e ↦
    s.acceptedAt e.1 && decide (clientIp (client e.1) = x ∧ bucketOf 60 e.2 = bucket)

/-- The requests of a client answered 202, of those counted in an interval. -/
def acceptedBetween (x : String) (start finish : ℚ≥0) : ℕ :=
  s.rate.log.countP fun e ↦
    s.acceptedAt e.1 && decide (clientIp (client e.1) = x ∧ start ≤ e.2 ∧ e.2 ≤ finish)

variable {s}

/-- An answer 202 comes from the handler. -/
theorem through_of_accepted {i : ι} (h : s.acceptedAt i = true) : s.gate i = .through := by
  unfold acceptedAt answer at h
  cases hgate : s.gate i with
  | through => rfl
  | absent | checking _ _ | limited =>
    rw [hgate] at h
    exact absurd h (by simp [Response.rateLimited])

end GateState

/-- **Ingestion behind its rate limit.** In every run of the route, what the handler does is a run
of the handler alone, and a request answered 429 by the limiter is none of it: no claim, no event.
With the limit off nothing is counted and nobody is turned away. With it on, and every `INCR`
answered, each request that the handler has begun has been counted, and of the requests of a client
counted in one window at most `limit` are answered 202, of those in any 60 seconds at most
`2 * limit`. -/
theorem limited_ingestion (ι : Type) [DecidableEq ι] (client : ι → Option String) (limit : ℤ)
    (sha256 uuid5 : String → String) (s t : GateState ι) (as : List (GateAction ι))
    (hinit : (gateMachine client limit sha256 uuid5).init s)
    (h : (gateMachine client limit sha256 uuid5).exec s as = some t) :
    (∃ bs, (apiMachine ι sha256 uuid5).exec s.api bs = some t.api) ∧
      (∀ i, t.gate i = .limited → 0 < limit ∧ t.api.requests i = none) ∧
      (limit ≤ 0 → ∀ key, t.rate.counters key = none) ∧
      (0 < limit → (gateMachine client limit sha256 uuid5).Along Answers s as →
        (∀ i, t.api.requests i ≠ none → ∃ e ∈ t.rate.log, e.1 = i) ∧
        (∀ x bucket, (t.acceptedIn client x bucket : ℤ) ≤ limit) ∧
        ∀ x start, (t.acceptedBetween client x start (start + 60) : ℤ) ≤ 2 * limit) := by
  have hgated := gated_exec hinit h
  refine ⟨handler_projects h, fun i hi ↦ ⟨?_, ?_⟩, fun hoff ↦ (hgated.disabled hoff).2.1,
    fun hlimit hanswers ↦ ?_⟩
  · by_contra hoff
    exact absurd ((hgated.disabled (by omega)).1 i) (by simp [hi])
  · by_contra hrequest
    exact absurd (hi.symm.trans (hgated.entered i hrequest)) (by simp)
  · have hallowed : ∀ i, t.gate i = .through → t.rate.calls i = .returned true :=
      fun i hi ↦ (hgated.allowed i hi).resolve_left (by omega)
    have hpositive : 1 ≤ limit.toNat := by omega
    obtain ⟨⟨hcounters, hcalls, hlog⟩, -, -⟩ := id hinit
    obtain ⟨bs, hbs⟩ := limiter_projects hanswers h
    have hcounted := counted_exec hpositive (by decide) (counted_of_init hcounters hcalls hlog) hbs
    refine ⟨fun i hi ↦ ?_, fun x bucket ↦ ?_, fun x start ↦ ?_⟩
    · have hreturned := hallowed i (hgated.entered i hi)
      exact logged_exec hinit hanswers h i (by simp [hreturned])
    · have hwindow := countP_allowed_le hcounted hpositive x bucket
      have hle : t.acceptedIn client x bucket ≤ limit.toNat := by
        refine le_trans (List.countP_mono_left fun e _ he ↦ ?_) hwindow
        rw [Bool.and_eq_true] at he ⊢
        exact ⟨decide_eq_true (hallowed e.1 (GateState.through_of_accepted he.1)), he.2⟩
      omega
    · have hinterval := allowedBetween_le hcounted hpositive (by decide) x start
      have hle : t.acceptedBetween client x start (start + 60) ≤ 2 * limit.toNat := by
        refine le_trans (List.countP_mono_left fun e _ he ↦ ?_) hinterval
        simp only [Bool.and_eq_true, decide_eq_true_eq] at he ⊢
        exact ⟨he.2.1, he.2.2.1, he.2.2.2, hallowed e.1 (GateState.through_of_accepted he.1)⟩
      omega

/-- Nothing has arrived. -/
def GateState.open : GateState (Fin 3) where
  rate := ⟨0, fun _ ↦ none, fun _ ↦ .counting, []⟩
  api := .open
  gate _ := .absent

/-- Two requests of one client, at a limit of one a minute. -/
def secondTooMany : List (GateAction (Fin 3)) :=
  [.arrive 0 (sampleBody "click") none, .arrive 1 (sampleBody "click") none, .rate (.incr 0),
    .rate (.expire 0), .rate (.incr 1), .resume 1, .resume 0, .request 0 (.finish "e1" .epoch)]

theorem secondTooMany_limited :
    ∃ t, (gateMachine (some ∘ callers) 1 sampleSha256 sampleUuid5).exec .open secondTooMany
        = some t ∧
      t.answer 0 = some (.accepted "e1" .epoch) ∧ t.answer 1 = some .rateLimited ∧
      t.api.requests 1 = none ∧ (t.acceptedIn (some ∘ callers) "::1" 0 : ℤ) ≤ 1 := by
  have hrun : (gateMachine (some ∘ callers) 1 sampleSha256 sampleUuid5).exec .open secondTooMany
      = some _ := rfl
  obtain ⟨-, hlimited, -, hon⟩ := limited_ingestion (Fin 3) (some ∘ callers) 1 sampleSha256
    sampleUuid5 .open _ secondTooMany
    ⟨⟨fun _ ↦ rfl, fun _ ↦ rfl, rfl⟩, open_init _ _, fun _ ↦ rfl⟩ hrun
  refine ⟨_, hrun, rfl, rfl, (hlimited 1 rfl).2, (hon (by decide) ?_).2.1 "::1" 0⟩
  exact Machine.along_of_forall (by simp [secondTooMany])

end Acheron
