import Acheron.Api.CreateEvent

/-!
# Refused requests

What a request leaves behind that is answered 429 or 503. The handler claims the key before it calls
`ingest`, and nothing releases a claim, so a refused request may leave its claim — and nothing else.
That is a statement about two runs, the run as it was and the run with the refusal, or the whole
request, erased from it.

A claim counts whether its request was accepted or not; so a 409 to a `GET` that found a
fingerprint has its reason in an earlier claim by another body, not in an acceptance.
-/

open Runs

namespace Acheron

variable {ι : Type} [DecidableEq ι]

/-- The action is a step of request `i`. -/
def ApiAction.isOf (i : ι) : ApiAction ι → Bool
  | .begin j _ _ | .request j _ => decide (j = i)
  | .background _ => false

/-- The action answers request `i`. -/
def ApiAction.answers (i : ι) : ApiAction ι → Bool
  | .request j (.finish _ _) => decide (j = i)
  | _ => false

namespace ApiState

/-- The state without request `i`. -/
def without (s : ApiState ι) (i : ι) : ApiState ι where
  shared := s.shared
  requests := Function.update s.requests i none

/-- The state with request `i` not answered. -/
def unanswered (s : ApiState ι) (i : ι) : ApiState ι where
  shared := s.shared
  requests := Function.update s.requests i
    ((s.requests i).map fun r ↦ { r with response := none })

end ApiState

variable {sha256 uuid5 : String → String} {s t : ApiState ι}

/-! ## Erasing a request -/

/-- Steps of other requests do not see request `i`. -/
theorem step_without {i : ι} {a : ApiAction ι} (ha : a.isOf i = false)
    (h : (apiMachine ι sha256 uuid5).step s a = some t) :
    (apiMachine ι sha256 uuid5).step (s.without i) a = some (t.without i) := by
  cases a with
  | begin j body idempotencyKey =>
    obtain ⟨hnone, hshared, hreq⟩ := step_begin h
    have hji : j ≠ i := by simpa [ApiAction.isOf] using ha
    have hnone' : (s.without i).requests j = none := (Function.update_of_ne hji _ _).trans hnone
    simp only [apiMachine, hnone']
    obtain ⟨shared, requests⟩ := t
    obtain rfl : shared = s.shared := hshared
    obtain rfl : requests = _ := hreq
    simp only [ApiState.without, Function.update_comm hji]
  | request j b =>
    have hji : j ≠ i := by simpa [ApiAction.isOf] using ha
    obtain ⟨r, hr, hstep⟩ := Option.bind_eq_some_iff.mp h
    obtain ⟨⟨sh, r'⟩, hmove, rfl⟩ := Option.map_eq_some_iff.mp hstep
    have hr' : (s.without i).requests j = some r := (Function.update_of_ne hji _ _).trans hr
    have hmove' : requestStep sha256 uuid5 (s.without i).shared r b = some (sh, r') := hmove
    simp only [apiMachine, hr', Option.bind_some, hmove', Option.map_some]
    simp only [ApiState.without, Function.update_comm hji]
  | background b =>
    obtain ⟨sh, hsh, rfl⟩ := Option.map_eq_some_iff.mp h
    exact Option.map_eq_some_iff.mpr ⟨sh, hsh, rfl⟩

/-- A step of a request that neither claims a key nor is accepted changes the request only. -/
theorem without_of_step {i : ι} {a : ApiAction ι} (ha : a.isOf i = true)
    (h : (apiMachine ι sha256 uuid5).step s a = some t)
    (hclaim : ∀ r, t.requests i = some r → r.claimed = false)
    (haccept : ∀ r, t.requests i = some r → ∀ eventId now, ¬ r.Accepted eventId now) :
    t.without i = s.without i := by
  have hsame {req : Option Request} (hshared : t.shared = s.shared)
      (hreq : t.requests = Function.update s.requests i req) : t.without i = s.without i := by
    rw [ApiState.without, ApiState.without, hshared, hreq, Function.update_idem]
  cases a with
  | begin j body idempotencyKey =>
    obtain rfl : j = i := by simpa [ApiAction.isOf] using ha
    obtain ⟨-, hshared, hreq⟩ := step_begin h
    exact hsame hshared hreq
  | request j b =>
    obtain rfl : j = i := by simpa [ApiAction.isOf] using ha
    obtain ⟨r, r', hr, hmove, hreq⟩ := step_request h
    have hr' : t.requests j = some r' := by rw [hreq, Function.update_self]
    have hnot := hclaim r' hr'
    have hnot' := haccept r' hr'
    refine hsame ?_ hreq
    generalize t.shared = sh at hmove
    cases hmove with
    | claim _ _ _ _ => exact absurd hnot (by simp)
    | accept _ _ _ _ => exact absurd rfl (hnot' _ _)
    | wait _ | compare _ _ | failOpen _ _ | conflict _ _ | refuse _ _ _ _ => rfl
  | background b => exact absurd ha (by simp [ApiAction.isOf])

/-! ## Erasing a refusal -/

/-- Until it is answered, a request does not see its answer. -/
theorem requestStep_unanswered {sh : Shared} {r : Request} {a : RequestAction}
    (ha : ∀ uuid4 now, a ≠ .finish uuid4 now) :
    requestStep sha256 uuid5 sh { r with response := none } a
      = (requestStep sha256 uuid5 sh r a).map fun p ↦ (p.1, { p.2 with response := none }) := by
  have hkey : ({ r with response := none } : Request).key = r.key := rfl
  cases a with
  | finish uuid4 now => exact absurd rfl (ha uuid4 now)
  | setNx =>
    simp only [requestStep, hkey]
    split
    · split <;> rfl
    · rfl
  | get =>
    simp only [requestStep, hkey]
    split <;> rfl
  | redisError took =>
    simp only [requestStep, hkey]
    split
    · split <;> rfl
    · rfl
    · rfl

/-- The other steps do not see the answer of request `i`. -/
theorem step_unanswered {i : ι} {a : ApiAction ι} (ha : a.answers i = false)
    (h : (apiMachine ι sha256 uuid5).step s a = some t) :
    (apiMachine ι sha256 uuid5).step (s.unanswered i) a = some (t.unanswered i) := by
  have hother {j : ι} (hji : j ≠ i) : (s.unanswered i).requests j = s.requests j :=
    Function.update_of_ne hji _ _
  cases a with
  | begin j body idempotencyKey =>
    obtain ⟨hnone, hshared, hreq⟩ := step_begin h
    obtain ⟨shared, requests⟩ := t
    obtain rfl : shared = s.shared := hshared
    obtain rfl : requests = _ := hreq
    by_cases hji : j = i
    · subst hji
      have hnone' : (s.unanswered j).requests j = none := by simp [ApiState.unanswered, hnone]
      simp only [apiMachine, hnone']
      simp [ApiState.unanswered, Request.new]
    · simp only [apiMachine, (hother hji).trans hnone]
      simp only [ApiState.unanswered, Function.update_comm hji,
        Function.update_of_ne (Ne.symm hji)]
  | request j b =>
    obtain ⟨r, hr, hstep⟩ := Option.bind_eq_some_iff.mp h
    obtain ⟨⟨sh, r'⟩, hmove, rfl⟩ := Option.map_eq_some_iff.mp hstep
    -- A step of the request itself, before its answer, does not read the answer.
    by_cases hji : j = i
    · subst hji
      have hb : ∀ uuid4 now, b ≠ .finish uuid4 now := by
        rintro uuid4 now rfl
        exact absurd ha (by simp [ApiAction.answers])
      have hr' : (s.unanswered j).requests j = some { r with response := none } := by
        simp [ApiState.unanswered, hr]
      have hmove' : requestStep sha256 uuid5 (s.unanswered j).shared { r with response := none } b
          = some (sh, { r' with response := none }) := by
        rw [requestStep_unanswered hb]
        exact congrArg _ hmove
      simp only [apiMachine, hr', Option.bind_some, hmove', Option.map_some]
      simp [ApiState.unanswered]
    · have hmove' : requestStep sha256 uuid5 (s.unanswered i).shared r b = some (sh, r') := hmove
      simp only [apiMachine, (hother hji).trans hr, Option.bind_some, hmove', Option.map_some]
      simp only [ApiState.unanswered, Function.update_comm hji,
        Function.update_of_ne (Ne.symm hji)]
  | background b =>
    obtain ⟨sh, hsh, rfl⟩ := Option.map_eq_some_iff.mp h
    exact Option.map_eq_some_iff.mpr ⟨sh, hsh, rfl⟩

omit [DecidableEq ι] in
theorem exists_finish_of_answers [DecidableEq ι] {i : ι} {a : ApiAction ι}
    (ha : a.answers i = true) : ∃ uuid4 now, a = .request i (.finish uuid4 now) := by
  cases a with
  | begin _ _ _ | background _ => exact absurd ha (by simp [ApiAction.answers])
  | request j b =>
    cases b with
    | setNx | get | redisError _ => exact absurd ha (by simp [ApiAction.answers])
    | finish uuid4 now =>
      obtain rfl : j = i := by simpa [ApiAction.answers] using ha
      exact ⟨uuid4, now, rfl⟩

/-- A refusal changes nothing but the answer of its request. -/
theorem unanswered_of_step {i : ι} {a : ApiAction ι} (ha : a.answers i = true)
    (h : (apiMachine ι sha256 uuid5).step s a = some t)
    (haccept : ∀ r, t.requests i = some r → ∀ eventId now, ¬ r.Accepted eventId now) :
    t.unanswered i = s.unanswered i := by
  obtain ⟨uuid4, now, rfl⟩ := exists_finish_of_answers ha
  obtain ⟨r, r', hr, hmove, hreq⟩ := step_request h
  have hr' : t.requests i = some r' := by rw [hreq, Function.update_self]
  have hnot := haccept r' hr'
  obtain ⟨hshared, hsame⟩ : t.shared = s.shared ∧
      ({ r' with response := none } : Request) = { r with response := none } := by
    generalize t.shared = sh at hmove
    cases hmove with
    | claim ha _ _ _ => exact absurd ha (by simp)
    | accept _ _ _ _ => exact absurd rfl (hnot _ _)
    | conflict _ _ | refuse _ _ _ _ => exact ⟨rfl, rfl⟩
  rw [ApiState.unanswered, ApiState.unanswered, hshared, hreq, Function.update_idem,
    Function.update_self, hr, Option.map_some, Option.map_some, hsame]

/-! ## Claims -/

/-- A request with that fingerprint has claimed the key. -/
def Claimant (sha256 : String → String) (s : ApiState ι) (key fingerprint : String) : Prop :=
  ∃ l p, s.requests l = some p ∧ p.key = some key ∧ p.claimed = true ∧
    idempotencyFingerprint sha256 p.body = fingerprint

theorem Claimant.step {a : ApiAction ι} {key fingerprint : String}
    (h : Claimant sha256 s key fingerprint)
    (hstep : (apiMachine ι sha256 uuid5).step s a = some t) :
    Claimant sha256 t key fingerprint := by
  obtain ⟨l, p, hp, hkey, hclaimed, hfp⟩ := h
  obtain ⟨p', hp', hlater⟩ := later_step hstep hp
  exact ⟨l, p', hp', hlater.key_eq.trans hkey, hlater.claimed hclaimed, hlater.body ▸ hfp⟩

/-- What holds a key, and what a request was in conflict with, has been claimed by a request. -/
structure Attributed (sha256 : String → String) (s : ApiState ι) : Prop where
  held : ∀ k f, s.shared.redis (redisKey k) = some f → Claimant sha256 s k f
  conflict : ∀ j q f, s.requests j = some q → q.phase = .checked .conflict → q.found = some f →
    f ≠ idempotencyFingerprint sha256 q.body ∧ ∃ k, q.key = some k ∧ Claimant sha256 s k f
  answered : ∀ j q, s.requests j = some q → q.response = some .conflict →
    q.phase = .checked .conflict

theorem conflict_ne_ofIngestError (e : IngestError) :
    Response.ofIngestError e ≠ Response.conflict := by
  cases e <;> decide

/-- The keyspace after a step of a request. -/
theorem RequestMove.redis {sh sh' : Shared} {r r' : Request} {a : RequestAction}
    (h : RequestMove sha256 uuid5 sh r a sh' r') {k f : String}
    (hk : sh'.redis (redisKey k) = some f) : sh.redis (redisKey k) = some f ∨
      r'.key = some k ∧ r'.claimed = true ∧ idempotencyFingerprint sha256 r'.body = f := by
  cases h with
  | wait _ | compare _ _ | failOpen _ _ | conflict _ _ | refuse _ _ _ _ | accept _ _ _ _ =>
    exact Or.inl hk
  | @claim _ key _ _ hkey _ =>
    dsimp only at hk
    by_cases hkk : redisKey k = redisKey key
    · obtain rfl := redisKey_injective hkk
      rw [Function.update_self] at hk
      exact Or.inr ⟨hkey, rfl, Option.some.inj hk⟩
    · rw [Function.update_of_ne hkk] at hk
      exact Or.inl hk

/-- The keyspace after a step in the background. -/
theorem redis_of_backgroundStep {sh sh' : Shared} {a : BackgroundAction}
    (h : backgroundStep sh a = some sh') {k f : String} (hk : sh'.redis k = some f) :
    sh.redis k = some f := by
  cases a with
  | expire l =>
    obtain ⟨-, rfl⟩ := backgroundStep_expire h
    dsimp only [expireKey] at hk
    by_cases hkl : k = l
    · rw [hkl, Function.update_self] at hk
      exact absurd hk (by simp)
    · rwa [Function.update_of_ne hkl] at hk
  | stopAccepting =>
    obtain rfl := Option.some.inj h
    exact hk
  | take =>
    obtain ⟨x, q, -, rfl⟩ := backgroundStep_take h
    exact hk
  | write n =>
    obtain ⟨x, -, -, rfl⟩ := backgroundStep_write h
    exact hk

/-- What a request was in conflict with is what it found. -/
theorem RequestMove.found {sh sh' : Shared} {r r' : Request} {a : RequestAction}
    (h : RequestMove sha256 uuid5 sh r a sh' r') {f : String}
    (hphase : r'.phase = .checked .conflict) (hfound : r'.found = some f) :
    r.phase = .checked .conflict ∧ r.found = some f ∨
      f ≠ idempotencyFingerprint sha256 r.body ∧
        ∃ k, r.key = some k ∧ sh.redis (redisKey k) = some f := by
  cases h with
  | claim _ _ _ _ | wait _ | failOpen _ _ => exact absurd hphase (by simp)
  | conflict _ _ | refuse _ _ _ _ | accept _ _ _ _ => exact Or.inl ⟨hphase, hfound⟩
  | compare _ hkey =>
    have hclass := classify_eq_conflict.mp (RequestPhase.checked.inj hphase)
    exact Or.inr ⟨fun hf ↦ hclass (hf ▸ hfound), _, hkey, hfound⟩

/-- A 409 comes of a conflict. -/
theorem RequestMove.answered {sh sh' : Shared} {r r' : Request} {a : RequestAction}
    (h : RequestMove sha256 uuid5 sh r a sh' r')
    (hold : r.response = some .conflict → r.phase = .checked .conflict)
    (hresponse : r'.response = some .conflict) : r'.phase = .checked .conflict := by
  cases h with
  | claim _ hphase _ _ | wait hphase | compare hphase _ =>
    exact absurd (hphase.symm.trans (hold hresponse)) (by simp)
  | failOpen hphase _ =>
    rcases hphase with hphase | hphase <;>
      exact absurd (hphase.symm.trans (hold hresponse)) (by simp)
  | conflict hphase _ => exact hphase
  | refuse e _ _ _ => exact absurd (Option.some.inj hresponse) (conflict_ne_ofIngestError e)
  | accept _ _ _ _ => exact absurd (Option.some.inj hresponse) (by simp [Response.conflict])

theorem attributed_step {a : ApiAction ι} (hs : Attributed sha256 s)
    (h : (apiMachine ι sha256 uuid5).step s a = some t) : Attributed sha256 t := by
  have hold : ∀ j q f, s.requests j = some q → q.phase = .checked .conflict → q.found = some f →
      f ≠ idempotencyFingerprint sha256 q.body ∧ ∃ k, q.key = some k ∧ Claimant sha256 t k f := by
    intro j q f hq hphase hfound
    obtain ⟨hne, k, hk, hclaim⟩ := hs.conflict j q f hq hphase hfound
    exact ⟨hne, k, hk, hclaim.step h⟩
  cases a with
  | begin i body idempotencyKey =>
    obtain ⟨-, hshared, hreq⟩ := step_begin h
    refine ⟨fun k f hk ↦ (hs.held k f (hshared ▸ hk)).step h, fun j q f hq hphase hfound ↦ ?_,
      fun j q hq hresponse ↦ ?_⟩
    · rcases requests_update (hreq ▸ hq) with ⟨-, rfl⟩ | ⟨-, hq⟩
      · exact absurd hfound (by simp [Request.new])
      · exact hold j q f hq hphase hfound
    · rcases requests_update (hreq ▸ hq) with ⟨-, rfl⟩ | ⟨-, hq⟩
      · exact absurd hresponse (by simp [Request.new])
      · exact hs.answered j q hq hresponse
  | request i b =>
    obtain ⟨r, r', hr, hmove, hreq⟩ := step_request h
    refine ⟨fun k f hk ↦ ?_, fun j q f hq hphase hfound ↦ ?_, fun j q hq hresponse ↦ ?_⟩
    · -- A key held now was held before, or is this request's claim.
      rcases hmove.redis hk with hk | ⟨hkey, hclaimed, hfp⟩
      · exact (hs.held k f hk).step h
      · exact ⟨i, r', by rw [hreq, Function.update_self], hkey, hclaimed, hfp⟩
    · rcases requests_update (hreq ▸ hq) with ⟨-, rfl⟩ | ⟨-, hq⟩
      · rw [hmove.later.body, hmove.later.key_eq]
        rcases hmove.found hphase hfound with ⟨hphase, hfound⟩ | ⟨hne, k, hk, hheld⟩
        · exact hold i r f hr hphase hfound
        · exact ⟨hne, k, hk, (hs.held k f hheld).step h⟩
      · exact hold j q f hq hphase hfound
    · rcases requests_update (hreq ▸ hq) with ⟨-, rfl⟩ | ⟨-, hq⟩
      · exact hmove.answered (hs.answered i r hr) hresponse
      · exact hs.answered j q hq hresponse
  | background b =>
    obtain ⟨hsh, hreq⟩ := step_background h
    refine ⟨fun k f hk ↦ ?_, fun j q f hq ↦ hold j q f (hreq ▸ hq), fun j q hq ↦ ?_⟩
    · exact (hs.held k f (redis_of_backgroundStep hsh hk)).step h
    · exact hs.answered j q (hreq ▸ hq)

theorem attributed_init (h : (apiMachine ι sha256 uuid5).init s) : Attributed sha256 s := by
  obtain ⟨⟨maxSize, hshared⟩, hnone⟩ := h
  refine ⟨fun k f hk ↦ ?_, fun j q f hq ↦ ?_, fun j q hq ↦ ?_⟩
  · rw [hshared] at hk
    exact absurd hk (by simp)
  · exact absurd hq (by simp [hnone])
  · exact absurd hq (by simp [hnone])

/-! ## Whole runs -/

/-- A request that is refused in the end is accepted at no time before. -/
theorem not_accepted_of_refused {as : List (ApiAction ι)} {i : ι} {q r : Request}
    (hrun : (apiMachine ι sha256 uuid5).exec s as = some t) (hq : s.requests i = some q)
    (hr : t.requests i = some r) (hrefused : r.Refused) (eventId : String) (now : DateTime) :
    ¬ q.Accepted eventId now := by
  intro hacc
  obtain ⟨r', hr', hlater⟩ := later_exec hrun hq
  obtain rfl := Option.some.inj (hr.symm.trans hr')
  obtain ⟨e, he⟩ := hrefused
  have hboth := he.symm.trans (hlater.response _ hacc)
  cases e <;> exact absurd (Option.some.inj hboth) (by simp [Response.ofIngestError])

/-- A request that has not claimed its key in the end has not claimed it before. -/
theorem not_claimed_of_later {as : List (ApiAction ι)} {i : ι} {q r : Request}
    (hrun : (apiMachine ι sha256 uuid5).exec s as = some t) (hq : s.requests i = some q)
    (hr : t.requests i = some r) (hclaimed : r.claimed = false) : q.claimed = false := by
  obtain ⟨r', hr', hlater⟩ := later_exec hrun hq
  obtain rfl := Option.some.inj (hr.symm.trans hr')
  by_contra hnot
  exact absurd (hlater.claimed (by simpa using hnot)) (by simp [hclaimed])

/-- A refused request that has not claimed its key can be erased from the run. -/
theorem exec_without {as : List (ApiAction ι)} {i : ι} {r : Request}
    (hnone : ∀ j, s.requests j = none) (hrun : (apiMachine ι sha256 uuid5).exec s as = some t)
    (hr : t.requests i = some r) (hrefused : r.Refused) (hclaimed : r.claimed = false) :
    (apiMachine ι sha256 uuid5).exec s (as.filter fun a ↦ !a.isOf i) = some (t.without i) := by
  have hstart : s.without i = s := by
    rw [ApiState.without, ← hnone i, Function.update_eq_self]
  have herased : (apiMachine ι sha256 uuid5).exec (s.without i)
      (as.filter fun a ↦ !a.isOf i) = some (t.without i) := by
    refine Machine.exec_filter (ApiState.without · i) (fun a ↦ !a.isOf i)
      (fun u a v ha hstep ↦ step_without (by simpa using ha) hstep) ?_ hrun
    rintro bs a cs u rfl hu ha v hv
    have hrest := Machine.exec_after _ hrun hu hv
    exact without_of_step (by simpa using ha) hv
      (fun q hq ↦ not_claimed_of_later hrest hq hr hclaimed)
      (fun q hq ↦ not_accepted_of_refused hrest hq hr hrefused)
  rwa [hstart] at herased

/-- A refusal can be erased from the run. -/
theorem exec_unanswered {as : List (ApiAction ι)} {i : ι} {r : Request}
    (hnone : ∀ j, s.requests j = none) (hrun : (apiMachine ι sha256 uuid5).exec s as = some t)
    (hr : t.requests i = some r) (hrefused : r.Refused) :
    (apiMachine ι sha256 uuid5).exec s (as.filter fun a ↦ !a.answers i)
      = some (t.unanswered i) := by
  have hstart : s.unanswered i = s := by
    rw [ApiState.unanswered, hnone i, Option.map_none, ← hnone i, Function.update_eq_self]
  have herased : (apiMachine ι sha256 uuid5).exec (s.unanswered i)
      (as.filter fun a ↦ !a.answers i) = some (t.unanswered i) := by
    refine Machine.exec_filter (ApiState.unanswered · i) (fun a ↦ !a.answers i)
      (fun u a v ha hstep ↦ step_unanswered (by simpa using ha) hstep) ?_ hrun
    rintro bs a cs u rfl hu ha v hv
    have hrest := Machine.exec_after _ hrun hu hv
    exact unanswered_of_step (by simpa using ha) hv
      (fun q hq ↦ not_accepted_of_refused hrest hq hr hrefused)
  rwa [hstart] at herased

/-- **A refused request leaves its claim, and nothing else.** Without the refusal, and if the
request has not claimed its key without the whole request, the run is the same for everybody else.
A request whose `GET` found a fingerprint is answered 409 only if another request, with the same key
and a different body, has claimed the key. -/
theorem refusal_leaves_claim (sha256 uuid5 : String → String) (s t : ApiState ι)
    (as : List (ApiAction ι)) (hinit : (apiMachine ι sha256 uuid5).init s)
    (hrun : (apiMachine ι sha256 uuid5).exec s as = some t) :
    (∀ i r, t.requests i = some r → r.Refused →
      (apiMachine ι sha256 uuid5).exec s (as.filter fun a ↦ !a.answers i)
          = some (t.unanswered i) ∧
        (r.claimed = false →
          (apiMachine ι sha256 uuid5).exec s (as.filter fun a ↦ !a.isOf i)
            = some (t.without i))) ∧
      (∀ j q, t.requests j = some q → q.response = some .conflict →
        q.phase = .checked .conflict) ∧
      ∀ j q f, t.requests j = some q → q.phase = .checked .conflict → q.found = some f →
        ∃ l p, l ≠ j ∧ t.requests l = some p ∧ p.key ≠ none ∧ p.key = q.key ∧
          p.claimed = true ∧ p.body ≠ q.body := by
  have ht : Attributed sha256 t :=
    Machine.exec_preserves (fun _ _ _ hs hstep ↦ attributed_step hs hstep) (attributed_init hinit)
      hrun
  refine ⟨fun i r hr hrefused ↦ ⟨exec_unanswered hinit.2 hrun hr hrefused,
    exec_without hinit.2 hrun hr hrefused⟩, ht.answered, fun j q f hq hphase hfound ↦ ?_⟩
  obtain ⟨hne, k, hk, l, p, hp, hpk, hclaimed, rfl⟩ := ht.conflict j q f hq hphase hfound
  refine ⟨l, p, ?_, hp, by simp [hpk], hpk.trans hk.symm, hclaimed, fun hbody ↦ ?_⟩
  · rintro rfl
    obtain rfl := Option.some.inj (hp.symm.trans hq)
    exact hne rfl
  · exact hne (by rw [hbody])

/-! ## A conflict with a refused request -/

/-- The queue is full when request 1 arrives, and has room again for request 2. -/
def crowdedRun : List (ApiAction (Fin 3)) :=
  [.begin 0 (sampleBody "page_view") none, .request 0 (.finish "u0" .epoch),
    .begin 1 (sampleBody "page_view") (some "k"), .request 1 .setNx,
    .request 1 (.finish "" .epoch), .background .take,
    .begin 2 (sampleBody "click") (some "k"), .request 2 .setNx, .request 2 .get]

/-- Request 2 is answered. -/
def crowdedAnswer : ApiAction (Fin 3) := .request 2 (.finish "" .epoch)

/-- Request 1 is refused, and request 2 in conflict with it. -/
theorem exec_crowdedRun {sha256 uuid5 : String → String}
    (hne : idempotencyFingerprint sha256 (sampleBody "page_view")
      ≠ idempotencyFingerprint sha256 (sampleBody "click")) :
    ∃ t, (apiMachine (Fin 3) sha256 uuid5).exec .open (crowdedRun ++ [crowdedAnswer]) = some t ∧
      (t.requests 0).map Request.key = some none ∧
      (t.requests 1).bind Request.response = some (.ofIngestError .queueFull) ∧
      (t.requests 2).bind Request.response = some .conflict := by
  have hclass : classify (idempotencyFingerprint sha256 (sampleBody "click"))
      (some (idempotencyFingerprint sha256 (sampleBody "page_view"))) = .conflict :=
    classify_eq_conflict.mpr (by simpa using hne)
  obtain ⟨u, hu, h0, h1, q, h2, hphase, hnone⟩ :
      ∃ u, (apiMachine (Fin 3) sha256 uuid5).exec .open crowdedRun = some u ∧
        (u.requests 0).map Request.key = some none ∧
        (u.requests 1).bind Request.response = some (.ofIngestError .queueFull) ∧
        ∃ q, u.requests 2 = some q ∧ q.phase = .checked (classify
          (idempotencyFingerprint sha256 (sampleBody "click"))
          (some (idempotencyFingerprint sha256 (sampleBody "page_view")))) ∧ q.response = none :=
    ⟨_, rfl, rfl, rfl, _, rfl, rfl, rfl⟩
  rw [hclass] at hphase
  refine ⟨⟨u.shared, Function.update u.requests 2 (some { q with response := some .conflict })⟩,
    (Machine.exec_concat_eq_some _).mpr ⟨u, hu, ?_⟩, h0, h1, ?_⟩
  · simp only [crowdedAnswer, apiMachine, h2, Option.bind_some, requestStep, hphase, hnone,
      Option.map_some]
  · simp

theorem crowdedRun_leaves_claim :
    ∃ t, (apiMachine (Fin 3) sampleSha256 sampleUuid5).exec .open (crowdedRun ++ [crowdedAnswer])
        = some t ∧
      (∀ i r, t.requests i = some r → r.Refused →
        (apiMachine (Fin 3) sampleSha256 sampleUuid5).exec .open
            ((crowdedRun ++ [crowdedAnswer]).filter fun a ↦ !a.answers i)
            = some (t.unanswered i) ∧
          (r.claimed = false →
            (apiMachine (Fin 3) sampleSha256 sampleUuid5).exec .open
              ((crowdedRun ++ [crowdedAnswer]).filter fun a ↦ !a.isOf i)
              = some (t.without i))) ∧
      (∀ j q, t.requests j = some q → q.response = some .conflict →
        q.phase = .checked .conflict) ∧
      ∀ j q f, t.requests j = some q → q.phase = .checked .conflict → q.found = some f →
        ∃ l p, l ≠ j ∧ t.requests l = some p ∧ p.key ≠ none ∧ p.key = q.key ∧
          p.claimed = true ∧ p.body ≠ q.body := by
  obtain ⟨t, hrun, -⟩ := @exec_crowdedRun sampleSha256 sampleUuid5 sampleSha256_ne
  exact ⟨t, hrun, refusal_leaves_claim sampleSha256 sampleUuid5 .open t _ (open_init _ _) hrun⟩

/-- No request with the key was accepted, and yet one is answered 409. -/
theorem crowdedRun_conflicts :
    ¬ ∀ (s t : ApiState (Fin 3)) (as : List (ApiAction (Fin 3))),
      (apiMachine (Fin 3) sampleSha256 sampleUuid5).init s →
      (apiMachine (Fin 3) sampleSha256 sampleUuid5).exec s as = some t →
      ∀ j q, t.requests j = some q → q.response = some .conflict →
        ∃ l p eventId now, t.requests l = some p ∧ p.key = q.key ∧ p.key ≠ none ∧
          p.body ≠ q.body ∧ p.Accepted eventId now := by
  intro h
  obtain ⟨t, hrun, h0, h1, h2⟩ := @exec_crowdedRun sampleSha256 sampleUuid5 sampleSha256_ne
  obtain ⟨q, hq, hconflict⟩ := Option.bind_eq_some_iff.mp h2
  obtain ⟨l, p, eventId, now, hp, -, hkey, -, hacc⟩ :=
    h .open t _ (open_init _ _) hrun 2 q hq hconflict
  have hresponse : (t.requests l).bind Request.response = some (.accepted eventId now) :=
    Option.bind_eq_some_iff.mpr ⟨p, hp, hacc⟩
  match l with
  | 0 =>
    obtain ⟨p', hp', hnone⟩ := Option.map_eq_some_iff.mp h0
    obtain rfl := Option.some.inj (hp.symm.trans hp')
    exact hkey hnone
  | 1 => exact absurd (h1.symm.trans hresponse) (by simp [Response.ofIngestError])
  | 2 => exact absurd (h2.symm.trans hresponse) (by simp [Response.conflict])

end Acheron
