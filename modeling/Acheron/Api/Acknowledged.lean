import Acheron.Api.CreateEvent

/-!
# Acknowledged payloads

What becomes of a request answered 202. Two mechanisms decide it. The claim on its key decides
whether a second body is accepted, and lapses; the id derived from the key decides whether the
second body is stored, and does not lapse. Within one life of the claim the two agree: all the
bodies cleared under it have one fingerprint, so the document of any of them is a faithful copy of
each. Across an expiry they need not, and the first document written stays.

`epoch` numbers the lives of a claim, and `Agreeing` is the statement about one life. `Named` and
`Tracked` follow the documents from `ingest` to the collection.
-/

open Runs

namespace Acheron

/-- The events accepted and not yet written. -/
def Shared.waiting (sh : Shared) : List EventDocument := sh.queue.items ++ sh.taken

variable {ι : Type} [DecidableEq ι] {sha256 uuid5 : String → String} {s t : ApiState ι}

/-- What is assumed of a step: Redis is reachable, and a `uuid4` is neither a `uuid5` nor the id of
a request answered before. -/
def Assumed (uuid5 : String → String) (s : ApiState ι) : ApiAction ι → Prop
  | .request _ (.redisError _) => False
  | .request i (.finish uuid4 _) => ∀ r, s.requests i = some r → r.key = none →
      (∀ key, uuid4 ≠ uuid5 key) ∧
        ∀ j q now, s.requests j = some q → ¬ q.Accepted uuid4 now
  | _ => True

/-! ## One life of a claim -/

/-- While the claim lasts under which a request was cleared, it holds the fingerprint of the
request; so the requests cleared under one claim have one fingerprint. -/
structure Agreeing (sha256 : String → String) (s : ApiState ι) : Prop where
  current : ∀ i r k, s.requests i = some r → r.key = some k → r.Cleared →
    r.epoch ≤ s.shared.expiries (redisKey k) ∧
      (r.epoch = s.shared.expiries (redisKey k) →
        s.shared.redis (redisKey k) = some (idempotencyFingerprint sha256 r.body))
  agreed : ∀ i j r q k, s.requests i = some r → s.requests j = some q → r.key = some k →
    q.key = some k → r.Cleared → q.Cleared → r.epoch = q.epoch →
      idempotencyFingerprint sha256 r.body = idempotencyFingerprint sha256 q.body

theorem Request.not_cleared_new {body : EventCreate} {idempotencyKey : Option String} {k : String}
    (hk : (Request.new body idempotencyKey).key = some k) :
    ¬ (Request.new body idempotencyKey).Cleared := by
  rintro ⟨result, hphase, -⟩
  rw [Request.new, Request.key] at hk
  dsimp only at hk
  rw [Request.new, hk, if_neg (by simp)] at hphase
  exact absurd hphase (by simp)

/-- A request cleared after a step of its own was cleared before it, or holds its key now. -/
theorem RequestMove.cleared {sh sh' : Shared} {r r' : Request} {a : RequestAction}
    (h : RequestMove sha256 uuid5 sh r a sh' r') (ha : ∀ took, a ≠ .redisError took) {k : String}
    (hk : r.key = some k) (hcleared : r'.Cleared) :
    r.Cleared ∧ r'.epoch = r.epoch ∨
      r'.epoch = sh.expiries (redisKey k) ∧
        sh'.redis (redisKey k) = some (idempotencyFingerprint sha256 r.body) := by
  obtain ⟨result, hresult, hne⟩ := hcleared
  cases h with
  | @claim _ key _ _ hkey hfree =>
    obtain rfl := Option.some.inj (hk.symm.trans hkey)
    exact Or.inr ⟨rfl, Function.update_self _ _ _⟩
  | wait _ => exact absurd hresult (by simp)
  | compare _ hkey =>
    obtain rfl := Option.some.inj (hk.symm.trans hkey)
    have hclass := RequestPhase.checked.inj hresult
    exact Or.inr ⟨rfl, not_imp_comm.mp classify_eq_conflict.mpr (hclass ▸ hne)⟩
  | @failOpen took _ _ _ => exact absurd rfl (ha took)
  | conflict _ _ | refuse _ _ _ _ | accept _ _ _ _ => exact Or.inl ⟨⟨result, hresult, hne⟩, rfl⟩

/-- A step of a request takes nothing from the keyspace and lets nothing expire. -/
theorem RequestMove.held {sh sh' : Shared} {r r' : Request} {a : RequestAction}
    (h : RequestMove sha256 uuid5 sh r a sh' r') :
    sh'.expiries = sh.expiries ∧ ∀ k f, sh.redis k = some f → sh'.redis k = some f := by
  cases h with
  | wait _ | compare _ _ | failOpen _ _ | conflict _ _ | refuse _ _ _ _ | accept _ _ _ _ =>
    exact ⟨rfl, fun _ _ ↦ id⟩
  | @claim _ key _ _ _ hfree =>
    refine ⟨rfl, fun k f hk ↦ ?_⟩
    have hne : k ≠ redisKey key := by
      rintro rfl
      exact absurd (hfree.symm.trans hk) (by simp)
    exact (Function.update_of_ne hne _ _).trans hk

/-- What a step in the background does to the claims. -/
theorem held_of_backgroundStep {sh sh' : Shared} {a : BackgroundAction}
    (h : backgroundStep sh a = some sh') (k : String) :
    sh'.expiries k = sh.expiries k ∧ sh'.redis k = sh.redis k ∨
      sh'.expiries k = sh.expiries k + 1 := by
  cases a with
  | expire l =>
    obtain ⟨-, rfl⟩ := backgroundStep_expire h
    by_cases hkl : k = l
    · subst hkl
      exact Or.inr (Function.update_self _ _ _)
    · exact Or.inl ⟨Function.update_of_ne hkl _ _, Function.update_of_ne hkl _ _⟩
  | stopAccepting =>
    obtain rfl := Option.some.inj h
    exact Or.inl ⟨rfl, rfl⟩
  | take =>
    obtain ⟨x, q, -, rfl⟩ := backgroundStep_take h
    exact Or.inl ⟨rfl, rfl⟩
  | write n =>
    obtain ⟨x, -, -, rfl⟩ := backgroundStep_write h
    exact Or.inl ⟨rfl, rfl⟩

theorem agreeing_step {a : ApiAction ι} (hs : Agreeing sha256 s) (hassumed : Assumed uuid5 s a)
    (h : (apiMachine ι sha256 uuid5).step s a = some t) : Agreeing sha256 t := by
  cases a with
  | begin i body idempotencyKey =>
    obtain ⟨-, hshared, hreq⟩ := step_begin h
    -- A request that begins now has not passed its check.
    have hold {j : ι} {q : Request} {k : String} (hq : t.requests j = some q)
        (hk : q.key = some k) (hcleared : q.Cleared) : s.requests j = some q := by
      rcases requests_update (hreq ▸ hq) with ⟨-, rfl⟩ | ⟨-, hq⟩
      · exact absurd hcleared (Request.not_cleared_new hk)
      · exact hq
    refine ⟨fun j q k hq hk hcleared ↦ ?_, fun j l q p k hq hp hk hk' hc hc' ↦ ?_⟩
    · rw [hshared]
      exact hs.current j q k (hold hq hk hcleared) hk hcleared
    · exact hs.agreed j l q p k (hold hq hk hc) (hold hp hk' hc') hk hk' hc hc'
  | request i b =>
    obtain ⟨r, r', hr, hmove, hreq⟩ := step_request h
    obtain ⟨hexpiries, hheld⟩ := hmove.held
    have hb : ∀ took, b ≠ .redisError took := by
      rintro took rfl
      exact hassumed
    -- Whoever is cleared was cleared before the step, or holds the key.
    have hcase {j : ι} {q : Request} {k : String} (hq : t.requests j = some q)
        (hk : q.key = some k) (hcleared : q.Cleared) :
        (∃ p, s.requests j = some p ∧ p.key = some k ∧ p.Cleared ∧ q.epoch = p.epoch ∧
          q.body = p.body) ∨ q.epoch = s.shared.expiries (redisKey k) ∧
            t.shared.redis (redisKey k) = some (idempotencyFingerprint sha256 q.body) := by
      rcases requests_update (hreq ▸ hq) with ⟨rfl, rfl⟩ | ⟨-, hq⟩
      · have hk' := hmove.later.key_eq.symm.trans hk
        rw [hmove.later.body]
        exact (hmove.cleared hb hk' hcleared).imp_left fun hp ↦ ⟨r, hr, hk', hp.1, hp.2, rfl⟩
      · exact Or.inl ⟨q, hq, hk, hcleared, rfl, rfl⟩
    have hcurrent : ∀ j q k, t.requests j = some q → q.key = some k → q.Cleared →
        q.epoch ≤ t.shared.expiries (redisKey k) ∧
          (q.epoch = t.shared.expiries (redisKey k) →
            t.shared.redis (redisKey k) = some (idempotencyFingerprint sha256 q.body)) := by
      intro j q k hq hk hcleared
      rw [hexpiries]
      rcases hcase hq hk hcleared with ⟨p, hp, hpk, hpc, hepoch, hbody⟩ | ⟨hepoch, hfp⟩
      · obtain ⟨hle, hfp⟩ := hs.current j p k hp hpk hpc
        rw [hepoch, hbody]
        exact ⟨hle, fun heq ↦ hheld _ _ (hfp heq)⟩
      · exact ⟨hepoch.le, fun _ ↦ hfp⟩
    refine ⟨hcurrent, fun j l q p k hq hp hk hk' hc hc' hepoch ↦ ?_⟩
    have hqc := hcurrent j q k hq hk hc
    have hpc := hcurrent l p k hp hk' hc'
    rw [hexpiries] at hqc hpc
    -- Two requests cleared before agreed already; otherwise both fingerprints are the one held.
    rcases hcase hq hk hc with ⟨q₀, hq₀, hqk, hqcl, hqe, hqb⟩ | ⟨he, -⟩
    · rcases hcase hp hk' hc' with ⟨p₀, hp₀, hpk, hpcl, hpe, hpb⟩ | ⟨he, -⟩
      · rw [hqb, hpb]
        exact hs.agreed j l q₀ p₀ k hq₀ hp₀ hqk hpk hqcl hpcl (hqe.symm.trans (hepoch.trans hpe))
      · exact Option.some.inj ((hqc.2 (hepoch.trans he)).symm.trans (hpc.2 he))
    · exact Option.some.inj ((hqc.2 he).symm.trans (hpc.2 (hepoch.symm.trans he)))
  | background b =>
    obtain ⟨hsh, hreq⟩ := step_background h
    refine ⟨fun j q k hq hk hcleared ↦ ?_, fun j l q p k hq hp ↦ ?_⟩
    · obtain ⟨hle, hfp⟩ := hs.current j q k (hreq ▸ hq) hk hcleared
      -- An expiry puts every earlier request into a lifetime of its own.
      rcases held_of_backgroundStep hsh (redisKey k) with ⟨hexpiries, hredis⟩ | hexpiries
      · rw [hexpiries, hredis]
        exact ⟨hle, hfp⟩
      · rw [hexpiries]
        exact ⟨by omega, fun heq ↦ by omega⟩
    · exact hs.agreed j l q p k (hreq ▸ hq) (hreq ▸ hp)

/-! ## Who is accepted, and under which id -/

/-- Every id answered belongs to one request without a key, or to the requests with one key. -/
structure Named (uuid5 : String → String) (s : ApiState ι) : Prop where
  cleared : ∀ i r eventId now, s.requests i = some r → r.Accepted eventId now → r.Cleared
  keyed : ∀ i r eventId now k, s.requests i = some r → r.Accepted eventId now → r.key = some k →
    eventId = uuid5 k
  unkeyed : ∀ i r eventId now, s.requests i = some r → r.Accepted eventId now → r.key = none →
    ∀ k, eventId ≠ uuid5 k
  distinct : ∀ i j r q eventId now now', s.requests i = some r → s.requests j = some q →
    r.Accepted eventId now → q.Accepted eventId now' → r.key = none → q.key = none → i = j

/-- A request accepted after a step of its own was accepted before it, or is accepted by it and its
document is on the queue. -/
theorem RequestMove.accepted {sh sh' : Shared} {r r' : Request} {a : RequestAction}
    (h : RequestMove sha256 uuid5 sh r a sh' r') {eventId : String} {now : DateTime}
    (hacc : r'.Accepted eventId now) :
    r.Accepted eventId now ∨ r.Cleared ∧
      (∃ uuid4, a = .finish uuid4 now ∧ eventId = assignedId uuid5 r.key uuid4) ∧
      ∃ x ∈ sh'.waiting, x.eventId = eventId := by
  cases h with
  | claim _ _ _ _ | wait _ | compare _ _ | failOpen _ _ => exact Or.inl hacc
  | conflict _ _ => exact absurd (Option.some.inj hacc) (by simp [Response.conflict])
  | refuse e _ _ _ =>
    refine absurd (Option.some.inj hacc) ?_
    cases e <;> simp [Response.ofIngestError]
  | @accept uuid4 now' _ q hphase hresult _ hput =>
    obtain ⟨rfl, rfl⟩ := Response.accepted.inj (Option.some.inj hacc)
    have hitems := (EventQueue.putNowait_eq_some hput).2.1
    have hdoc : r.body.document (assignedId uuid5 r.key uuid4) now' ∈ q.items := by
      rw [hitems]
      exact List.mem_append_right _ List.mem_cons_self
    exact Or.inr ⟨⟨_, hphase, hresult⟩, ⟨uuid4, rfl, rfl⟩, _, List.mem_append_left _ hdoc, rfl⟩

theorem accepted_step {a : ApiAction ι} (h : (apiMachine ι sha256 uuid5).step s a = some t) {i : ι}
    {r : Request} {eventId : String} {now : DateTime} (hr : t.requests i = some r)
    (hacc : r.Accepted eventId now) :
    ∃ q, s.requests i = some q ∧ q.Later r ∧ (q.Accepted eventId now ∨ q.Cleared ∧
      (∃ uuid4, a = .request i (.finish uuid4 now) ∧ eventId = assignedId uuid5 q.key uuid4) ∧
      ∃ x ∈ t.shared.waiting, x.eventId = eventId) := by
  cases a with
  | begin j body idempotencyKey =>
    obtain ⟨-, -, hreq⟩ := step_begin h
    rcases requests_update (hreq ▸ hr) with ⟨-, rfl⟩ | ⟨-, hr⟩
    · exact absurd hacc (by simp [Request.Accepted, Request.new])
    · exact ⟨r, hr, .refl r, Or.inl hacc⟩
  | request j b =>
    obtain ⟨q, q', hq, hmove, hreq⟩ := step_request h
    rcases requests_update (hreq ▸ hr) with ⟨rfl, rfl⟩ | ⟨-, hr⟩
    · refine ⟨q, hq, hmove.later, (hmove.accepted hacc).imp_right ?_⟩
      rintro ⟨hcleared, ⟨uuid4, rfl, hid⟩, hwaiting⟩
      exact ⟨hcleared, ⟨uuid4, rfl, hid⟩, hwaiting⟩
    · exact ⟨r, hr, .refl r, Or.inl hacc⟩
  | background b =>
    exact ⟨r, (step_background h).2 ▸ hr, .refl r, Or.inl hacc⟩

theorem named_step {a : ApiAction ι} (hs : Named uuid5 s) (hassumed : Assumed uuid5 s a)
    (h : (apiMachine ι sha256 uuid5).step s a = some t) : Named uuid5 t := by
  constructor
  · intro i r eventId now hr hacc
    obtain ⟨q, hq, hlater, hcase⟩ := accepted_step h hr hacc
    have hcleared : q.Cleared := by
      rcases hcase with hold | ⟨hcleared, -⟩
      · exact hs.cleared i q eventId now hq hold
      · exact hcleared
    obtain ⟨result, hphase, hne⟩ := hcleared
    exact ⟨result, (hlater.checked result hphase).1, hne⟩
  · intro i r eventId now k hr hacc hk
    obtain ⟨q, hq, hlater, hcase⟩ := accepted_step h hr hacc
    rw [hlater.key_eq] at hk
    rcases hcase with hold | ⟨-, ⟨uuid4, -, rfl⟩, -⟩
    · exact hs.keyed i q eventId now k hq hold hk
    · rw [hk, assignedId]
  · intro i r eventId now hr hacc hk
    obtain ⟨q, hq, hlater, hcase⟩ := accepted_step h hr hacc
    rw [hlater.key_eq] at hk
    rcases hcase with hold | ⟨-, ⟨uuid4, rfl, rfl⟩, -⟩
    · exact hs.unkeyed i q eventId now hq hold hk
    · rw [hk]
      exact (hassumed q hq hk).1
  · intro i j r q eventId now now' hr hq hacc hacc' hk hk'
    obtain ⟨r₀, hr₀, hlater, hcase⟩ := accepted_step h hr hacc
    obtain ⟨q₀, hq₀, hlater', hcase'⟩ := accepted_step h hq hacc'
    rw [hlater.key_eq] at hk
    rw [hlater'.key_eq] at hk'
    -- The id of a request accepted now is not the id of one accepted before.
    rcases hcase with hold | ⟨-, ⟨uuid4, rfl, hid⟩, -⟩
    · rcases hcase' with hold' | ⟨-, ⟨uuid4, rfl, hid⟩, -⟩
      · exact hs.distinct i j r₀ q₀ eventId now now' hr₀ hq₀ hold hold' hk hk'
      · rw [hk', assignedId] at hid
        exact absurd (hid ▸ hold) ((hassumed q₀ hq₀ hk').2 i r₀ now hr₀)
    · rcases hcase' with hold' | ⟨-, ⟨uuid4', heq, -⟩, -⟩
      · rw [hk, assignedId] at hid
        exact absurd (hid ▸ hold') ((hassumed r₀ hr₀ hk).2 j q₀ now' hq₀)
      · exact (ApiAction.request.inj heq).1

/-! ## From `ingest` to the collection -/

/-- The event is the document of a request accepted with it. -/
def FromAccepted (s : ApiState ι) (x : EventDocument) : Prop :=
  ∃ i r, s.requests i = some r ∧ r.Accepted x.eventId x.receivedAt ∧
    x = r.body.document x.eventId x.receivedAt

/-- What is waiting or stored comes from an accepted request, and each accepted request has its id
waiting or stored. -/
structure Tracked (s : ApiState ι) : Prop where
  waiting : ∀ x ∈ s.shared.waiting, FromAccepted s x
  stored : ∀ d ∈ s.shared.events.docs, ∃ x, FromAccepted s x ∧ d = (toDoc x).encode
  kept : ∀ i r eventId now, s.requests i = some r → r.Accepted eventId now →
    (∃ x ∈ s.shared.waiting, x.eventId = eventId) ∨ eventId ∈ s.shared.events

theorem FromAccepted.step {a : ApiAction ι} {x : EventDocument} (hx : FromAccepted s x)
    (h : (apiMachine ι sha256 uuid5).step s a = some t) : FromAccepted t x := by
  obtain ⟨i, r, hr, hacc, hdoc⟩ := hx
  obtain ⟨r', hr', hlater⟩ := later_step h hr
  exact ⟨i, r', hr', hlater.response _ hacc, hlater.body ▸ hdoc⟩

/-- What is waiting and stored after a step, told by what was before it and what is `new`. -/
structure Passes (sh sh' : Shared) (new : EventDocument → Prop) : Prop where
  waiting : ∀ x ∈ sh'.waiting, x ∈ sh.waiting ∨ new x
  stored : ∀ d ∈ sh'.events.docs, d ∈ sh.events.docs ∨ ∃ x ∈ sh.waiting, d = (toDoc x).encode
  kept : ∀ x ∈ sh.waiting, x ∈ sh'.waiting ∨ x.eventId ∈ sh'.events
  keeps : ∀ k ∈ sh.events, k ∈ sh'.events

theorem Passes.of_eq {sh sh' : Shared} {new : EventDocument → Prop} (hqueue : sh'.queue = sh.queue)
    (htaken : sh'.taken = sh.taken) (hevents : sh'.events = sh.events) : Passes sh sh' new := by
  have hwaiting : sh'.waiting = sh.waiting := by rw [Shared.waiting, Shared.waiting, hqueue, htaken]
  constructor
  · exact fun x hx ↦ Or.inl (hwaiting ▸ hx)
  · exact fun d hd ↦ Or.inl (hevents ▸ hd)
  · exact fun x hx ↦ Or.inl (hwaiting ▸ hx)
  · exact fun k hk ↦ hevents ▸ hk

theorem passes_of_backgroundStep {sh sh' : Shared} {a : BackgroundAction}
    (h : backgroundStep sh a = some sh') : Passes sh sh' fun _ ↦ False := by
  cases a with
  | expire k =>
    obtain ⟨-, rfl⟩ := backgroundStep_expire h
    exact .of_eq rfl rfl rfl
  | stopAccepting =>
    obtain rfl := Option.some.inj h
    exact .of_eq rfl rfl rfl
  | take =>
    obtain ⟨x, q, hget, rfl⟩ := backgroundStep_take h
    have hitems := (EventQueue.getNowait_eq_some hget).1
    -- The event moves from the queue to a worker.
    have hmem : ∀ y, y ∈ sh.waiting ↔ y ∈ q.items ++ (sh.taken ++ [x]) := by
      intro y
      rw [Shared.waiting, hitems]
      simp only [List.mem_append, List.mem_cons, List.not_mem_nil]
      tauto
    exact ⟨fun y hy ↦ Or.inl ((hmem y).mpr hy), fun _ ↦ Or.inl,
      fun y hy ↦ Or.inl ((hmem y).mp hy), fun _ ↦ id⟩
  | write n =>
    obtain ⟨x, hx, -, rfl⟩ := backgroundStep_write h
    have hxw : x ∈ sh.waiting := List.mem_append_right _ (List.mem_of_getElem? hx)
    -- The event written leaves the worker, and its id is in the collection.
    refine ⟨fun y hy ↦ Or.inl ?_, fun d hd ↦ ?_, fun y hy ↦ ?_, fun _ ↦ mem_bulkWrite_of_mem⟩
    · exact (List.mem_append.mp hy).elim (List.mem_append_left _)
        fun hy ↦ List.mem_append_right _ (List.mem_of_mem_eraseIdx hy)
    · refine (mem_docs_bulkWrite hd).imp_right ?_
      rintro ⟨e, he, rfl⟩
      obtain rfl := List.mem_singleton.mp he
      exact ⟨e, hxw, rfl⟩
    · rcases List.mem_append.mp hy with hy | hy
      · exact Or.inl (List.mem_append_left _ hy)
      · obtain ⟨m, hm⟩ := List.mem_iff_getElem?.mp hy
        by_cases hmn : m = n
        · obtain rfl := Option.some.inj (hx.symm.trans (hmn ▸ hm))
          exact Or.inr (mem_bulkWrite_of_answered List.mem_cons_self)
        · exact Or.inl (List.mem_append_right _
            (List.mem_eraseIdx_iff_getElem?.mpr ⟨m, hmn, hm⟩))

/-- What `ingest` puts on the queue is the document of the request it accepts. -/
theorem RequestMove.passes {sh sh' : Shared} {r r' : Request} {a : RequestAction}
    (h : RequestMove sha256 uuid5 sh r a sh' r') :
    Passes sh sh' (fun x ↦ r'.Accepted x.eventId x.receivedAt ∧
      x = r'.body.document x.eventId x.receivedAt) := by
  cases h with
  | claim _ _ _ _ | wait _ | compare _ _ | failOpen _ _ | conflict _ _ | refuse _ _ _ _ =>
    exact .of_eq rfl rfl rfl
  | accept _ _ _ hput =>
    have hitems := (EventQueue.putNowait_eq_some hput).2.1
    refine ⟨fun x hx ↦ ?_, fun _ ↦ Or.inl, fun x hx ↦ Or.inl ?_, fun _ ↦ id⟩
    · rw [Shared.waiting, hitems, List.append_assoc, List.mem_append, List.singleton_append,
        List.mem_cons] at hx
      rcases hx with hx | rfl | hx
      · exact Or.inl (List.mem_append_left _ hx)
      · exact Or.inr ⟨rfl, rfl⟩
      · exact Or.inl (List.mem_append_right _ hx)
    · rw [Shared.waiting, hitems]
      refine (List.mem_append.mp hx).elim (fun hx ↦ ?_) (List.mem_append_right _)
      exact List.mem_append_left _ (List.mem_append_left _ hx)

theorem tracked_step {a : ApiAction ι} (hs : Tracked s)
    (h : (apiMachine ι sha256 uuid5).step s a = some t) : Tracked t := by
  -- It is enough to follow the documents.
  have hfollow {new : EventDocument → Prop} (hpass : Passes s.shared t.shared new)
      (hnew : ∀ x, new x → FromAccepted t x) : Tracked t := by
    constructor
    · intro x hx
      exact (hpass.waiting x hx).elim (fun hx ↦ (hs.waiting x hx).step h) (hnew x)
    · intro d hd
      rcases hpass.stored d hd with hd | ⟨x, hx, rfl⟩
      · obtain ⟨x, hx, hdx⟩ := hs.stored d hd
        exact ⟨x, hx.step h, hdx⟩
      · exact ⟨x, (hs.waiting x hx).step h, rfl⟩
    · intro i r eventId now hr hacc
      obtain ⟨q, hq, -, hold | ⟨-, -, hwaiting⟩⟩ := accepted_step h hr hacc
      · rcases hs.kept i q eventId now hq hold with ⟨x, hx, rfl⟩ | hmem
        · exact (hpass.kept x hx).imp_left fun hx ↦ ⟨x, hx, rfl⟩
        · exact Or.inr (hpass.keeps eventId hmem)
      · exact Or.inl hwaiting
  cases a with
  | begin j body idempotencyKey =>
    obtain ⟨-, hshared, -⟩ := step_begin h
    have hpass : Passes s.shared t.shared fun _ ↦ False := by
      rw [hshared]
      exact .of_eq rfl rfl rfl
    exact hfollow hpass fun x hx ↦ hx.elim
  | request j b =>
    obtain ⟨q, q', hq, hmove, hreq⟩ := step_request h
    have hq' : t.requests j = some q' := by rw [hreq, Function.update_self]
    exact hfollow hmove.passes fun x hx ↦ ⟨j, q', hq', hx.1, hx.2⟩
  | background b =>
    exact hfollow (passes_of_backgroundStep (step_background h).1) fun x hx ↦ hx.elim

/-! ## Whole runs -/

theorem agreeing_init (h : (apiMachine ι sha256 uuid5).init s) : Agreeing sha256 s := by
  refine ⟨fun i r k hr ↦ ?_, fun i j r q k hr ↦ ?_⟩ <;> exact absurd hr (by simp [h.2])

theorem named_init (h : (apiMachine ι sha256 uuid5).init s) : Named uuid5 s := by
  constructor
  · intro i r eventId now hr
    exact absurd hr (by simp [h.2])
  · intro i r eventId now k hr
    exact absurd hr (by simp [h.2])
  · intro i r eventId now hr
    exact absurd hr (by simp [h.2])
  · intro i j r q eventId now now' hr
    exact absurd hr (by simp [h.2])

theorem tracked_init (h : (apiMachine ι sha256 uuid5).init s) : Tracked s := by
  obtain ⟨⟨maxSize, hshared⟩, hnone⟩ := h
  refine ⟨fun x hx ↦ ?_, fun d hd ↦ ?_, fun i r eventId now hr ↦ ?_⟩
  · rw [hshared] at hx
    exact absurd hx List.not_mem_nil
  · rw [hshared] at hd
    exact absurd hd List.not_mem_nil
  · exact absurd hr (by simp [hnone])

omit [DecidableEq ι] in
/-- Two requests answered with one id are the same request, or have the same key. -/
theorem Named.same_key (hs : Named uuid5 s) (huuid5 : Function.Injective uuid5) {i j : ι}
    {r q : Request} {eventId : String} {now now' : DateTime} (hr : s.requests i = some r)
    (hq : s.requests j = some q) (hacc : r.Accepted eventId now) (hacc' : q.Accepted eventId now') :
    i = j ∨ ∃ k, r.key = some k ∧ q.key = some k := by
  cases hk : r.key with
  | none =>
    cases hk' : q.key with
    | none => exact Or.inl (hs.distinct i j r q eventId now now' hr hq hacc hacc' hk hk')
    | some k =>
      have hkeyed := hs.keyed j q eventId now' k hq hacc' hk'
      exact absurd hkeyed (hs.unkeyed i r eventId now hr hacc hk k)
  | some k =>
    have hid := hs.keyed i r eventId now k hr hacc hk
    cases hk' : q.key with
    | none => exact absurd hid (hs.unkeyed j q eventId now' hq hacc' hk' k)
    | some k' =>
      have hid' := hs.keyed j q eventId now' k' hq hacc' hk'
      exact Or.inr ⟨k, rfl, congrArg some (huuid5 (hid'.symm.trans hid))⟩

/-- **An acknowledged payload is stored, or another one under the same key is.** When everything
accepted has been written, the document under the id of an answered request agrees with the body of
the request, or it is the document of another request answered with the same key, and the claim on
the key expired between the checks of the two. -/
theorem acknowledged_stored (sha256 uuid5 : String → String) (hsha : Function.Injective sha256)
    (huuid5 : Function.Injective uuid5) (s t : ApiState ι) (as : List (ApiAction ι))
    (hinit : (apiMachine ι sha256 uuid5).init s)
    (hrun : (apiMachine ι sha256 uuid5).exec s as = some t)
    (hassumed : (apiMachine ι sha256 uuid5).Along (Assumed uuid5) s as)
    (hdrained : t.shared.waiting = []) :
    ∀ i r eventId now, t.requests i = some r → r.Accepted eventId now →
      ∃ d ∈ t.shared.events.docs, d.id = eventId ∧ (r.body.StoredAs d.event ∨
        ∃ j q now', t.requests j = some q ∧ q.Accepted eventId now' ∧ q.key = r.key ∧
          r.key ≠ none ∧ q.epoch ≠ r.epoch ∧
          d.event = (q.body.document eventId now').mapDates DateTime.toBson) := by
  have hagreeing : Agreeing sha256 t :=
    Machine.exec_preserves_along (fun _ _ _ hs ha hstep ↦ agreeing_step hs ha hstep)
      (agreeing_init hinit) hassumed hrun
  have hnamed : Named uuid5 t :=
    Machine.exec_preserves_along (fun _ _ _ hs ha hstep ↦ named_step hs ha hstep)
      (named_init hinit) hassumed hrun
  have htracked : Tracked t :=
    Machine.exec_preserves (fun _ _ _ hs hstep ↦ tracked_step hs hstep) (tracked_init hinit) hrun
  intro i r eventId now hr hacc
  have hmem : eventId ∈ t.shared.events := by
    rcases htracked.kept i r eventId now hr hacc with ⟨x, hx, -⟩ | hmem
    · exact absurd (hdrained ▸ hx) List.not_mem_nil
    · exact hmem
  obtain ⟨d, hd, hid⟩ := Keyed.Collection.mem_iff_exists.mp hmem
  obtain ⟨x, ⟨j, q, hq, hacc', hdoc⟩, rfl⟩ := htracked.stored d hd
  obtain rfl : x.eventId = eventId := hid
  have hevent : ((toDoc x).encode).event
      = (q.body.document x.eventId x.receivedAt).mapDates DateTime.toBson :=
    congrArg (EventRecord.mapDates DateTime.toBson) hdoc
  refine ⟨(toDoc x).encode, hd, rfl, ?_⟩
  rw [hevent]
  -- The stored document is of the request itself, or of another one with its key.
  rcases hnamed.same_key huuid5 hr hq hacc hacc' with rfl | ⟨k, hk, hk'⟩
  · obtain rfl := Option.some.inj (hr.symm.trans hq)
    exact Or.inl (r.body.storedAs_document _ _)
  · by_cases hepoch : q.epoch = r.epoch
    · have hfp := hagreeing.agreed i j r q k hr hq hk hk' (hnamed.cleared i r _ now hr hacc)
        (hnamed.cleared j q _ _ hq hacc') hepoch.symm
      exact Or.inl (storedAs_of_fingerprint_eq hsha hfp _ _)
    · exact Or.inr ⟨j, q, x.receivedAt, hq, hacc', hk'.trans hk.symm, by simp [hk], hepoch, rfl⟩

/-! ## A payload lost across an expiry -/

/-- Where every request has a key and Redis is reachable, nothing else is assumed. -/
theorem assumed_of_keyed {as : List (ApiAction ι)} (hnone : ∀ i, s.requests i = none)
    (hkey : ∀ i body key, .begin i body key ∈ as → effectiveKey key ≠ none)
    (hredis : ∀ i took, .request i (.redisError took) ∉ as) :
    (apiMachine ι sha256 uuid5).Along (Assumed uuid5) s as := by
  have hall : ∀ a ∈ as, a ∈ as := fun _ ↦ id
  refine Machine.Along.imp_of_invariant (P := fun u ↦ ∀ i r, u.requests i = some r → r.key ≠ none)
    (C := fun _ a ↦ a ∈ as) (fun u a v hu ha hstep i r hr ↦ ?_) (fun u a hu ha ↦ ?_)
    (fun i r hr ↦ absurd hr (by simp [hnone])) (Machine.along_of_forall hall)
  · cases a with
    | begin j body key =>
      obtain ⟨-, -, hreq⟩ := step_begin hstep
      rcases requests_update (hreq ▸ hr) with ⟨-, rfl⟩ | ⟨-, hr⟩
      · exact hkey j body key ha
      · exact hu i r hr
    | request j b =>
      obtain ⟨q, q', hq, hmove, hreq⟩ := step_request hstep
      rcases requests_update (hreq ▸ hr) with ⟨-, rfl⟩ | ⟨-, hr⟩
      · exact hmove.later.key_eq ▸ hu j q hq
      · exact hu i r hr
    | background b => exact hu i r ((step_background hstep).2 ▸ hr)
  · cases a with
    | begin _ _ _ | background _ => trivial
    | request j b =>
      cases b with
      | setNx | get => trivial
      | redisError took => exact hredis j took ha
      | finish uuid4 now => exact fun r hr hk ↦ absurd hk (hu j r hr)

/-- The claim of request 0 expires after its document is written, and request 1 comes with the same
key and another body. -/
def expiredRun : List (ApiAction (Fin 3)) :=
  [.begin 0 (sampleBody "page_view") (some "k"), .request 0 .setNx, .request 0 (.finish "" .epoch),
    .background .take, .background (.write 0), .background (.expire (redisKey "k")),
    .begin 1 (sampleBody "click") (some "k"), .request 1 .setNx, .request 1 (.finish "" .epoch),
    .background .take]

/-- Writing an event whose id is stored already changes nothing that is stored. -/
theorem step_write_of_mem {x : EventDocument} (htaken : s.shared.taken = [x])
    (hencodable : x.bsonEncodable = true) (hold : x.eventId ∈ s.shared.events) :
    (apiMachine ι sha256 uuid5).step s (.background (.write 0))
      = some ⟨{ s.shared with taken := [] }, s.requests⟩ := by
  have hskip : (bulkWrite s.shared.events [x] (.answered fun _ ↦ false)).1 = s.shared.events := by
    rw [bulkWrite_answered, List.map_singleton]
    exact Keyed.Collection.insertMany_cons_mem rfl hold
  simp only [apiMachine, backgroundStep, htaken, List.getElem?_cons_zero, hencodable, if_true,
    hskip, Option.map_some, List.eraseIdx_cons_zero]

/-- The document of request 1 is skipped. -/
theorem exec_expiredRun (sha256 uuid5 : String → String) :
    ∃ t, (apiMachine (Fin 3) sha256 uuid5).exec .open (expiredRun ++ [.background (.write 0)])
        = some t ∧
      t.shared.waiting = [] ∧
      t.shared.events.docs
        = [(toDoc ((sampleBody "page_view").document (uuid5 "k") .epoch)).encode] ∧
      ∃ r, t.requests 1 = some r ∧ r.body = sampleBody "click" ∧
        r.Accepted (uuid5 "k") .epoch := by
  obtain ⟨u, hu, hqueue, htaken, hdocs, hr⟩ :
      ∃ u, (apiMachine (Fin 3) sha256 uuid5).exec .open expiredRun = some u ∧
        u.shared.queue.items = [] ∧
        u.shared.taken = [(sampleBody "click").document (uuid5 "k") .epoch] ∧
        u.shared.events.docs
          = [(toDoc ((sampleBody "page_view").document (uuid5 "k") .epoch)).encode] ∧
        ∃ r, u.requests 1 = some r ∧ r.body = sampleBody "click" ∧
          r.Accepted (uuid5 "k") .epoch :=
    ⟨_, rfl, rfl, rfl, rfl, _, rfl, rfl, rfl⟩
  have hold : uuid5 "k" ∈ u.shared.events :=
    Keyed.Collection.mem_iff_exists.mpr ⟨_, hdocs ▸ List.mem_cons_self, rfl⟩
  exact ⟨_, (Machine.exec_concat_eq_some _).mpr ⟨u, hu, step_write_of_mem htaken rfl hold⟩,
    by rw [Shared.waiting, hqueue]; rfl, hdocs, hr⟩

theorem expiredRun_assumed (sha256 uuid5 : String → String) :
    (apiMachine (Fin 3) sha256 uuid5).Along (Assumed uuid5) .open
      (expiredRun ++ [.background (.write 0)]) := by
  refine assumed_of_keyed (fun _ ↦ rfl) (fun i body key h ↦ ?_) fun i took h ↦ ?_
  · obtain rfl : key = some "k" := by
      simp [expiredRun] at h
      tauto
    decide
  · exact absurd h (by simp [expiredRun])

theorem expiredRun_stored :
    ∃ t, (apiMachine (Fin 3) sampleSha256 sampleUuid5).exec .open
        (expiredRun ++ [.background (.write 0)]) = some t ∧
      ∀ i r eventId now, t.requests i = some r → r.Accepted eventId now →
        ∃ d ∈ t.shared.events.docs, d.id = eventId ∧ (r.body.StoredAs d.event ∨
          ∃ j q now', t.requests j = some q ∧ q.Accepted eventId now' ∧ q.key = r.key ∧
            r.key ≠ none ∧ q.epoch ≠ r.epoch ∧
            d.event = (q.body.document eventId now').mapDates DateTime.toBson) := by
  obtain ⟨t, hrun, hdrained, -⟩ := exec_expiredRun sampleSha256 sampleUuid5
  exact ⟨t, hrun, acknowledged_stored sampleSha256 sampleUuid5 sampleSha256_injective
    sampleUuid5_injective .open t _ (open_init _ _) hrun (expiredRun_assumed _ _) hdrained⟩

/-- Request 1 is answered 202, and nothing stored has its event type. -/
theorem expiredRun_drops :
    ¬ ∀ (sha256 uuid5 : String → String), Function.Injective sha256 → Function.Injective uuid5 →
      ∀ (s t : ApiState (Fin 3)) (as : List (ApiAction (Fin 3))),
        (apiMachine (Fin 3) sha256 uuid5).init s →
        (apiMachine (Fin 3) sha256 uuid5).exec s as = some t →
        (apiMachine (Fin 3) sha256 uuid5).Along (Assumed uuid5) s as →
        t.shared.waiting = [] →
        ∀ i r eventId now, t.requests i = some r → r.Accepted eventId now →
          ∃ d ∈ t.shared.events.docs, d.id = eventId ∧ r.body.StoredAs d.event := by
  intro h
  obtain ⟨t, hrun, hdrained, hdocs, r, hr, hbody, hacc⟩ := exec_expiredRun sampleSha256 sampleUuid5
  obtain ⟨d, hd, -, hstored⟩ := h sampleSha256 sampleUuid5 sampleSha256_injective
    sampleUuid5_injective .open t _ (open_init _ _) hrun (expiredRun_assumed _ _) hdrained 1 r _ _
    hr hacc
  rw [hdocs] at hd
  obtain rfl := List.mem_singleton.mp hd
  have htype : "page_view" = r.body.eventType := hstored.eventType
  rw [hbody] at htype
  exact absurd htype (by decide)

/-! ## A payload stored as another renders -/

/-- A body with one member of metadata. -/
def bodyOfX (x : Json) (h : (Json.obj [("x", x)]).keysDistinct = true) : EventCreate :=
  withMetadata ⟨[("x", x)], h⟩

/-- Two requests with one key in one life of the claim: `{"x": NaN}`, and then `{"x": null}`. -/
def nanRun : List (ApiAction (Fin 3)) :=
  [.begin 0 (bodyOfX (.nonFinite .nan) rfl) (some "k"), .request 0 .setNx,
    .request 0 (.finish "" .epoch), .background .take, .background (.write 0),
    .begin 1 (bodyOfX .null rfl) (some "k"), .request 1 .setNx, .request 1 .get,
    .request 1 (.finish "" .epoch), .background .take, .background (.write 0)]

/-- What the workers find after the `GET` of request 1 has brought the fingerprint of request 0. -/
theorem exec_nanRun (sha256 uuid5 : String → String) :
    ∃ u, (apiMachine (Fin 3) sha256 uuid5).exec .open (nanRun.take 10) = some u ∧
      u.shared.queue.items = [] ∧
      u.shared.taken = [(bodyOfX .null rfl).document (uuid5 "k") .epoch] ∧
      u.shared.events.docs
        = [(toDoc ((bodyOfX (.nonFinite .nan) rfl).document (uuid5 "k") .epoch)).encode] ∧
      ∃ r, u.requests 1 = some r ∧ r.body = bodyOfX .null rfl ∧ r.Accepted (uuid5 "k") .epoch := by
  obtain ⟨redis, requests, events, hfirst, hfound, hrequest, hdocs⟩ :
      ∃ (redis : Redis) (requests : Fin 3 → Option Request) (events : Events),
        (apiMachine (Fin 3) sha256 uuid5).exec .open (nanRun.take 7)
          = some ⟨⟨redis, true, ⟨[], 1, 1, false, by simp⟩, [], events, fun _ ↦ 0⟩, requests⟩ ∧
        redis (redisKey "k")
          = some (idempotencyFingerprint sha256 (bodyOfX (.nonFinite .nan) rfl)) ∧
        requests 1 = some { Request.new (bodyOfX .null rfl) (some "k") with phase := .getting } ∧
        events.docs
          = [(toDoc ((bodyOfX (.nonFinite .nan) rfl).document (uuid5 "k") .epoch)).encode] :=
    ⟨_, _, _, rfl, rfl, rfl, rfl⟩
  -- The two bodies have one dump, so the claim is taken for that of a replay.
  have hsame : idempotencyFingerprint sha256 (bodyOfX (.nonFinite .nan) rfl)
      = idempotencyFingerprint sha256 (bodyOfX .null rfl) := rfl
  have hclass : classify (idempotencyFingerprint sha256 (bodyOfX .null rfl))
      (redis (redisKey "k")) = .replay := if_pos (hfound.trans (congrArg some hsame))
  obtain ⟨v, hget, u, hu, hprops⟩ : ∃ v, (apiMachine (Fin 3) sha256 uuid5).step
      ⟨⟨redis, true, ⟨[], 1, 1, false, by simp⟩, [], events, fun _ ↦ 0⟩, requests⟩
      (.request 1 .get) = some v ∧
        ∃ u, (apiMachine (Fin 3) sha256 uuid5).exec v
            [.request 1 (.finish "" .epoch), .background .take] = some u ∧
          u.shared.queue.items = [] ∧
          u.shared.taken = [(bodyOfX .null rfl).document (uuid5 "k") .epoch] ∧
          u.shared.events = events ∧ ∃ r, u.requests 1 = some r ∧
            r.body = bodyOfX .null rfl ∧ r.Accepted (uuid5 "k") .epoch := by
    refine ⟨⟨⟨redis, true, ⟨[], 1, 1, false, by simp⟩, [], events, fun _ ↦ 0⟩,
      Function.update requests 1 (some { Request.new (bodyOfX .null rfl) (some "k") with
        phase := .checked .replay, found := redis (redisKey "k") })⟩, ?_,
      _, rfl, rfl, rfl, rfl, _, rfl, rfl, rfl⟩
    rw [← hclass]
    simp only [apiMachine, hrequest]
    rfl
  obtain ⟨hqueue, htaken, rfl, hr⟩ := hprops
  exact ⟨u, (Machine.exec_append_eq_some _).mpr ⟨_, hfirst,
    (Machine.exec_cons_eq_some _).mpr ⟨v, hget, hu⟩⟩, hqueue, htaken, hdocs, hr⟩

/-- Request 1 is answered 202, and what is stored is not its metadata but renders as it. -/
theorem nanRun_renders (sha256 uuid5 : String → String) :
    ∃ t r d, (apiMachine (Fin 3) sha256 uuid5).exec .open nanRun = some t ∧
      t.shared.waiting = [] ∧ t.requests 1 = some r ∧ r.Accepted (uuid5 "k") .epoch ∧
      t.shared.events.docs = [d] ∧ r.body.StoredAs d.event ∧
      ¬ Json.Same (.obj d.event.metadata.members) (.obj r.body.metadata.members) := by
  obtain ⟨u, hu, hqueue, htaken, hdocs, r, hr, hbody, hacc⟩ := exec_nanRun sha256 uuid5
  have hold : uuid5 "k" ∈ u.shared.events :=
    Keyed.Collection.mem_iff_exists.mpr ⟨_, hdocs ▸ List.mem_cons_self, rfl⟩
  have hlast : nanRun = nanRun.take 10 ++ [.background (.write 0)] := rfl
  rw [hlast]
  refine ⟨_, r, _, (Machine.exec_concat_eq_some _).mpr ⟨u, hu, step_write_of_mem htaken rfl hold⟩,
    by rw [Shared.waiting, hqueue]; rfl, hr, hacc, hdocs, ?_, ?_⟩
  · rw [hbody]
    exact ⟨rfl, rfl, rfl, fun h ↦ absurd h (by decide), fun _ ↦ .refl _, fun h ↦ absurd h (by decide)⟩
  · rw [hbody]
    intro hsame
    obtain ⟨w, hw, hval⟩ := Json.exists_member_of_sortKeys_eq (hsame.sortKeys_eq rfl)
      (List.mem_singleton_self ("x", Json.nonFinite .nan))
    obtain rfl : w = .null := (Prod.mk.inj (List.mem_singleton.mp hw)).2
    exact absurd hval (by simp [Json.sortKeys])

end Acheron
