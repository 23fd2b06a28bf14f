import Acheron.Api.Fingerprint
import Acheron.Cache.Idempotency
import Acheron.Queue.EventQueue
import Acheron.Storage.Mongo

/-!
# `POST /events`

`create_event` with what it goes through: the idempotency check, cut at its Redis commands, and
`IngestionService.ingest`, which runs in one step. `apiMachine` is any number of requests on one
keyspace, one queue and one collection, together with what else happens to these: claims expire,
`stop_accepting` is called, and the workers drain the queue into Mongo. A batch is written as its
events one by one, in any order; for an accepted call that is `bulkWrite_cons`.

Time is left out: a claim may expire at any step. The digest and `uuid5` are parameters, and a
`uuid4` comes with the step that draws it. Rate limiting comes before the handler and is left out.

`requestStep` is one step of one request on what the requests share, `RequestMove` its inversion.
-/

open Runs

namespace Acheron

/-! ## The key -/

/-- `str.isspace`, for one character. -/
def isSpace (c : Char) : Bool :=
  let n := c.toNat
  9 ≤ n && n ≤ 13 || 28 ≤ n && n ≤ 32 || n == 133 || n == 160 || n == 5760
    || 8192 ≤ n && n ≤ 8202 || n == 8232 || n == 8233 || n == 8239 || n == 8287 || n == 12288

/-- `str.strip`. -/
def strip (s : String) : String :=
  String.ofList ((s.toList.dropWhile isSpace).reverse.dropWhile isSpace).reverse

/-- `idempotency_key.strip() if idempotency_key else None`, and a key that is not empty. -/
def effectiveKey (idempotencyKey : Option String) : Option String :=
  match idempotencyKey with
  | none => none
  | some raw => if raw = "" ∨ strip raw = "" then none else some (strip raw)

/-! ## `ingest` -/

/-- What `ingest` raises. -/
inductive IngestError where
  /-- `IngestionClosed`. -/
  | closed
  /-- `asyncio.QueueFull`. -/
  | queueFull

/-- The id `ingest` assigns; `uuid5` is taken in the fixed namespace. -/
def assignedId (uuid5 : String → String) (key : Option String) (uuid4 : String) : String :=
  match key with
  | some key => uuid5 key
  | none => uuid4

/-- `IngestionService.ingest`: the document and the queue with it. -/
def ingest (uuid5 : String → String) (accepting : Bool) (queue : EventQueue EventDocument)
    (event : EventCreate) (idempotencyKey : Option String) (uuid4 : String) (now : DateTime) :
    Except IngestError (EventDocument × EventQueue EventDocument) :=
  if accepting then
    let doc := event.document (assignedId uuid5 (effectiveKey idempotencyKey) uuid4) now
    match queue.putNowait doc with
    | none => .error .queueFull
    | some q => .ok (doc, q)
  else .error .closed

/-! ## Requests -/

/-- What `create_event` answers. -/
inductive Response where
  /-- 202, an `IngestResponse`. -/
  | accepted (eventId : String) (receivedAt : DateTime)
  /-- An `HTTPException`. -/
  | error (status : ℕ) (detail : String)
  deriving DecidableEq

/-- The answer to a conflict. -/
def Response.conflict : Response :=
  .error 409 "Idempotency-Key was already used with a different request body"

/-- The answer to what `ingest` raises. -/
def Response.ofIngestError : IngestError → Response
  | .closed => .error 503 "Service is shutting down; not accepting new events"
  | .queueFull => .error 429 "Event queue is full — retry after a short backoff"

/-- Where the check of a request is. -/
inductive RequestPhase where
  /-- `SET NX` is under way. -/
  | setting
  /-- `GET` is under way. -/
  | getting
  /-- The check is over; a request without a key skips it. -/
  | checked (result : CheckResult)
  deriving DecidableEq

/-- A request. -/
structure Request where
  body : EventCreate
  idempotencyKey : Option String
  phase : RequestPhase
  response : Option Response
  /-- History: the request has claimed its key. -/
  claimed : Bool
  /-- History: what its `GET` found. -/
  found : Option String
  /-- History: how often the claim on its key had expired when it was checked. -/
  epoch : ℕ

namespace Request

/-- The key the request is checked under. -/
def key (r : Request) : Option String := effectiveKey r.idempotencyKey

/-- A request that has arrived. -/
def new (body : EventCreate) (idempotencyKey : Option String) : Request where
  body := body
  idempotencyKey := idempotencyKey
  phase := if effectiveKey idempotencyKey = none then .checked .new else .setting
  response := none
  claimed := false
  found := none
  epoch := 0

/-- The answer is a 202 with this id. -/
def Accepted (r : Request) (eventId : String) (receivedAt : DateTime) : Prop :=
  r.response = some (.accepted eventId receivedAt)

/-- The check is over, and not in a conflict. -/
def Cleared (r : Request) : Prop := ∃ result, r.phase = .checked result ∧ result ≠ .conflict

/-- The answer is 429 or 503. -/
def Refused (r : Request) : Prop := ∃ e, r.response = some (.ofIngestError e)

end Request

/-- What the requests share. -/
structure Shared where
  redis : Redis
  /-- `_accepting`. -/
  accepting : Bool
  queue : EventQueue EventDocument
  /-- The events the workers have taken and not yet written. -/
  taken : List EventDocument
  events : Events
  /-- History: how often a Redis key has expired. -/
  expiries : String → ℕ

/-- What may happen to a request. -/
inductive RequestAction where
  | setNx
  | get
  /-- The Redis command raises, having taken effect or not. -/
  | redisError (took : Bool)
  /-- The check is over: a 409, or `ingest`, which draws `uuid4` if there is no key. -/
  | finish (uuid4 : String) (now : DateTime)

/-- What else may happen. -/
inductive BackgroundAction where
  /-- A claim expires. -/
  | expire (redisKey : String)
  | stopAccepting
  /-- A worker takes the next event. -/
  | take
  /-- The `n`-th of the events taken is written. -/
  | write (n : ℕ)

/-- What may happen next. -/
inductive ApiAction (ι : Type) where
  | begin (i : ι) (body : EventCreate) (idempotencyKey : Option String)
  | request (i : ι) (a : RequestAction)
  | background (a : BackgroundAction)

/-- The requests and what they share. -/
structure ApiState (ι : Type) where
  shared : Shared
  requests : ι → Option Request

/-- `create_event`, one step. -/
def requestStep (sha256 uuid5 : String → String) (sh : Shared) (r : Request) :
    RequestAction → Option (Shared × Request)
  | .setNx =>
    match r.phase, r.key with
    | .setting, some key =>
      let c := setNx sh.redis (redisKey key) (idempotencyFingerprint sha256 r.body)
      if c.2 then
        some ({ sh with redis := c.1 },
          { r with phase := .checked .new, claimed := true, epoch := sh.expiries (redisKey key) })
      else some (sh, { r with phase := .getting })
    | _, _ => none
  | .get =>
    match r.phase, r.key with
    | .getting, some key =>
      let stored := sh.redis (redisKey key)
      some (sh, { r with
        phase := .checked (classify (idempotencyFingerprint sha256 r.body) stored)
        found := stored
        epoch := sh.expiries (redisKey key) })
    | _, _ => none
  | .redisError took =>
    match r.phase, r.key with
    | .setting, some key =>
      let c := setNx sh.redis (redisKey key) (idempotencyFingerprint sha256 r.body)
      -- The check fails open, whether or not the command went through.
      if took && c.2 then
        some ({ sh with redis := c.1 },
          { r with phase := .checked .new, claimed := true, epoch := sh.expiries (redisKey key) })
      else some (sh, { r with phase := .checked .new, epoch := sh.expiries (redisKey key) })
    | .getting, some key =>
      some (sh, { r with phase := .checked .new, epoch := sh.expiries (redisKey key) })
    | _, _ => none
  | .finish uuid4 now =>
    match r.phase, r.response with
    | .checked .conflict, none => some (sh, { r with response := some .conflict })
    | .checked _, none =>
      match ingest uuid5 sh.accepting sh.queue r.body r.idempotencyKey uuid4 now with
      | .error e => some (sh, { r with response := some (.ofIngestError e) })
      | .ok (doc, q) => some ({ sh with queue := q },
          { r with response := some (.accepted doc.eventId doc.receivedAt) })
    | _, _ => none

/-- What else happens to the things shared, one step. -/
def backgroundStep (sh : Shared) : BackgroundAction → Option Shared
  | .expire k =>
    match sh.redis k with
    | none => none
    | some _ => some { sh with
        redis := expireKey sh.redis k
        expiries := Function.update sh.expiries k (sh.expiries k + 1) }
  | .stopAccepting => some { sh with accepting := false }
  | .take =>
    match sh.queue.getNowait with
    | none => none
    | some (x, q) => some { sh with queue := q, taken := sh.taken ++ [x] }
  | .write n =>
    match sh.taken[n]? with
    | none => none
    | some x =>
      -- What BSON cannot encode is never written; it is dead-lettered instead.
      if x.bsonEncodable then some { sh with
        taken := sh.taken.eraseIdx n
        events := (bulkWrite sh.events [x] (.answered fun _ ↦ false)).1 }
      else none

/-- The service, under every interleaving of its requests. -/
def apiMachine (ι : Type) [DecidableEq ι] (sha256 uuid5 : String → String) :
    Machine (ApiState ι) (ApiAction ι) where
  init s := (∃ maxSize, s.shared =
    ⟨fun _ ↦ none, true, .new maxSize, [], .empty, fun _ ↦ 0⟩) ∧ ∀ i, s.requests i = none
  step s
    | .begin i body idempotencyKey =>
      match s.requests i with
      | some _ => none
      | none => some { s with
          requests := Function.update s.requests i (some (.new body idempotencyKey)) }
    | .request i a =>
      (s.requests i).bind fun r ↦ (requestStep sha256 uuid5 s.shared r a).map fun t ↦
        ⟨t.1, Function.update s.requests i (some t.2)⟩
    | .background a => (backgroundStep s.shared a).map fun sh ↦ { s with shared := sh }

/-! ## What a request can do -/

/-- The steps of a request, told by their effect on what is shared. -/
inductive RequestMove (sha256 uuid5 : String → String) (sh : Shared) (r : Request) :
    RequestAction → Shared → Request → Prop
  /-- The request claims its key. -/
  | claim {a : RequestAction} {key : String} (ha : a = .setNx ∨ a = .redisError true)
      (hphase : r.phase = .setting) (hkey : r.key = some key)
      (hfree : sh.redis (redisKey key) = none) :
      RequestMove sha256 uuid5 sh r a
        { sh with
          redis := Function.update sh.redis (redisKey key)
            (some (idempotencyFingerprint sha256 r.body)) }
        { r with phase := .checked .new, claimed := true, epoch := sh.expiries (redisKey key) }
  /-- The key is taken. -/
  | wait (hphase : r.phase = .setting) :
      RequestMove sha256 uuid5 sh r .setNx sh { r with phase := .getting }
  /-- The request is compared with what holds its key. -/
  | compare {key : String} (hphase : r.phase = .getting) (hkey : r.key = some key) :
      RequestMove sha256 uuid5 sh r .get sh { r with
        phase := .checked (classify (idempotencyFingerprint sha256 r.body)
          (sh.redis (redisKey key)))
        found := sh.redis (redisKey key)
        epoch := sh.expiries (redisKey key) }
  /-- Redis fails, and the check with it. -/
  | failOpen {took : Bool} {key : String} (hphase : r.phase = .setting ∨ r.phase = .getting)
      (hkey : r.key = some key) :
      RequestMove sha256 uuid5 sh r (.redisError took) sh
        { r with phase := .checked .new, epoch := sh.expiries (redisKey key) }
  /-- The request is answered 409. -/
  | conflict {uuid4 : String} {now : DateTime} (hphase : r.phase = .checked .conflict)
      (hnone : r.response = none) :
      RequestMove sha256 uuid5 sh r (.finish uuid4 now) sh { r with response := some .conflict }
  /-- The request is answered 429 or 503. -/
  | refuse {uuid4 : String} {now : DateTime} {result : CheckResult} (e : IngestError)
      (hphase : r.phase = .checked result) (hresult : result ≠ .conflict)
      (hnone : r.response = none) :
      RequestMove sha256 uuid5 sh r (.finish uuid4 now) sh
        { r with response := some (.ofIngestError e) }
  /-- The request is answered 202, its document on the queue. -/
  | accept {uuid4 : String} {now : DateTime} {result : CheckResult}
      {q : EventQueue EventDocument} (hphase : r.phase = .checked result)
      (hresult : result ≠ .conflict) (hnone : r.response = none)
      (hput : sh.queue.putNowait (r.body.document (assignedId uuid5 r.key uuid4) now) = some q) :
      RequestMove sha256 uuid5 sh r (.finish uuid4 now) { sh with queue := q }
        { r with response := some (.accepted (assignedId uuid5 r.key uuid4) now) }

theorem setNx_spec (redis : Redis) (k v : String) :
    redis k = none ∧ setNx redis k v = (Function.update redis k (some v), true) ∨
      (setNx redis k v).2 = false := by
  unfold setNx
  cases hk : redis k with
  | none => exact Or.inl ⟨rfl, rfl⟩
  | some _ => exact Or.inr rfl

theorem move_of_requestStep {sha256 uuid5 : String → String} {sh sh' : Shared} {r r' : Request}
    {a : RequestAction} (h : requestStep sha256 uuid5 sh r a = some (sh', r')) :
    RequestMove sha256 uuid5 sh r a sh' r' := by
  have hinj {x : Shared × Request} (hx : some x = some (sh', r')) : sh' = x.1 ∧ r' = x.2 := by
    obtain rfl := Option.some.inj hx
    exact ⟨rfl, rfl⟩
  cases a with
  | setNx =>
    simp only [requestStep] at h
    split at h
    case h_1 key hphase hkey =>
      rcases setNx_spec sh.redis (redisKey key) (idempotencyFingerprint sha256 r.body) with
        ⟨hfree, hset⟩ | htaken
      · rw [hset] at h
        obtain ⟨rfl, rfl⟩ := hinj h
        exact .claim (Or.inl rfl) hphase hkey hfree
      · rw [htaken] at h
        obtain ⟨rfl, rfl⟩ := hinj h
        exact .wait hphase
    case h_2 => exact absurd h (by simp)
  | get =>
    simp only [requestStep] at h
    split at h
    case h_1 key hphase hkey =>
      obtain ⟨rfl, rfl⟩ := hinj h
      exact .compare hphase hkey
    case h_2 => exact absurd h (by simp)
  | redisError took =>
    simp only [requestStep] at h
    split at h
    case h_1 key hphase hkey =>
      -- A command that went through before the error has claimed the key all the same.
      by_cases hclaim : (took && (setNx sh.redis (redisKey key)
          (idempotencyFingerprint sha256 r.body)).2) = true
      · rw [if_pos hclaim] at h
        rw [Bool.and_eq_true] at hclaim
        rcases setNx_spec sh.redis (redisKey key) (idempotencyFingerprint sha256 r.body) with
          ⟨hfree, hset⟩ | htaken
        · rw [hset] at h
          obtain ⟨rfl, rfl⟩ := hinj h
          obtain rfl := hclaim.1
          exact .claim (Or.inr rfl) hphase hkey hfree
        · exact absurd hclaim.2 (by simp [htaken])
      · rw [if_neg hclaim] at h
        obtain ⟨rfl, rfl⟩ := hinj h
        exact .failOpen (Or.inl hphase) hkey
    case h_2 key hphase hkey =>
      obtain ⟨rfl, rfl⟩ := hinj h
      exact .failOpen (Or.inr hphase) hkey
    case h_3 => exact absurd h (by simp)
  | finish uuid4 now =>
    simp only [requestStep] at h
    split at h
    case h_1 hphase hnone =>
      obtain ⟨rfl, rfl⟩ := hinj h
      exact .conflict hphase hnone
    case h_2 result hresult hphase hnone =>
      -- The three endings of `ingest`: closed, full, accepted.
      unfold ingest at h
      by_cases hopen : sh.accepting = true
      · rw [if_pos hopen] at h
        cases hput : sh.queue.putNowait (r.body.document (assignedId uuid5 r.key uuid4) now) with
        | none =>
          rw [Request.key] at hput
          simp only [hput] at h
          obtain ⟨rfl, rfl⟩ := hinj h
          exact .refuse .queueFull hphase (fun hc ↦ hresult (hc ▸ rfl)) hnone
        | some q =>
          have hput' := hput
          rw [Request.key] at hput'
          simp only [hput'] at h
          obtain ⟨rfl, rfl⟩ := hinj h
          exact .accept hphase (fun hc ↦ hresult (hc ▸ rfl)) hnone hput
      · rw [if_neg hopen] at h
        obtain ⟨rfl, rfl⟩ := hinj h
        exact .refuse .closed hphase (fun hc ↦ hresult (hc ▸ rfl)) hnone
    case h_3 => exact absurd h (by simp)

/-! ## What happens in the background -/

theorem backgroundStep_expire {sh sh' : Shared} {k : String}
    (h : backgroundStep sh (.expire k) = some sh') :
    (∃ f, sh.redis k = some f) ∧ sh' = { sh with
      redis := expireKey sh.redis k
      expiries := Function.update sh.expiries k (sh.expiries k + 1) } := by
  simp only [backgroundStep] at h
  split at h
  case h_1 => exact absurd h (by simp)
  case h_2 f hf => exact ⟨⟨f, hf⟩, (Option.some.inj h).symm⟩

theorem backgroundStep_take {sh sh' : Shared} (h : backgroundStep sh .take = some sh') :
    ∃ x q, sh.queue.getNowait = some (x, q) ∧
      sh' = { sh with queue := q, taken := sh.taken ++ [x] } := by
  simp only [backgroundStep] at h
  split at h
  case h_1 => exact absurd h (by simp)
  case h_2 x q hget => exact ⟨x, q, hget, (Option.some.inj h).symm⟩

theorem backgroundStep_write {sh sh' : Shared} {n : ℕ}
    (h : backgroundStep sh (.write n) = some sh') :
    ∃ x, sh.taken[n]? = some x ∧ x.bsonEncodable = true ∧ sh' = { sh with
      taken := sh.taken.eraseIdx n
      events := (bulkWrite sh.events [x] (.answered fun _ ↦ false)).1 } := by
  simp only [backgroundStep] at h
  split at h
  case h_1 => exact absurd h (by simp)
  case h_2 x hx =>
    by_cases henc : x.bsonEncodable = true
    · rw [if_pos henc] at h
      exact ⟨x, hx, henc, (Option.some.inj h).symm⟩
    · rw [if_neg henc] at h
      exact absurd h (by simp)

/-! ## What a request keeps -/

/-- What no later step of a request changes. -/
structure Request.Later (r r' : Request) : Prop where
  body : r'.body = r.body
  idempotencyKey : r'.idempotencyKey = r.idempotencyKey
  claimed : r.claimed = true → r'.claimed = true
  response : ∀ x, r.response = some x → r'.response = some x
  checked : ∀ result, r.phase = .checked result → r'.phase = .checked result ∧ r'.epoch = r.epoch

theorem Request.Later.refl (r : Request) : r.Later r :=
  ⟨rfl, rfl, id, fun _ ↦ id, fun _ h ↦ ⟨h, rfl⟩⟩

theorem Request.Later.trans {r₁ r₂ r₃ : Request} (h : r₁.Later r₂) (h' : r₂.Later r₃) :
    r₁.Later r₃ :=
  ⟨h'.body.trans h.body, h'.idempotencyKey.trans h.idempotencyKey,
    fun hc ↦ h'.claimed (h.claimed hc), fun x hx ↦ h'.response x (h.response x hx),
    fun x hx ↦ ⟨(h'.checked x (h.checked x hx).1).1,
      (h'.checked x (h.checked x hx).1).2.trans (h.checked x hx).2⟩⟩

theorem Request.Later.key_eq {r r' : Request} (h : r.Later r') : r'.key = r.key := by
  rw [Request.key, Request.key, h.idempotencyKey]

section Step

variable {ι : Type} [DecidableEq ι] {sha256 uuid5 : String → String} {s t : ApiState ι}

theorem RequestMove.later {sh sh' : Shared} {r r' : Request} {a : RequestAction}
    (h : RequestMove sha256 uuid5 sh r a sh' r') : r.Later r' := by
  -- A check that is over is not resumed, and an answer that is given is not changed.
  cases h with
  | claim _ hphase _ _ =>
    exact ⟨rfl, rfl, fun _ ↦ rfl, fun _ ↦ id, fun _ hx ↦ absurd (hphase.symm.trans hx) (by simp)⟩
  | wait hphase | compare hphase _ =>
    exact ⟨rfl, rfl, id, fun _ ↦ id, fun _ hx ↦ absurd (hphase.symm.trans hx) (by simp)⟩
  | failOpen hphase _ =>
    refine ⟨rfl, rfl, id, fun _ ↦ id, fun _ hx ↦ ?_⟩
    rcases hphase with hphase | hphase <;> exact absurd (hphase.symm.trans hx) (by simp)
  | conflict _ hnone | refuse _ _ _ hnone | accept _ _ hnone _ =>
    exact ⟨rfl, rfl, id, fun x hx ↦ absurd (hnone.symm.trans hx) (by simp), fun _ hx ↦ ⟨hx, rfl⟩⟩

theorem step_begin {i : ι} {body : EventCreate} {idempotencyKey : Option String}
    (h : (apiMachine ι sha256 uuid5).step s (.begin i body idempotencyKey) = some t) :
    s.requests i = none ∧ t.shared = s.shared ∧
      t.requests = Function.update s.requests i (some (.new body idempotencyKey)) := by
  simp only [apiMachine] at h
  split at h
  case h_1 => exact absurd h (by simp)
  case h_2 hnone =>
    obtain rfl := Option.some.inj h
    exact ⟨hnone, rfl, rfl⟩

theorem step_request {i : ι} {a : RequestAction}
    (h : (apiMachine ι sha256 uuid5).step s (.request i a) = some t) :
    ∃ r r', s.requests i = some r ∧ RequestMove sha256 uuid5 s.shared r a t.shared r' ∧
      t.requests = Function.update s.requests i (some r') := by
  obtain ⟨r, hr, hstep⟩ := Option.bind_eq_some_iff.mp h
  obtain ⟨⟨sh, r'⟩, hmove, rfl⟩ := Option.map_eq_some_iff.mp hstep
  exact ⟨r, r', hr, move_of_requestStep hmove, rfl⟩

theorem step_background {a : BackgroundAction}
    (h : (apiMachine ι sha256 uuid5).step s (.background a) = some t) :
    backgroundStep s.shared a = some t.shared ∧ t.requests = s.requests := by
  obtain ⟨sh, hsh, rfl⟩ := Option.map_eq_some_iff.mp h
  exact ⟨hsh, rfl⟩

/-- No step takes anything back from a request. -/
theorem later_step {a : ApiAction ι} (h : (apiMachine ι sha256 uuid5).step s a = some t) {i : ι}
    {r : Request} (hr : s.requests i = some r) : ∃ r', t.requests i = some r' ∧ r.Later r' := by
  cases a with
  | begin j body idempotencyKey =>
    obtain ⟨hnone, -, hreq⟩ := step_begin h
    have hij : i ≠ j := by
      rintro rfl
      exact absurd (hnone.symm.trans hr) (by simp)
    exact ⟨r, by rw [hreq, Function.update_of_ne hij, hr], .refl r⟩
  | request j b =>
    obtain ⟨q, q', hq, hmove, hreq⟩ := step_request h
    by_cases hij : i = j
    · subst hij
      obtain rfl := Option.some.inj (hr.symm.trans hq)
      exact ⟨q', by rw [hreq, Function.update_self], hmove.later⟩
    · exact ⟨r, by rw [hreq, Function.update_of_ne hij, hr], .refl r⟩
  | background b =>
    exact ⟨r, by rw [(step_background h).2, hr], .refl r⟩

theorem later_exec {as : List (ApiAction ι)} (h : (apiMachine ι sha256 uuid5).exec s as = some t)
    {i : ι} {r : Request} (hr : s.requests i = some r) :
    ∃ r', t.requests i = some r' ∧ r.Later r' := by
  refine Machine.exec_preserves (P := fun u ↦ ∃ r', u.requests i = some r' ∧ r.Later r')
    (fun u a v hu hstep ↦ ?_) ⟨r, hr, .refl r⟩ h
  obtain ⟨q, hq, hlater⟩ := hu
  obtain ⟨q', hq', hlater'⟩ := later_step hstep hq
  exact ⟨q', hq', hlater.trans hlater'⟩

omit [DecidableEq ι] in
/-- The requests after a change to one of them. -/
theorem requests_update [DecidableEq ι] {requests : ι → Option Request} {i j : ι} {r q : Request}
    (h : Function.update requests i (some r) j = some q) :
    j = i ∧ q = r ∨ j ≠ i ∧ requests j = some q := by
  by_cases hji : j = i
  · subst hji
    rw [Function.update_self] at h
    exact Or.inl ⟨rfl, (Option.some.inj h).symm⟩
  · rw [Function.update_of_ne hji] at h
    exact Or.inr ⟨hji, h⟩

end Step

/-! ## Sample runs -/

/-- The service as it starts, with a queue of one place. -/
def ApiState.open : ApiState (Fin 3) where
  shared := ⟨fun _ ↦ none, true, .new 1, [], .empty, fun _ ↦ 0⟩
  requests _ := none

/-- `uuid5` of the key `k`; elsewhere any injective function does. -/
def sampleUuid5 (key : String) : String :=
  if key = "k" then "60c3c7b7-acff-5531-af8c-3a8302adbd09" else "k" ++ key

theorem sampleUuid5_injective : Function.Injective sampleUuid5 := by
  have hk : ∀ key : String, ("k" ++ key).toList = 'k' :: key.toList := by simp
  have hne : ∀ key : String, "k" ++ key ≠ "60c3c7b7-acff-5531-af8c-3a8302adbd09" := by
    intro key h
    exact absurd ((hk key).symm.trans (congrArg String.toList h)) (by simp)
  intro a b h
  unfold sampleUuid5 at h
  split at h
  · split at h
    · simp_all
    · exact absurd h.symm (hne b)
  · split at h
    · exact absurd h (hne a)
    · have hlist := (hk a).symm.trans ((congrArg String.toList h).trans (hk b))
      exact String.toList_inj.mp (List.cons.inj hlist).2

theorem open_init (sha256 uuid5 : String → String) :
    (apiMachine (Fin 3) sha256 uuid5).init .open :=
  ⟨⟨1, rfl⟩, fun _ ↦ rfl⟩

end Acheron
