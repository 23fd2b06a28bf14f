import Acheron.Api.CreateEvent
import Acheron.Cache.Keys

/-!
# The lifetime of a claim

The idempotency checks of any family of `POST /events` requests on one Redis, together with the
other traffic on it: the rate-limit counters and the cached summary. Redis answers every command.
Time is left out: a key that is there may expire at any step. An `INCR` may leave any value under
its key.

A lifetime of a claim on a key is numbered by the expiries of that key before it. Every request that
has been decided by a claim falls within one lifetime, and each lifetime has one request that made
the claim: `Settled` says so of a state, and keeps it through every step.
-/

open Runs

namespace Acheron

/-- A `POST /events` request: its body and its `Idempotency-Key` header. -/
structure Submission where
  body : EventCreate
  idempotencyKey : Option String

/-- The key the request is checked under. -/
def Submission.key (r : Submission) : Option String := effectiveKey r.idempotencyKey

/-- Its `fingerprint`. -/
def Submission.fingerprint (sha256 : String → String) (r : Submission) : String :=
  idempotencyFingerprint sha256 r.body

/-- How far the check of a request has come. -/
structure Check where
  phase : CheckPhase
  /-- History: the stored fingerprint that decided it, its own if it made the claim. -/
  found : Option String
  /-- History: how often its key had expired when it was decided. -/
  lifetime : ℕ

/-- A check that has not begun. -/
def Check.fresh : Check := ⟨.setting, none, 0⟩

/-- Redis and the checks. -/
@[ext] structure TrafficState (ι : Type) where
  redis : Redis
  /-- History: how often a Redis key has expired. -/
  expiries : String → ℕ
  checks : ι → Check

/-- Nothing stored, nothing begun. -/
def TrafficState.start (ι : Type) : TrafficState ι := ⟨fun _ ↦ none, fun _ ↦ 0, fun _ ↦ .fresh⟩

/-- What may happen next. -/
inductive TrafficAction (ι : Type) where
  | setNx (i : ι)
  | get (i : ι)
  | expire (redisKey : String)
  /-- The `INCR` of `check_rate_limit`. -/
  | incr (identifier : String) (bucket : ℤ) (count : String)
  /-- The `SET` of `get_or_set`. -/
  | cacheSummary (summary : String)

variable {ι : Type} [DecidableEq ι] (requests : ι → Submission) (sha256 : String → String)

/-- The checks of the requests and the other traffic on their Redis. -/
def trafficMachine : Machine (TrafficState ι) (TrafficAction ι) where
  init s := s = .start ι
  step s
    | .setNx i =>
      match (s.checks i).phase, (requests i).key with
      | .setting, some key =>
        let fingerprint := (requests i).fingerprint sha256
        -- The claim and the lifetime it belongs to are one step.
        let c := setNx s.redis (redisKey key) fingerprint
        let check : Check :=
          if c.2 then ⟨.returned .new, some fingerprint, s.expiries (redisKey key)⟩
          else ⟨.getting, none, 0⟩
        some { s with redis := c.1, checks := Function.update s.checks i check }
      | _, _ => none
    | .get i =>
      match (s.checks i).phase, (requests i).key with
      | .getting, some key =>
        let stored := s.redis (redisKey key)
        let result := classify ((requests i).fingerprint sha256) stored
        some { s with
          checks := Function.update s.checks i
            ⟨.returned result, stored, s.expiries (redisKey key)⟩ }
      | _, _ => none
    -- Any key may expire, also between the two commands of a check.
    | .expire key =>
      match s.redis key with
      | some _ => some { s with
          redis := expireKey s.redis key
          expiries := Function.update s.expiries key (s.expiries key + 1) }
      | none => none
    | .incr identifier bucket count => some { s with
        redis := Function.update s.redis (rateLimitKey identifier bucket) (some count) }
    | .cacheSummary summary => some { s with
        redis := Function.update s.redis summaryKey (some summary) }

/-- The action is a step of a check under the key, or the expiry of its claim. -/
def TrafficAction.concerns (key : String) : TrafficAction ι → Bool
  | .setNx i | .get i => decide ((requests i).key = some key)
  | .expire k => decide (k = redisKey key)
  | .incr _ _ _ | .cacheSummary _ => false

namespace TrafficState

/-- Request `i` has passed its check. -/
def Passed (s : TrafficState ι) (i : ι) : Prop :=
  ∃ result, (s.checks i).phase = .returned result ∧ result ≠ .conflict

/-- Request `i` was decided by the `n`-th claim on its key, in this way. -/
def Within (s : TrafficState ι) (i : ι) (n : ℕ) (result : CheckResult) : Prop :=
  ∃ f, s.checks i = ⟨.returned result, some f, n⟩

/-- Request `i` made the `n`-th claim on the key. -/
def Claimed (s : TrafficState ι) (key : String) (n : ℕ) (i : ι) : Prop :=
  (requests i).key = some key ∧
    s.checks i = ⟨.returned .new, some ((requests i).fingerprint sha256), n⟩

/-- What one key shows of the state. -/
def onKey (s : TrafficState ι) (key : String) : TrafficState ι where
  redis k := if k = redisKey key then s.redis k else none
  expiries k := if k = redisKey key then s.expiries k else 0
  checks i := if (requests i).key = some key then s.checks i else .fresh

/-- Every claim has one request that made it, and every decided request an answer that fits. -/
structure Settled (s : TrafficState ι) : Prop where
  unique : ∀ {key n i j}, s.Claimed requests sha256 key n i → s.Claimed requests sha256 key n j →
    i = j
  live : ∀ {key f}, s.redis (redisKey key) = some f →
    ∃ i, s.Claimed requests sha256 key (s.expiries (redisKey key)) i ∧
      (requests i).fingerprint sha256 = f
  free : ∀ {key n i}, s.redis (redisKey key) = none → s.Claimed requests sha256 key n i →
    n < s.expiries (redisKey key)
  decided : ∀ {key i result f n}, (requests i).key = some key →
    s.checks i = ⟨.returned result, some f, n⟩ →
      ∃ j, s.Claimed requests sha256 key n j ∧ (requests j).fingerprint sha256 = f
  answer : ∀ {i result found n}, s.checks i = ⟨.returned result, found, n⟩ →
    result = .new ∧ found = some ((requests i).fingerprint sha256) ∨
      result = classify ((requests i).fingerprint sha256) found
  past : ∀ {key i result found n}, (requests i).key = some key →
    s.checks i = ⟨.returned result, found, n⟩ → n ≤ s.expiries (redisKey key)

end TrafficState

open TrafficState

/-! ## One step -/

variable {requests sha256} {s t : TrafficState ι}

/-- The steps. -/
inductive TrafficMove (requests : ι → Submission) (sha256 : String → String)
    (s : TrafficState ι) : TrafficAction ι → TrafficState ι → Prop
  | claim {i : ι} {key : String} (hphase : (s.checks i).phase = .setting)
      (hkey : (requests i).key = some key) (hfree : s.redis (redisKey key) = none) :
      TrafficMove requests sha256 s (.setNx i) {
        redis := Function.update s.redis (redisKey key) (some ((requests i).fingerprint sha256))
        expiries := s.expiries
        checks := Function.update s.checks i ⟨.returned .new,
          some ((requests i).fingerprint sha256), s.expiries (redisKey key)⟩ }
  | taken {i : ι} {key f : String} (hphase : (s.checks i).phase = .setting)
      (hkey : (requests i).key = some key) (hheld : s.redis (redisKey key) = some f) :
      TrafficMove requests sha256 s (.setNx i)
        { s with checks := Function.update s.checks i ⟨.getting, none, 0⟩ }
  | compare {i : ι} {key : String} (hphase : (s.checks i).phase = .getting)
      (hkey : (requests i).key = some key) :
      TrafficMove requests sha256 s (.get i) { s with
        checks := Function.update s.checks i
          ⟨.returned (classify ((requests i).fingerprint sha256) (s.redis (redisKey key))),
            s.redis (redisKey key), s.expiries (redisKey key)⟩ }
  | expire {key f : String} (hheld : s.redis key = some f) :
      TrafficMove requests sha256 s (.expire key) { s with
        redis := expireKey s.redis key
        expiries := Function.update s.expiries key (s.expiries key + 1) }
  | incr {identifier count : String} {bucket : ℤ} :
      TrafficMove requests sha256 s (.incr identifier bucket count) { s with
        redis := Function.update s.redis (rateLimitKey identifier bucket) (some count) }
  | cacheSummary {summary : String} :
      TrafficMove requests sha256 s (.cacheSummary summary) { s with
        redis := Function.update s.redis summaryKey (some summary) }

theorem trafficStep_iff {a : TrafficAction ι} :
    (trafficMachine requests sha256).step s a = some t ↔ TrafficMove requests sha256 s a t := by
  constructor
  · intro h
    match a with
    | .setNx i =>
      simp only [trafficMachine] at h
      split at h
      case h_1 key hphase hkey =>
        obtain rfl := Option.some.inj h
        rcases hredis : s.redis (redisKey key) with _ | f
        · simp only [setNx, hredis]
          exact .claim hphase hkey hredis
        · simp only [setNx, hredis]
          exact .taken hphase hkey hredis
      case h_2 => exact absurd h (by simp)
    | .get i =>
      simp only [trafficMachine] at h
      split at h
      case h_1 key hphase hkey =>
        obtain rfl := Option.some.inj h
        exact .compare hphase hkey
      case h_2 => exact absurd h (by simp)
    | .expire key =>
      simp only [trafficMachine] at h
      split at h
      case h_1 f hheld =>
        obtain rfl := Option.some.inj h
        exact .expire hheld
      case h_2 => exact absurd h (by simp)
    | .incr identifier bucket count =>
      obtain rfl := Option.some.inj h
      exact .incr
    | .cacheSummary summary =>
      obtain rfl := Option.some.inj h
      exact .cacheSummary
  · intro h
    induction h with
    | claim hphase hkey hfree => simp [trafficMachine, setNx, hphase, hkey, hfree]
    | taken hphase hkey hheld => simp [trafficMachine, setNx, hphase, hkey, hheld]
    | compare hphase hkey => simp [trafficMachine, hphase, hkey]
    | expire hheld => simp [trafficMachine, hheld]
    | incr => rfl
    | cacheSummary => rfl

/-- A check that is over stays as it is. -/
theorem TrafficMove.checks_of_returned {a : TrafficAction ι} {i : ι} {result : CheckResult}
    (h : TrafficMove requests sha256 s a t) (hi : (s.checks i).phase = .returned result) :
    t.checks i = s.checks i := by
  have hother : ∀ {j : ι} {c : Check}, (s.checks j).phase ≠ .returned result →
      Function.update s.checks j c i = s.checks i := by
    intro j c hj
    refine Function.update_of_ne ?_ _ _
    rintro rfl
    exact hj hi
  induction h with
  | claim hphase | taken hphase | compare hphase => exact hother (by simp [hphase])
  | expire | incr | cacheSummary => rfl

/-! ## Claims -/

/-- Deciding one check leaves the claims of the others. -/
theorem claimed_update {redis : Redis} {expiries : String → ℕ} {i j : ι} {c : Check} {key : String}
    {n : ℕ} (hi : ∀ result, (s.checks i).phase ≠ .returned result) :
    Claimed requests sha256 ⟨redis, expiries, Function.update s.checks i c⟩ key n j ↔
      s.Claimed requests sha256 key n j ∨ j = i ∧ (requests i).key = some key ∧
        c = ⟨.returned .new, some ((requests i).fingerprint sha256), n⟩ := by
  rw [Claimed, Claimed]
  rcases eq_or_ne j i with rfl | hne
  · have hopen : s.checks j ≠ ⟨.returned .new, some ((requests j).fingerprint sha256), n⟩ :=
      fun h ↦ hi .new (congrArg Check.phase h)
    simp [hopen]
  · simp [hne]

/-- A check that makes no claim leaves the claims. -/
theorem claimed_update_iff {redis : Redis} {expiries : String → ℕ} {i j : ι} {c : Check}
    {key : String} {n : ℕ} (hi : ∀ result, (s.checks i).phase ≠ .returned result)
    (hc : c.phase ≠ .returned .new) :
    Claimed requests sha256 ⟨redis, expiries, Function.update s.checks i c⟩ key n j ↔
      s.Claimed requests sha256 key n j := by
  rw [claimed_update hi]
  refine or_iff_left ?_
  rintro ⟨-, -, rfl⟩
  exact hc rfl

theorem classify_ne_new (fingerprint : String) (stored : Option String) :
    classify fingerprint stored ≠ .new := by
  rw [classify]
  split <;> simp

/-- A `SET NX` that claims the key adds one claim, on the key's lifetime. -/
theorem claimed_claim {redis : Redis} {i j : ι} {key k : String} {n : ℕ}
    (hopen : ∀ result, (s.checks i).phase ≠ .returned result)
    (hkey : (requests i).key = some key) :
    Claimed requests sha256 ⟨redis, s.expiries, Function.update s.checks i ⟨.returned .new,
        some ((requests i).fingerprint sha256), s.expiries (redisKey key)⟩⟩ k n j ↔
      s.Claimed requests sha256 k n j ∨ j = i ∧ k = key ∧ n = s.expiries (redisKey key) := by
  rw [claimed_update hopen]
  refine or_congr_right (and_congr_right fun _ ↦ ?_)
  rw [hkey, Option.some.injEq, Check.mk.injEq]
  constructor
  · rintro ⟨hk, -, -, hn⟩
    exact ⟨hk.symm, hn.symm⟩
  · rintro ⟨rfl, rfl⟩
    exact ⟨rfl, rfl, rfl, rfl⟩

/-- A `SET NX` that claims the key. -/
theorem settled_claim (hs : s.Settled requests sha256) {i : ι} {key : String}
    (hphase : (s.checks i).phase = .setting) (hkey : (requests i).key = some key)
    (hfree : s.redis (redisKey key) = none) :
    Settled requests sha256 {
      redis := Function.update s.redis (redisKey key) (some ((requests i).fingerprint sha256))
      expiries := s.expiries
      checks := Function.update s.checks i ⟨.returned .new,
        some ((requests i).fingerprint sha256), s.expiries (redisKey key)⟩ } := by
  have hopen : ∀ result, (s.checks i).phase ≠ .returned result := by simp [hphase]
  have hredis : ∀ {k}, k ≠ key → Function.update s.redis (redisKey key)
      (some ((requests i).fingerprint sha256)) (redisKey k) = s.redis (redisKey k) :=
    fun hne ↦ Function.update_of_ne (redisKey_injective.ne hne) _ _
  refine ⟨?unique, ?live, ?free, ?decided, ?answer, ?past⟩
  case unique =>
    -- The earlier claims on the key have expired, so this one is the first of its lifetime.
    intro k n j j' hj hj'
    rw [claimed_claim hopen hkey] at hj hj'
    rcases hj with hold | ⟨rfl, rfl, rfl⟩ <;> rcases hj' with hold' | ⟨rfl, hk, hn⟩
    · exact hs.unique hold hold'
    · subst hk hn
      exact absurd (hs.free hfree hold) (Nat.lt_irrefl _)
    · exact absurd (hs.free hfree hold') (Nat.lt_irrefl _)
    · rfl
  case live =>
    intro k f hk
    dsimp only at hk
    rcases eq_or_ne k key with rfl | hne
    · rw [Function.update_self] at hk
      exact ⟨i, (claimed_claim hopen hkey).mpr (Or.inr ⟨rfl, rfl, rfl⟩), Option.some.inj hk⟩
    · obtain ⟨j, hj, hf⟩ := hs.live ((hredis hne).symm.trans hk)
      exact ⟨j, (claimed_claim hopen hkey).mpr (Or.inl hj), hf⟩
  case free =>
    intro k n j hk hj
    have hne : k ≠ key := by
      rintro rfl
      simp at hk
    rcases (claimed_claim hopen hkey).mp hj with hj | ⟨-, rfl, -⟩
    · exact hs.free ((hredis hne).symm.trans hk) hj
    · exact absurd rfl hne
  case decided =>
    intro k j result f n hk hj
    rcases eq_or_ne j i with rfl | hne
    · obtain rfl := Option.some.inj (hk.symm.trans hkey)
      simp only [Function.update_self, Check.mk.injEq, Option.some.injEq] at hj
      obtain ⟨-, hf, rfl⟩ := hj
      exact ⟨j, (claimed_claim hopen hkey).mpr (Or.inr ⟨rfl, rfl, rfl⟩), hf⟩
    · obtain ⟨j', hj', hf⟩ := hs.decided hk ((Function.update_of_ne hne _ _).symm.trans hj)
      exact ⟨j', (claimed_claim hopen hkey).mpr (Or.inl hj'), hf⟩
  case answer =>
    intro j result found n hj
    rcases eq_or_ne j i with rfl | hne
    · simp only [Function.update_self, Check.mk.injEq, CheckPhase.returned.injEq] at hj
      exact Or.inl ⟨hj.1.symm, hj.2.1.symm⟩
    · exact hs.answer ((Function.update_of_ne hne _ _).symm.trans hj)
  case past =>
    intro k j result found n hk hj
    rcases eq_or_ne j i with rfl | hne
    · obtain rfl := Option.some.inj (hk.symm.trans hkey)
      simp only [Function.update_self, Check.mk.injEq] at hj
      exact hj.2.2.ge
    · exact hs.past hk ((Function.update_of_ne hne _ _).symm.trans hj)

/-- A check that is decided by what it finds, or that is not decided. -/
theorem settled_find (hs : s.Settled requests sha256) {i : ι} {c : Check} {key : String}
    (hkey : (requests i).key = some key)
    (hopen : ∀ result, (s.checks i).phase ≠ .returned result)
    (hc : ∀ result, c.phase = .returned result →
      result = classify ((requests i).fingerprint sha256) c.found ∧
        c.found = s.redis (redisKey key) ∧ c.lifetime = s.expiries (redisKey key)) :
    Settled requests sha256 { s with checks := Function.update s.checks i c } := by
  have hnew : c.phase ≠ .returned .new := fun h ↦ classify_ne_new _ _ (hc .new h).1.symm
  refine ⟨?unique, ?live, ?free, ?decided, ?answer, ?past⟩
  case unique =>
    intro k n j j' hj hj'
    exact hs.unique ((claimed_update_iff hopen hnew).mp hj) ((claimed_update_iff hopen hnew).mp hj')
  case live =>
    intro k f hk
    obtain ⟨j, hj, hf⟩ := hs.live hk
    exact ⟨j, (claimed_update_iff hopen hnew).mpr hj, hf⟩
  case free =>
    intro k n j hk hj
    exact hs.free hk ((claimed_update_iff hopen hnew).mp hj)
  case decided =>
    intro k j result f n hk hj
    have hclaim : ∃ j', s.Claimed requests sha256 k n j' ∧
        (requests j').fingerprint sha256 = f := by
      rcases eq_or_ne j i with rfl | hne
      · obtain rfl := Option.some.inj (hk.symm.trans hkey)
        obtain rfl : c = _ := (Function.update_self j c s.checks).symm.trans hj
        obtain ⟨-, hfound, rfl⟩ := hc result rfl
        exact hs.live hfound.symm
      · exact hs.decided hk ((Function.update_of_ne hne _ _).symm.trans hj)
    obtain ⟨j', hj', hf⟩ := hclaim
    exact ⟨j', (claimed_update_iff hopen hnew).mpr hj', hf⟩
  case answer =>
    intro j result found n hj
    rcases eq_or_ne j i with rfl | hne
    · obtain rfl : c = _ := (Function.update_self j c s.checks).symm.trans hj
      exact Or.inr (hc result rfl).1
    · exact hs.answer ((Function.update_of_ne hne _ _).symm.trans hj)
  case past =>
    intro k j result found n hk hj
    rcases eq_or_ne j i with rfl | hne
    · obtain rfl := Option.some.inj (hk.symm.trans hkey)
      obtain rfl : c = _ := (Function.update_self j c s.checks).symm.trans hj
      exact (hc result rfl).2.2.le
    · exact hs.past hk ((Function.update_of_ne hne _ _).symm.trans hj)

omit [DecidableEq ι] in
/-- A key expires; if it holds a claim, that claim's lifetime is over. -/
theorem settled_expire (hs : s.Settled requests sha256) (key : String) :
    Settled requests sha256 { s with
      redis := expireKey s.redis key
      expiries := Function.update s.expiries key (s.expiries key + 1) } := by
  have hmono : ∀ k, s.expiries k ≤ Function.update s.expiries key (s.expiries key + 1) k := by
    intro k
    rcases eq_or_ne k key with rfl | hne
    · simp
    · rw [Function.update_of_ne hne]
  refine ⟨hs.unique, ?_, ?_, hs.decided, hs.answer, fun hk hi ↦ (hs.past hk hi).trans (hmono _)⟩
  · intro k f hk
    have hne : redisKey k ≠ key := by
      rintro rfl
      simp [expireKey] at hk
    dsimp only [expireKey] at hk ⊢
    rw [Function.update_of_ne hne] at hk
    rw [Function.update_of_ne hne]
    exact hs.live hk
  · intro k n i hk hi
    dsimp only
    rcases eq_or_ne (redisKey k) key with rfl | hne
    · rw [Function.update_self]
      exact Nat.lt_succ_of_le (hs.past hi.1 hi.2)
    · dsimp only [expireKey] at hk
      rw [Function.update_of_ne hne] at hk ⊢
      exact hs.free hk hi

omit [DecidableEq ι] in
/-- Traffic on a key that holds no claim. -/
theorem settled_write (hs : s.Settled requests sha256) {key : String} {value : Option String}
    (hkey : ∀ k, redisKey k ≠ key) :
    Settled requests sha256 { s with redis := Function.update s.redis key value } := by
  refine ⟨hs.unique, fun {k f} hk ↦ ?_, fun {k n i} hk ↦ ?_, hs.decided, hs.answer, hs.past⟩
  · exact hs.live ((Function.update_of_ne (hkey k) _ _).symm.trans hk)
  · exact hs.free ((Function.update_of_ne (hkey k) _ _).symm.trans hk)

/-- **Every step leaves the claims settled.** -/
theorem settled_move {a : TrafficAction ι} (hs : s.Settled requests sha256)
    (h : TrafficMove requests sha256 s a t) : t.Settled requests sha256 := by
  induction h with
  | claim hphase hkey hfree => exact settled_claim hs hphase hkey hfree
  | taken hphase hkey _ => exact settled_find hs hkey (by simp [hphase]) (by simp)
  | compare hphase hkey => exact settled_find hs hkey (by simp [hphase]) (by simp)
  | expire _ => exact settled_expire hs _
  | incr => exact settled_write hs fun k ↦ redisKey_ne_rateLimitKey k _ _
  | cacheSummary => exact settled_write hs redisKey_ne_summaryKey

omit [DecidableEq ι] in
theorem settled_start : (TrafficState.start ι).Settled requests sha256 := by
  have hfresh : ∀ {result found n}, Check.fresh ≠ ⟨.returned result, found, n⟩ := by
    simp [Check.fresh]
  exact ⟨fun hi _ ↦ absurd hi.2 hfresh, fun hk ↦ absurd hk (by simp [TrafficState.start]),
    fun _ hi ↦ absurd hi.2 hfresh, fun _ hi ↦ absurd hi hfresh, fun hi ↦ absurd hi hfresh,
    fun _ hi ↦ absurd hi hfresh⟩

theorem settled_exec {as : List (TrafficAction ι)} (hs : s.Settled requests sha256)
    (hrun : (trafficMachine requests sha256).exec s as = some t) : t.Settled requests sha256 :=
  Machine.exec_preserves (fun _ _ _ hu hstep ↦ settled_move hu (trafficStep_iff.mp hstep)) hs hrun

/-! ## Bodies -/

omit [DecidableEq ι] in
/-- A request that has passed was decided by its own fingerprint. -/
theorem passed_found (hs : s.Settled requests sha256) {i : ι} (hi : s.Passed i) :
    ∃ result n, s.checks i = ⟨.returned result, some ((requests i).fingerprint sha256), n⟩ := by
  obtain ⟨result, hphase, hresult⟩ := hi
  have hcheck : s.checks i = ⟨.returned result, (s.checks i).found, (s.checks i).lifetime⟩ := by
    rw [← hphase]
  have hfound : (s.checks i).found = some ((requests i).fingerprint sha256) := by
    rcases hs.answer hcheck with ⟨-, hnew⟩ | hclass
    · exact hnew
    · by_contra hne
      exact hresult (hclass.trans (classify_eq_conflict.mpr hne))
  rw [hfound] at hcheck
  exact ⟨result, _, hcheck⟩

omit [DecidableEq ι] in
/-- Two requests that have passed within one lifetime have one fingerprint. -/
theorem same_fingerprint (hs : s.Settled requests sha256) {i j : ι} {key : String}
    (hi : (requests i).key = some key) (hj : (requests j).key = some key) (hpi : s.Passed i)
    (hpj : s.Passed j) (hlife : (s.checks i).lifetime = (s.checks j).lifetime) :
    (requests i).fingerprint sha256 = (requests j).fingerprint sha256 := by
  obtain ⟨_, m, hci⟩ := passed_found hs hpi
  obtain ⟨_, n, hcj⟩ := passed_found hs hpj
  rw [hci, hcj] at hlife
  obtain rfl : m = n := hlife
  obtain ⟨k, hk, hfk⟩ := hs.decided hi hci
  obtain ⟨l, hl, hfl⟩ := hs.decided hj hcj
  rw [← hfk, ← hfl, hs.unique hk hl]

theorem TrafficMove.expiries_eq {a : TrafficAction ι} {key : String}
    (h : TrafficMove requests sha256 s a t) (ha : a ≠ .expire key) :
    t.expiries key = s.expiries key := by
  induction h with
  | @expire k _ _ =>
    have hne : key ≠ k := by
      rintro rfl
      exact ha rfl
    exact Function.update_of_ne hne _ _
  | claim | taken | compare | incr | cacheSummary => rfl

/-- A check that ends with a step ends in the lifetime of that step. -/
theorem TrafficMove.lifetime_eq {a : TrafficAction ι} {i : ι} {key : String}
    (h : TrafficMove requests sha256 s a t) (hkey : (requests i).key = some key)
    (hopen : ∀ result, (s.checks i).phase ≠ .returned result) {result : CheckResult}
    (hdone : (t.checks i).phase = .returned result) :
    (t.checks i).lifetime = t.expiries (redisKey key) := by
  have hother : ∀ {j : ι} {c : Check}, i ≠ j →
      (Function.update s.checks j c i).phase ≠ .returned result := by
    intro j c hne
    rw [Function.update_of_ne hne]
    exact hopen result
  induction h with
  | @claim j k _ hk _ | @compare j k _ hk =>
    rcases eq_or_ne i j with rfl | hne
    · obtain rfl := Option.some.inj (hk.symm.trans hkey)
      simp
    · exact absurd hdone (hother hne)
  | @taken j k _ _ _ _ =>
    rcases eq_or_ne i j with rfl | hne
    · simp at hdone
    · exact absurd hdone (hother hne)
  | expire | incr | cacheSummary => exact absurd hdone (hopen result)

/-- A check that has not passed is under way, if it passes with the next step. -/
theorem TrafficMove.phase_ne {a : TrafficAction ι} {i : ι} (h : TrafficMove requests sha256 s a t)
    (hnot : ¬ s.Passed i) (hpass : t.Passed i) (result : CheckResult) :
    (s.checks i).phase ≠ .returned result := by
  intro hphase
  refine hnot ?_
  rw [Passed, h.checks_of_returned hphase] at hpass
  exact hpass

/-- As long as the claim does not expire, the checks that end fall within its lifetime. -/
theorem lifetime_of_exec {as : List (TrafficAction ι)} {j : ι} {key : String}
    (hrun : (trafficMachine requests sha256).exec s as = some t)
    (hexpire : .expire (redisKey key) ∉ as) (hkey : (requests j).key = some key)
    (hnot : ¬ s.Passed j) (hpass : t.Passed j) :
    (t.checks j).lifetime = s.expiries (redisKey key) := by
  have halong : (trafficMachine requests sha256).Along
      (fun _ a ↦ a ≠ .expire (redisKey key)) s as :=
    Machine.along_of_forall fun a ha heq ↦ hexpire (heq ▸ ha)
  have hlife : t.expiries (redisKey key) = s.expiries (redisKey key) ∧
      (t.Passed j → (t.checks j).lifetime = s.expiries (redisKey key)) := by
    refine Machine.exec_preserves_along
      (P := fun u : TrafficState ι ↦ u.expiries (redisKey key) = s.expiries (redisKey key) ∧
        (u.Passed j → (u.checks j).lifetime = s.expiries (redisKey key)))
      (fun u a v hu ha hstep ↦ ?_) ⟨rfl, fun hs ↦ absurd hs hnot⟩ halong hrun
    have hmove := trafficStep_iff.mp hstep
    have hexp := (hmove.expiries_eq ha).trans hu.1
    refine ⟨hexp, fun hv ↦ ?_⟩
    by_cases hpassed : u.Passed j
    · obtain ⟨_, hphase, _⟩ := hpassed
      rw [hmove.checks_of_returned hphase]
      exact hu.2 ⟨_, hphase, ‹_›⟩
    · obtain ⟨_, hphase, -⟩ := id hv
      exact (hmove.lifetime_eq hkey (hmove.phase_ne hpassed hv) hphase).trans hexp
  exact hlife.2 hpass

/-! ## Other traffic -/

/-- A step that concerns the key runs on what the key shows. -/
theorem TrafficMove.onKey {a : TrafficAction ι} {key : String}
    (h : TrafficMove requests sha256 s a t) (ha : a.concerns requests key = true) :
    TrafficMove requests sha256 (s.onKey requests key) a (t.onKey requests key) := by
  have hredis : (s.onKey requests key).redis (redisKey key) = s.redis (redisKey key) := if_pos rfl
  have hexpiries : (s.onKey requests key).expiries (redisKey key) = s.expiries (redisKey key) :=
    if_pos rfl
  have hcheck : ∀ {i}, (requests i).key = some key →
      (s.onKey requests key).checks i = s.checks i := fun hi ↦ if_pos hi
  induction h with
  | @claim i k hphase hk hfree =>
    have hi : (requests i).key = some key := of_decide_eq_true ha
    obtain rfl := Option.some.inj (hk.symm.trans hi)
    have hmove : TrafficMove requests sha256 (s.onKey requests k) (.setNx i) _ :=
      .claim ((hcheck hi).symm ▸ hphase) hk (hredis.trans hfree)
    convert hmove using 1
    ext1
    · exact ite_update_of_pos rfl
    · rfl
    · rw [hexpiries]
      exact ite_update_of_pos hi
  | @taken i k f hphase hk hheld =>
    have hi : (requests i).key = some key := of_decide_eq_true ha
    obtain rfl := Option.some.inj (hk.symm.trans hi)
    have hmove : TrafficMove requests sha256 (s.onKey requests k) (.setNx i) _ :=
      .taken ((hcheck hi).symm ▸ hphase) hk (hredis.trans hheld)
    convert hmove using 1
    ext1
    · rfl
    · rfl
    · exact ite_update_of_pos hi
  | @compare i k hphase hk =>
    have hi : (requests i).key = some key := of_decide_eq_true ha
    obtain rfl := Option.some.inj (hk.symm.trans hi)
    have hmove : TrafficMove requests sha256 (s.onKey requests k) (.get i) _ :=
      .compare ((hcheck hi).symm ▸ hphase) hk
    convert hmove using 1
    ext1
    · rfl
    · rfl
    · rw [hexpiries, hredis]
      exact ite_update_of_pos hi
  | @expire k f hheld =>
    obtain rfl : k = redisKey key := of_decide_eq_true ha
    have hmove : TrafficMove requests sha256 (s.onKey requests key) (.expire (redisKey key)) _ :=
      .expire (hredis.trans hheld)
    convert hmove using 1
    ext1
    · exact ite_update_of_pos rfl
    · rw [hexpiries]
      exact ite_update_of_pos rfl
    · rfl
  | incr | cacheSummary => exact absurd ha (by simp [TrafficAction.concerns])

/-- A step that does not concern the key changes nothing it shows. -/
theorem TrafficMove.onKey_eq {a : TrafficAction ι} {key : String}
    (h : TrafficMove requests sha256 s a t) (ha : a.concerns requests key = false) :
    t.onKey requests key = s.onKey requests key := by
  induction h with
  | @claim i k _ hk _ =>
    have hi : (requests i).key ≠ some key := of_decide_eq_false ha
    have hne : k ≠ key := by
      rintro rfl
      exact hi hk
    ext1
    · exact ite_update_of_neg (redisKey_injective.ne hne)
    · rfl
    · exact ite_update_of_neg hi
  | taken | compare =>
    ext1
    · rfl
    · rfl
    · exact ite_update_of_neg (of_decide_eq_false ha)
  | expire =>
    ext1
    · exact ite_update_of_neg (of_decide_eq_false ha)
    · exact ite_update_of_neg (of_decide_eq_false ha)
    · rfl
  | incr =>
    ext1
    · exact ite_update_of_neg (redisKey_ne_rateLimitKey _ _ _).symm
    · rfl
    · rfl
  | cacheSummary =>
    ext1
    · exact ite_update_of_neg (redisKey_ne_summaryKey _).symm
    · rfl
    · rfl

omit [DecidableEq ι] in
theorem onKey_start (key : String) :
    (TrafficState.start ι).onKey requests key = .start ι := by
  ext1 <;> exact funext fun _ ↦ ite_self _

/-- What a key shows of a run is the run of what concerns it. -/
theorem onKey_exec {as : List (TrafficAction ι)}
    (hrun : (trafficMachine requests sha256).exec (.start ι) as = some t) (key : String) :
    (trafficMachine requests sha256).exec (.start ι) (as.filter (·.concerns requests key))
      = some (t.onKey requests key) := by
  have hfilter := Machine.exec_filter (onKey requests · key) (·.concerns requests key)
    (fun u a v ha hstep ↦ trafficStep_iff.mpr ((trafficStep_iff.mp hstep).onKey ha))
    (fun _ _ _ _ _ _ ha _ hstep ↦ (trafficStep_iff.mp hstep).onKey_eq ha) hrun
  rwa [onKey_start] at hfilter

/-! ## One body per claim -/

/-- **Two bodies pass under one key only if its claim expires in between; each lifetime of a claim
has one request classified `new`; and what concerns other keys, the counters or the summary is as if
it had not been.** -/
theorem one_body_per_claim (requests : ι → Submission) (sha256 : String → String)
    {s t : TrafficState ι} {as : List (TrafficAction ι)}
    (hinit : (trafficMachine requests sha256).init s)
    (hrun : (trafficMachine requests sha256).exec s as = some t) :
    (∀ {bs cs a u v}, as = bs ++ a :: cs → (trafficMachine requests sha256).exec s bs = some u →
      (trafficMachine requests sha256).step u a = some v →
      ∀ {i j key}, (requests i).key = some key → (requests j).key = some key →
        (requests i).fingerprint sha256 ≠ (requests j).fingerprint sha256 →
        ¬ u.Passed i → v.Passed i → ¬ v.Passed j → t.Passed j → .expire (redisKey key) ∈ cs) ∧
    (∀ {i key n result}, (requests i).key = some key → t.Within i n result →
      ∃! j, (requests j).key = some key ∧ t.Within j n .new) ∧
    (∀ key, ∃ u, (trafficMachine requests sha256).exec s (as.filter (·.concerns requests key))
      = some u ∧ ∀ i, (requests i).key = some key → u.checks i = t.checks i) ∧
    (∀ key, (∀ key', redisKey key = redisKey key' → key = key') ∧ redisKey key ≠ summaryKey ∧
      ∀ identifier bucket, redisKey key ≠ rateLimitKey identifier bucket) := by
  obtain rfl : s = .start ι := hinit
  have hsettled : t.Settled requests sha256 := settled_exec settled_start hrun
  refine ⟨?_, ?_, fun key ↦ ?_, fun key ↦ ?_⟩
  · intro bs cs a u v has hu hstep i j key hi hj hne hui hvi hvj htj
    by_contra hexpire
    rw [has] at hrun
    have hcs := Machine.exec_after _ hrun hu hstep
    have hmove := trafficStep_iff.mp hstep
    obtain ⟨result, hphase, hresult⟩ := id hvi
    -- The first is decided in the lifetime in which the second is.
    have hfirst := hmove.lifetime_eq hi (hmove.phase_ne hui hvi) hphase
    have hsecond := lifetime_of_exec hcs hexpire hj hvj htj
    have hkept : t.checks i = v.checks i := by
      refine Machine.exec_preserves
        (P := fun w : TrafficState ι ↦ w.checks i = v.checks i) ?_ rfl hcs
      intro w b x hw hx
      have hphase' : (w.checks i).phase = .returned result := by rw [hw, hphase]
      exact ((trafficStep_iff.mp hx).checks_of_returned hphase').trans hw
    have hti : t.Passed i := ⟨result, by rw [hkept, hphase], hresult⟩
    exact hne (same_fingerprint hsettled hi hj hti htj (by rw [hkept, hfirst, hsecond]))
  · rintro i key n result hi ⟨f, hcheck⟩
    obtain ⟨j, hj, -⟩ := hsettled.decided hi hcheck
    refine ⟨j, ⟨hj.1, _, hj.2⟩, ?_⟩
    rintro k ⟨hk, g, hg⟩
    refine hsettled.unique ⟨hk, ?_⟩ hj
    rcases hsettled.answer hg with ⟨-, hown⟩ | hclass
    · rw [hg, hown]
    · exact absurd hclass.symm (classify_ne_new _ _)
  · exact ⟨_, onKey_exec hrun key, fun i hi ↦ if_pos hi⟩
  · exact ⟨fun _ h ↦ redisKey_injective h, redisKey_ne_summaryKey key,
      redisKey_ne_rateLimitKey key⟩

/-- Two requests with different bodies under one key. -/
def rivalRequests : Fin 2 → Submission
  | 0 => ⟨sampleBody "view", some " k "⟩
  | 1 => ⟨sampleBody "click", some "k"⟩

/-- The first claims the key, the claim expires, and the second claims it again. -/
def reclaimRun : List (TrafficAction (Fin 2)) :=
  [.setNx 0, .incr "10.0.0.1" 0 "1", .expire (redisKey "k"), .setNx 1]

theorem reclaimRun_one_body :
    ∃ t, (trafficMachine rivalRequests id).exec (.start (Fin 2)) reclaimRun = some t ∧
      (∃! j, (rivalRequests j).key = some "k" ∧ t.Within j 1 .new) ∧
      ∃ u, (trafficMachine rivalRequests id).exec (.start (Fin 2))
        [.setNx 0, .expire (redisKey "k"), .setNx 1] = some u ∧ u.checks 1 = t.checks 1 := by
  have hrun : (trafficMachine rivalRequests id).exec (.start (Fin 2)) reclaimRun = some _ := rfl
  obtain ⟨-, hlife, hother, -⟩ := one_body_per_claim rivalRequests id rfl hrun
  obtain ⟨u, hu, hchecks⟩ := hother "k"
  exact ⟨_, hrun, hlife rfl (show TrafficState.Within _ 1 1 .new from ⟨_, rfl⟩), u, hu,
    hchecks 1 rfl⟩

end Acheron
