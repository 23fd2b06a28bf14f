import Mathlib.Logic.Function.Basic
import Acheron.Lib.Runs

/-!
# The idempotency check

`RedisCache.check_idempotency` is two Redis commands: `SET NX EX`, which claims the key for the
request's fingerprint, and, when the key was taken, a later `GET` whose answer is compared with the
fingerprint. Between the two, other calls run and the claim may expire.

`checkMachine` runs any number of calls on one keyspace. Time is left out: a key may expire at any
step. Each call carries a history variable, `rival`: whether its key has been held by another
fingerprint at some moment since the call began.

## Conflicts

A call should answer `conflict` only to a rival. What it compares is the stored value, and a `GET`
that finds *nothing* is unequal to the fingerprint as well; `honest_iff` says that this is the only
way to a wrong conflict.
-/

open Runs

namespace Acheron

/-- The string keys of Redis; an expired key has no value. -/
abbrev Redis := String → Option String

/-- `SET key value NX EX ttl`: the keyspace afterwards, and whether the key was claimed. The `ttl`,
which Redis refuses when it is not positive, is left out; a claim may expire at any step. -/
def setNx (redis : Redis) (key value : String) : Redis × Bool :=
  match redis key with
  | none => (Function.update redis key (some value), true)
  | some _ => (redis, false)

/-- A key expires. -/
def expireKey (redis : Redis) (key : String) : Redis := Function.update redis key none

/-- `redis_key`. -/
def redisKey (key : String) : String := "idem:" ++ key

/-- What `check_idempotency` returns. -/
inductive CheckResult where
  /-- `"new"`. -/
  | new
  /-- `"replay"`. -/
  | replay
  /-- `"conflict"`. -/
  | conflict
  deriving DecidableEq

/-- `"replay" if stored == fingerprint else "conflict"`. -/
def classify (fingerprint : String) (stored : Option String) : CheckResult :=
  if stored = some fingerprint then .replay else .conflict

theorem classify_eq_conflict {f : String} {stored : Option String} :
    classify f stored = .conflict ↔ stored ≠ some f := by
  unfold classify
  split
  · exact iff_of_false (by simp) (by simpa)
  · exact iff_of_true rfl ‹_›

/-- Where a call is. -/
inductive CheckPhase where
  /-- `SET NX` is under way. -/
  | setting
  /-- `GET` is under way. -/
  | getting
  | returned (result : CheckResult)
  deriving DecidableEq

/-- A `check_idempotency` call. -/
structure CheckCall where
  key : String
  fingerprint : String
  phase : CheckPhase
  /-- History: another fingerprint has held the key during the call. -/
  rival : Bool

/-- The keyspace and the calls on it. -/
structure CheckState (ι : Type) where
  redis : Redis
  calls : ι → Option CheckCall

/-- What may happen next. -/
inductive CheckAction (ι : Type) where
  | begin (i : ι) (key fingerprint : String)
  | setNx (i : ι)
  | get (i : ι)
  | expire (key : String)

/-- Another fingerprint holds the call's key. -/
def CheckCall.heldByOther (c : CheckCall) (redis : Redis) : Bool :=
  match redis (redisKey c.key) with
  | some f => f ≠ c.fingerprint
  | none => false

/-- Update the history of a call that is still under way. -/
def CheckCall.observe (redis : Redis) (c : CheckCall) : CheckCall :=
  match c.phase with
  | .returned _ => c
  | _ => { c with rival := c.rival || c.heldByOther redis }

variable {ι : Type}

/-- Update the history of every call. -/
def CheckState.observe (s : CheckState ι) : CheckState ι :=
  { s with calls := fun i ↦ (s.calls i).map (CheckCall.observe s.redis) }

/-- Any number of `check_idempotency` calls on one keyspace. -/
def checkMachine (ι : Type) [DecidableEq ι] : Machine (CheckState ι) (CheckAction ι) where
  init s := ∀ i, s.calls i = none
  step s
    | .begin i key fingerprint =>
      match s.calls i with
      | some _ => none
      | none =>
        some { s with
          calls := Function.update s.calls i (some ⟨key, fingerprint, .setting, false⟩) }.observe
    | .setNx i =>
      match s.calls i with
      | some ⟨key, fingerprint, .setting, rival⟩ =>
        let r := setNx s.redis (redisKey key) fingerprint
        let phase := if r.2 then .returned .new else .getting
        some (CheckState.observe {
          redis := r.1
          calls := Function.update s.calls i (some ⟨key, fingerprint, phase, rival⟩) })
      | _ => none
    | .get i =>
      match s.calls i with
      | some ⟨key, fingerprint, .getting, rival⟩ =>
        let phase := .returned (classify fingerprint (s.redis (redisKey key)))
        some { s with
          calls := Function.update s.calls i (some ⟨key, fingerprint, phase, rival⟩) }.observe
      | _ => none
    | .expire key => some { s with redis := expireKey s.redis key }.observe

namespace CheckState

/-- A conflict is answered to a rival only. -/
def Honest (s : CheckState ι) : Prop :=
  ∀ i c, s.calls i = some c → c.phase = .returned .conflict → c.rival = true

/-- **The condition on a `GET`.** It finds the key present, unless another fingerprint has held it
earlier in the call. -/
def Found (s : CheckState ι) : CheckAction ι → Prop
  | .get i => ∀ c, s.calls i = some c → s.redis (redisKey c.key) = none → c.rival = true
  | _ => True

/-- No request bearing the key is answered `conflict`. -/
def Undisputed (key : String) (s : CheckState ι) : Prop :=
  ∀ i c, s.calls i = some c → c.key = key → c.phase ≠ .returned .conflict

/-- A `GET` of the key finds it present. -/
def Present (key : String) (s : CheckState ι) : CheckAction ι → Prop
  | .get i => ∀ c, s.calls i = some c → c.key = key → s.redis (redisKey key) ≠ none
  | _ => True

/-- Every call that begins with the key carries the fingerprint. -/
def SameBody (key fingerprint : String) (_ : CheckState ι) : CheckAction ι → Prop
  | .begin _ k f => k = key → f = fingerprint
  | _ => True

/-- The history is up to date: a rival that holds the key now has been noticed. -/
def Observed (s : CheckState ι) : Prop :=
  ∀ i c, s.calls i = some c → (∀ r, c.phase ≠ .returned r) → c.heldByOther s.redis = true →
    c.rival = true

/-- Nothing but the one fingerprint is to be seen under the key. -/
structure OneBody (key fingerprint : String) (s : CheckState ι) : Prop where
  held : ∀ f ∈ s.redis (redisKey key), f = fingerprint
  calls : ∀ i c, s.calls i = some c → c.key = key → c.fingerprint = fingerprint ∧ c.rival = false

end CheckState

open CheckState

/-! ## The history variable -/

theorem CheckCall.observe_returned {c : CheckCall} {redis : Redis} {r : CheckResult}
    (h : c.phase = .returned r) : c.observe redis = c := by
  rw [observe, h]

@[simp] theorem CheckCall.observe_key (c : CheckCall) (redis : Redis) :
    (c.observe redis).key = c.key := by
  unfold observe
  split <;> rfl

@[simp] theorem CheckCall.observe_fingerprint (c : CheckCall) (redis : Redis) :
    (c.observe redis).fingerprint = c.fingerprint := by
  unfold observe
  split <;> rfl

@[simp] theorem CheckCall.observe_phase (c : CheckCall) (redis : Redis) :
    (c.observe redis).phase = c.phase := by
  unfold observe
  split <;> rfl

/-- Looking adds nothing to the history but what is there to be seen. -/
theorem CheckCall.observe_rival {c : CheckCall} {redis : Redis} (hc : c.rival = false)
    (hother : c.heldByOther redis = false) : (c.observe redis).rival = false := by
  unfold observe
  split
  · exact hc
  · simp [hc, hother]

theorem CheckState.observe_calls {s : CheckState ι} {i : ι} {c : CheckCall}
    (h : s.observe.calls i = some c) : ∃ c₀, s.calls i = some c₀ ∧ c = c₀.observe s.redis := by
  obtain ⟨c₀, hc₀, hc⟩ := Option.map_eq_some_iff.mp h
  exact ⟨c₀, hc₀, hc.symm⟩

theorem CheckState.calls_observe {s : CheckState ι} {i : ι} {c : CheckCall}
    (h : s.calls i = some c) : s.observe.calls i = some (c.observe s.redis) := by
  simp [CheckState.observe, h]

theorem honest_observe {s : CheckState ι} : s.observe.Honest ↔ s.Honest := by
  constructor
  · intro h i c hc hphase
    have hseen := calls_observe hc
    rw [CheckCall.observe_returned hphase] at hseen
    exact h i c hseen hphase
  · intro h i c hc hphase
    obtain ⟨c₀, hc₀, rfl⟩ := observe_calls hc
    rw [CheckCall.observe_phase] at hphase
    rw [CheckCall.observe_returned hphase]
    exact h i c₀ hc₀ hphase

theorem observed_observe (s : CheckState ι) : s.observe.Observed := by
  intro i c hc hactive hother
  obtain ⟨c₀, hc₀, rfl⟩ := observe_calls hc
  have hheld : c₀.heldByOther s.redis = true := by
    simpa [CheckCall.heldByOther, CheckState.observe] using hother
  unfold CheckCall.observe
  split
  · exact absurd ‹_› (by simpa using hactive _)
  · simp [hheld]

/-! ## One step -/

variable [DecidableEq ι] {s t : CheckState ι}

/-- The steps, before the history is brought up to date. -/
inductive CheckMove (s : CheckState ι) : CheckAction ι → CheckState ι → Prop
  | begin {i : ι} {key fingerprint : String} (hnone : s.calls i = none) :
      CheckMove s (.begin i key fingerprint)
        { s with calls := Function.update s.calls i (some ⟨key, fingerprint, .setting, false⟩) }
  | claim {i : ι} {key fingerprint : String} {rival : Bool}
      (hcall : s.calls i = some ⟨key, fingerprint, .setting, rival⟩)
      (hfree : s.redis (redisKey key) = none) :
      CheckMove s (.setNx i) {
        redis := Function.update s.redis (redisKey key) (some fingerprint)
        calls := Function.update s.calls i (some ⟨key, fingerprint, .returned .new, rival⟩) }
  | taken {i : ι} {key fingerprint f : String} {rival : Bool}
      (hcall : s.calls i = some ⟨key, fingerprint, .setting, rival⟩)
      (hheld : s.redis (redisKey key) = some f) :
      CheckMove s (.setNx i)
        { s with calls := Function.update s.calls i (some ⟨key, fingerprint, .getting, rival⟩) }
  | compare {i : ι} {key fingerprint : String} {rival : Bool}
      (hcall : s.calls i = some ⟨key, fingerprint, .getting, rival⟩) :
      CheckMove s (.get i) { s with
        calls := Function.update s.calls i (some ⟨key, fingerprint,
          .returned (classify fingerprint (s.redis (redisKey key))), rival⟩) }
  | expire {key : String} : CheckMove s (.expire key) { s with redis := expireKey s.redis key }

theorem move_of_checkStep {a : CheckAction ι} (h : (checkMachine ι).step s a = some t) :
    ∃ u, CheckMove s a u ∧ t = u.observe := by
  cases a with
  | begin i key fingerprint =>
    simp only [checkMachine] at h
    split at h
    case h_1 => exact absurd h (by simp)
    case h_2 hnone => exact ⟨_, .begin hnone, (Option.some.inj h).symm⟩
  | setNx i =>
    simp only [checkMachine] at h
    split at h
    case h_1 key fingerprint rival hcall =>
      obtain rfl := Option.some.inj h
      cases hkey : s.redis (redisKey key) with
      | none =>
        rw [setNx, hkey]
        exact ⟨_, .claim hcall hkey, rfl⟩
      | some f =>
        rw [setNx, hkey]
        exact ⟨_, .taken hcall hkey, rfl⟩
    case h_2 => exact absurd h (by simp)
  | get i =>
    simp only [checkMachine] at h
    split at h
    case h_1 hcall => exact ⟨_, .compare hcall, (Option.some.inj h).symm⟩
    case h_2 => exact absurd h (by simp)
  | expire key => exact ⟨_, .expire, (Option.some.inj h).symm⟩

/-- Replacing one call leaves honesty to that call. -/
theorem honest_update {redis : Redis} {i : ι} {c : CheckCall} (hs : s.Honest) :
    Honest ⟨redis, Function.update s.calls i (some c)⟩ ↔
      (c.phase = .returned .conflict → c.rival = true) := by
  constructor
  · intro h hphase
    exact h i c (Function.update_self i _ _) hphase
  · intro h j d hd hphase
    by_cases hji : j = i
    · subst hji
      obtain rfl : c = d := by simpa using hd
      exact h hphase
    · exact hs j d (by simpa [hji] using hd) hphase

/-- **A step keeps honesty exactly when its `GET`, if it is one, finds the key.** -/
theorem honest_move_iff (hobs : s.Observed) (hs : s.Honest) {a : CheckAction ι}
    (h : CheckMove s a t) : t.Honest ↔ s.Found a := by
  cases h with
  | begin _ => exact iff_of_true ((honest_update hs).mpr (by simp)) trivial
  | claim _ _ => exact iff_of_true ((honest_update hs).mpr (by simp)) trivial
  | taken _ _ => exact iff_of_true ((honest_update hs).mpr (by simp)) trivial
  | expire => exact iff_of_true hs trivial
  | @compare i key fingerprint rival hcall =>
    rw [honest_update hs]
    constructor
    · intro hrival c hc hnone
      obtain rfl := Option.some.inj (hcall.symm.trans hc)
      exact hrival (by rw [hnone]; rfl)
    · intro hfound hconflict
      have hrival := hobs i _ hcall (by simp)
      have hfound' := hfound _ hcall
      cases hkey : s.redis (redisKey key) with
      | none => exact hfound' hkey
      | some f =>
        refine hrival ?_
        rw [hkey] at hconflict
        by_cases hf : f = fingerprint
        · simp [classify, hf] at hconflict
        · simp [CheckCall.heldByOther, hkey, hf]

/-! ## One body -/

variable {key fingerprint : String}

theorem redisKey_injective : Function.Injective redisKey := by
  intro k l h
  have hlist : "idem:".toList ++ k.toList = "idem:".toList ++ l.toList := by
    rw [← String.toList_append, ← String.toList_append]
    exact congrArg String.toList h
  exact String.toList_inj.mp (List.append_cancel_left hlist)

omit [DecidableEq ι] in
/-- Where only one fingerprint is to be seen, looking finds no rival. -/
theorem oneBody_observe (hs : s.OneBody key fingerprint) : s.observe.OneBody key fingerprint := by
  refine ⟨hs.held, fun i c hc hk ↦ ?_⟩
  obtain ⟨c₀, hc₀, rfl⟩ := observe_calls hc
  rw [CheckCall.observe_key] at hk
  obtain ⟨hf, hr⟩ := hs.calls i c₀ hc₀ hk
  refine ⟨by rw [CheckCall.observe_fingerprint, hf], CheckCall.observe_rival hr ?_⟩
  cases hkey : s.redis (redisKey key) with
  | none => simp [CheckCall.heldByOther, hk, hkey]
  | some f => simp [CheckCall.heldByOther, hk, hkey, hs.held f hkey, hf]

theorem oneBody_calls {i : ι} {c : CheckCall} (hs : s.OneBody key fingerprint)
    (hc : c.key = key → c.fingerprint = fingerprint ∧ c.rival = false) :
    ∀ j d, Function.update s.calls i (some c) j = some d → d.key = key →
      d.fingerprint = fingerprint ∧ d.rival = false := by
  intro j d hd hk
  by_cases hji : j = i
  · subst hji
    obtain rfl : c = d := by simpa using hd
    exact hc hk
  · exact hs.calls j d (by simpa [hji] using hd) hk

theorem oneBody_phase {i : ι} {c : CheckCall} {phase : CheckPhase}
    (hs : s.OneBody key fingerprint) (hcall : s.calls i = some c) :
    ∀ j d, Function.update s.calls i (some { c with phase := phase }) j = some d → d.key = key →
      d.fingerprint = fingerprint ∧ d.rival = false :=
  oneBody_calls hs (hs.calls i c hcall)

theorem oneBody_move (hs : s.OneBody key fingerprint) {a : CheckAction ι}
    (hsame : SameBody key fingerprint s a) (h : CheckMove s a t) : t.OneBody key fingerprint := by
  cases h with
  | begin _ => exact ⟨hs.held, oneBody_calls hs fun hk ↦ ⟨hsame hk, rfl⟩⟩
  | @claim i k f rival hcall _ =>
    refine ⟨fun g hg ↦ ?_, oneBody_phase hs hcall⟩
    by_cases hk : redisKey key = redisKey k
    · have hf := (hs.calls i _ hcall (redisKey_injective hk).symm).1
      simp only [hk, Function.update_self, Option.mem_some_iff] at hg
      exact hg ▸ hf
    · exact hs.held g (by simpa [hk] using hg)
  | taken hcall _ => exact ⟨hs.held, oneBody_phase hs hcall⟩
  | compare hcall => exact ⟨hs.held, oneBody_phase hs hcall⟩
  | @expire k =>
    refine ⟨fun g hg ↦ ?_, hs.calls⟩
    by_cases hk : redisKey key = k
    · simp [expireKey, hk] at hg
    · exact hs.held g (by simpa [expireKey, hk] using hg)

omit [DecidableEq ι] in
theorem undisputed_observe : s.observe.Undisputed key ↔ s.Undisputed key := by
  constructor
  · intro h i c hc hk
    exact c.observe_phase s.redis ▸ h i _ (calls_observe hc) (by rw [CheckCall.observe_key, hk])
  · intro h i c hc hk
    obtain ⟨c₀, hc₀, rfl⟩ := observe_calls hc
    rw [CheckCall.observe_phase]
    exact h i c₀ hc₀ (by rw [← hk, CheckCall.observe_key])

theorem undisputed_update {redis : Redis} {i : ι} {c : CheckCall} (hs : s.Undisputed key) :
    Undisputed key ⟨redis, Function.update s.calls i (some c)⟩ ↔
      (c.key = key → c.phase ≠ .returned .conflict) := by
  constructor
  · exact fun h hk ↦ h i c (Function.update_self i _ _) hk
  · intro h j d hd hk
    by_cases hji : j = i
    · subst hji
      obtain rfl : c = d := by simpa using hd
      exact h hk
    · exact hs j d (by simpa [hji] using hd) hk

/-- With one body, a step answers no conflict exactly when its `GET`, if it is one, finds the
key. -/
theorem undisputed_move_iff (hone : s.OneBody key fingerprint) (hs : s.Undisputed key)
    {a : CheckAction ι} (h : CheckMove s a t) : t.Undisputed key ↔ s.Present key a := by
  cases h with
  | begin _ => exact iff_of_true ((undisputed_update hs).mpr (by simp)) trivial
  | claim _ _ => exact iff_of_true ((undisputed_update hs).mpr (by simp)) trivial
  | taken _ _ => exact iff_of_true ((undisputed_update hs).mpr (by simp)) trivial
  | expire => exact iff_of_true hs trivial
  | @compare i k f rival hcall =>
    rw [undisputed_update hs]
    constructor
    · intro hnot c hc hk hnone
      obtain rfl := Option.some.inj (hcall.symm.trans hc)
      obtain rfl : k = key := hk
      exact hnot rfl (by rw [hnone]; rfl)
    · intro hpresent hk
      obtain rfl : k = key := hk
      obtain ⟨g, hg⟩ := Option.ne_none_iff_exists'.mp (hpresent _ hcall rfl)
      have hgf : g = f := (hone.held g hg).trans (hone.calls i _ hcall rfl).1.symm
      rw [hg, classify, if_pos (by rw [hgf])]
      simp

/-! ## Whole runs -/

/-- **An honest retry is never a conflict — exactly when its `GET` finds the key.** A call answers
`conflict` to rivals only, in every state of a run, exactly when each `GET` finds the key present or
a rival has held it earlier in the call. And where every request bearing a key carries one
fingerprint, none of them is answered `conflict` exactly when each `GET` of that key finds it. -/
theorem honest_iff (s t : CheckState ι) (as : List (CheckAction ι))
    (hinit : (checkMachine ι).init s) (hrun : (checkMachine ι).exec s as = some t) :
    ((checkMachine ι).Always Honest s as ↔ (checkMachine ι).Along Found s as) ∧
      ∀ key fingerprint, (∀ f ∈ s.redis (redisKey key), f = fingerprint) →
        (checkMachine ι).Along (SameBody key fingerprint) s as →
          ((checkMachine ι).Always (Undisputed key) s as
            ↔ (checkMachine ι).Along (Present key) s as) := by
  have hempty {i : ι} {c : CheckCall} (hc : s.calls i = some c) : False := by
    simp [hinit i] at hc
  refine ⟨?_, fun key fingerprint hheld hsame ↦ ?_⟩
  · refine Machine.always_iff_along (I := Observed) ?_ ?_ (fun i c hc ↦ (hempty hc).elim)
      (fun i c hc ↦ (hempty hc).elim) hrun
    · intro u a v _ hstep
      obtain ⟨w, -, rfl⟩ := move_of_checkStep hstep
      exact observed_observe w
    · intro u a v hobs hu hstep
      obtain ⟨w, hmove, rfl⟩ := move_of_checkStep hstep
      rw [honest_observe]
      exact honest_move_iff hobs hu hmove
  · refine Machine.always_iff_along_of (I := OneBody key fingerprint) ?_ ?_
      ⟨hheld, fun i c hc ↦ (hempty hc).elim⟩ (fun i c hc ↦ (hempty hc).elim) hsame hrun
    · intro u a v hone hbody hstep
      obtain ⟨w, hmove, rfl⟩ := move_of_checkStep hstep
      exact oneBody_observe (oneBody_move hone hbody hmove)
    · intro u a v hone hu _ hstep
      obtain ⟨w, hmove, rfl⟩ := move_of_checkStep hstep
      rw [undisputed_observe]
      exact undisputed_move_iff hone hu hmove

/-! ## Two calls with one body -/

/-- An empty keyspace and no calls. -/
def CheckState.idle : CheckState (Fin 2) := ⟨fun _ ↦ none, fun _ ↦ none⟩

/-- A first request claims the key, a retry of it finds the key taken and is about to read it. -/
def retryRun : List (CheckAction (Fin 2)) :=
  [.begin 0 "k" "f", .setNx 0, .begin 1 "k" "f", .setNx 1]

/-- While the claim lives, the retry is not a conflict. -/
theorem retryRun_honest : (checkMachine (Fin 2)).Always Honest .idle (retryRun ++ [.get 1]) := by
  refine (honest_iff .idle _ (retryRun ++ [.get 1]) (fun _ ↦ rfl) rfl).1.mpr ?_
  refine .step trivial rfl <| .step trivial rfl <| .step trivial rfl <| .step trivial rfl <|
    .step ?_ rfl Machine.along_nil
  intro c hc hnone
  obtain rfl := Option.some.inj hc
  exact absurd hnone (by decide)

/-- When the claim expires between the retry's two commands, the retry is answered `conflict`,
though no other fingerprint was ever stored. -/
theorem retryRun_conflict :
    ¬ (∀ (s t : CheckState (Fin 2)) (as : List (CheckAction (Fin 2))),
      (checkMachine (Fin 2)).init s → (checkMachine (Fin 2)).exec s as = some t → t.Honest) ∧
    ¬ ∀ (s t : CheckState (Fin 2)) (as : List (CheckAction (Fin 2))),
      (checkMachine (Fin 2)).init s → (checkMachine (Fin 2)).exec s as = some t →
      (checkMachine (Fin 2)).Along (SameBody "k" "f") s as →
      (∀ f ∈ s.redis (redisKey "k"), f = "f") → t.Undisputed "k" := by
  refine ⟨fun h ↦ ?_, fun h ↦ ?_⟩
  · have hrival := h .idle _ (retryRun ++ [.expire (redisKey "k"), .get 1]) (fun _ ↦ rfl) rfl
      1 _ rfl (by decide)
    exact absurd hrival (by decide)
  · have hsame : (checkMachine (Fin 2)).Along (SameBody "k" "f") .idle
        (retryRun ++ [.expire (redisKey "k"), .get 1]) :=
      .cons (fun _ ↦ rfl) fun _ _ ↦ .cons trivial fun _ _ ↦ .cons (fun _ ↦ rfl) fun _ _ ↦
        .cons trivial fun _ _ ↦ .cons trivial fun _ _ ↦ .cons trivial fun _ _ ↦ Machine.along_nil
    have hnot := h .idle _ (retryRun ++ [.expire (redisKey "k"), .get 1]) (fun _ ↦ rfl) rfl hsame
      (by simp [CheckState.idle]) 1 _ rfl rfl
    exact absurd (show _ = CheckPhase.returned .conflict by decide) hnot

end Acheron
