import Acheron.Cache.CacheAside
import Acheron.Lib.Ledger

/-!
# The hit and miss counters

`RedisCache.metrics` reports how many calls of `get_or_set` were hits and how many were misses.
`sharedMachine` runs the calls of `cacheMachine` on a Redis that others write as well, so that a
`GET` may bring any text; and `json.loads` may raise for a text that is JSON, at a limit of the
interpreter.

## Counted twice

A call counts its hit when it has a text, and decodes the text only then. If that fails, the
`except` logs it and the call goes on to its factory as a miss. `counters_classify_iff` says that
the counters are right exactly when this happens to no call; `Tallied` is what they say in general.
-/

open Runs Ledgers

namespace Acheron

/-- What may happen next. -/
inductive SharedAction (float : List Char → Json) (ι ε : Type) where
  /-- A step of the calls, or of Redis with them. -/
  | own (a : CacheAction float ι ε)
  /-- Somebody else sets a key, or deletes it. -/
  | write (key : String) (entry : Option CacheEntry)
  /-- The call goes on with a text that `json.loads` raises for at a limit of the interpreter. -/
  | loadsError (i : ι)

variable {ι ε : Type} {float : List Char → Json}

/-- The call is neither to come nor over. -/
def CachePhase.inFlight : CachePhase float ε → Bool
  | .idle | .returned _ _ | .raised _ => false
  | .getting | .answered _ | .computing | .setting _ => true

/-- The call has returned `cache_hit` as `True`. -/
def CachePhase.isHit : CachePhase float ε → Bool
  | .returned _ hit => hit
  | _ => false

/-- `factory()` is under way. -/
def CachePhase.isComputing : CachePhase float ε → Bool
  | .computing => true
  | _ => false

/-- The call has invoked its factory. -/
def CachePhase.invoked : CachePhase float ε → Bool
  | .computing | .setting _ | .returned _ false | .raised _ => true
  | _ => false

namespace SharedAction

/-- The call that a step makes. -/
def made : SharedAction float ι ε → Option ι
  | .own (.call i) => some i
  | _ => none

/-- The step invokes a factory. -/
def invokes (_ : CacheState float ι ε) (a : SharedAction float ι ε) (t : CacheState float ι ε) :
    Bool :=
  match a with
  | .own (.resume i) | .loadsError i => (t.calls i).isComputing
  | _ => false

/-- A call goes on with a text that `json.loads` raises for. -/
def misreads (s : CacheState float ι ε) (a : SharedAction float ι ε) (_ : CacheState float ι ε) :
    Bool :=
  match a with
  | .own (.resume i) =>
    match s.calls i with
    | .answered (.ok (some text)) => (Json.loads float text).isNone
    | _ => false
  | .loadsError _ => true
  | _ => false

/-- **The condition on a step.** A call that goes on with a text can read it. -/
def Reads (s : CacheState float ι ε) : SharedAction float ι ε → Prop
  | .own (.resume i) =>
    ∀ text, s.calls i = .answered (.ok (some text)) → Json.loads float text ≠ none
  | .loadsError _ => False
  | _ => True

end SharedAction

open SharedAction

/-- The calls of a run, in order. -/
def callsMade (as : List (SharedAction float ι ε)) : List ι := as.filterMap made

variable [DecidableEq ι] (key : ι → String) (ttl : ι → ℤ)

/-- Any family of `get_or_set` calls on a Redis that others write as well. -/
def sharedMachine : Machine (CacheState float ι ε) (SharedAction float ι ε) where
  init s := (∀ i, s.calls i = .idle) ∧ (∀ i, s.commands i = none) ∧ s.hits = 0 ∧ s.misses = 0
  step s
    | .own a => (cacheMachine key ttl).step s a
    | .write k entry => some { s with store := Function.update s.store k entry }
    | .loadsError i =>
      match s.calls i with
      | .answered (.ok (some _)) =>
        -- The hit is counted already when `json.loads` raises.
        some { s.goTo i .computing with hits := s.hits + 1, misses := s.misses + 1 }
      | _ => none

/-! ## What a step counts -/

variable {key ttl} {s t : CacheState float ι ε} {a : SharedAction float ι ε}

/-- What a step leaves of the calls and the counters. -/
inductive CounterMove (s t : CacheState float ι ε) (a : SharedAction float ι ε) : Prop
  /-- A call is made. -/
  | call {i : ι} (hmade : a.made = some i) (hphase : s.calls i = .idle)
      (hcalls : t.calls = Function.update s.calls i .getting) (hhits : t.hits = s.hits)
      (hmisses : t.misses = s.misses) (hinvokes : invokes s a t = false)
      (hmisreads : misreads s a t = false)
  /-- A call moves on. -/
  | move {i : ι} {phase : CachePhase float ε} (hmade : a.made = none) (hold : s.calls i ≠ .idle)
      (hnew : phase ≠ .idle) (hcalls : t.calls = Function.update s.calls i phase)
      (hhits : t.hits + (s.calls i).isHit.toNat
        = s.hits + phase.isHit.toNat + (misreads s a t).toNat)
      (hmisses : t.misses = s.misses + (invokes s a t).toNat)
      (hinvoked : phase.invoked.toNat = (s.calls i).invoked.toNat + (invokes s a t).toNat)
  /-- The calls stay where they are. -/
  | pass (hmade : a.made = none) (hcalls : t.calls = s.calls) (hhits : t.hits = s.hits)
      (hmisses : t.misses = s.misses) (hinvokes : invokes s a t = false)
      (hmisreads : misreads s a t = false)

/-- A step that a call does not resume with counts nothing. -/
theorem counters_of_step {a : CacheAction float ι ε} (h : (cacheMachine key ttl).step s a = some t)
    (ha : ∀ i, a ≠ .resume i) : t.hits = s.hits ∧ t.misses = s.misses := by
  cases a with
  | resume i => exact absurd rfl (ha i)
  | executeSet i =>
    simp only [cacheMachine] at h
    split at h
    next =>
      obtain ⟨store, -, rfl⟩ := Option.map_eq_some_iff.mp h
      exact ⟨rfl, rfl⟩
    next => exact absurd h (by simp)
  | evict k =>
    obtain rfl := Option.some.inj h
    exact ⟨rfl, rfl⟩
  | _ =>
    simp only [cacheMachine] at h
    split at h
    · obtain rfl := Option.some.inj h
      exact ⟨rfl, rfl⟩
    · exact absurd h (by simp)

omit [DecidableEq ι] in
theorem invokes_own {a : CacheAction float ι ε} (ha : ∀ i, a ≠ .resume i) :
    invokes s (.own a) t = false := by
  cases a with
  | resume i => exact absurd rfl (ha i)
  | _ => rfl

omit [DecidableEq ι] in
theorem misreads_own {a : CacheAction float ι ε} (ha : ∀ i, a ≠ .resume i) :
    misreads s (.own a) t = false := by
  cases a with
  | resume i => exact absurd rfl (ha i)
  | _ => rfl

omit [DecidableEq ι] in
/-- A call that is made or moves on, other than with the answer to its `GET`. -/
theorem Moves.quiet {a : CacheAction float ι ε} {i : ι} {p q : CachePhase float ε}
    (h : Moves key s i a p q) (ha : ∀ i, a ≠ .resume i) :
    (SharedAction.own a).made = some i ∧ p = .idle ∧ q = .getting ∨
      (SharedAction.own a).made = none ∧ p ≠ .idle ∧ q ≠ .idle ∧ q.isHit = p.isHit ∧
        q.invoked = p.invoked := by
  cases h with
  | call => exact .inl ⟨rfl, rfl, rfl⟩
  | hit => exact absurd rfl (ha i)
  | miss => exact absurd rfl (ha i)
  | _ => exact .inr ⟨rfl, by simp, by simp, rfl, rfl⟩

/-- A step that leaves the calls alone makes none. -/
theorem made_of_calls_eq {a : CacheAction float ι ε} (h : (cacheMachine key ttl).step s a = some t)
    (hcalls : t.calls = s.calls) : (SharedAction.own a).made = none := by
  cases a with
  | call i =>
    simp only [cacheMachine] at h
    split at h
    next hphase =>
      obtain rfl := Option.some.inj h
      have hsame := congrFun hcalls i
      simp [CacheState.goTo, hphase] at hsame
    next => exact absurd h (by simp)
  | _ => rfl

/-- What a call makes of the answer to its `GET`. -/
theorem counterMove_resume {i : ι} {reply : Except (CacheError ε) (Option (List Char))}
    (hphase : s.calls i = .answered reply) :
    CounterMove s (s.resumed i reply) (.own (.resume i)) := by
  have hidle : s.calls i ≠ .idle := by simp [hphase]
  rcases reply with e | _ | text
  · refine .move rfl hidle (by simp) rfl ?_ ?_ ?_
    all_goals simp [CacheState.resumed, lookup, recomputing, CacheState.goTo, hphase, misreads,
      invokes, CachePhase.isHit, CachePhase.isComputing, CachePhase.invoked]
  · refine .move rfl hidle (by simp) rfl ?_ ?_ ?_
    all_goals simp [CacheState.resumed, lookup, recomputing, CacheState.goTo, hphase, misreads,
      invokes, CachePhase.isHit, CachePhase.isComputing, CachePhase.invoked]
  · rcases hloads : Json.loads float text with _ | v
    · have hstate : s.resumed i (.ok (some text)) = { s.goTo i .computing with
          hits := s.hits + 1, misses := s.misses + 1 } := by
        simp [CacheState.resumed, lookup, hloads, recomputing]
      rw [hstate]
      refine .move rfl hidle (by simp) rfl ?_ ?_ ?_
      all_goals simp [CacheState.goTo, hphase, misreads, hloads, invokes, CachePhase.isHit,
        CachePhase.isComputing, CachePhase.invoked]
    · have hstate : s.resumed i (.ok (some text)) = { s.goTo i (.returned v true) with
          hits := s.hits + 1 } := by
        simp [CacheState.resumed, lookup, hloads, recomputing]
      rw [hstate]
      refine .move rfl hidle (by simp) rfl ?_ ?_ ?_
      all_goals simp [CacheState.goTo, hphase, misreads, hloads, invokes, CachePhase.isHit,
        CachePhase.isComputing, CachePhase.invoked]

theorem counterMove_own {a : CacheAction float ι ε} (h : (cacheMachine key ttl).step s a = some t) :
    CounterMove s t (.own a) := by
  by_cases hresume : ∃ i, a = .resume i
  · obtain ⟨i, rfl⟩ := hresume
    simp only [cacheMachine] at h
    split at h
    next hphase =>
      obtain rfl := Option.some.inj h
      exact counterMove_resume hphase
    next => exact absurd h (by simp)
  · have ha : ∀ i, a ≠ .resume i := fun i hi ↦ hresume ⟨i, hi⟩
    obtain ⟨hhits, hmisses⟩ := counters_of_step h ha
    have hinvokes : invokes s (.own a) t = false := invokes_own ha
    have hmisreads : misreads s (.own a) t = false := misreads_own ha
    have hpass (hcalls : t.calls = s.calls) : CounterMove s t (.own a) :=
      .pass (made_of_calls_eq h hcalls) hcalls hhits hmisses hinvokes hmisreads
    cases step_cases h with
    | @move i phase hmove hcalls =>
      rcases hmove.quiet ha with ⟨hmade, hold, rfl⟩ | ⟨hmade, hold, hnew, hhit, hinvoked⟩
      · exact .call hmade hold hcalls hhits hmisses hinvokes hmisreads
      · refine .move hmade hold hnew hcalls ?_ ?_ ?_
        · rw [hhits, hhit, hmisreads, Bool.toNat_false, Nat.add_zero]
        · rw [hmisses, hinvokes, Bool.toNat_false, Nat.add_zero]
        · rw [hinvoked, hinvokes, Bool.toNat_false, Nat.add_zero]
    | execute _ _ _ hcalls => exact hpass hcalls
    | pass _ hcalls => exact hpass hcalls

/-- **The inversion of a step.** -/
theorem counterMove_of_step (h : (sharedMachine key ttl).step s a = some t) :
    CounterMove s t a := by
  cases a with
  | own a => exact counterMove_own h
  | write k entry =>
    obtain rfl := Option.some.inj h
    exact .pass rfl rfl rfl rfl rfl rfl
  | loadsError i =>
    simp only [sharedMachine] at h
    split at h
    next text hphase =>
      obtain rfl := Option.some.inj h
      refine .move rfl (by simp [hphase]) (by simp) rfl ?_ ?_ ?_
      all_goals simp [CacheState.goTo, hphase, misreads, invokes, CachePhase.isHit,
        CachePhase.isComputing, CachePhase.invoked]
    next => exact absurd h (by simp)

/-! ## What a run counts -/

/-- The counters, by the calls made so far, the factories invoked and the texts misread. -/
structure Tallied (made : List ι) (invoked misread : ℕ) (s : CacheState float ι ε) : Prop where
  nodup : made.Nodup
  mem : ∀ i, i ∈ made ↔ s.calls i ≠ .idle
  hits : s.hits = made.countP (fun i ↦ (s.calls i).isHit) + misread
  misses : s.misses = invoked
  invoked : invoked = made.countP fun i ↦ (s.calls i).invoked

variable {made : List ι} {invoked misread : ℕ}

/-- **The step lemma.** -/
theorem Tallied.step (hs : Tallied made invoked misread s) (h : CounterMove s t a) :
    Tallied (made ++ a.made.toList) (invoked + (invokes s a t).toNat)
      (misread + (misreads s a t).toNat) t := by
  cases h with
  | @call i hmade hphase hcalls hhits hmisses hinvokes hmisreads =>
    have hnew : i ∉ made := fun hi ↦ (hs.mem i).mp hi hphase
    have hsame (p : CachePhase float ε → Bool) :
        made.countP (fun j ↦ p (t.calls j)) = made.countP fun j ↦ p (s.calls j) :=
      List.countP_congr fun j hj ↦ by
        rw [hcalls, Function.update_of_ne (ne_of_mem_of_not_mem hj hnew)]
    have hgetting : t.calls i = .getting := by rw [hcalls, Function.update_self]
    rw [hmade, hinvokes, hmisreads, Option.toList_some]
    refine ⟨?_, fun j ↦ ?_, ?_, ?_, ?_⟩
    · refine List.nodup_append.mpr ⟨hs.nodup, List.nodup_singleton i, fun j hj k hk ↦ ?_⟩
      rw [List.mem_singleton.mp hk]
      exact ne_of_mem_of_not_mem hj hnew
    · rcases eq_or_ne j i with rfl | hne
      · simp [hgetting]
      · rw [List.mem_append, hs.mem, hcalls, Function.update_of_ne hne]
        simp [hne]
    · rw [List.countP_append, hsame, hhits, hs.hits]
      simp [hgetting, CachePhase.isHit]
    · rw [hmisses, hs.misses]
      rfl
    · rw [List.countP_append, hsame, ← hs.invoked]
      simp [hgetting, CachePhase.invoked]
  | @move i phase hmade hold hnew hcalls hhits hmisses hinvoked =>
    have hi : i ∈ made := (hs.mem i).mpr hold
    have hhit := countP_update hs.nodup hi CachePhase.isHit s.calls phase
    have hinv := countP_update hs.nodup hi CachePhase.invoked s.calls phase
    rw [← hcalls] at hhit hinv
    have hshits := hs.hits
    have hsinvoked := hs.invoked
    rw [hmade, Option.toList_none, List.append_nil]
    refine ⟨hs.nodup, fun j ↦ ?_, ?_, ?_, ?_⟩
    · rcases eq_or_ne j i with rfl | hne
      · exact iff_of_true hi (by rwa [hcalls, Function.update_self])
      · rw [hs.mem, hcalls, Function.update_of_ne hne]
    · omega
    · rw [hmisses, hs.misses]
    · omega
  | pass hmade hcalls hhits hmisses hinvokes hmisreads =>
    rw [hmade, hinvokes, hmisreads, Option.toList_none, List.append_nil]
    refine ⟨hs.nodup, fun j ↦ hcalls ▸ hs.mem j, ?_, hmisses.trans hs.misses, ?_⟩
    · rw [hhits, hcalls]
      exact hs.hits
    · rw [hcalls]
      exact hs.invoked

/-- **The run lemma.** -/
theorem Tallied.exec {as : List (SharedAction float ι ε)} (hs : Tallied made invoked misread s)
    (h : (sharedMachine key ttl).exec s as = some t) :
    Tallied (made ++ callsMade as) (invoked + (sharedMachine key ttl).count invokes s as)
      (misread + (sharedMachine key ttl).count misreads s as) t := by
  induction as generalizing s made invoked misread with
  | nil =>
    obtain rfl := Option.some.inj h
    simpa [callsMade, Machine.count] using hs
  | cons a as ih =>
    obtain ⟨u, hu, hrest⟩ := (Machine.exec_cons_eq_some _).mp h
    have hlast := ih (hs.step (counterMove_of_step hu)) hrest
    have hmade : callsMade (a :: as) = a.made.toList ++ callsMade as := by
      cases ha : a.made <;> simp [callsMade, ha]
    rw [Machine.count_cons_of_step hu, Machine.count_cons_of_step hu, hmade, ← List.append_assoc,
      ← Nat.add_assoc, ← Nat.add_assoc]
    exact hlast

omit [DecidableEq ι] in
theorem misreads_eq_false_iff : misreads s a t = false ↔ Reads s a := by
  rcases a with a | _ | i
  · cases a with
    | resume i =>
      unfold misreads Reads
      dsimp only
      split
      next text hphase => simp [hphase, Option.isSome_iff_ne_none]
      next hphase => exact iff_of_true rfl fun text htext ↦ absurd htext (hphase text)
    | _ => exact iff_of_true rfl trivial
  · exact iff_of_true rfl trivial
  · exact iff_of_false (by simp [misreads]) id

omit [DecidableEq ι] in
/-- A call that is over was a hit, or has invoked its factory. -/
theorem CachePhase.invoked_eq_not_isHit {phase : CachePhase float ε} (hmade : phase ≠ .idle)
    (hover : phase.inFlight = false) : phase.invoked = !phase.isHit := by
  rcases phase with _ | _ | _ | _ | _ | ⟨v, _ | _⟩ | e
  · exact absurd rfl hmade
  all_goals first | rfl | exact absurd hover (by simp [inFlight])

/-- **A call is classified once, exactly if it can read what it finds.** When no call is in flight,
the counters add up to the calls made, the hits are the calls that returned `cache_hit`, and the
misses the factories invoked, if and only if no call of the run has gone on with a text that
`json.loads` raises for. -/
theorem counters_classify_iff {as : List (SharedAction float ι ε)}
    (hinit : (sharedMachine key ttl).init s) (h : (sharedMachine key ttl).exec s as = some t)
    (hidle : ∀ i, (t.calls i).inFlight = false) :
    (t.hits + t.misses = (callsMade as).length ∧
        t.hits = (callsMade as).countP (fun i ↦ (t.calls i).isHit) ∧
        t.misses = (sharedMachine key ttl).count invokes s as) ↔
      (sharedMachine key ttl).Along Reads s as := by
  obtain ⟨hcalls, -, hhits, hmisses⟩ := hinit
  have hstart : Tallied [] 0 0 s :=
    ⟨List.nodup_nil, fun i ↦ by simp [hcalls i], hhits, hmisses, rfl⟩
  have htallied := hstart.exec h
  rw [List.nil_append, Nat.zero_add, Nat.zero_add] at htallied
  have hover : (callsMade as).countP (fun i ↦ (t.calls i).invoked)
      = (callsMade as).countP fun i ↦ !(t.calls i).isHit :=
    List.countP_congr fun i hi ↦ by
      rw [CachePhase.invoked_eq_not_isHit ((htallied.mem i).mp hi) (hidle i)]
  have hsplit : (callsMade as).length = (callsMade as).countP (fun i ↦ (t.calls i).isHit)
      + (callsMade as).countP fun i ↦ !(t.calls i).isHit := by
    simpa using List.length_eq_countP_add_countP fun i ↦ (t.calls i).isHit
  have htexts : (sharedMachine key ttl).count misreads s as = 0
      ↔ (sharedMachine key ttl).Along Reads s as := by
    rw [Machine.count_eq_zero_iff h]
    simp only [misreads_eq_false_iff]
    exact Machine.along_enabled_iff h
  rw [← htexts]
  have htotal := htallied.hits
  have hmissed := htallied.misses
  have hinvoked := htallied.invoked
  constructor
  · rintro ⟨-, hright, -⟩
    omega
  · intro hzero
    exact ⟨by omega, by omega, hmissed⟩

/-- Redis is down, and the factory raises. -/
def redisOutageRun : List (SharedAction (fun _ ↦ .null) (Fin 2) Unit) :=
  [.own (.call 0), .own (.getError 0), .own (.resume 0), .own (.computeError 0 ())]

/-- A `GET` brings a text that is not JSON, and the factory raises. -/
def misreadRun : List (SharedAction (fun _ ↦ .null) (Fin 2) Unit) :=
  [.own (.call 0), .own (.getText 0 ['o', 'o', 'p', 's']), .own (.resume 0),
    .own (.computeError 0 ())]

theorem counters_classify_redisOutageRun :
    ∃ t, (sharedMachine (fun _ ↦ "stats") fun _ ↦ 10).exec (.start _) redisOutageRun = some t ∧
      t.hits + t.misses = (callsMade redisOutageRun).length ∧
      t.misses = (sharedMachine (fun _ ↦ "stats") fun _ ↦ 10).count invokes (.start _)
        redisOutageRun := by
  have hrun : ∃ t, (sharedMachine (fun _ ↦ "stats") fun _ ↦ 10).exec (.start _) redisOutageRun
      = some t ∧ ∀ i, (t.calls i).inFlight = false := ⟨_, rfl, by decide⟩
  have hreads : (sharedMachine (fun _ ↦ "stats") fun _ ↦ 10).Along Reads (.start _)
      redisOutageRun := by
    refine .step trivial rfl <| .step trivial rfl <| .step ?_ rfl <|
      .step trivial rfl Machine.along_nil
    intro text htext
    simp [CacheState.goTo] at htext
  obtain ⟨t, ht, hidle⟩ := hrun
  obtain ⟨htotal, -, hmissed⟩ :=
    (counters_classify_iff ⟨fun _ ↦ rfl, fun _ ↦ rfl, rfl, rfl⟩ ht hidle).mpr hreads
  exact ⟨t, ht, htotal, hmissed⟩

/-- **One call, counted as a hit and as a miss.** -/
theorem misreadRun_counted_twice :
    ¬ ∀ (s t : CacheState (fun _ ↦ .null) (Fin 2) Unit)
        (as : List (SharedAction (fun _ ↦ .null) (Fin 2) Unit)),
      (sharedMachine (fun _ ↦ "stats") fun _ ↦ 10).init s →
      (sharedMachine (fun _ ↦ "stats") fun _ ↦ 10).exec s as = some t →
      (∀ i, (t.calls i).inFlight = false) →
        t.hits + t.misses = (callsMade as).length ∧
          t.hits = (callsMade as).countP (fun i ↦ (t.calls i).isHit) ∧
          t.misses = (sharedMachine (fun _ ↦ "stats") fun _ ↦ 10).count invokes s as := by
  intro h
  have hrun : ∃ t, (sharedMachine (fun _ ↦ "stats") fun _ ↦ 10).exec (.start _) misreadRun
      = some t ∧ (∀ i, (t.calls i).inFlight = false) ∧ t.hits + t.misses = 2 :=
    ⟨_, rfl, by decide, rfl⟩
  obtain ⟨t, ht, hidle, htwo⟩ := hrun
  have hone := (h _ t misreadRun ⟨fun _ ↦ rfl, fun _ ↦ rfl, rfl, rfl⟩ ht hidle).1
  rw [htwo] at hone
  exact absurd hone (by decide)

end Acheron
