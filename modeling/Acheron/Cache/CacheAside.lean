import Acheron.Event.JsonRead
import Acheron.Lib.Runs

/-!
# Cache-aside reads

`RedisCache.get_or_set` is a `GET`, whose text is decoded and returned if there is one, and else a
call of the factory and a `SET` of what it returned. Both commands, and the decoding, are inside a
`try` whose `except` logs and goes on. `cacheMachine` runs any family of calls on one Redis, which
is written by nothing else.

## What Redis may do

An entry is seen until its deadline by Redis' clock, and may be evicted earlier. A `GET` may raise,
or bring a text that is not JSON. A `SET` is executed at any time after the call has issued it, or
never, or, as the client may send it again, more than once; and its reply may be lost whether it was
executed or not. So a call can return while its `SET` is still on the way.

## Where an answer comes from

Each state that matters has one cause: a hit is returned for a text Redis had, a text is there
since some call's `SET`, and a call has a `SET` since its factory returned. `cache_transparent`
follows the causes back, and `Json.loads_dumps` says that the value survives the journey.
-/

open Runs

namespace Acheron

/-- A value a factory returns: a `dict` has each key once, and a float is what `float()` makes of
its `repr`. -/
@[ext] structure JsonValue (float : List Char → Json) where
  value : Json
  keysDistinct : value.keysDistinct = true
  floats : Json.FloatsRepr float value

/-- A cached text, with the time in milliseconds until which it is seen. -/
structure CacheEntry where
  text : List Char
  deadline : ℕ

/-- The cached texts of Redis. -/
abbrev CacheStore := String → Option CacheEntry

/-- `GET key`, at a time. -/
def cacheGet (store : CacheStore) (now : ℕ) (key : String) : Option (List Char) :=
  match store key with
  | none => none
  | some e => if now ≤ e.deadline then some e.text else none

/-- `SET key text EX ttl`, at a time; Redis refuses a `ttl` that is not positive. -/
def cacheSet (store : CacheStore) (now : ℕ) (key : String) (text : List Char) (ttl : ℤ) :
    Option CacheStore :=
  if 0 < ttl then some (Function.update store key (some ⟨text, now + (ttl * 1000).toNat⟩)) else none

/-- What is raised in a call, by its origin. -/
inductive CacheError (ε : Type) where
  /-- The Redis client. -/
  | redis
  /-- `json.loads`, for a text that is not JSON. -/
  | decode
  /-- The factory of the caller. -/
  | factory (x : ε)

/-- Where a `get_or_set` call is. -/
inductive CachePhase (float : List Char → Json) (ε : Type) where
  /-- The call has not begun. -/
  | idle
  /-- `GET` is under way. -/
  | getting
  /-- `GET` is answered, and the call has not gone on yet. -/
  | answered (reply : Except (CacheError ε) (Option (List Char)))
  /-- `factory()` is under way. -/
  | computing
  /-- `SET` is under way. -/
  | setting (value : JsonValue float)
  | returned (value : Json) (hit : Bool)
  | raised (e : CacheError ε)

/-- The `SET` of a call. -/
structure CacheCommand where
  text : List Char
  /-- Redis has executed it. -/
  executed : Bool

/-- The clock and the texts of Redis, the calls with the commands they have issued, and the
counters. -/
structure CacheState (float : List Char → Json) (ι ε : Type) where
  now : ℕ
  store : CacheStore
  calls : ι → CachePhase float ε
  commands : ι → Option CacheCommand
  hits : ℕ
  misses : ℕ

/-- What may happen next. -/
inductive CacheAction (float : List Char → Json) (ι ε : Type) where
  | call (i : ι)
  | get (i : ι)
  | getError (i : ι)
  /-- `GET` brings a text that is not JSON. -/
  | getText (i : ι) (text : List Char)
  /-- The call goes on with the answer to its `GET`. -/
  | resume (i : ι)
  | compute (i : ι) (value : JsonValue float)
  | computeError (i : ι) (x : ε)
  /-- Redis executes the `SET` of a call. -/
  | executeSet (i : ι)
  | setReply (i : ι)
  | setError (i : ι)
  | evict (key : String)
  | tick (time : ℕ)

variable {ι ε : Type} {float : List Char → Json}

/-- The body of the first `try`: the hits it counts, and the value it returns or what it raises. -/
def lookup (float : List Char → Json) :
    Except (CacheError ε) (Option (List Char)) → ℕ × Except (CacheError ε) (Option Json)
  | .error e => (0, .error e)
  | .ok none => (0, .ok none)
  -- The hit is counted before the text is decoded.
  | .ok (some text) => (1, match Json.loads float text with
    | some v => .ok (some v)
    | none => .error .decode)

/-- The first `except`: what is raised is logged, and counts as nothing found. -/
def recomputing : Except (CacheError ε) (Option Json) → Option Json
  | .ok cached => cached
  | .error _ => none

/-- The second `try`: the value is returned, cached or not. -/
def afterSet (value : JsonValue float) : Except (CacheError ε) Unit → CachePhase float ε
  | .ok () => .returned value.value false
  | .error _ => .returned value.value false

namespace CacheState

variable [DecidableEq ι]

/-- A call goes on. -/
def goTo (s : CacheState float ι ε) (i : ι) (phase : CachePhase float ε) : CacheState float ι ε :=
  { s with calls := Function.update s.calls i phase }

/-- What a call does with the answer to its `GET`. -/
def resumed (s : CacheState float ι ε) (i : ι)
    (reply : Except (CacheError ε) (Option (List Char))) : CacheState float ι ε :=
  let (hits, result) := lookup float reply
  match recomputing result with
  | some v => { s.goTo i (.returned v true) with hits := s.hits + hits }
  | none => { s.goTo i .computing with hits := s.hits + hits, misses := s.misses + 1 }

end CacheState

variable (key : ι → String) (ttl : ι → ℤ)

/-- Any family of `get_or_set` calls on one Redis. -/
def cacheMachine [DecidableEq ι] : Machine (CacheState float ι ε) (CacheAction float ι ε) where
  init s := (∀ k, s.store k = none) ∧ (∀ i, s.calls i = .idle) ∧ ∀ i, s.commands i = none
  step s
    | .call i =>
      match s.calls i with
      | .idle => some (s.goTo i .getting)
      | _ => none
    | .get i =>
      match s.calls i with
      | .getting => some (s.goTo i (.answered (.ok (cacheGet s.store s.now (key i)))))
      | _ => none
    | .getError i =>
      match s.calls i with
      | .getting => some (s.goTo i (.answered (.error .redis)))
      | _ => none
    | .getText i text =>
      match s.calls i, Json.loads float text with
      | .getting, none => some (s.goTo i (.answered (.ok (some text))))
      | _, _ => none
    | .resume i =>
      match s.calls i with
      | .answered reply => some (s.resumed i reply)
      | _ => none
    | .compute i value =>
      match s.calls i with
      | .computing => some { s.goTo i (.setting value) with
          commands := Function.update s.commands i (some ⟨value.value.dumps, false⟩) }
      | _ => none
    | .computeError i x =>
      match s.calls i with
      | .computing => some (s.goTo i (.raised (.factory x)))
      | _ => none
    | .executeSet i =>
      match s.commands i with
      | some command => (cacheSet s.store s.now (key i) command.text (ttl i)).map fun store ↦
          { s with
            store := store
            commands := Function.update s.commands i (some { command with executed := true }) }
      | none => none
    | .setReply i =>
      match s.calls i, s.commands i with
      | .setting value, some ⟨_, true⟩ => some (s.goTo i (afterSet value (.ok ())))
      | _, _ => none
    | .setError i =>
      match s.calls i with
      | .setting value => some (s.goTo i (afterSet value (.error .redis)))
      | _ => none
    | .evict k => some { s with store := Function.update s.store k none }
    | .tick time => if s.now ≤ time then some { s with now := time } else none

/-! ## What a step does -/

/-- A step takes a call from one phase to another. -/
inductive Moves (s : CacheState float ι ε) (i : ι) :
    CacheAction float ι ε → CachePhase float ε → CachePhase float ε → Prop
  | call : Moves s i (.call i) .idle .getting
  | get : Moves s i (.get i) .getting (.answered (.ok (cacheGet s.store s.now (key i))))
  | getError : Moves s i (.getError i) .getting (.answered (.error .redis))
  | getText {text} (h : Json.loads float text = none) :
    Moves s i (.getText i text) .getting (.answered (.ok (some text)))
  | hit {text v} (h : Json.loads float text = some v) :
    Moves s i (.resume i) (.answered (.ok (some text))) (.returned v true)
  | miss {reply} (h : recomputing (lookup float reply).2 = none) :
    Moves s i (.resume i) (.answered reply) .computing
  | compute {value} : Moves s i (.compute i value) .computing (.setting value)
  | computeError {x} : Moves s i (.computeError i x) .computing (.raised (.factory x))
  | setReply {value} : Moves s i (.setReply i) (.setting value) (.returned value.value false)
  | setError {value} : Moves s i (.setError i) (.setting value) (.returned value.value false)

namespace Moves

variable {key} {s : CacheState float ι ε} {a : CacheAction float ι ε} {i : ι}
  {p q : CachePhase float ε}

/-- A hit is the value of the text that `GET` brought. -/
theorem of_hit {v : Json} (h : Moves key s i a p (.returned v true)) :
    ∃ text, p = .answered (.ok (some text)) ∧ Json.loads float text = some v := by
  cases h with
  | hit hloads => exact ⟨_, rfl, hloads⟩

/-- A text that is JSON is one that Redis has. -/
theorem of_answered {text : List Char} (h : Moves key s i a p (.answered (.ok (some text))))
    (hloads : Json.loads float text ≠ none) :
    a = .get i ∧ cacheGet s.store s.now (key i) = some text := by
  generalize hq : CachePhase.answered (.ok (some text)) = q at h
  cases h with
  | get => exact ⟨rfl, by simpa using hq.symm⟩
  | getText hnone =>
    obtain rfl := by simpa using hq
    exact absurd hnone hloads
  | _ => cases hq

/-- A call that has a value to `SET` returns it. -/
theorem of_setting {c : JsonValue float} (h : Moves key s i a (.setting c) q) :
    q = .returned c.value false := by
  cases h <;> rfl

theorem not_of_returned {v : Json} {hit : Bool} (h : Moves key s i a (.returned v hit) q) :
    False := by
  cases h

/-- A value that is not a hit is the one the call had to `SET`. -/
theorem of_miss {v : Json} (h : Moves key s i a p (.returned v false)) :
    ∃ c : JsonValue float, p = .setting c ∧ c.value = v := by
  cases h <;> exact ⟨_, rfl, rfl⟩

theorem to_setting {c : JsonValue float} (h : Moves key s i a p (.setting c)) :
    a = .compute i c := by
  cases h
  rfl

/-- The factory is all that raises. -/
theorem of_raised {e : CacheError ε} (h : Moves key s i a p (.raised e)) :
    ∃ x, e = .factory x ∧ a = .computeError i x := by
  cases h
  exact ⟨_, rfl, rfl⟩

end Moves

variable [DecidableEq ι]

/-- The commands once a call has moved on. -/
def issued (s : CacheState float ι ε) : CacheAction float ι ε → ι → Option CacheCommand
  | .compute i value => Function.update s.commands i (some ⟨value.value.dumps, false⟩)
  | _ => s.commands

/-- What a step leaves of the clock, the texts, the calls and the commands. -/
inductive CacheStep (s t : CacheState float ι ε) (a : CacheAction float ι ε) : Prop
  /-- A call moves on. -/
  | move {i : ι} {phase : CachePhase float ε} (hmove : Moves key s i a (s.calls i) phase)
      (hcalls : t.calls = Function.update s.calls i phase) (hcommands : t.commands = issued s a)
      (hstore : t.store = s.store) (hnow : t.now = s.now)
  /-- Redis executes a `SET`. -/
  | execute {i : ι} {command : CacheCommand} (ha : a = .executeSet i)
      (hcommand : s.commands i = some command)
      (hstore : cacheSet s.store s.now (key i) command.text (ttl i) = some t.store)
      (hcalls : t.calls = s.calls)
      (hcommands : t.commands
        = Function.update s.commands i (some { command with executed := true }))
      (hnow : t.now = s.now)
  /-- A text is evicted, or time passes. -/
  | pass (hstore : ∀ k e, t.store k = some e → s.store k = some e) (hcalls : t.calls = s.calls)
      (hcommands : t.commands = s.commands) (hnow : s.now ≤ t.now)

variable {key ttl} {s t : CacheState float ι ε} {a : CacheAction float ι ε}

/-- What is found is what the text says. -/
theorem recomputing_lookup_eq_some {reply : Except (CacheError ε) (Option (List Char))} {v : Json}
    (h : recomputing (lookup float reply).2 = some v) :
    ∃ text, reply = .ok (some text) ∧ Json.loads float text = some v := by
  rcases reply with e | _ | text
  · cases h
  · cases h
  · refine ⟨text, rfl, ?_⟩
    cases hloads : Json.loads float text with
    | none => simp [lookup, hloads, recomputing] at h
    | some w => simpa [lookup, hloads, recomputing] using h

theorem step_resumed (i : ι) {reply : Except (CacheError ε) (Option (List Char))}
    (hphase : s.calls i = .answered reply) :
    CacheStep key ttl s (s.resumed i reply) (.resume i) := by
  cases hresult : recomputing (lookup float reply).2 with
  | none =>
    have hstate : s.resumed i reply = { s.goTo i .computing with
        hits := s.hits + (lookup float reply).1, misses := s.misses + 1 } := by
      simp only [CacheState.resumed, hresult]
    rw [hstate]
    exact .move (hphase ▸ .miss hresult) rfl rfl rfl rfl
  | some v =>
    have hstate : s.resumed i reply = { s.goTo i (.returned v true) with
        hits := s.hits + (lookup float reply).1 } := by
      simp only [CacheState.resumed, hresult]
    obtain ⟨text, rfl, hloads⟩ := recomputing_lookup_eq_some hresult
    rw [hstate]
    exact .move (hphase ▸ .hit hloads) rfl rfl rfl rfl

/-- **The inversion of a step.** -/
theorem step_cases (h : (cacheMachine key ttl).step s a = some t) : CacheStep key ttl s t a := by
  cases a with
  | call i =>
    simp only [cacheMachine] at h
    split at h
    next hphase => cases h; exact .move (hphase ▸ .call) rfl rfl rfl rfl
    next => cases h
  | get i =>
    simp only [cacheMachine] at h
    split at h
    next hphase => cases h; exact .move (hphase ▸ .get) rfl rfl rfl rfl
    next => cases h
  | getError i =>
    simp only [cacheMachine] at h
    split at h
    next hphase => cases h; exact .move (hphase ▸ .getError) rfl rfl rfl rfl
    next => cases h
  | getText i text =>
    simp only [cacheMachine] at h
    split at h
    next hphase hloads => cases h; exact .move (hphase ▸ .getText hloads) rfl rfl rfl rfl
    next => cases h
  | resume i =>
    simp only [cacheMachine] at h
    split at h
    next hphase => cases h; exact step_resumed i hphase
    next => cases h
  | compute i value =>
    simp only [cacheMachine] at h
    split at h
    next hphase => cases h; exact .move (hphase ▸ .compute) rfl rfl rfl rfl
    next => cases h
  | computeError i x =>
    simp only [cacheMachine] at h
    split at h
    next hphase => cases h; exact .move (hphase ▸ .computeError) rfl rfl rfl rfl
    next => cases h
  | executeSet i =>
    simp only [cacheMachine] at h
    split at h
    next hcommand =>
      obtain ⟨store, hstore, rfl⟩ := Option.map_eq_some_iff.mp h
      exact .execute rfl hcommand hstore rfl rfl rfl
    next => cases h
  | setReply i =>
    simp only [cacheMachine] at h
    split at h
    next hphase _ => cases h; exact .move (hphase ▸ .setReply) rfl rfl rfl rfl
    next => cases h
  | setError i =>
    simp only [cacheMachine] at h
    split at h
    next hphase => cases h; exact .move (hphase ▸ .setError) rfl rfl rfl rfl
    next => cases h
  | evict k =>
    cases h
    refine .pass (fun k' e he ↦ ?_) rfl rfl le_rfl
    rcases eq_or_ne k' k with rfl | hne
    · simp at he
    · simpa [hne] using he
  | tick time =>
    simp only [cacheMachine] at h
    split at h
    next hle => cases h; exact .pass (fun _ _ he ↦ he) rfl rfl hle
    next => cases h

/-- A call is where it was, or has moved on. -/
theorem calls_step (h : (cacheMachine key ttl).step s a = some t) (i : ι) :
    t.calls i = s.calls i ∨ Moves key s i a (s.calls i) (t.calls i) := by
  cases step_cases h with
  | @move j phase hmove hcalls =>
    rw [hcalls]
    rcases eq_or_ne i j with rfl | hne
    · exact .inr (by simpa using hmove)
    · exact .inl (by simp [hne])
  | execute _ _ _ hcalls => exact .inl (by rw [hcalls])
  | pass _ hcalls => exact .inl (by rw [hcalls])

/-- A text is there, or is put there by the `SET` of a call. -/
theorem store_step (h : (cacheMachine key ttl).step s a = some t) {k : String} {e : CacheEntry}
    (he : t.store k = some e) : s.store k = some e ∨
      ∃ j command, a = .executeSet j ∧ key j = k ∧ s.commands j = some command ∧ 0 < ttl j ∧
        e = ⟨command.text, s.now + (ttl j * 1000).toNat⟩ := by
  cases step_cases h with
  | move _ _ _ hstore => exact .inl (hstore ▸ he)
  | @execute j command ha hcommand hstore =>
    unfold cacheSet at hstore
    split at hstore
    next hpos =>
      rw [← Option.some.inj hstore] at he
      rcases eq_or_ne k (key j) with rfl | hne
      · refine .inr ⟨j, command, ha, rfl, hcommand, hpos, ?_⟩
        simpa using he.symm
      · exact .inl (by simpa [hne] using he)
    next => cases hstore
  | pass hstore => exact .inl (hstore k e he)

/-- A call has the text it is to `SET`, or its factory returns the value. -/
theorem commands_step (h : (cacheMachine key ttl).step s a = some t) {j : ι}
    {command : CacheCommand} (hcommand : t.commands j = some command) :
    (∃ command', s.commands j = some command' ∧ command'.text = command.text) ∨
      ∃ value : JsonValue float, a = .compute j value ∧ command.text = value.value.dumps := by
  cases step_cases h with
  | move hmove _ hcommands =>
    rw [hcommands] at hcommand
    cases a with
    | compute i value =>
      rcases eq_or_ne j i with rfl | hne
      · have hissued : ⟨value.value.dumps, false⟩ = command := by simpa [issued] using hcommand
        exact .inr ⟨value, rfl, hissued ▸ rfl⟩
      · exact .inl ⟨command, by simpa [issued, hne] using hcommand, rfl⟩
    | _ => exact .inl ⟨command, hcommand, rfl⟩
  | @execute i command' _ hold _ _ hcommands =>
    rw [hcommands] at hcommand
    rcases eq_or_ne j i with rfl | hne
    · have hexecuted : { command' with executed := true } = command := by simpa using hcommand
      exact .inl ⟨command', hold, hexecuted ▸ rfl⟩
    · exact .inl ⟨command, by simpa [hne] using hcommand, rfl⟩
  | pass _ _ hcommands => exact .inl ⟨command, hcommands ▸ hcommand, rfl⟩

theorem now_step (h : (cacheMachine key ttl).step s a = some t) : s.now ≤ t.now := by
  cases step_cases h with
  | move _ _ _ _ hnow => exact hnow.ge
  | execute _ _ _ _ _ hnow => exact hnow.ge
  | pass _ _ _ hnow => exact hnow

/-! ## Where a value comes from -/

section Causes

variable {as : List (CacheAction float ι ε)} {i : ι} (hinit : (cacheMachine key ttl).init s)
  (h : (cacheMachine key ttl).exec s as = some t)

include h

/-- The clock does not go back. -/
theorem now_exec : s.now ≤ t.now :=
  Machine.exec_preserves (P := fun u ↦ s.now ≤ u.now)
    (fun _ _ _ hle hstep ↦ hle.trans (now_step hstep)) le_rfl h

/-- Once its factory has returned a value, a call returns that. -/
theorem phase_of_compute {c : JsonValue float} (hmem : .compute i c ∈ as) :
    t.calls i = .setting c ∨ t.calls i = .returned c.value false := by
  obtain ⟨bs, cs, rfl⟩ := List.append_of_mem hmem
  obtain ⟨u, -, hu⟩ := (Machine.exec_append_eq_some _).mp h
  obtain ⟨v, hstep, hrest⟩ := (Machine.exec_cons_eq_some _).mp hu
  refine Machine.exec_preserves
    (P := fun w ↦ w.calls i = .setting c ∨ w.calls i = .returned c.value false) ?_ (.inl ?_) hrest
  · intro w b w' hw hstep'
    rcases calls_step hstep' i with heq | hmove
    · rwa [heq]
    · rcases hw with hw | hw
      · exact .inr (hw ▸ hmove).of_setting
      · exact (hw ▸ hmove).not_of_returned.elim
  · simp only [cacheMachine] at hstep
    split at hstep
    next => cases hstep; simp [CacheState.goTo]
    next => cases hstep

include hinit

/-- A call that is not where it began has been moved there. -/
theorem exists_move {phase : CachePhase float ε} (hphase : t.calls i = phase)
    (hne : phase ≠ .idle) : ∃ bs a cs u, as = bs ++ a :: cs ∧
      (cacheMachine key ttl).exec s bs = some u ∧ Moves key u i a (u.calls i) phase := by
  obtain ⟨bs, a, cs, u, v, rfl, hu, hnot, hstep, hv⟩ :=
    Machine.exists_cause (P := fun u ↦ u.calls i = phase) (hinit.2.1 i ▸ hne.symm) hphase h
  rcases calls_step hstep i with heq | hmove
  · exact absurd (heq ▸ hv) hnot
  · exact ⟨bs, a, cs, u, rfl, hu, hv ▸ hmove⟩

/-- What is raised, the factory raised. -/
theorem exists_computeError {e : CacheError ε} (hphase : t.calls i = .raised e) :
    ∃ x, e = .factory x ∧ .computeError i x ∈ as := by
  obtain ⟨bs, a, cs, u, rfl, -, hmove⟩ := exists_move hinit h hphase (by simp)
  obtain ⟨x, he, rfl⟩ := hmove.of_raised
  exact ⟨x, he, by simp⟩

/-- What is returned as no hit, the factory returned. -/
theorem exists_compute_of_miss {v : Json} (hphase : t.calls i = .returned v false) :
    ∃ c : JsonValue float, c.value = v ∧ .compute i c ∈ as := by
  obtain ⟨bs, a, cs, u, rfl, hu, hmove⟩ := exists_move hinit h hphase (by simp)
  obtain ⟨c, hsetting, hv⟩ := hmove.of_miss
  obtain ⟨ds, b, es, w, rfl, -, hmove'⟩ := exists_move hinit hu hsetting (by simp)
  obtain rfl := hmove'.to_setting
  exact ⟨c, hv, by simp⟩

/-- What is returned as a hit, `GET` found the text of. -/
theorem exists_get {v : Json} (hphase : t.calls i = .returned v true) :
    ∃ bs cs u text, as = bs ++ .get i :: cs ∧ (cacheMachine key ttl).exec s bs = some u ∧
      cacheGet u.store u.now (key i) = some text ∧ Json.loads float text = some v := by
  obtain ⟨bs, a, cs, u, rfl, hu, hmove⟩ := exists_move hinit h hphase (by simp)
  obtain ⟨text, hanswered, hloads⟩ := hmove.of_hit
  obtain ⟨ds, b, es, w, rfl, hw, hmove'⟩ := exists_move hinit hu hanswered (by simp)
  obtain ⟨rfl, hget⟩ := hmove'.of_answered (by simp [hloads])
  exact ⟨ds, es ++ a :: cs, w, text, by simp, hw, hget, hloads⟩

/-- What a call has to `SET`, its factory returned. -/
theorem exists_compute {command : CacheCommand} (hcommand : t.commands i = some command) :
    ∃ c : JsonValue float, .compute i c ∈ as ∧ command.text = c.value.dumps := by
  obtain ⟨bs, a, cs, u, v, rfl, -, hnot, hstep, command', hcommand', htext⟩ :=
    Machine.exists_cause (P := fun u ↦ ∃ c, u.commands i = some c ∧ c.text = command.text)
      (by simp [hinit.2.2 i]) ⟨command, hcommand, rfl⟩ h
  rcases commands_step hstep hcommand' with ⟨c, hc, hct⟩ | ⟨value, rfl, hvalue⟩
  · exact absurd ⟨c, hc, hct.trans htext⟩ hnot
  · exact ⟨value, by simp, htext ▸ hvalue⟩

/-- What Redis has, the `SET` of a call has put there. -/
theorem exists_executeSet {k : String} {e : CacheEntry} (he : t.store k = some e) :
    ∃ bs j cs u, ∃ c : JsonValue float, as = bs ++ .executeSet j :: cs ∧
      (cacheMachine key ttl).exec s bs = some u ∧ key j = k ∧ .compute j c ∈ bs ∧ 0 < ttl j ∧
      e = ⟨c.value.dumps, u.now + (ttl j * 1000).toNat⟩ := by
  obtain ⟨bs, a, cs, u, v, rfl, hu, hnot, hstep, hv⟩ :=
    Machine.exists_cause (P := fun u ↦ u.store k = some e) (by simp [hinit.1 k]) he h
  rcases store_step hstep hv with hold | ⟨j, command, rfl, hkey, hcommand, hpos, rfl⟩
  · exact absurd hold hnot
  · obtain ⟨c, hmem, htext⟩ := exists_compute hinit hu hcommand
    exact ⟨bs, j, cs, u, c, rfl, hu, hkey, hmem, hpos, by rw [htext]⟩

end Causes

/-! ## Transparency -/

variable (key ttl)

/-- In a run, the factory of the call `j` returned `c`, and then its `SET` took effect, at most the
`ttl` of `j` before the `GET` of the call `i`. -/
def ServedFrom (s : CacheState float ι ε) (as : List (CacheAction float ι ε)) (i j : ι)
    (c : JsonValue float) : Prop :=
  ∃ bs cs ds u v, as = bs ++ .executeSet j :: cs ++ .get i :: ds ∧ .compute j c ∈ bs ∧
    (cacheMachine key ttl).exec s bs = some u ∧
    (cacheMachine key ttl).exec s (bs ++ .executeSet j :: cs) = some v ∧
    u.now ≤ v.now ∧ (v.now : ℤ) ≤ u.now + ttl j * 1000

variable {key ttl}

/-- **A text `GET` finds is the encoding of a recent value.** -/
theorem exists_servedFrom {as bs cs : List (CacheAction float ι ε)} {i : ι} {text : List Char}
    (hinit : (cacheMachine key ttl).init s) (has : as = bs ++ .get i :: cs)
    (h : (cacheMachine key ttl).exec s bs = some t)
    (hget : cacheGet t.store t.now (key i) = some text) :
    ∃ j, ∃ c : JsonValue float, key j = key i ∧ text = c.value.dumps ∧
      ServedFrom key ttl s as i j c := by
  unfold cacheGet at hget
  split at hget
  next => cases hget
  next e he =>
    split at hget
    next hdeadline =>
      obtain ⟨ds, j, es, u, c, rfl, hu, hkey, hmem, hpos, rfl⟩ := exists_executeSet hinit h he
      have hrest := Machine.exec_from _ h hu
      refine ⟨j, c, hkey, (Option.some.inj hget).symm, ds, es, cs, u, t, has, hmem, hu, h,
        now_exec hrest, ?_⟩
      simp only at hdeadline
      omega
    next => cases hget

/-- **Cache-aside is transparent.** However the calls and the failures of Redis are interleaved,
what a call raises is what its own factory raised; what it returns as no hit is the one value that
its factory returned; and what it returns as a hit is a value that the factory of a call for the
same key returned, whose `SET` took effect at most its `ttl` before the `GET`. -/
theorem cache_transparent {as : List (CacheAction float ι ε)}
    (hinit : (cacheMachine key ttl).init s)
    (h : (cacheMachine key ttl).exec s as = some t) (i : ι) :
    (∀ e, t.calls i = .raised e → ∃ x, e = .factory x ∧ .computeError i x ∈ as) ∧
      (∀ v, t.calls i = .returned v false →
        ∃ c : JsonValue float, c.value = v ∧ ∀ c', .compute i c' ∈ as ↔ c' = c) ∧
      ∀ v, t.calls i = .returned v true →
        ∃ j, ∃ c : JsonValue float, key j = key i ∧ c.value = v ∧
          ServedFrom key ttl s as i j c := by
  refine ⟨fun e hphase ↦ exists_computeError hinit h hphase, fun v hphase ↦ ?_, fun v hphase ↦ ?_⟩
  · obtain ⟨c, rfl, hmem⟩ := exists_compute_of_miss hinit h hphase
    refine ⟨c, rfl, fun c' ↦ ⟨fun hmem' ↦ ?_, fun heq ↦ heq ▸ hmem⟩⟩
    rcases phase_of_compute h hmem' with hsetting | hreturned
    · cases hphase.symm.trans hsetting
    · have hvalue := hphase.symm.trans hreturned
      simp only [CachePhase.returned.injEq, and_true] at hvalue
      exact JsonValue.ext hvalue.symm
  · obtain ⟨bs, cs, u, text, has, hu, hget, hloads⟩ := exists_get hinit h hphase
    obtain ⟨j, c, hkey, rfl, hserved⟩ := exists_servedFrom hinit has hu hget
    rw [Json.loads_dumps c.floats c.keysDistinct] at hloads
    exact ⟨j, c, hkey, Option.some.inj hloads, hserved⟩

/-- A text that is JSON is returned as a hit. -/
theorem step_hit {i : ι} {text : List Char} {v : Json}
    (hphase : s.calls i = .answered (.ok (some text))) (hloads : Json.loads float text = some v) :
    (cacheMachine key ttl).step s (.resume i)
      = some { s.goTo i (.returned v true) with hits := s.hits + 1 } := by
  simp [cacheMachine, hphase, CacheState.resumed, lookup, hloads, recomputing]

theorem half_chars : "0.5".toList.all isFloatChar = true := by decide

theorem half_marked : ("0.5".toList.any fun c ↦ c = '.' || c = 'e') = true := by decide

/-- `0.5`. -/
def half : FloatText := ⟨"0.5", half_chars, half_marked⟩

theorem rate_keysDistinct : (Json.obj [("rate", .float half)]).keysDistinct = true := by decide

theorem rate_floats : Json.FloatsRepr (fun _ ↦ .float half) (.obj [("rate", .float half)]) :=
  ⟨⟨⟨⟨false, 0, ['5'], none, by simp, by simp, by simp⟩, by decide⟩, rfl⟩, trivial⟩

/-- `{"rate": 0.5}`. -/
def rateValue : JsonValue fun _ ↦ .float half := ⟨_, rate_keysDistinct, rate_floats⟩

/-- The first call finds nothing and its `SET` is executed, but the reply to it is lost. The second
finds the text at the last moment. -/
def lostReplyRun : List (CacheAction (fun _ ↦ .float half) (Fin 2) Unit) :=
  [.call 0, .get 0, .resume 0, .compute 0 rateValue, .executeSet 0, .setError 0, .tick 10000,
    .call 1, .get 1]

/-- Nothing is cached and no call has begun. -/
def CacheState.start (float : List Char → Json) : CacheState float (Fin 2) Unit :=
  ⟨0, fun _ ↦ none, fun _ ↦ .idle, fun _ ↦ none, 0, 0⟩

theorem lostReplyRun_exec : ∃ t, (cacheMachine (fun _ ↦ "stats") (fun _ ↦ 10)).exec (.start _)
    lostReplyRun = some t ∧ t.calls 0 = .returned rateValue.value false ∧
      t.calls 1 = .answered (.ok (some rateValue.value.dumps)) :=
  ⟨_, rfl, rfl, rfl⟩

theorem cache_transparent_lostReplyRun :
    ∃ t, (cacheMachine (fun _ ↦ "stats") (fun _ ↦ 10)).exec (.start _)
        (lostReplyRun ++ [.resume 1]) = some t ∧ t.calls 1 = .returned rateValue.value true ∧
      ∃ j, ∃ c : JsonValue _, c.value = rateValue.value ∧
        ServedFrom (fun _ ↦ "stats") (fun _ ↦ 10) (.start _) (lostReplyRun ++ [.resume 1])
          1 j c := by
  obtain ⟨u, hu, -, hanswered⟩ := lostReplyRun_exec
  have hstep : (cacheMachine (fun _ ↦ "stats") (fun _ ↦ 10)).step u (.resume 1) = _ :=
    step_hit hanswered (Json.loads_dumps rateValue.floats rateValue.keysDistinct)
  have hrun := (Machine.exec_concat_eq_some _).mpr ⟨u, hu, hstep⟩
  refine ⟨_, hrun, by simp [CacheState.goTo], ?_⟩
  obtain ⟨-, -, hhit⟩ := cache_transparent ⟨fun _ ↦ rfl, fun _ ↦ rfl, fun _ ↦ rfl⟩ hrun 1
  obtain ⟨j, c, -, hc, hserved⟩ := hhit rateValue.value (by simp [CacheState.goTo])
  exact ⟨j, c, hc, hserved⟩

end Acheron
