import Acheron.Worker.Shutdown

/-!
# Draining the queue

`DrainMove` inverts the steps of the process once more, for any retry bound: what a step does to the
queue, to its consumers and to the flags of the shutdown, with the jobs told by `WorkerEffect`
alone. Through it the process refines the dispatch (`pool_refines_dispatch`), whatever becomes of
the batches.

## The last consumer

A consumer polls with a timeout, so that it sees the stop event. It leaves from the timeout alone,
without a look at the queue, and asyncio may deliver the timeout in the turn in which a put has
made the queue non-empty. The item then stays in the queue, and if every other consumer has left,
nobody takes it: `join` waits for an event that no step can finish. `Attended` is the exact
condition on a step under which this does not happen, and `drain_strands_iff` the statement over
whole runs.
-/

open Runs

namespace Acheron

/-- A consumer at work: it gets, collects, or ends a batch. -/
def DispatchAction.Works {α ι : Type} : DispatchAction α ι → Prop
  | .get _ | .collect _ | .finish _ _ => True
  | _ => False

variable {ι ρ : Type} [DecidableEq ι] {batchSize maxRetries : ℤ}

/-- What a step of the process does to the jobs: a step of theirs, or a change of the store. -/
def WorkerEffect (maxRetries : ℤ) (w w' : WorkerState ι) : Prop :=
  (∃ b, WorkerMove maxRetries w b w') ∨ ∃ m, w' = { w with mongo := m }

theorem WorkerEffect.refl (w : WorkerState ι) : WorkerEffect maxRetries w w :=
  Or.inr ⟨w.mongo, rfl⟩

/-- Consumers work: the steps `bs` of the dispatch, with what they do to the jobs. -/
structure PoolState.WorksTo (batchSize maxRetries : ℤ) (s t : PoolState ι ρ)
    (bs : List (DispatchAction EventDocument ι)) : Prop where
  works : ∀ b ∈ bs, b.Works
  exec : (dispatchMachine EventDocument ι batchSize).exec s.dispatch bs = some t.dispatch
  flags : t.accepting = s.accepting ∧ t.lifespan = s.lifespan
  jobs : WorkerEffect maxRetries s.worker t.worker

/-- What a step of the process does to the queue, its consumers, the jobs and the shutdown. -/
inductive DrainMove (batchSize maxRetries : ℤ) (s t : PoolState ι ρ) : PoolAction ι ρ → Prop
  | ingest {event : EventDocument} (haccepting : s.accepting = true)
      (hstep : (dispatchMachine EventDocument ι batchSize).step s.dispatch (.put event)
        = some t.dispatch)
      (hflags : t.accepting = s.accepting ∧ t.lifespan = s.lifespan)
      (hworker : t.worker = s.worker) : DrainMove batchSize maxRetries s t (.ingest event)
  /-- Consumers work, or nothing happens to them. -/
  | work {a : PoolAction ι ρ} (bs : List (DispatchAction EventDocument ι))
      (hworks : s.WorksTo batchSize maxRetries t bs) (ha : ∀ i, a ≠ .timeout i) :
      DrainMove batchSize maxRetries s t a
  | timeout {i : ι}
      (hstep : (dispatchMachine EventDocument ι batchSize).step s.dispatch (.timeout i)
        = some t.dispatch)
      (hflags : t.accepting = s.accepting ∧ t.lifespan = s.lifespan)
      (hworker : t.worker = s.worker) : DrainMove batchSize maxRetries s t (.timeout i)
  | shutdown {d : DispatchState EventDocument ι} (hrunning : s.lifespan = .running)
      (hstop : (dispatchMachine EventDocument ι batchSize).step s.dispatch .stop = some d)
      (hjoin : (dispatchMachine EventDocument ι batchSize).step d .join = some t.dispatch)
      (hflags : t.accepting = false ∧ t.lifespan = .draining) (hworker : t.worker = s.worker) :
      DrainMove batchSize maxRetries s t .shutdown
  | cancel {i : ι} (hdone : s.dispatch.join = .completed)
      (hstep : (dispatchMachine EventDocument ι batchSize).step s.dispatch (.cancel i)
        = some t.dispatch)
      (hflags : t.accepting = s.accepting ∧ t.lifespan = s.lifespan)
      (hworker : t.worker = s.worker) : DrainMove batchSize maxRetries s t (.cancel i)
  | close (hdispatch : t.dispatch = s.dispatch)
      (hflags : t.accepting = s.accepting ∧ t.lifespan = .closed) (hworker : t.worker = s.worker) :
      DrainMove batchSize maxRetries s t .close

/-! ## The inversion -/

namespace PoolState

variable {s t : PoolState ι ρ}

/-- A step that leaves the queue and the consumers alone. -/
theorem WorksTo.still (hdispatch : t.dispatch = s.dispatch)
    (hflags : t.accepting = s.accepting ∧ t.lifespan = s.lifespan)
    (hjobs : WorkerEffect maxRetries s.worker t.worker) : s.WorksTo batchSize maxRetries t [] :=
  ⟨by simp, congrArg some hdispatch.symm, hflags, hjobs⟩

/-- One step of the dispatch, and then what the rest does. -/
theorem WorksTo.cons {b : DispatchAction EventDocument ι} {u : PoolState ι ρ}
    {bs : List (DispatchAction EventDocument ι)} (hb : b.Works)
    (hstep : s.dispatchStep batchSize b = some u) (h : u.WorksTo batchSize maxRetries t bs) :
    s.WorksTo batchSize maxRetries t (b :: bs) := by
  obtain ⟨d, hd, rfl⟩ := dispatchStep_eq_some hstep
  refine ⟨List.forall_mem_cons.mpr ⟨hb, h.works⟩, ?_, h.flags, h.jobs⟩
  exact (Machine.exec_cons_eq_some _).mpr ⟨d, hd, h.exec⟩

/-- A step of the jobs ends at most the batch of its consumer. -/
theorem worksTo_of_workerStep {i : ι} {a : WorkerAction ι}
    (h : s.workerStep batchSize maxRetries i a = some t) :
    ∃ bs, s.WorksTo batchSize maxRetries t bs := by
  obtain ⟨w, hw, hafter⟩ := Option.bind_eq_some_iff.mp h
  have hjobs : WorkerEffect maxRetries s.worker w := Or.inl ⟨a, move_of_workerStep hw⟩
  dsimp only at hafter
  split at hafter
  · rename_i ending _ _
    obtain ⟨d, hd, rfl⟩ := dispatchStep_eq_some hafter
    refine ⟨[.finish i ending], by simp [DispatchAction.Works], ?_, ⟨rfl, rfl⟩, hjobs⟩
    exact (Machine.exec_cons_eq_some _).mpr ⟨d, hd, rfl⟩
  · obtain rfl := Option.some.inj hafter
    exact ⟨[], .still rfl ⟨rfl, rfl⟩ hjobs⟩

/-- So does the last turn of the inner loop, after which the batch is processed. -/
theorem worksTo_of_startComplete {i : ι} (h : s.startComplete batchSize maxRetries i = some t) :
    ∃ bs, s.WorksTo batchSize maxRetries t bs := by
  unfold startComplete at h
  split at h
  · exact worksTo_of_workerStep h
  · obtain rfl := Option.some.inj h
    exact ⟨[], .still rfl ⟨rfl, rfl⟩ (.refl _)⟩

end PoolState

variable [DecidableEq ρ] [Fintype ι]

theorem drain_of_poolStep {s t : PoolState ι ρ} {a : PoolAction ι ρ}
    (h : (poolMachine ι ρ batchSize maxRetries).step s a = some t) :
    DrainMove batchSize maxRetries s t a := by
  simp only [poolMachine] at h
  by_cases hclosed : s.lifespan = .closed
  · rw [if_pos hclosed] at h
    exact absurd h (by simp)
  rw [if_neg hclosed] at h
  induction a with
  | ingest event =>
    by_cases haccepting : s.accepting = true
    · simp only [haccepting, if_true] at h
      obtain ⟨d, hd, rfl⟩ := PoolState.dispatchStep_eq_some h
      exact .ingest haccepting hd ⟨rfl, rfl⟩ rfl
    · simp only [haccepting] at h
      obtain rfl := Option.some.inj h
      exact .work [] (.still rfl ⟨rfl, rfl⟩ (.refl _)) (by simp)
  | get i => exact .work [.get i] (.cons trivial h (.still rfl ⟨rfl, rfl⟩ (.refl _))) (by simp)
  | collect i =>
    -- The turn of the inner loop, and what starting the batch does at once.
    obtain ⟨u, hu, hstart⟩ := Option.bind_eq_some_iff.mp h
    obtain ⟨bs, hworks⟩ := PoolState.worksTo_of_startComplete hstart
    exact .work (.collect i :: bs) (.cons trivial hu hworks) (by simp)
  | timeout i =>
    obtain ⟨d, hd, rfl⟩ := PoolState.dispatchStep_eq_some h
    exact .timeout hd ⟨rfl, rfl⟩ rfl
  | job i b =>
    obtain ⟨bs, hworks⟩ := PoolState.worksTo_of_workerStep h
    exact .work bs hworks (by simp)
  | replay r b =>
    obtain ⟨⟨m, c⟩, -, rfl⟩ := Option.map_eq_some_iff.mp h
    exact .work [] (.still rfl ⟨rfl, rfl⟩ (Or.inr ⟨m, rfl⟩)) (by simp)
  | mark eventIds =>
    obtain rfl := Option.some.inj h
    exact .work [] (.still rfl ⟨rfl, rfl⟩ (Or.inr ⟨_, rfl⟩)) (by simp)
  | shutdown =>
    dsimp only at h
    by_cases hrunning : s.lifespan = .running
    · rw [if_pos hrunning] at h
      -- `stop_accepting`, the stop event and the call of `join` fall into one turn.
      obtain ⟨u, hu, hjoin⟩ := Option.bind_eq_some_iff.mp h
      obtain ⟨d, hd, rfl⟩ := PoolState.dispatchStep_eq_some hu
      obtain ⟨d', hd', rfl⟩ := PoolState.dispatchStep_eq_some hjoin
      exact .shutdown hrunning hd hd' ⟨rfl, rfl⟩ rfl
    · rw [if_neg hrunning] at h
      exact absurd h (by simp)
  | cancel i =>
    dsimp only at h
    by_cases hdone : s.dispatch.join = .completed
    · rw [if_pos hdone] at h
      obtain ⟨d, hd, rfl⟩ := PoolState.dispatchStep_eq_some h
      exact .cancel hdone hd ⟨rfl, rfl⟩ rfl
    · rw [if_neg hdone] at h
      exact absurd h (by simp)
  | close =>
    dsimp only at h
    split at h
    case isTrue =>
      obtain rfl := Option.some.inj h
      exact .close rfl ⟨rfl, rfl⟩ rfl
    case isFalse => exact absurd h (by simp)

omit [DecidableEq ρ] [Fintype ι] in
/-- To the jobs, a step of the process is one of theirs, or one that changes the store. -/
theorem DrainMove.workerEffect {s t : PoolState ι ρ} {a : PoolAction ι ρ}
    (h : DrainMove batchSize maxRetries s t a) : WorkerEffect maxRetries s.worker t.worker := by
  induction h with
  | work _ hworks _ => exact hworks.jobs
  | ingest _ _ _ hworker | timeout _ _ hworker | shutdown _ _ _ _ hworker | cancel _ _ _ hworker
  | close _ _ hworker => exact hworker ▸ .refl _

/-- **The process refines the dispatch.** -/
theorem pool_refines_dispatch :
    Simulation (poolMachine ι ρ batchSize maxRetries) (dispatchMachine EventDocument ι batchSize)
      PoolState.dispatch where
  init _ h := h.1
  step s a t h := by
    have hone {b : DispatchAction EventDocument ι}
        (hstep : (dispatchMachine EventDocument ι batchSize).step s.dispatch b = some t.dispatch) :
        ∃ bs, (dispatchMachine EventDocument ι batchSize).exec s.dispatch bs = some t.dispatch :=
      ⟨[b], (Machine.exec_cons_eq_some _).mpr ⟨t.dispatch, hstep, rfl⟩⟩
    have hmove := drain_of_poolStep h
    induction hmove with
    | ingest _ hstep _ _ | timeout hstep _ _ | cancel _ hstep _ _ => exact hone hstep
    | work bs hworks _ => exact ⟨bs, hworks.exec⟩
    | @shutdown d _ hstop hjoin _ _ =>
      refine ⟨[.stop, .join], (Machine.exec_cons_eq_some _).mpr ⟨d, hstop, ?_⟩⟩
      exact (Machine.exec_cons_eq_some _).mpr ⟨t.dispatch, hjoin, rfl⟩
    | close hsame _ _ => exact ⟨[], congrArg some hsame.symm⟩

/-! ## Stranded events -/

/-- The stop event is set, every consumer has left, and an accepted event is still in the queue.
(A consumer is cancelled only after a drain that has completed, with an empty queue; so a consumer
that has left here has left through its timeout.) -/
def DispatchState.Stranded {α : Type} (d : DispatchState α ι) : Prop :=
  d.stopping = true ∧ (∀ i, d.consumers i = .returned) ∧ d.queue.items ≠ []

/-- **The condition on a step.** The last consumer does not time out over a queue that holds an
event, once it has been told to stop. -/
def PoolState.Attended (s : PoolState ι ρ) : PoolAction ι ρ → Prop
  | .timeout i => s.dispatch.stopping = true → (∀ j, j ≠ i → s.dispatch.consumers j = .returned) →
      s.dispatch.queue.items = []
  | _ => True

/-- Until the consumers are told to stop, none leaves and no drain starts; after a drain nothing is
left to finish. -/
structure Manned {α : Type} (batchSize : ℤ) (d : DispatchState α ι) : Prop where
  accounting : Accounting batchSize d
  staying : d.stopping = false → ∀ i, d.consumers i ≠ .returned
  idle : d.stopping = false → d.join = .idle
  drained : d.join = .completed → d.AllFinished

/-- What every step of the process keeps. -/
structure DrainInvariant (batchSize : ℤ) (s : PoolState ι ρ) : Prop where
  manned : Manned batchSize s.dispatch
  refusing : s.dispatch.stopping = true → s.accepting = false
  running : s.lifespan = .running → s.dispatch.stopping = false

/-! ## One step of the dispatch -/

section Dispatch

variable {α : Type} {d e : DispatchState α ι} {b : DispatchAction α ι}

omit [DecidableEq ρ] [Fintype ι]

/-- A step moves one consumer on or none, and only `stop` sets the stop event. A consumer leaves
when its timeout finds the stop event set, or when it is cancelled. -/
theorem consumers_of_step (h : (dispatchMachine α ι batchSize).step d b = some e) :
    (e.consumers = d.consumers ∧ (e.stopping = d.stopping ∨ b = .stop ∧ e.stopping = true) ∧
        ¬ b.Works) ∨
      ∃ i c, e.consumers = Function.update d.consumers i c ∧ e.stopping = d.stopping ∧
        (c ≠ .returned ∨ b = .timeout i ∧ d.stopping = true ∨ b = .cancel i) := by
  have hturn := turn_of_step h
  induction hturn with
  | put _ | refuse _ | stay _ _ | join _ | abandon _ => exact Or.inl ⟨rfl, Or.inl rfl, id⟩
  | stop => exact Or.inl ⟨rfl, Or.inr ⟨rfl, rfl⟩, id⟩
  | get _ _ | grow _ _ _ | close _ => exact Or.inr ⟨_, _, rfl, rfl, Or.inl (by simp)⟩
  | @finish i batch ending _ =>
    refine Or.inr ⟨i, _, rfl, rfl, Or.inl ?_⟩
    cases ending <;> cases (d.queue.acknowledge batch.length).2 <;> simp [Consumer.afterBatch]
  | leave _ hstopping => exact Or.inr ⟨_, _, rfl, rfl, Or.inr (Or.inl ⟨rfl, hstopping⟩)⟩
  | cancel _ => exact Or.inr ⟨_, _, rfl, rfl, Or.inr (Or.inr rfl)⟩

theorem stopping_of_step (h : (dispatchMachine α ι batchSize).step d b = some e) (hb : b ≠ .stop) :
    e.stopping = d.stopping := by
  rcases consumers_of_step h with ⟨-, hsame | ⟨hstop, -⟩, -⟩ | ⟨_, _, -, hsame, -⟩
  · exact hsame
  · exact absurd hstop hb
  · exact hsame

theorem stopping_mono (h : (dispatchMachine α ι batchSize).step d b = some e)
    (hstop : e.stopping = false) : d.stopping = false := by
  rcases consumers_of_step h with ⟨-, hsame | ⟨-, hset⟩, -⟩ | ⟨_, _, -, hsame, -⟩
  · exact hsame ▸ hstop
  · exact absurd hset (by simp [hstop])
  · exact hsame ▸ hstop

/-- Who has left after a step had left before it, or has just left. -/
theorem returned_of_step (h : (dispatchMachine α ι batchSize).step d b = some e) {j : ι}
    (hj : e.consumers j = .returned) :
    d.consumers j = .returned ∨ b = .timeout j ∧ d.stopping = true ∨ b = .cancel j := by
  rcases consumers_of_step h with ⟨hsame, -, -⟩ | ⟨i, c, hc, -, hleft⟩
  · exact Or.inl (hsame ▸ hj)
  · rw [hc] at hj
    by_cases hji : j = i
    · subst hji
      rw [Function.update_self] at hj
      exact Or.inr (hleft.resolve_left fun hne ↦ hne hj)
    · rw [Function.update_of_ne hji] at hj
      exact Or.inl hj

/-- A cancellation leaves the queue alone. -/
theorem queue_of_cancel {i : ι} (h : (dispatchMachine α ι batchSize).step d (.cancel i) = some e) :
    e.queue = d.queue := by
  have hturn := turn_of_step h
  cases hturn with
  | cancel _ => rfl

/-- Whoever works has not left. -/
theorem exists_staying_of_works (hb : b.Works)
    (h : (dispatchMachine α ι batchSize).step d b = some e) : ∃ i, e.consumers i ≠ .returned := by
  rcases consumers_of_step h with ⟨-, -, hidle⟩ | ⟨i, c, hc, -, hleft⟩
  · exact absurd hb hidle
  · refine ⟨i, ?_⟩
    rw [hc, Function.update_self]
    rcases hleft with hne | ⟨rfl, -⟩ | rfl
    · exact hne
    · exact hb.elim
    · exact hb.elim

/-- Consumers at work strand nothing. -/
theorem not_stranded_of_works {bs : List (DispatchAction α ι)} (hworks : ∀ b ∈ bs, b.Works)
    (h : (dispatchMachine α ι batchSize).exec d bs = some e) (hd : ¬ d.Stranded) :
    ¬ e.Stranded := by
  refine Machine.exec_preserves_along (P := fun u ↦ ¬ u.Stranded)
    (C := fun _ (b : DispatchAction α ι) ↦ b.Works) (fun u b v _ hb hstep hv ↦ ?_) hd
    (Machine.along_of_forall hworks) h
  obtain ⟨i, hi⟩ := exists_staying_of_works hb hstep
  exact hi (hv.2.1 i)

end Dispatch

namespace Manned

variable {α : Type} {d e : DispatchState α ι}

theorem init (h : (dispatchMachine α ι batchSize).init d) : Manned batchSize d := by
  have hacc := Accounting.init h
  obtain ⟨maxSize, rfl⟩ := h
  exact ⟨hacc, fun _ i ↦ by simp, fun _ ↦ rfl, fun hj ↦ absurd hj (by simp)⟩

theorem step (hd : Manned batchSize d) {b : DispatchAction α ι}
    (h : (dispatchMachine α ι batchSize).step d b = some e)
    (hput : ∀ event, b = .put event → d.join ≠ .completed)
    (hcancel : ∀ i, b = .cancel i → d.stopping = true) (hjoin : b = .join → d.stopping = true) :
    Manned batchSize e := by
  have hmove := move_of_step h
  refine ⟨hd.accounting.move hmove, fun hstop i hi ↦ ?_, fun hstop ↦ ?_,
    hd.accounting.drained_move hmove hput hd.drained⟩
  · have hbefore := stopping_mono h hstop
    rcases returned_of_step h hi with hleft | ⟨-, hset⟩ | hb
    · exact hd.staying hbefore i hleft
    · exact absurd hset (by simp [hbefore])
    · exact absurd (hcancel i hb) (by simp [hbefore])
  · have hbefore := stopping_mono h hstop
    have hnot : b ≠ .join := fun hb ↦ absurd (hjoin hb) (by simp [hbefore])
    exact join_of_move hmove hnot (hd.idle hbefore)

omit [DecidableEq ι] in
/-- Nothing is queued after a drain. -/
theorem items_eq_nil (hd : Manned batchSize d) (hdone : d.join = .completed) :
    d.queue.items = [] := by
  have hzero := hd.accounting.unfinished_eq_zero_iff.mpr (hd.drained hdone)
  have hcount := hd.accounting.unfinished
  exact List.length_eq_zero_iff.mp (show d.queue.qsize = 0 by omega)

omit [DecidableEq ι] in
/-- A drain that has completed was started after the stop event. -/
theorem stopping_of_completed (hd : Manned batchSize d) (hdone : d.join = .completed) :
    d.stopping = true := by
  by_contra hnot
  have hidle := hd.idle (by simpa using hnot)
  exact absurd (hidle.symm.trans hdone) (by decide)

/-- Consumers at work keep the invariant and the signal. -/
theorem works {bs : List (DispatchAction α ι)} (hd : Manned batchSize d)
    (hworks : ∀ b ∈ bs, b.Works) (h : (dispatchMachine α ι batchSize).exec d bs = some e) :
    Manned batchSize e ∧ e.stopping = d.stopping := by
  refine Machine.exec_preserves_along (P := fun u ↦ Manned batchSize u ∧ u.stopping = d.stopping)
    (C := fun _ (b : DispatchAction α ι) ↦ b.Works) (fun u b v hu hb hstep ↦ ?_) ⟨hd, rfl⟩
    (Machine.along_of_forall hworks) h
  have hne {c : DispatchAction α ι} (hc : ¬ c.Works) : b ≠ c := fun h ↦ hc (h ▸ hb)
  refine ⟨hu.1.step hstep (fun _ h ↦ absurd h (hne id)) (fun _ h ↦ absurd h (hne id))
    (fun h ↦ absurd h (hne id)), ?_⟩
  exact (stopping_of_step hstep (hne id)).trans hu.2

end Manned

/-! ## One step of the process -/

namespace DrainInvariant

variable {s t : PoolState ι ρ} {a : PoolAction ι ρ}

theorem init (h : (poolMachine ι ρ batchSize maxRetries).init s) :
    DrainInvariant batchSize s := by
  obtain ⟨hdispatch, -, -, -, -⟩ := h
  have hmanned := Manned.init hdispatch
  obtain ⟨maxSize, hd⟩ := hdispatch
  exact ⟨hmanned, fun hs ↦ absurd hs (by simp [hd]), fun _ ↦ by rw [hd]⟩

omit [DecidableEq ι] [DecidableEq ρ] in
/-- A step that touches no flag keeps what is said of the flags. -/
theorem of_flags (hs : DrainInvariant batchSize s) (hmanned : Manned batchSize t.dispatch)
    (hstopping : t.dispatch.stopping = s.dispatch.stopping)
    (hflags : t.accepting = s.accepting ∧ t.lifespan = s.lifespan) :
    DrainInvariant batchSize t := by
  refine ⟨hmanned, fun hstop ↦ ?_, fun hrun ↦ ?_⟩
  · rw [hflags.1]
    exact hs.refusing (hstopping ▸ hstop)
  · rw [hstopping]
    exact hs.running (hflags.2 ▸ hrun)

omit [DecidableEq ι] [DecidableEq ρ] in
/-- While the process accepts events, the consumers are not told to stop. -/
theorem stopping_of_accepting (hs : DrainInvariant batchSize s) (haccepting : s.accepting = true) :
    s.dispatch.stopping = false := by
  by_contra hnot
  have hrefusing := hs.refusing (by simpa using hnot)
  exact absurd haccepting (by simp [hrefusing])

omit [DecidableEq ρ] in
theorem move (hs : DrainInvariant batchSize s) (h : DrainMove batchSize maxRetries s t a) :
    DrainInvariant batchSize t := by
  induction h with
  | ingest haccepting hstep hflags _ =>
    have hopen := hs.manned.idle (hs.stopping_of_accepting haccepting)
    -- As long as events are accepted, no consumer has been told to stop.
    refine hs.of_flags ?_ (stopping_of_step hstep (by simp)) hflags
    exact hs.manned.step hstep (fun _ _ ↦ by simp [hopen]) (by simp) (by simp)
  | work bs hworks _ =>
    obtain ⟨hmanned, hsame⟩ := hs.manned.works hworks.works hworks.exec
    exact hs.of_flags hmanned hsame hworks.flags
  | timeout hstep hflags _ =>
    refine hs.of_flags ?_ (stopping_of_step hstep (by simp)) hflags
    exact hs.manned.step hstep (by simp) (by simp) (by simp)
  | shutdown hrunning hstop hjoin hflags _ =>
    have htold := hs.manned.step hstop (by simp) (by simp) (by simp)
    have hset := Option.some.inj hstop
    have hmanned := htold.step hjoin (by simp) (by simp) fun _ ↦ by rw [← hset]
    exact ⟨hmanned, fun _ ↦ hflags.1, fun hrun ↦ absurd (hflags.2 ▸ hrun) (by simp)⟩
  | cancel hdone hstep hflags _ =>
    refine hs.of_flags ?_ (stopping_of_step hstep (by simp)) hflags
    exact hs.manned.step hstep (by simp)
      (fun _ _ ↦ hs.manned.stopping_of_completed hdone) (by simp)
  | close hsame hflags _ =>
    refine ⟨hsame ▸ hs.manned, fun hstop ↦ ?_, fun hrun ↦ absurd (hflags.2 ▸ hrun) (by simp)⟩
    rw [hflags.1]
    exact hs.refusing (hsame ▸ hstop)

omit [DecidableEq ι] [DecidableEq ρ] [Fintype ι] in
theorem attended_of_ne (ha : ∀ i, a ≠ .timeout i) : s.Attended a := by
  match a with
  | .timeout i => exact absurd rfl (ha i)
  | .ingest _ | .get _ | .collect _ | .job _ _ | .replay _ _ | .mark _ | .shutdown | .cancel _
  | .close => exact trivial

omit [DecidableEq ρ] [Fintype ι] in
/-- A timeout strands an event exactly when it is that of the last consumer, over a queue that is
not empty. -/
theorem stranded_timeout {d e : DispatchState EventDocument ι} {i : ι}
    (h : (dispatchMachine EventDocument ι batchSize).step d (.timeout i) = some e)
    (hd : ¬ d.Stranded) :
    ¬ e.Stranded ↔ (d.stopping = true → (∀ j, j ≠ i → d.consumers j = .returned) →
      d.queue.items = []) := by
  have hturn := turn_of_step h
  cases hturn with
  | leave _ hstopping =>
    -- After the timeout everyone has left exactly when everyone else had.
    have hall : (∀ j, Function.update d.consumers i .returned j = .returned) ↔
        ∀ j, j ≠ i → d.consumers j = .returned := by
      rw [Function.forall_update_iff d.consumers fun _ c ↦ c = .returned]
      exact and_iff_right rfl
    rw [DispatchState.Stranded, hall]
    simp [hstopping]
  | stay _ hstopping => exact iff_of_true hd fun hset ↦ absurd hset (by simp [hstopping])

omit [DecidableEq ρ] in
/-- **One step.** A step strands an event exactly when it is the timeout of the last consumer, over
a queue that is not empty. -/
theorem stranded_iff [Nonempty ι] (hs : DrainInvariant batchSize s)
    (hP : ¬ s.dispatch.Stranded) (h : DrainMove batchSize maxRetries s t a) :
    ¬ t.dispatch.Stranded ↔ s.Attended a := by
  induction h with
  | ingest haccepting hstep _ _ =>
    have hopen := hs.stopping_of_accepting haccepting
    refine iff_of_true (fun ht ↦ ?_) trivial
    have hset := (stopping_of_step hstep (by simp)).symm.trans ht.1
    exact absurd hset (by simp [hopen])
  | work bs hworks ha =>
    exact iff_of_true (not_stranded_of_works hworks.works hworks.exec hP) (attended_of_ne ha)
  | timeout hstep _ _ => exact stranded_timeout hstep hP
  | shutdown hrunning hstop hjoin _ _ =>
    -- Nobody leaves before the stop event, so someone is there when it is set.
    obtain ⟨i⟩ := ‹Nonempty ι›
    refine iff_of_true (fun ht ↦ ?_) trivial
    have hbefore := (returned_of_step hjoin (ht.2.1 i)).resolve_right (by simp)
    have hleft := (returned_of_step hstop hbefore).resolve_right (by simp)
    exact hs.manned.staying (hs.running hrunning) i hleft
  | cancel hdone hstep _ _ =>
    -- Consumers are cancelled only once `join` has returned, and then the queue is empty.
    refine iff_of_true (fun ht ↦ ht.2.2 ?_) trivial
    rw [queue_of_cancel hstep]
    exact hs.manned.items_eq_nil hdone
  | close hsame _ _ =>
    rw [hsame]
    exact iff_of_true hP trivial

omit [DecidableEq ρ] in
/-- A stranded event stays: everyone has left, and nothing is accepted any more. -/
theorem stranded_move (hs : DrainInvariant batchSize s) (hP : s.dispatch.Stranded)
    (h : DrainMove batchSize maxRetries s t a) : t.dispatch.Stranded := by
  -- With every consumer gone, no step of one is left.
  have hdisabled {b : DispatchAction EventDocument ι} {d : DispatchState EventDocument ι}
      (hb : b.Works ∨ ∃ i, b = .timeout i ∨ b = .cancel i)
      (hstep : (dispatchMachine EventDocument ι batchSize).step s.dispatch b = some d) : False := by
    induction b with
    | get i | collect i | finish i _ | timeout i | cancel i =>
      have hleft := hP.2.1 i
      simp [dispatchMachine, hleft] at hstep
    | put _ | stop | join | abandonJoin => simp [DispatchAction.Works] at hb
  induction h with
  | ingest haccepting _ _ _ =>
    have hopen := hs.stopping_of_accepting haccepting
    exact absurd hP.1 (by simp [hopen])
  | work bs hworks _ =>
    cases bs with
    | nil => exact Option.some.inj hworks.exec ▸ hP
    | cons b bs =>
      obtain ⟨d, hd, -⟩ := (Machine.exec_cons_eq_some _).mp hworks.exec
      exact (hdisabled (Or.inl (hworks.works b List.mem_cons_self)) hd).elim
  | @timeout i hstep _ _ => exact (hdisabled (Or.inr ⟨i, Or.inl rfl⟩) hstep).elim
  | shutdown hrunning _ _ _ _ => exact absurd hP.1 (by simp [hs.running hrunning])
  | @cancel i _ hstep _ _ => exact (hdisabled (Or.inr ⟨i, Or.inr rfl⟩) hstep).elim
  | close hsame _ _ => exact hsame ▸ hP

end DrainInvariant

/-! ## Whole runs -/

/-- Whatever happens after an event is stranded, it stays so: the drain waits for as long as it is
let. -/
theorem stranded_forever (ι ρ : Type) [DecidableEq ι] [DecidableEq ρ] [Fintype ι]
    (batchSize maxRetries : ℤ) (s t : PoolState ι ρ) (as : List (PoolAction ι ρ))
    (hreach : (poolMachine ι ρ batchSize maxRetries).Reachable s) (hs : s.dispatch.Stranded)
    (h : (poolMachine ι ρ batchSize maxRetries).exec s as = some t) : t.dispatch.Stranded := by
  have hinv : DrainInvariant batchSize s := hreach.invariant
    (fun _ hinit ↦ DrainInvariant.init hinit) fun _ _ _ hu hstep ↦ hu.move (drain_of_poolStep hstep)
  have hboth : DrainInvariant batchSize t ∧ t.dispatch.Stranded := by
    refine Machine.exec_preserves (P := fun u ↦ DrainInvariant batchSize u ∧ u.dispatch.Stranded)
      (fun u a v hu hstep ↦ ?_) ⟨hinv, hs⟩ h
    have hmove := drain_of_poolStep hstep
    exact ⟨hu.1.move hmove, hu.1.stranded_move hu.2 hmove⟩
  exact hboth.2

/-- **The drain strands no event**, in a run with at least one consumer, exactly when the last
consumer never times out, after the stop event, over a queue that holds an event. -/
theorem drain_strands_iff (ι ρ : Type) [DecidableEq ι] [DecidableEq ρ] [Fintype ι] [Nonempty ι]
    (batchSize maxRetries : ℤ) (s t : PoolState ι ρ) (as : List (PoolAction ι ρ))
    (hinit : (poolMachine ι ρ batchSize maxRetries).init s)
    (h : (poolMachine ι ρ batchSize maxRetries).exec s as = some t) :
    (poolMachine ι ρ batchSize maxRetries).Always (fun u ↦ ¬ u.dispatch.Stranded) s as ↔
      (poolMachine ι ρ batchSize maxRetries).Along PoolState.Attended s as := by
  refine Machine.always_iff_along (I := DrainInvariant batchSize)
    (fun u a v hu hstep ↦ hu.move (drain_of_poolStep hstep))
    (fun u a v hu hP hstep ↦ hu.stranded_iff hP (drain_of_poolStep hstep))
    (DrainInvariant.init hinit) ?_ h
  obtain ⟨⟨maxSize, hd⟩, -⟩ := hinit
  exact fun hs ↦ absurd hs.1 (by simp [hd])

/-- The stop signal comes while the one consumer collects a batch; it times out once it is done. -/
def servedRun : List (PoolAction (Fin 1) (Fin 1)) :=
  [.ingest (makeEvent "e1"), .get 0, .shutdown, .collect 0,
    .job 0 (.call (.answered fun _ ↦ false)), .job 0 (.resume "" fun _ ↦ .epoch), .timeout 0]

theorem servedRun_strands_nothing :
    (∃ t, (poolMachine (Fin 1) (Fin 1) 1 0).exec .open servedRun = some t) ∧
      (poolMachine (Fin 1) (Fin 1) 1 0).Always (fun u ↦ ¬ u.dispatch.Stranded) .open servedRun := by
  refine ⟨⟨_, rfl⟩, (drain_strands_iff (Fin 1) (Fin 1) 1 0 .open _ servedRun
    ⟨⟨10, rfl⟩, ⟨rfl, fun _ ↦ rfl, rfl⟩, fun _ ↦ rfl, rfl, rfl⟩ rfl).mpr ?_⟩
  exact .step trivial rfl <| .step trivial rfl <| .step trivial rfl <| .step trivial rfl <|
    .step trivial rfl <| .step trivial rfl <| .step (fun _ _ ↦ rfl) rfl Machine.along_nil

/-- An event is accepted, and the process is told to stop, in the turn in which the one consumer
times out. -/
def lastTimeoutRun : List (PoolAction (Fin 1) (Fin 1)) :=
  [.ingest (makeEvent "e1"), .shutdown, .timeout 0]

theorem lastTimeoutRun_strands :
    ¬ ∀ s : PoolState (Fin 1) (Fin 1),
      (poolMachine (Fin 1) (Fin 1) 1 0).Reachable s → ¬ s.dispatch.Stranded := by
  intro h
  refine h _ ⟨.open, lastTimeoutRun,
    ⟨⟨10, rfl⟩, ⟨rfl, fun _ ↦ rfl, rfl⟩, fun _ ↦ rfl, rfl, rfl⟩, rfl⟩ ⟨rfl, fun i ↦ ?_, ?_⟩
  · rw [Fin.fin_one_eq_zero i]
    rfl
  · exact List.cons_ne_nil _ _

end Acheron
