import Acheron.Worker.Drain

/-!
# What the consumers have in hand

The invariant of the process that needs nothing of its environment: whatever Mongo answers and
whatever the pushes overwrite, the jobs are those of the consumers that process a batch, no job is
past its last attempt, and a drain is under way from the shutdown on.
-/

open Runs

namespace Acheron

/-- A job is not past its last attempt. -/
def Job.Timely (maxRetries : ℤ) : Job → Prop
  | .writing _ attempt | .wrote _ attempt _ => (attempt : ℤ) ≤ maxRetries
  | .sleeping _ attempt => (attempt : ℤ) < maxRetries
  | .pushing _ _ | .pushed _ _ _ => True

/-- What holds of the process whatever its environment does. -/
structure InHand {ι ρ : Type} [Fintype ι] (batchSize maxRetries : ℤ) (s : PoolState ι ρ) :
    Prop where
  drain : DrainInvariant batchSize s
  linked : Linked s.worker s.dispatch
  timely : ∀ i job, s.worker.jobs i = some job → job.Timely maxRetries
  joining : s.lifespan = .draining → s.dispatch.join ≠ .idle
  refusing : s.lifespan ≠ .running → s.accepting = false
  closed : s.lifespan = .closed → s.dispatch.join = .completed

variable {ι ρ : Type} [DecidableEq ι] {batchSize maxRetries : ℤ}

/-! ## The jobs -/

section Jobs

variable {w w' : WorkerState ι}

theorem WorkerMove.jobs_of_start {i : ι} {batch : List EventDocument}
    (h : WorkerMove maxRetries w (.start i batch) w') : w.jobs i = none := by
  cases h with
  | skip hnone _ | start hnone _ => exact hnone

theorem timely_move (hw : ∀ i job, w.jobs i = some job → job.Timely maxRetries)
    {a : WorkerAction ι} (h : WorkerMove maxRetries w a w') :
    ∀ i job, w'.jobs i = some job → job.Timely maxRetries := by
  cases h with
  | skip _ _ | written _ | bufferOnly _ _ _ | overflow _ _ _ | settle _ =>
    exact forall_jobs_finish _ _ hw
  | start _ hmax => exact forall_jobs_proceed _ _ hw hmax
  | write hjob =>
    have hattempt := hw _ _ hjob
    exact forall_jobs_proceed _ _ hw hattempt
  | persist _ | push _ _ _ _ => exact forall_jobs_proceed _ _ hw trivial
  | backoff hjob hmore _ =>
    have hattempt : _ ≤ _ := hw _ _ hjob
    exact forall_jobs_proceed _ _ hw (lt_of_le_of_ne hattempt hmore)
  | wake hjob =>
    have hattempt := hw _ _ hjob
    refine forall_jobs_proceed _ _ hw ?_
    simp only [Job.Timely] at hattempt ⊢
    omega

/-- A job that goes on keeps its batch, so it stays with its consumer. -/
theorem linked_work {d : DispatchState EventDocument ι} (hlinked : Linked w d) {i : ι}
    {b : JobAction} (hmove : WorkerMove maxRetries w (b.of i) w') (hjob : w'.jobs i ≠ none) :
    Linked w' d := by
  intro j
  by_cases hji : j = i
  · subst hji
    obtain ⟨job', hjob'⟩ := Option.ne_none_iff_exists'.mp hjob
    obtain ⟨job, hold⟩ := hmove.exists_job (JobAction.of_ne_start j · b)
    have hbatch := hmove.batch_eq hold (by rwa [JobAction.job_of])
    rw [JobAction.job_of] at hold
    rw [← hlinked j, hjob', hold, Option.map_some, Option.map_some, hbatch]
  · rw [hmove.jobs_ne (by rwa [JobAction.job_of])]
    exact hlinked j

/-- The batch of a job that ends is that of its consumer. -/
theorem exists_batch_of_finish {d e : DispatchState EventDocument ι} (hlinked : Linked w d) {i : ι}
    {b : JobAction} {ending : BatchEnd} (hmove : WorkerMove maxRetries w (b.of i) w')
    (hstep : (dispatchMachine EventDocument ι batchSize).step d (.finish i ending) = some e) :
    ∃ job batch, w.jobs i = some job ∧ d.consumers i = .processing batch ∧
      job.batch = batch.map Accepted.event ∧ e.finished = d.finished ++ batch := by
  obtain ⟨batch, hprocessing, hfinished, -, -⟩ := step_finish hstep
  obtain ⟨job, hjob⟩ := hmove.exists_job (JobAction.of_ne_start i · b)
  rw [JobAction.job_of] at hjob
  have hbatch := hlinked i
  rw [hjob, hprocessing] at hbatch
  exact ⟨job, batch, hjob, hprocessing, Option.some.inj hbatch, hfinished⟩

end Jobs

/-- The jobs stay those of the consumers that process a batch. -/
theorem linked_move [DecidableEq ρ] {s t : PoolState ι ρ} {a : PoolAction ι ρ}
    (hs : Linked s.worker s.dispatch)
    (h : PoolMove batchSize maxRetries s a t) : Linked t.worker t.dispatch := by
  cases h with
  | refuse | replay _ | mark _ | close _ _ _ => exact hs
  | dispatch hstep _ _ hfinish hcollect =>
    intro i
    rcases (running_of_step hstep hfinish).2 i with hsame | ⟨hc, hnone⟩
    · exact (hs i).trans (by rw [hsame])
    · exact (hs i).trans (by rw [hnone, hcollect i hc])
  | @start i batch d hstep hbatch _ =>
    intro j
    by_cases hji : j = i
    · subst hji
      simp [hbatch, Job.batch, Consumer.running]
    · have hsame := ((running_of_step hstep (by simp)).2 j).resolve_right fun h ↦
        hji (DispatchAction.collect.inj h.1).symm
      simpa [hji, hsame] using hs j
  | work hmove hjob => exact linked_work hs hmove hjob
  | @finish i b w d ending hmove hnone hstep =>
    obtain ⟨_, _, _, hrunning, hothers⟩ := step_finish hstep
    intro j
    by_cases hji : j = i
    · subst hji
      rw [hnone, hrunning]
      rfl
    · rw [hmove.jobs_ne (by rwa [JobAction.job_of]), hothers j hji]
      exact hs j
  | shutdown _ hstop hjoin =>
    intro i
    have hsame := ((running_of_step hstop (by simp)).2 i).resolve_right (by simp)
    have hsame' := ((running_of_step hjoin (by simp)).2 i).resolve_right (by simp)
    exact (hs i).trans (by rw [hsame', hsame])

/-! ## The drain -/

/-- A drain that has been started is not forgotten. -/
theorem join_ne_idle {α : Type} {d e : DispatchState α ι} {b : DispatchAction α ι}
    (h : Move batchSize d b e) (hb : b ≠ .abandonJoin) (hd : d.join ≠ .idle) : e.join ≠ .idle := by
  cases h with
  | accept _ _ _ | take _ _ _ _ _ | advance _ _ _ _ | signal _ => exact hd
  | acknowledge _ _ _ _ =>
    dsimp only
    split
    · simp
    · exact hd
  | join hidle => exact absurd hidle hd
  | abandon => exact absurd rfl hb

theorem join_ne_idle_of_join {α : Type} {d e : DispatchState α ι}
    (h : (dispatchMachine α ι batchSize).step d .join = some e) : e.join ≠ .idle := by
  have hturn := turn_of_step h
  cases hturn with
  | join _ =>
    dsimp only
    split <;> simp

theorem joining_of_works {α : Type} {d e : DispatchState α ι} {bs : List (DispatchAction α ι)}
    (hworks : ∀ b ∈ bs, b.Works) (h : (dispatchMachine α ι batchSize).exec d bs = some e)
    (hd : d.join ≠ .idle) : e.join ≠ .idle := by
  refine Machine.exec_preserves_along (P := fun u ↦ u.join ≠ .idle)
    (C := fun _ (b : DispatchAction α ι) ↦ b.Works) (fun u b v hu hb hstep ↦ ?_) hd
    (Machine.along_of_forall hworks) h
  refine join_ne_idle (move_of_step hstep) ?_ hu
  rintro rfl
  exact hb

/-- From the shutdown on a drain is under way, or has completed. -/
theorem joining_move {s t : PoolState ι ρ} {a : PoolAction ι ρ}
    (hs : s.lifespan = .draining → s.dispatch.join ≠ .idle)
    (h : DrainMove batchSize maxRetries s t a) :
    t.lifespan = .draining → t.dispatch.join ≠ .idle := by
  intro hdraining
  cases h with
  | ingest _ hstep hflags _ | timeout hstep hflags _ | cancel _ hstep hflags _ =>
    exact join_ne_idle (move_of_step hstep) (by simp) (hs (hflags.2 ▸ hdraining))
  | work bs hworks _ =>
    exact joining_of_works hworks.works hworks.exec (hs (hworks.flags.2 ▸ hdraining))
  | shutdown _ _ hjoin _ _ => exact join_ne_idle_of_join hjoin
  | close _ hflags _ => exact absurd (hflags.2.symm.trans hdraining) (by simp)

namespace InHand

variable [DecidableEq ρ] [Fintype ι] {s t : PoolState ι ρ}

theorem init (h : (poolMachine ι ρ batchSize maxRetries).init s) :
    InHand batchSize maxRetries s := by
  obtain ⟨hdispatch, ⟨-, hidle, -⟩, -, -, hrunning⟩ := id h
  obtain ⟨maxSize, hd⟩ := hdispatch
  refine ⟨.init h, fun i ↦ ?_, fun i job hjob ↦ absurd hjob (by simp [hidle]),
    fun hdraining ↦ absurd hdraining (by simp [hrunning]), fun hnot ↦ absurd hrunning hnot,
    fun hclosed ↦ absurd hclosed (by simp [hrunning])⟩
  rw [hidle, hd]
  rfl

/-- **The step lemma.** -/
theorem move (hs : InHand batchSize maxRetries s) (hmax : 0 ≤ maxRetries) {a : PoolAction ι ρ}
    (h : (poolMachine ι ρ batchSize maxRetries).step s a = some t) :
    InHand batchSize maxRetries t := by
  obtain ⟨hopen, hmove⟩ := move_of_poolStep hmax h
  have hdrain := hs.drain.move (drain_of_poolStep h)
  have hlinked := linked_move hs.linked hmove
  have hjoining := joining_move hs.joining (drain_of_poolStep h)
  cases hmove with
  | refuse => exact hs
  | dispatch _ _ _ _ _ | replay _ | mark _ =>
    exact ⟨hdrain, hlinked, hs.timely, hjoining, hs.refusing, fun hclosed ↦ absurd hclosed hopen⟩
  | start _ _ hjob | work hjob _ | finish hjob _ _ =>
    exact ⟨hdrain, hlinked, timely_move hs.timely hjob, hjoining, hs.refusing, fun hclosed ↦
      absurd hclosed hopen⟩
  | shutdown _ _ _ =>
    exact ⟨hdrain, hlinked, hs.timely, hjoining, fun _ ↦ rfl, fun hclosed ↦
      absurd hclosed (by simp)⟩
  | close hdraining hdone _ =>
    exact ⟨hdrain, hlinked, hs.timely, hjoining, fun _ ↦ hs.refusing (by simp [hdraining]),
      fun _ ↦ hdone⟩

theorem of_reachable (hmax : 0 ≤ maxRetries)
    (h : (poolMachine ι ρ batchSize maxRetries).Reachable s) : InHand batchSize maxRetries s :=
  h.invariant (fun _ ↦ init) fun _ _ _ hs hstep ↦ hs.move hmax hstep

end InHand

/-! ## Counters -/

/-- No counter has gone back. -/
structure WorkerState.CountsOn (w w' : WorkerState ι) : Prop where
  eventsProcessed : w.metrics.eventsProcessed ≤ w'.metrics.eventsProcessed
  batchesProcessed : w.metrics.batchesProcessed ≤ w'.metrics.batchesProcessed
  retries : w.metrics.retries ≤ w'.metrics.retries
  recorded : w.dlq.recorded ≤ w'.dlq.recorded

omit [DecidableEq ι] in
theorem WorkerState.CountsOn.refl (w : WorkerState ι) : w.CountsOn w :=
  ⟨le_rfl, le_rfl, le_rfl, le_rfl⟩

omit [DecidableEq ι] in
theorem WorkerState.CountsOn.trans {w₁ w₂ w₃ : WorkerState ι} (h : w₁.CountsOn w₂)
    (h' : w₂.CountsOn w₃) : w₁.CountsOn w₃ :=
  ⟨h.eventsProcessed.trans h'.eventsProcessed, h.batchesProcessed.trans h'.batchesProcessed,
    h.retries.trans h'.retries, h.recorded.trans h'.recorded⟩

theorem countsOn_move {w w' : WorkerState ι} {a : WorkerAction ι}
    (h : WorkerMove maxRetries w a w') : w.CountsOn w' := by
  have hpush (batch : List EventDocument) (reason : String) (now : ℕ → DateTime) :
      w.dlq.recorded ≤ (w.dlq.pushMany batch reason now).1.recorded := by
    rw [(w.dlq.pushMany_spec batch reason now).1]
    exact Nat.le_add_right _ _
  cases h with
  | start _ _ | write _ | persist _ | settle _ | wake _ => exact ⟨le_rfl, le_rfl, le_rfl, le_rfl⟩
  | skip _ _ | written _ => exact ⟨Nat.le_add_right _ _, Nat.le_add_right _ _, le_rfl, le_rfl⟩
  | push _ _ _ _ | bufferOnly _ _ _ => exact ⟨le_rfl, le_rfl, le_rfl, hpush _ _ _⟩
  | overflow _ _ _ | backoff _ _ _ => exact ⟨le_rfl, le_rfl, Nat.le_add_right _ _, le_rfl⟩

/-- The counters of a process only go up. -/
theorem countsOn_exec [DecidableEq ρ] [Fintype ι] {s t : PoolState ι ρ} {as : List (PoolAction ι ρ)}
    (h : (poolMachine ι ρ batchSize maxRetries).exec s as = some t) :
    s.worker.CountsOn t.worker := by
  refine Machine.exec_preserves (P := fun u ↦ s.worker.CountsOn u.worker)
    (fun u a v hu hstep ↦ hu.trans ?_) (.refl _) h
  rcases (drain_of_poolStep hstep).workerEffect with ⟨b, hmove⟩ | ⟨m, hm⟩
  · exact countsOn_move hmove
  · rw [hm]
    exact ⟨le_rfl, le_rfl, le_rfl, le_rfl⟩

end Acheron
