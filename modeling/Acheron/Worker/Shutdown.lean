import Acheron.Worker.Poison
import Acheron.Worker.Pool

/-!
# Graceful shutdown

What becomes of an accepted event by the time the clients are closed. A batch that was written, or
whose dead letters were persisted, is in the store; a batch whose persist failed is in the buffer
of the dead-letter queue, and a shutdown flushes no buffer. So an event is in the store, or it is
still in the buffer — and then it was there, or on its way there, when Mongo became reachable, for
from then on every call succeeds.

`Secured` is where an event may be once its batch has been processed; `PoolInvariant` is the
inductive invariant; `graceful_shutdown` is the statement over whole runs. It is about runs in which
no dead-letter push overwrites what another has buffered (`PoolState.Covered`), with a retry bound
for which the retry loop neither is skipped nor overflows.
-/

open Runs

namespace Acheron

/-- The snapshot a job has handed to the sink. -/
def Job.pending : Job → List DLQEntry
  | .pushing _ pending | .pushed _ pending _ => pending
  | _ => []

variable {ι ρ : Type}

/-- Where an event may be once its batch has been processed: in the store, in the buffer, or in a
snapshot in flight. -/
def WorkerState.Secured (s : WorkerState ι) (e : EventDocument) : Prop :=
  s.mongo.Holds e.eventId ∨ e ∈ entryEvents s.dlq.unpersisted ∨
    ∃ i job, s.jobs i = some job ∧ e ∈ entryEvents job.pending

/-- The dead-letter queue holds the event in memory, after a persist that has failed. -/
def WorkerState.HeldBack (s : WorkerState ι) (e : EventDocument) : Prop :=
  e ∈ entryEvents s.dlq.unpersisted ∨
    ∃ i batch pending, s.jobs i = some (.pushed batch pending false) ∧ e ∈ entryEvents pending

/-- What is known of a job when only duplicates are refused. -/
def Job.Ok (maxRetries : ℤ) (m : Mongo) : Job → Prop
  | .writing _ attempt => (attempt : ℤ) ≤ maxRetries
  | .wrote batch attempt result => (attempt : ℤ) ≤ maxRetries ∧
      (result = .ok () → ∀ e ∈ batch, m.Holds e.eventId)
  | .sleeping _ attempt => (attempt : ℤ) < maxRetries
  | .pushing batch pending => ∀ e ∈ batch, e ∈ entryEvents pending
  | .pushed batch pending stored => (∀ e ∈ batch, e ∈ entryEvents pending) ∧
      (stored = true → ∀ e ∈ entryEvents pending, m.Holds e.eventId)

/-- The server refuses duplicates only. -/
def InsertOutcome.OnlyDuplicates : InsertOutcome → Prop
  | .answered refused => ∀ i, refused i = false
  | .raised _ _ => True

/-- The call is answered. -/
def InsertOutcome.Answered : InsertOutcome → Prop
  | .answered _ => True
  | .raised _ _ => False

/-- When a push resumes, each entry then in the buffer is in its own snapshot, or stored, or in the
snapshot of another push in flight. -/
def WorkerState.Covered (s : WorkerState ι) (i : ι) : Prop :=
  ∀ batch pending stored, s.jobs i = some (.pushed batch pending stored) →
    ∀ e ∈ entryEvents s.dlq.unpersisted, e ∈ entryEvents pending ∨ s.mongo.Holds e.eventId ∨
      ∃ j job, j ≠ i ∧ s.jobs j = some job ∧ e ∈ entryEvents job.pending

/-! ## One call -/

theorem refusalsCovered_of_onlyDuplicates {δ : Type} {key : δ → String}
    {c : Keyed.Collection key} {docs : List δ} {o : InsertOutcome} (h : o.OnlyDuplicates) :
    RefusalsCovered c docs o := by
  cases o with
  | raised e sent => trivial
  | answered refused => exact fun i d _ hr ↦ absurd hr (by simp [h i])

theorem Job.Ok.mono {maxRetries : ℤ} {m m' : Mongo} {job : Job} (h : job.Ok maxRetries m)
    (hm : ∀ k, m.Holds k → m'.Holds k) : job.Ok maxRetries m' := by
  match job, h with
  | .writing _ _, h | .sleeping _ _, h | .pushing _ _, h => exact h
  | .wrote _ _ _, h => exact ⟨h.1, fun hok e he ↦ hm _ (h.2 hok e he)⟩
  | .pushed _ _ _, h => exact ⟨h.1, fun hst e he ↦ hm _ (h.2 hst e he)⟩

theorem isOk_iff {r : Except CallError Unit} : r.isOk = true ↔ r = .ok () := by
  cases r with
  | ok u => simp [Except.isOk, Except.toBool]
  | error e => simp [Except.isOk, Except.toBool]

/-- A persist that succeeds stores the snapshot. -/
theorem holds_of_persist {m : Mongo} {pending : List DLQEntry} {o : InsertOutcome}
    (ho : o.OnlyDuplicates)
    (hok : (persistDeadLetters m.deadLetters (pending.map entryToDoc) o).2.isOk = true) :
    ∀ e ∈ entryEvents pending, Mongo.Holds ⟨m.events,
      (persistDeadLetters m.deadLetters (pending.map entryToDoc) o).1⟩ e.eventId := by
  intro e he
  obtain ⟨x, hx, rfl⟩ := List.mem_map.mp he
  refine Or.inr ?_
  exact (persistDeadLetters_stores_iff m.deadLetters (pending.map entryToDoc) o).mpr
    (refusalsCovered_of_onlyDuplicates ho) (isOk_iff.mp hok) _ (List.mem_map_of_mem hx)

/-- A write that succeeds stores the batch. -/
theorem holds_of_write {m : Mongo} {batch : List EventDocument} {o : InsertOutcome}
    (ho : o.OnlyDuplicates) (hok : (bulkWrite m.events batch o).2 = .ok ()) :
    ∀ e ∈ batch, Mongo.Holds ⟨(bulkWrite m.events batch o).1, m.deadLetters⟩ e.eventId :=
  fun e he ↦ Or.inl ((bulkWrite_stores_iff m.events batch o).mpr
    (refusalsCovered_of_onlyDuplicates ho) hok e he)

/-- A persist that is answered succeeds. -/
theorem persist_of_answered {c : DeadLetters} {docs : List (DeadLetterDoc DateTime)}
    {o : InsertOutcome} (hanswered : o.Answered) : (persistDeadLetters c docs o).2.isOk = true := by
  cases o with
  | raised e sent => exact hanswered.elim
  | answered refused =>
    by_cases hnil : docs = []
    · rw [hnil]
      rfl
    · rw [persistDeadLetters_of_ne_nil hnil]
      rfl

/-! ## One step of a job -/

variable [DecidableEq ι] {maxRetries : ℤ} {s t : WorkerState ι} {a : WorkerAction ι}

/-- Every job is as it should be. -/
def WorkerState.JobsOk (maxRetries : ℤ) (s : WorkerState ι) : Prop :=
  ∀ i job, s.jobs i = some job → job.Ok maxRetries s.mongo

theorem jobsOk_move (hs : s.JobsOk maxRetries)
    (ho : ∀ i o, a = .call i o → o.OnlyDuplicates) (h : WorkerMove maxRetries s a t) :
    t.JobsOk maxRetries := by
  have hkeep : ∀ i job, s.jobs i = some job → job.Ok maxRetries t.mongo := fun i job hj ↦
    (hs i job hj).mono fun k hk ↦ h.holds hk
  cases h with
  | skip _ _ | written _ | bufferOnly _ _ _ | overflow _ _ _ | settle _ =>
    exact forall_jobs_finish _ _ hkeep
  | start _ hmax => exact forall_jobs_proceed _ _ hkeep hmax
  | write hjob =>
    have hok := hs _ _ hjob
    exact forall_jobs_proceed _ _ hkeep ⟨hok, holds_of_write (m := s.mongo) (ho _ _ rfl)⟩
  | persist hjob =>
    have hok := hs _ _ hjob
    exact forall_jobs_proceed _ _ hkeep ⟨hok, holds_of_persist (m := s.mongo) (ho _ _ rfl)⟩
  | push pending hjob _ hpush =>
    refine forall_jobs_proceed _ _ hkeep fun x hx ↦ ?_
    rw [(DeadLetterQueue.pushMany_eq_some hpush).2]
    exact List.mem_append_right _ hx
  | backoff hjob hmore _ =>
    have hok := (hs _ _ hjob).1
    exact forall_jobs_proceed _ _ hkeep (lt_of_le_of_ne hok hmore)
  | wake hjob =>
    have hok := hs _ _ hjob
    refine forall_jobs_proceed _ _ hkeep ?_
    simp only [Job.Ok] at hok ⊢
    omega

omit [DecidableEq ι] in
/-- What was secured stays so, if a step secures what it takes from the buffer and from the one job
it changes. -/
theorem secured_of_jobs {i : ι} (hmongo : ∀ k, s.mongo.Holds k → t.mongo.Holds k)
    (hbuffer : ∀ e ∈ entryEvents s.dlq.unpersisted, t.Secured e)
    (hjob : ∀ job, s.jobs i = some job → ∀ e ∈ entryEvents job.pending, t.Secured e)
    (hother : ∀ j, j ≠ i → t.jobs j = s.jobs j) {e : EventDocument} (h : s.Secured e) :
    t.Secured e := by
  rcases h with hheld | hbuf | ⟨j, job, hj, he⟩
  · exact Or.inl (hmongo _ hheld)
  · exact hbuffer e hbuf
  · by_cases hji : j = i
    · subst hji
      exact hjob job hj e he
    · exact Or.inr (Or.inr ⟨j, job, (hother j hji).trans hj, he⟩)

/-- A push that resumes secures its own snapshot. -/
theorem secured_settle (hs : s.JobsOk maxRetries) {i : ι} {batch : List EventDocument}
    {pending : List DLQEntry} {stored : Bool} (hjob : s.jobs i = some (.pushed batch pending stored))
    {e : EventDocument} (he : e ∈ entryEvents pending) :
    ({ s with dlq := s.dlq.resume pending stored }.finish i batch .normal).Secured e := by
  cases hstored : stored with
  | true => exact Or.inl ((hs i _ hjob).2 hstored e he)
  | false => exact Or.inr (Or.inl (PushState.mem_entryEvents_resume.mpr ⟨rfl, he⟩))

/-- **No step loses a secured event**, if a resumption covers the buffer. -/
theorem secured_move (hs : s.JobsOk maxRetries)
    (hcov : ∀ i reason now, a = .resume i reason now → s.Covered i)
    (h : WorkerMove maxRetries s a t) {e : EventDocument} (he : s.Secured e) : t.Secured e := by
  have hne {i j : ι} {c : Option Job} (hji : j ≠ i) : Function.update s.jobs i c j = s.jobs j :=
    Function.update_of_ne hji _ _
  have hmongo : ∀ k, s.mongo.Holds k → t.mongo.Holds k := fun k hk ↦ h.holds hk
  cases h with
  -- A job that starts, writes, sleeps or gives up has no snapshot, before or after.
  | skip hnone _ | start hnone _ =>
    refine secured_of_jobs hmongo (fun e hb ↦ Or.inr (Or.inl hb)) ?_ (fun j ↦ hne) he
    exact fun job hj ↦ absurd hj (by simp [hnone])
  | write hjob | written hjob | overflow hjob _ _ | backoff hjob _ _ | wake hjob =>
    refine secured_of_jobs hmongo (fun e hb ↦ Or.inr (Or.inl hb)) ?_ (fun j ↦ hne) he
    intro job hj x hx
    obtain rfl := Option.some.inj (hjob.symm.trans hj)
    exact absurd hx List.not_mem_nil
  | persist hjob =>
    refine secured_of_jobs hmongo (fun e hb ↦ Or.inr (Or.inl hb)) ?_ (fun j ↦ hne) he
    intro job hj x hx
    obtain rfl := Option.some.inj (hjob.symm.trans hj)
    exact Or.inr (Or.inr ⟨_, _, Function.update_self _ _ _, hx⟩)
  | push pending hjob _ hpush =>
    refine secured_of_jobs hmongo ?_ ?_ (fun j ↦ hne) he
    · intro x hx
      refine Or.inr (Or.inl ?_)
      rwa [proceed_dlq, (DeadLetterQueue.pushMany_eq_some hpush).1]
    · intro job hj x hx
      obtain rfl := Option.some.inj (hjob.symm.trans hj)
      exact absurd hx List.not_mem_nil
  | bufferOnly hjob _ hpush =>
    refine secured_of_jobs hmongo ?_ ?_ (fun j ↦ hne) he
    · intro x hx
      refine Or.inr (Or.inl ?_)
      rw [finish_dlq, DeadLetterQueue.entryEvents_of_pushMany_eq_none hpush]
      exact List.mem_append_left _ hx
    · intro job hj x hx
      obtain rfl := Option.some.inj (hjob.symm.trans hj)
      exact absurd hx List.not_mem_nil
  | settle hjob =>
    have hcovered := hcov _ _ _ rfl _ _ _ hjob
    refine secured_of_jobs hmongo ?_ ?_ (fun j ↦ hne) he
    · intro x hx
      rcases hcovered x hx with hown | hheld | ⟨j, job, hji, hj, hin⟩
      · exact secured_settle hs hjob hown
      · exact Or.inl hheld
      · exact Or.inr (Or.inr ⟨j, job, (hne hji).trans hj, hin⟩)
    · intro job hj x hx
      obtain rfl := Option.some.inj (hjob.symm.trans hj)
      exact secured_settle hs hjob hx

/-- **A batch is secured when its processing ends**, if the backoff does not overflow before the
last attempt. -/
theorem secured_of_ended (hs : s.JobsOk maxRetries) (hmax : maxRetries ≤ 1024)
    (h : WorkerMove maxRetries s a t) {job : Job} (hjob : s.jobs a.job = some job)
    (hnone : t.jobs a.job = none) : ∀ e ∈ job.batch, t.Secured e := by
  intro x hx
  have hproceed {c : Job} (hc : Function.update s.jobs a.job (some c) a.job = none) : False := by
    simp at hc
  cases h with
  | start _ _ | write _ | push _ _ _ _ | persist _ | backoff _ _ _ | wake _ =>
    exact (hproceed hnone).elim
  | skip hfree _ => exact absurd (hfree.symm.trans hjob) (by simp)
  | written hi =>
    obtain rfl := Option.some.inj (hi.symm.trans hjob)
    exact Or.inl ((hs _ _ hi).2 rfl x hx)
  | bufferOnly hi _ hpush =>
    obtain rfl := Option.some.inj (hi.symm.trans hjob)
    refine Or.inr (Or.inl ?_)
    rw [finish_dlq, DeadLetterQueue.entryEvents_of_pushMany_eq_none hpush]
    exact List.mem_append_right _ hx
  -- Excluded by the bound: the last attempt comes before the overflow.
  | overflow hi hmore hbig =>
    have hattempt := (hs _ _ hi).1
    omega
  | settle hi =>
    obtain rfl := Option.some.inj (hi.symm.trans hjob)
    exact secured_settle hs hi ((hs _ _ hi).1 x hx)

/-- While every call is answered, nothing new is held back. -/
theorem heldBack_move (hsink : s.dlq.hasSink = true)
    (ho : ∀ i o, a = .call i o → o.Answered) (h : WorkerMove maxRetries s a t)
    {e : EventDocument} (he : t.HeldBack e) : s.HeldBack e := by
  -- A snapshot held back after the step was held back before it, unless the step is its persist.
  have hkeep {i : ι} {c : Option Job} (hc : ∀ batch pending, c ≠ some (.pushed batch pending false))
      (hd : ∃ j batch pending, Function.update s.jobs i c j = some (.pushed batch pending false) ∧
        e ∈ entryEvents pending) : s.HeldBack e := by
    obtain ⟨j, batch, pending, hj, hin⟩ := hd
    by_cases hji : j = i
    · subst hji
      rw [Function.update_self] at hj
      exact absurd hj (hc batch pending)
    · rw [Function.update_of_ne hji] at hj
      exact Or.inr ⟨j, batch, pending, hj, hin⟩
  cases h with
  | skip _ _ | start _ _ | write _ | written _ | overflow _ _ _ | backoff _ _ _ | wake _ =>
    rcases he with hb | hj
    · exact Or.inl hb
    · exact hkeep (by simp) hj
  | push _ _ _ hpush =>
    rcases he with hb | hj
    · rw [proceed_dlq, (DeadLetterQueue.pushMany_eq_some hpush).1] at hb
      exact Or.inl hb
    · exact hkeep (by simp) hj
  | bufferOnly _ _ hpush =>
    rcases he with hb | hj
    · rw [finish_dlq, DeadLetterQueue.pushMany_eq_none hsink hpush] at hb
      exact Or.inl hb
    · exact hkeep (by simp) hj
  | @persist i o batch pending _ =>
    have hstored : (persistDeadLetters s.mongo.deadLetters (pending.map entryToDoc) o).2.isOk
        = true := persist_of_answered (ho i o rfl)
    rcases he with hb | hj
    · exact Or.inl hb
    · refine hkeep ?_ hj
      intro batch' pending' hc
      rw [hstored] at hc
      exact absurd hc (by simp)
  | settle hi =>
    rcases he with hb | hj
    · obtain ⟨rfl, hin⟩ := PushState.mem_entryEvents_resume.mp hb
      exact Or.inr ⟨_, _, _, hi, hin⟩
    · exact hkeep (by simp) hj

/-- A step keeps the sink of the dead-letter queue. -/
theorem WorkerMove.hasSink (h : WorkerMove maxRetries s a t) : t.dlq.hasSink = s.dlq.hasSink := by
  cases h with
  | push _ _ _ _ | bufferOnly _ _ _ => exact DeadLetterQueue.pushMany_hasSink _ _ _ _
  | _ => rfl

omit [DecidableEq ι] in
/-- What the other parties do to the store takes nothing from the secured events. -/
theorem secured_mongo {m : Mongo} (hm : ∀ k, s.mongo.Holds k → m.Holds k) {e : EventDocument}
    (h : s.Secured e) : ({ s with mongo := m } : WorkerState ι).Secured e :=
  h.imp_left (hm _)

/-! ## The process -/

variable {ρ : Type} {batchSize : ℤ} {p q : PoolState ι ρ} {b : PoolAction ι ρ}

namespace PoolState

/-- The server refuses duplicates only. -/
def OnlyDuplicates : PoolAction ι ρ → Prop
  | .job _ (.call o) | .replay _ (.rewrite o) => o.OnlyDuplicates
  | _ => True

/-- Mongo is reachable: the calls of the jobs are answered. -/
def Answered : PoolAction ι ρ → Prop
  | .job _ (.call o) => o.Answered
  | _ => True

/-- A push that resumes covers what is buffered. -/
def Covers (p : PoolState ι ρ) : PoolAction ι ρ → Prop
  | .job i (.resume _ _) => p.worker.Covered i
  | _ => True

end PoolState

/-- The jobs are those of the consumers that process a batch. -/
def Linked (w : WorkerState ι) (d : DispatchState EventDocument ι) : Prop :=
  ∀ i, (w.jobs i).map Job.batch = (d.consumers i).running.map (List.map Accepted.event)

/-- What holds of the process at every moment. -/
structure PoolInvariant [Fintype ι] (batchSize maxRetries : ℤ) (p : PoolState ι ρ) : Prop where
  accounting : Accounting batchSize p.dispatch
  linked : Linked p.worker p.dispatch
  jobs : p.worker.JobsOk maxRetries
  sink : p.worker.dlq.hasSink = true
  rewritten : ∀ r k, (p.replays r).rewrote = some k → k ∈ p.worker.mongo.events
  secured : ∀ x ∈ p.dispatch.finished, p.worker.Secured x.event
  drained : p.dispatch.join = .completed → p.dispatch.AllFinished
  refusing : p.dispatch.join ≠ .idle → p.accepting = false
  closed : p.lifespan = .closed → p.dispatch.join = .completed ∧
    ∀ i, (p.dispatch.consumers i).ended

omit [DecidableEq ι] in
theorem onlyDuplicates_of {i : ι} {c : JobAction}
    (h : PoolState.OnlyDuplicates (.job i c : PoolAction ι ρ)) :
    ∀ j o, c.of i = .call j o → o.OnlyDuplicates := by
  rintro j o hc
  cases c with
  | call o' =>
    obtain ⟨-, rfl⟩ := WorkerAction.call.inj hc
    exact h
  | resume _ _ | wake => cases hc

omit [DecidableEq ι] in
theorem answered_of {i : ι} {c : JobAction}
    (h : PoolState.Answered (.job i c : PoolAction ι ρ)) :
    ∀ j o, c.of i = .call j o → o.Answered := by
  rintro j o hc
  cases c with
  | call o' =>
    obtain ⟨-, rfl⟩ := WorkerAction.call.inj hc
    exact h
  | resume _ _ | wake => cases hc

omit [DecidableEq ι] in
theorem covered_of {i : ι} {c : JobAction} (h : p.Covers (.job i c)) :
    ∀ j reason now, c.of i = .resume j reason now → p.worker.Covered j := by
  rintro j reason now hc
  cases c with
  | resume _ _ =>
    obtain ⟨rfl, -, -⟩ := WorkerAction.resume.inj hc
    exact h
  | call _ | wake => cases hc

namespace PoolInvariant

variable [Fintype ι]

theorem init [DecidableEq ρ] (h : (poolMachine ι ρ batchSize maxRetries).init p) :
    PoolInvariant batchSize maxRetries p := by
  obtain ⟨hdispatch, ⟨hdlq, hidle, -⟩, hreplays, haccepting, hlifespan⟩ := h
  have hacc := Accounting.init hdispatch
  obtain ⟨maxSize, hd⟩ := hdispatch
  refine ⟨hacc, fun i ↦ ?_, fun i job hjob ↦ ?_, ?_, fun r k hr ↦ ?_, fun x hx ↦ ?_, fun hj ↦ ?_,
    fun hj ↦ ?_, fun hl ↦ ?_⟩
  · rw [hidle, hd]
    rfl
  · exact absurd hjob (by simp [hidle])
  · rw [hdlq]
    rfl
  · exact absurd hr (by simp [hreplays, ReplayCall.rewrote])
  · rw [hd] at hx
    exact absurd hx List.not_mem_nil
  · exact absurd hj (by simp [hd])
  · exact absurd hj (by simp [hd])
  · exact absurd hl (by simp [hlifespan])

/-- A step of the dispatch that neither starts nor ends a job. -/
theorem dispatch (hp : PoolInvariant batchSize maxRetries p) (hopen : p.lifespan ≠ .closed)
    {c : DispatchAction EventDocument ι} {d : DispatchState EventDocument ι}
    (hstep : (dispatchMachine EventDocument ι batchSize).step p.dispatch c = some d)
    (hput : ∀ event, c = .put event → p.accepting = true) (hjoin : c ≠ .join)
    (hfinish : ∀ i ending, c ≠ .finish i ending)
    (hcollect : ∀ i, c = .collect i → (d.consumers i).running = none) :
    PoolInvariant batchSize maxRetries { p with dispatch := d } := by
  have hmove := move_of_step hstep
  obtain ⟨hfinished, hrunning⟩ := running_of_step hstep hfinish
  refine ⟨hp.accounting.move hmove, fun i ↦ ?_, hp.jobs, hp.sink, hp.rewritten, ?_, ?_, ?_,
    fun hl ↦ absurd hl hopen⟩
  · rcases hrunning i with hsame | ⟨hc, hnone⟩
    · exact (hp.linked i).trans (by rw [hsame])
    · exact (hp.linked i).trans (by rw [hnone, hcollect i hc])
  · intro x hx
    exact hp.secured x (hfinished ▸ hx)
  · refine hp.accounting.drained_move hmove (fun event hc hj ↦ ?_) hp.drained
    have hrefusing := hp.refusing (by simp [hj])
    exact absurd (hput event hc) (by simp [hrefusing])
  · intro hj
    exact hp.refusing fun hidle ↦ hj (join_of_move hmove hjoin hidle)

/-- A complete batch becomes a job. -/
theorem start (hp : PoolInvariant batchSize maxRetries p) (hopen : p.lifespan ≠ .closed)
    {i : ι} {batch : List (Accepted EventDocument)} {d : DispatchState EventDocument ι}
    (hstep : (dispatchMachine EventDocument ι batchSize).step p.dispatch (.collect i) = some d)
    (hbatch : d.consumers i = .processing batch)
    (hjob : WorkerMove maxRetries p.worker (.start i (batch.map Accepted.event))
      (p.worker.proceed i (.writing (batch.map Accepted.event) 0))) :
    PoolInvariant batchSize maxRetries { p with
      dispatch := d
      worker := p.worker.proceed i (.writing (batch.map Accepted.event) 0) } := by
  have hmove := move_of_step hstep
  obtain ⟨hfinished, hrunning⟩ := running_of_step hstep (by simp)
  refine ⟨hp.accounting.move hmove, fun j ↦ ?_, jobsOk_move hp.jobs (by simp) hjob, hp.sink,
    hp.rewritten, fun x hx ↦ ?_, ?_, fun hj ↦ ?_, fun hl ↦ absurd hl hopen⟩
  · by_cases hji : j = i
    · subst hji
      rw [hbatch]
      simp [Job.batch, Consumer.running]
    · have hsame := (hrunning j).resolve_right fun h ↦ hji (DispatchAction.collect.inj h.1).symm
      simpa [hji, hsame] using hp.linked j
  · exact secured_move hp.jobs (by simp) hjob (hp.secured x (hfinished ▸ hx))
  · exact hp.accounting.drained_move hmove (by simp) hp.drained
  · exact hp.refusing fun hidle ↦ hj (join_of_move hmove (by simp) hidle)

/-- A job goes on. -/
theorem work (hp : PoolInvariant batchSize maxRetries p) (hopen : p.lifespan ≠ .closed) {i : ι}
    {c : JobAction} {w : WorkerState ι} (hdup : PoolState.OnlyDuplicates (.job i c : PoolAction ι ρ))
    (hcov : p.Covers (.job i c)) (hmove : WorkerMove maxRetries p.worker (c.of i) w)
    (hjob : w.jobs i ≠ none) : PoolInvariant batchSize maxRetries { p with worker := w } := by
  refine ⟨hp.accounting, fun j ↦ ?_, jobsOk_move hp.jobs (onlyDuplicates_of hdup) hmove,
    hmove.hasSink.trans hp.sink, fun r k hr ↦ hmove.mem_events (hp.rewritten r k hr), fun x hx ↦ ?_,
    hp.drained, hp.refusing, fun hl ↦ absurd hl hopen⟩
  · by_cases hji : j = i
    · subst hji
      obtain ⟨job', hjob'⟩ := Option.ne_none_iff_exists'.mp hjob
      obtain ⟨job, hold⟩ := hmove.exists_job (JobAction.of_ne_start j · c)
      have hbatch := hmove.batch_eq hold (by rwa [JobAction.job_of])
      rw [JobAction.job_of] at hold
      rw [← hp.linked j, hjob', hold, Option.map_some, Option.map_some, hbatch]
    · rw [hmove.jobs_ne (by rwa [JobAction.job_of])]
      exact hp.linked j
  · exact secured_move hp.jobs (covered_of hcov) hmove (hp.secured x hx)

/-- A job ends, and its batch is acknowledged. -/
theorem finish (hp : PoolInvariant batchSize maxRetries p) (hopen : p.lifespan ≠ .closed)
    (hmax : maxRetries ≤ 1024) {i : ι} {c : JobAction} {w : WorkerState ι}
    {d : DispatchState EventDocument ι} {ending : BatchEnd}
    (hdup : PoolState.OnlyDuplicates (.job i c : PoolAction ι ρ)) (hcov : p.Covers (.job i c))
    (hmove : WorkerMove maxRetries p.worker (c.of i) w) (hnone : w.jobs i = none)
    (hstep : (dispatchMachine EventDocument ι batchSize).step p.dispatch (.finish i ending)
      = some d) : PoolInvariant batchSize maxRetries { p with dispatch := d, worker := w } := by
  have hdmove := move_of_step hstep
  obtain ⟨batch, hproc, hfinished, hrunning, hothers⟩ := step_finish hstep
  obtain ⟨job, hjob⟩ := hmove.exists_job (JobAction.of_ne_start i · c)
  rw [JobAction.job_of] at hjob
  have hbatch : job.batch = batch.map Accepted.event := by
    have hlinked := hp.linked i
    rw [hjob, hproc] at hlinked
    exact Option.some.inj hlinked
  -- The events acknowledged are those of the job, which has just secured them.
  refine ⟨hp.accounting.move hdmove, fun j ↦ ?_, jobsOk_move hp.jobs (onlyDuplicates_of hdup) hmove,
    hmove.hasSink.trans hp.sink, fun r k hr ↦ hmove.mem_events (hp.rewritten r k hr), fun x hx ↦ ?_,
    ?_, fun hj ↦ ?_, fun hl ↦ absurd hl hopen⟩
  · by_cases hji : j = i
    · subst hji
      rw [hnone, hrunning]
      rfl
    · rw [hmove.jobs_ne (by rwa [JobAction.job_of]), hothers j hji]
      exact hp.linked j
  · rcases List.mem_append.mp (hfinished ▸ hx) with hold | hnew
    · exact secured_move hp.jobs (covered_of hcov) hmove (hp.secured x hold)
    · refine secured_of_ended hp.jobs hmax hmove (by rwa [JobAction.job_of])
        (by rwa [JobAction.job_of]) x.event ?_
      rw [hbatch]
      exact List.mem_map_of_mem hnew
  · exact hp.accounting.drained_move hdmove (by simp) hp.drained
  · exact hp.refusing fun hidle ↦ hj (join_of_move hdmove (by simp) hidle)

omit [DecidableEq ι] in
/-- What replays and the indexer do to the store. -/
theorem mongo (hp : PoolInvariant batchSize maxRetries p) {m : Mongo} {replays : ρ → ReplayCall}
    (hm : ∀ k, p.worker.mongo.Holds k → m.Holds k)
    (hreplays : ∀ r k, (replays r).rewrote = some k → k ∈ m.events) :
    PoolInvariant batchSize maxRetries
      { p with worker := { p.worker with mongo := m }, replays := replays } where
  accounting := hp.accounting
  linked := hp.linked
  jobs i job hjob := (hp.jobs i job hjob).mono hm
  sink := hp.sink
  rewritten := hreplays
  secured x hx := secured_mongo hm (hp.secured x hx)
  drained := hp.drained
  refusing := hp.refusing
  closed := hp.closed

omit [DecidableEq ι] in
theorem replay [DecidableEq ρ] (hp : PoolInvariant batchSize maxRetries p) {r : ρ}
    {c : ReplayAction} {m : Mongo} {c' : ReplayCall}
    (hdup : PoolState.OnlyDuplicates (.replay r c : PoolAction ι ρ))
    (hmove : ReplayMove p.worker.mongo (p.replays r) c m c') :
    PoolInvariant batchSize maxRetries { p with
      worker := { p.worker with mongo := m }
      replays := Function.update p.replays r c' } := by
  refine hp.mongo (fun k hk ↦ ?_) fun q k hq ↦ ?_
  · rcases hk with hstored | hdead
    · exact Or.inl (hmove.mem_events hstored)
    · exact (hmove.mem_deadLetters hdead).symm.imp
        (fun hdel ↦ hmove.mem_events (hp.rewritten r k (by rw [hdel]; rfl))) id
  · by_cases hqr : q = r
    · subst hqr
      rw [Function.update_self] at hq
      refine hmove.stored_of_rewrote hq ?_ (hp.rewritten q k)
      rintro o l event hl rfl -
      exact refusalsCovered_of_onlyDuplicates hdup
    · rw [Function.update_of_ne hqr] at hq
      exact hmove.mem_events (hp.rewritten q k hq)

/-- The drain starts. -/
theorem shutdown (hp : PoolInvariant batchSize maxRetries p)
    {d d' : DispatchState EventDocument ι}
    (hstop : (dispatchMachine EventDocument ι batchSize).step p.dispatch .stop = some d)
    (hjoin : (dispatchMachine EventDocument ι batchSize).step d .join = some d') :
    PoolInvariant batchSize maxRetries
      { p with accepting := false, lifespan := .draining, dispatch := d' } := by
  have hmove := move_of_step hstop
  have hmove' := move_of_step hjoin
  obtain ⟨hfinished, hrunning⟩ := running_of_step hstop (by simp)
  obtain ⟨hfinished', hrunning'⟩ := running_of_step hjoin (by simp)
  have hdrained := hp.accounting.drained_move hmove (by simp) hp.drained
  have hacc := hp.accounting.move hmove
  refine ⟨hacc.move hmove', fun i ↦ ?_, hp.jobs, hp.sink, hp.rewritten, fun x hx ↦ ?_,
    hacc.drained_move hmove' (by simp) hdrained, fun _ ↦ rfl, fun hl ↦ absurd hl (by simp)⟩
  · have hsame := (hrunning i).resolve_right (by simp)
    have hsame' := (hrunning' i).resolve_right (by simp)
    exact (hp.linked i).trans (by rw [hsame', hsame])
  · exact hp.secured x (by rwa [hfinished', hfinished] at hx)

/-- **The step lemma.** -/
theorem move [DecidableEq ρ] (hp : PoolInvariant batchSize maxRetries p)
    (hopen : p.lifespan ≠ .closed) (hmax : maxRetries ≤ 1024) (hdup : PoolState.OnlyDuplicates b)
    (hcov : p.Covers b) (h : PoolMove batchSize maxRetries p b q) :
    PoolInvariant batchSize maxRetries q := by
  cases h with
  | refuse => exact hp
  | dispatch hstep hput hjoin hfinish hcollect =>
    exact hp.dispatch hopen hstep hput hjoin hfinish hcollect
  | start hstep hbatch hjob => exact hp.start hopen hstep hbatch hjob
  | work hmove hjob => exact hp.work hopen hdup hcov hmove hjob
  | finish hmove hnone hstep => exact hp.finish hopen hmax hdup hcov hmove hnone hstep
  | replay hmove => exact hp.replay hdup hmove
  | mark eventIds =>
    refine hp.mongo (fun k hk ↦ hk.imp_left mem_markIndexed.mpr) fun r k hr ↦ ?_
    exact mem_markIndexed.mpr (hp.rewritten r k hr)
  | shutdown hrunning hstop hjoin => exact hp.shutdown hstop hjoin
  | close hdraining hdone hended => exact { hp with closed := fun _ ↦ ⟨hdone, hended⟩ }

omit [DecidableEq ι] in
/-- When the clients are closed, what was accepted is stored or buffered. -/
theorem of_closed (hp : PoolInvariant batchSize maxRetries p) (hclosed : p.lifespan = .closed)
    {x : Accepted EventDocument} (hx : x ∈ p.dispatch.accepted) :
    p.worker.mongo.Holds x.event.eventId ∨ x.event ∈ entryEvents p.worker.dlq.unpersisted := by
  obtain ⟨hdone, hended⟩ := hp.closed hclosed
  rcases hp.secured x (hp.drained hdone x hx) with hheld | hbuf | ⟨i, job, hjob, -⟩
  · exact Or.inl hheld
  · exact Or.inr hbuf
  · have hidle := hp.linked i
    rw [running_of_ended (hended i), hjob] at hidle
    exact absurd hidle (by simp)

end PoolInvariant

/-- A step with the store answering holds nothing new back. -/
theorem heldBack_pool [DecidableEq ρ] (hsink : p.worker.dlq.hasSink = true)
    (hanswered : PoolState.Answered b) (h : PoolMove batchSize maxRetries p b q)
    {e : EventDocument} (he : q.worker.HeldBack e) : p.worker.HeldBack e := by
  cases h with
  | refuse | dispatch _ _ _ _ _ | shutdown _ _ _ | close _ _ _ | replay _ | mark _ => exact he
  | start _ _ hjob => exact heldBack_move hsink (by simp) hjob he
  | work hmove _ => exact heldBack_move hsink (answered_of hanswered) hmove he
  | finish hmove _ _ => exact heldBack_move hsink (answered_of hanswered) hmove he

/-! ## Whole runs -/

/-- **Graceful shutdown.** Take a run that ends with the clients closed, in which the server refuses
only duplicates, no push overwrites what another has buffered, and from some moment on Mongo
answers. Every event accepted is then in the store, or it is still in the buffer of the dead-letter
queue and was held in memory there when Mongo became reachable. -/
theorem graceful_shutdown [DecidableEq ρ] [Fintype ι] (batchSize maxRetries : ℤ)
    (hmin : 0 ≤ maxRetries) (hmax : maxRetries ≤ 1024) (s u t : PoolState ι ρ)
    (as bs : List (PoolAction ι ρ)) (hinit : (poolMachine ι ρ batchSize maxRetries).init s)
    (hbefore : (poolMachine ι ρ batchSize maxRetries).exec s as = some u)
    (hafter : (poolMachine ι ρ batchSize maxRetries).exec u bs = some t)
    (hclosed : t.lifespan = .closed)
    (hdup : (poolMachine ι ρ batchSize maxRetries).Along
      (fun _ a ↦ PoolState.OnlyDuplicates a) s (as ++ bs))
    (hcovers : (poolMachine ι ρ batchSize maxRetries).Along PoolState.Covers s (as ++ bs))
    (hanswered : (poolMachine ι ρ batchSize maxRetries).Along
      (fun _ a ↦ PoolState.Answered a) u bs) :
    ∀ x ∈ t.dispatch.accepted, t.worker.mongo.Holds x.event.eventId ∨
      x.event ∈ entryEvents t.worker.dlq.unpersisted ∧ u.worker.HeldBack x.event := by
  intro x hx
  have hu : PoolInvariant batchSize maxRetries u :=
    Machine.exec_preserves_along (fun p b q hp hmeets hstep ↦
      hp.move (move_of_poolStep hmin hstep).1 hmax hmeets.1 hmeets.2
        (move_of_poolStep hmin hstep).2) (.init hinit) (hdup.left.and hcovers.left) hbefore
  have ht : PoolInvariant batchSize maxRetries t ∧
      (t.worker.HeldBack x.event → u.worker.HeldBack x.event) := by
    refine Machine.exec_preserves_along (P := fun q ↦ PoolInvariant batchSize maxRetries q ∧
      (q.worker.HeldBack x.event → u.worker.HeldBack x.event)) (fun p b q hp hmeets hstep ↦ ?_)
      ⟨hu, id⟩ (((hdup.right hbefore).and (hcovers.right hbefore)).and hanswered) hafter
    obtain ⟨hopen, hmove⟩ := move_of_poolStep hmin hstep
    refine ⟨hp.1.move hopen hmax hmeets.1.1 hmeets.1.2 hmove, fun he ↦ ?_⟩
    exact hp.2 (heldBack_pool hp.1.sink hmeets.2 hmove he)
  exact (ht.1.of_closed hclosed hx).imp_right fun hbuf ↦ ⟨hbuf, ht.2 (Or.inl hbuf)⟩

/-! ## An outage before the shutdown -/

/-- A process with one consumer, on empty collections. -/
def PoolState.open : PoolState (Fin 1) (Fin 1) :=
  ⟨⟨.new 10, fun _ ↦ .polling, false, .idle, [], [], []⟩, .idle, fun _ ↦ .idle, true, .running⟩

/-- Mongo is down: neither the write of an event nor the persist of its dead letter gets through. -/
def outageRun : List (PoolAction (Fin 1) (Fin 1)) :=
  [.ingest (makeEvent "e1"), .get 0, .collect 0, .job 0 (.call (.raised .pyMongo fun _ ↦ false)),
    .job 0 (.resume "timed out" fun _ ↦ .epoch), .job 0 (.call (.raised .pyMongo fun _ ↦ false)),
    .job 0 (.resume "" fun _ ↦ .epoch)]

/-- Mongo is back, and the process shuts down. -/
def shutdownRun : List (PoolAction (Fin 1) (Fin 1)) := [.shutdown, .timeout 0, .close]

theorem outageRun_onlyDuplicates :
    (poolMachine (Fin 1) (Fin 1) 1 0).Along (fun _ a ↦ PoolState.OnlyDuplicates a) .open
      (outageRun ++ shutdownRun) :=
  Machine.along_of_forall (by
    simp [outageRun, shutdownRun, PoolState.OnlyDuplicates, InsertOutcome.OnlyDuplicates])

theorem shutdownRun_answered (u : PoolState (Fin 1) (Fin 1)) :
    (poolMachine (Fin 1) (Fin 1) 1 0).Along (fun _ a ↦ PoolState.Answered a) u shutdownRun :=
  Machine.along_of_forall (by simp [shutdownRun, PoolState.Answered])

/-- Each push of the run finds the buffer empty. -/
theorem outageRun_covers :
    (poolMachine (Fin 1) (Fin 1) 1 0).Along PoolState.Covers .open (outageRun ++ shutdownRun) := by
  refine .step trivial rfl <| .step trivial rfl <| .step trivial rfl <| .step trivial rfl <|
    .step ?_ rfl <| .step trivial rfl <| .step ?_ rfl <| .step trivial rfl <|
    .step trivial rfl <| .step trivial rfl Machine.along_nil
  · exact fun _ _ _ _ e he ↦ absurd he List.not_mem_nil
  · exact fun _ _ _ _ e he ↦ absurd he List.not_mem_nil

theorem outageRun_heldBack :
    ∃ u t, (poolMachine (Fin 1) (Fin 1) 1 0).exec .open outageRun = some u ∧
      (poolMachine (Fin 1) (Fin 1) 1 0).exec u shutdownRun = some t ∧
      ∀ x ∈ t.dispatch.accepted, t.worker.mongo.Holds x.event.eventId ∨
        x.event ∈ entryEvents t.worker.dlq.unpersisted ∧ u.worker.HeldBack x.event :=
  ⟨_, _, rfl, rfl, graceful_shutdown 1 0 le_rfl (by decide) .open _ _ outageRun shutdownRun
    ⟨⟨10, rfl⟩, ⟨rfl, fun _ ↦ rfl, rfl⟩, fun _ ↦ rfl, rfl, rfl⟩ rfl rfl rfl
    outageRun_onlyDuplicates outageRun_covers (shutdownRun_answered _)⟩

/-- The event is in neither collection when the clients are closed. -/
theorem outageRun_strands :
    ¬ ∀ (s u t : PoolState (Fin 1) (Fin 1)) (as bs : List (PoolAction (Fin 1) (Fin 1))),
      (poolMachine (Fin 1) (Fin 1) 1 0).init s →
      (poolMachine (Fin 1) (Fin 1) 1 0).exec s as = some u →
      (poolMachine (Fin 1) (Fin 1) 1 0).exec u bs = some t → u.lifespan = .running →
      t.lifespan = .closed →
      (poolMachine (Fin 1) (Fin 1) 1 0).Along (fun _ a ↦ PoolState.OnlyDuplicates a) s (as ++ bs) →
      (poolMachine (Fin 1) (Fin 1) 1 0).Along (fun _ a ↦ PoolState.Answered a) u bs →
        ∀ x ∈ t.dispatch.accepted, t.worker.mongo.Holds x.event.eventId := by
  intro h
  have hheld := h .open _ _ outageRun shutdownRun
    ⟨⟨10, rfl⟩, ⟨rfl, fun _ ↦ rfl, rfl⟩, fun _ ↦ rfl, rfl, rfl⟩ rfl rfl rfl rfl
    outageRun_onlyDuplicates (shutdownRun_answered _) ⟨0, makeEvent "e1"⟩ List.mem_cons_self
  rcases hheld with hev | hdl
  · exact absurd hev (by decide)
  · exact absurd hdl (by decide)

end Acheron
