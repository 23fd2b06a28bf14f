import Acheron.Worker.Process

/-!
# Poison events

The driver encodes a whole `insert_many` call before it sends anything, so one event that cannot be
encoded — an integer outside the signed 64-bit range, say — keeps its whole batch from being
written. The batch is then dead-lettered, and as part of the snapshot the same event keeps the
dead-letter records of the others, and of everything in the buffer, from being persisted.

Which events can be encoded is a parameter throughout. `MeetsDriver` is what is assumed of the
driver and the server: no other call fails. Under it no call of a job whose batch is poisoned
stores anything, so `Isolated` — every encodable event whose batch has been processed is stored —
holds exactly as long as every batch is clean, or each encodable event in it is stored apart from
it: before it was started on, or by a call of another job.
-/

open Runs

namespace Acheron

variable {ι : Type}

/-- The id is in one of the two collections. -/
def Mongo.Holds (m : Mongo) (k : String) : Prop := k ∈ m.events ∨ k ∈ m.deadLetters

/-- What the driver makes of a call: everything is inserted that is not there yet, or, if the call
cannot be encoded, nothing is and the error is not a `BulkWriteError`. -/
def DriverOutcome (encodes : Bool) (o : InsertOutcome) : Prop :=
  if encodes then o = .answered fun _ ↦ false else ∃ e, o = .raised e fun _ ↦ false

theorem driverOutcome_answered {encodes : Bool} (h : encodes = true) :
    DriverOutcome encodes (.answered fun _ ↦ false) := by rw [DriverOutcome, if_pos h]

theorem driverOutcome_raised {encodes : Bool} {e : CallError} (h : encodes = false) :
    DriverOutcome encodes (.raised e fun _ ↦ false) := by
  rw [DriverOutcome, if_neg (by simp [h])]
  exact ⟨e, rfl⟩

/-- Every document a write of the batch would send can be encoded. A repeated id counts by its first
occurrence. -/
def Clean (encodable : EventDocument → Bool) (batch : List EventDocument) : Bool :=
  (dedupeById (batch.map toDoc)).all fun d ↦ encodable d.event

/-- The driver meets every call as `DriverOutcome` says. -/
def MeetsDriver (encodable : EventDocument → Bool) (s : WorkerState ι) : WorkerAction ι → Prop
  | .call i o => ∀ job, s.jobs i = some job →
      match job with
      | .writing batch _ => DriverOutcome (Clean encodable batch) o
      | .pushing _ pending => DriverOutcome (pending.all fun x ↦ encodable x.event) o
      | _ => True
  | _ => True

/-- Every encodable event whose batch has been processed is stored. -/
def Isolated (encodable : EventDocument → Bool) (s : WorkerState ι) : Prop :=
  ∀ batch ∈ s.finished.map Prod.fst, ∀ e ∈ batch, encodable e → s.mongo.Holds e.eventId

/-- The batch whose processing ends with an action. -/
def WorkerState.ending (maxRetries : ℤ) (s : WorkerState ι) :
    WorkerAction ι → Option (List EventDocument)
  | .start _ batch => if maxRetries < 0 then some batch else none
  | .resume i reason now =>
    match s.jobs i with
    | some (.wrote batch _ (.ok ())) => some batch
    | some (.wrote batch attempt (.error _)) =>
      if attempt = maxRetries then
        if (s.dlq.pushMany batch reason now).2 = none then some batch else none
      else if 1024 ≤ attempt then some batch else none
    | some (.pushed batch _ _) => some batch
    | _ => none
  | _ => none

/-- The id is stored when job `i` starts on a batch, or this step of another job stores it. -/
def StoresApart [DecidableEq ι] (maxRetries : ℤ) (i : ι) (k : String) (s : WorkerState ι)
    (a : WorkerAction ι) : Prop :=
  (∃ batch, a = .start i batch) ∧ s.mongo.Holds k ∨
    a.job ≠ i ∧ ¬ s.mongo.Holds k ∧
      ∃ t, (workerMachine ι maxRetries).step s a = some t ∧ t.mongo.Holds k

/-- **The condition on the batches.** Each batch whose processing ends in the run is clean and was
to be written at all, or each encodable event in it had been stored apart from it. -/
def Harmless [DecidableEq ι] (encodable : EventDocument → Bool) (maxRetries : ℤ)
    (s : WorkerState ι) (as : List (WorkerAction ι)) : Prop :=
  ∀ bs a cs u batch, as = bs ++ a :: cs → (workerMachine ι maxRetries).exec s bs = some u →
    u.ending maxRetries a = some batch →
      0 ≤ maxRetries ∧ Clean encodable batch ∨
        ∀ e ∈ batch, encodable e →
          (workerMachine ι maxRetries).Since (StoresApart maxRetries a.job e.eventId)
            (fun _ _ ↦ True) s (bs ++ [a])

/-- What is encodable in the batch whose processing ends is stored. -/
def EndsStored (encodable : EventDocument → Bool) (maxRetries : ℤ) (s : WorkerState ι)
    (a : WorkerAction ι) : Prop :=
  ∀ batch, s.ending maxRetries a = some batch → ∀ e ∈ batch, encodable e → s.mongo.Holds e.eventId

/-- What is known of a job under the assumption on the driver. -/
def Job.Sound (encodable : EventDocument → Bool) (events : Events) : Job → Prop
  | .writing _ _ => True
  | .wrote batch _ (.ok ()) => ∀ e ∈ batch, e.eventId ∈ events
  | .wrote batch _ (.error _) | .sleeping batch _ | .pushed batch _ _ =>
    Clean encodable batch = false
  | .pushing batch pending =>
    Clean encodable batch = false ∧ (pending.all fun x ↦ encodable x.event) = false

/-- Every job is sound. -/
def WorkerState.Sound (encodable : EventDocument → Bool) (s : WorkerState ι) : Prop :=
  ∀ i job, s.jobs i = some job → job.Sound encodable s.mongo.events

/-! ## One call -/

/-- A clean batch is stored, a poisoned one fails. -/
theorem wrote_sound {encodable : EventDocument → Bool} {c : Events} {batch : List EventDocument}
    {o : InsertOutcome} {attempt : ℕ} (ho : DriverOutcome (Clean encodable batch) o) :
    (Job.wrote batch attempt (bulkWrite c batch o).2).Sound encodable (bulkWrite c batch o).1 := by
  cases hclean : Clean encodable batch with
  | true =>
    rw [hclean] at ho
    obtain rfl : o = .answered fun _ ↦ false := ho
    have hok : (bulkWrite c batch (.answered fun _ ↦ false)).2 = .ok () := by
      by_cases hb : batch = []
      · rw [hb, bulkWrite_nil]
      · rw [bulkWrite_of_ne_nil hb]
        rfl
    rw [hok]
    refine (bulkWrite_stores_iff c batch _).mpr ?_ hok
    exact fun i d _ hrefused ↦ absurd hrefused (by simp)
  | false =>
    rw [hclean] at ho
    obtain ⟨e, rfl⟩ : ∃ e, o = .raised e fun _ ↦ false := ho
    have hb : batch ≠ [] := by
      rintro rfl
      exact absurd hclean (by simp [Clean, dedupeById, dedupeLoop])
    rw [bulkWrite_of_ne_nil hb]
    exact hclean

/-- A call that cannot be encoded stores no event. -/
theorem mem_of_bulkWrite_failed {c : Events} {batch : List EventDocument} {o : InsertOutcome}
    (ho : DriverOutcome false o) {k : String} (hk : k ∈ (bulkWrite c batch o).1) : k ∈ c := by
  obtain ⟨e, rfl⟩ : ∃ e, o = .raised e fun _ ↦ false := ho
  by_cases hb : batch = []
  · rwa [hb, bulkWrite_nil] at hk
  · rw [bulkWrite_of_ne_nil hb] at hk
    simpa [InsertOutcome.blocked] using Keyed.Collection.mem_insertMany.mp hk

/-- A call that cannot be encoded stores no dead letter. -/
theorem mem_of_persistDeadLetters_failed {c : DeadLetters} {docs : List (DeadLetterDoc DateTime)}
    {o : InsertOutcome} (ho : DriverOutcome false o) {k : String}
    (hk : k ∈ (persistDeadLetters c docs o).1) : k ∈ c := by
  obtain ⟨e, rfl⟩ : ∃ e, o = .raised e fun _ ↦ false := ho
  by_cases hd : docs = []
  · rwa [hd] at hk
  · rw [persistDeadLetters_of_ne_nil hd] at hk
    simpa [InsertOutcome.blocked] using Keyed.Collection.mem_insertMany.mp hk

theorem Job.Sound.mono {encodable : EventDocument → Bool} {c d : Events} {job : Job}
    (h : job.Sound encodable c) (hcd : ∀ k ∈ c, k ∈ d) : job.Sound encodable d := by
  match job, h with
  | .writing _ _, _ => trivial
  | .wrote _ _ (.ok ()), h => exact fun e he ↦ hcd _ (h e he)
  | .wrote _ _ (.error _), h | .sleeping _ _, h | .pushing _ _, h | .pushed _ _ _, h => exact h

/-- A snapshot that takes a poisoned batch in is poisoned. -/
theorem poisoned_of_pushMany {encodable : EventDocument → Bool} {q : DeadLetterQueue}
    {batch : List EventDocument} {reason : String} {now : ℕ → DateTime} {pending : List DLQEntry}
    (hbatch : Clean encodable batch = false)
    (hpush : (q.pushMany batch reason now).2 = some pending) :
    (pending.all fun x ↦ encodable x.event) = false := by
  obtain ⟨d, hd, hpoison⟩ := List.all_eq_false.mp hbatch
  obtain ⟨e, he, rfl⟩ := List.mem_map.mp (dedupeLoop_subset hd)
  have hmem : e ∈ entryEvents pending := by
    rw [(DeadLetterQueue.pushMany_eq_some hpush).2]
    exact List.mem_append_right _ he
  obtain ⟨x, hx, rfl⟩ := List.mem_map.mp hmem
  exact List.all_eq_false.mpr ⟨x, hx, hpoison⟩

/-! ## One step -/

variable [DecidableEq ι] {encodable : EventDocument → Bool} {maxRetries : ℤ} {s t : WorkerState ι}
  {a : WorkerAction ι}

/-- Nothing that is stored is lost. -/
theorem WorkerMove.holds (h : WorkerMove maxRetries s a t) {k : String} (hk : s.mongo.Holds k) :
    t.mongo.Holds k := by
  cases h with
  | write _ => exact hk.imp_left mem_bulkWrite_of_mem
  | persist _ => exact hk.imp_right mem_persistDeadLetters_of_mem
  | _ => exact hk

theorem sound_move (hs : s.Sound encodable) (hdriver : MeetsDriver encodable s a)
    (h : WorkerMove maxRetries s a t) : t.Sound encodable := by
  cases h with
  | skip _ _ | written _ | settle _ | overflow _ _ _ | bufferOnly _ _ _ =>
    exact forall_jobs_finish _ _ hs
  | start _ _ => exact forall_jobs_proceed _ _ hs trivial
  | wake _ => exact forall_jobs_proceed _ _ hs trivial
  | backoff hjob _ _ =>
    have hpoisoned := hs _ _ hjob
    exact forall_jobs_proceed _ _ hs hpoisoned
  | push pending hjob _ hpush =>
    have hpoisoned := hs _ _ hjob
    exact forall_jobs_proceed _ _ hs ⟨hpoisoned, poisoned_of_pushMany hpoisoned hpush⟩
  | persist hjob =>
    have hpoisoned := hs _ _ hjob
    exact forall_jobs_proceed _ _ hs hpoisoned.1
  | write hjob =>
    refine forall_jobs_proceed _ _ (fun j job hj ↦ ?_) (wrote_sound (hdriver _ hjob))
    exact (hs j job hj).mono fun k hk ↦ mem_bulkWrite_of_mem hk

/-- Every job of a run from an idle pool is sound. -/
theorem sound_of_exec {as : List (WorkerAction ι)} (hidle : ∀ i, s.jobs i = none)
    (hrun : (workerMachine ι maxRetries).exec s as = some t)
    (hdriver : (workerMachine ι maxRetries).Along (MeetsDriver encodable) s as) :
    t.Sound encodable := by
  refine Machine.exec_preserves_along
    (fun u a v hu hd hstep ↦ sound_move hu hd (move_of_workerStep hstep)) ?_ hdriver hrun
  exact fun i job hjob ↦ absurd hjob (by simp [hidle i])

/-- An action ends at most one batch, and then does nothing to the store. -/
theorem finished_move (h : WorkerMove maxRetries s a t) :
    t.finished.map Prod.fst = s.finished.map Prod.fst ++ (s.ending maxRetries a).toList ∧
      (s.ending maxRetries a ≠ none → t.mongo = s.mongo) := by
  cases h with
  | skip hnone hneg => simp [WorkerState.ending, hneg, WorkerState.countProcessed]
  | start hnone hmax => simp [WorkerState.ending, not_lt.mpr hmax]
  | write hjob => simp [WorkerState.ending]
  | persist hjob => simp [WorkerState.ending]
  | written hjob => simp [WorkerState.ending, hjob, WorkerState.countProcessed]
  | push pending hjob hlast hpush => simp [WorkerState.ending, hjob, hlast, hpush]
  | bufferOnly hjob hlast hpush => simp [WorkerState.ending, hjob, hlast, hpush]
  | overflow hjob hmore hbig => simp [WorkerState.ending, hjob, hmore, hbig]
  | backoff hjob hmore hsmall => simp [WorkerState.ending, hjob, hmore, not_le.mpr hsmall]
  | settle hjob => simp [WorkerState.ending, hjob]
  | wake hjob => simp [WorkerState.ending]

omit [DecidableEq ι] in
/-- A batch ends with its start, where nothing is to be written, or when its job resumes from a
write or a push. -/
theorem ending_cases {batch : List EventDocument} (hend : s.ending maxRetries a = some batch) :
    maxRetries < 0 ∧ (∃ batch', a = .start a.job batch') ∨
      (∃ attempt result, s.jobs a.job = some (.wrote batch attempt result)) ∨
        ∃ pending stored, s.jobs a.job = some (.pushed batch pending stored) := by
  unfold WorkerState.ending at hend
  split at hend
  · split at hend
    · exact Or.inl ⟨‹_›, _, rfl⟩
    · exact absurd hend (by simp)
  · refine Or.inr ?_
    split at hend
    case h_1 hjob =>
      obtain rfl := Option.some.inj hend
      exact Or.inl ⟨_, _, hjob⟩
    case h_2 failed attempt e hjob =>
      -- The last attempt ends the batch, or one whose backoff overflows.
      have hbatch : failed = batch := by
        split at hend
        · split at hend
          · exact Option.some.inj hend
          · exact absurd hend (by simp)
        · split at hend
          · exact Option.some.inj hend
          · exact absurd hend (by simp)
      exact Or.inl ⟨attempt, _, hbatch ▸ hjob⟩
    case h_3 hjob => exact Or.inr ⟨_, _, Option.some.inj hend ▸ hjob⟩
    case h_4 => exact absurd hend (by simp)
  · exact absurd hend (by simp)

omit [DecidableEq ι] in
/-- A clean batch whose processing ends has been written. -/
theorem stored_of_ending (hs : s.Sound encodable) {batch : List EventDocument}
    (hend : s.ending maxRetries a = some batch) (hmax : 0 ≤ maxRetries)
    (hclean : Clean encodable batch) : ∀ e ∈ batch, e.eventId ∈ s.mongo.events := by
  rcases ending_cases hend with ⟨hneg, -⟩ | ⟨attempt, result, hjob⟩ | ⟨pending, stored, hjob⟩
  · exact absurd hneg (not_lt.mpr hmax)
  · cases result with
    | ok _ => exact hs _ _ hjob
    | error e =>
      have hsound : Clean encodable batch = false := hs _ _ hjob
      exact absurd hclean (by simp [hsound])
  · have hsound : Clean encodable batch = false := hs _ _ hjob
    exact absurd hclean (by simp [hsound])

/-- With nothing to be written there is never a job. -/
theorem jobs_ne_some_of_neg {as : List (WorkerAction ι)} (hneg : maxRetries < 0)
    (hidle : ∀ i, s.jobs i = none) (hrun : (workerMachine ι maxRetries).exec s as = some t) :
    ∀ i job, t.jobs i ≠ some job := by
  refine Machine.exec_preserves (P := fun u ↦ ∀ i job, u.jobs i ≠ some job) ?_
    (by simp [hidle]) hrun
  intro u a v hu hstep
  cases move_of_workerStep hstep with
  | skip _ _ => exact forall_jobs_finish _ _ hu
  | start _ hmax => exact absurd hneg (not_lt.mpr hmax)
  | write hjob | persist hjob | written hjob | push _ hjob _ _ | bufferOnly hjob _ _
  | overflow hjob _ _ | backoff hjob _ _ | settle hjob | wake hjob => exact absurd hjob (hu _ _)

/-- A call of a job whose batch is poisoned stores nothing. -/
theorem holds_of_poisoned (hs : s.Sound encodable) (hdriver : MeetsDriver encodable s a)
    (h : WorkerMove maxRetries s a t) {job : Job} (hjob : s.jobs a.job = some job)
    (hpoison : Clean encodable job.batch = false) {k : String} (hk : t.mongo.Holds k) :
    s.mongo.Holds k := by
  cases h with
  | @write i o batch attempt hwriting =>
    obtain rfl := Option.some.inj (hjob.symm.trans hwriting)
    have ho : DriverOutcome (Clean encodable batch) o := hdriver _ hwriting
    rw [show Clean encodable batch = false from hpoison] at ho
    exact hk.imp_left (mem_of_bulkWrite_failed ho)
  | @persist i o batch pending hpushing =>
    have ho : DriverOutcome (pending.all fun x ↦ encodable x.event) o := hdriver _ hpushing
    rw [(hs _ _ hpushing).2] at ho
    exact hk.imp_right (mem_of_persistDeadLetters_failed ho)
  | _ => exact hk

/-- **A step keeps poison isolated exactly when what is encodable in the batch it ends is
stored.** -/
theorem isolated_move_iff (hiso : Isolated encodable s) (h : WorkerMove maxRetries s a t) :
    Isolated encodable t ↔ EndsStored encodable maxRetries s a := by
  obtain ⟨hfinished, hmongo⟩ := finished_move h
  have hold : ∀ batch ∈ s.finished.map Prod.fst, ∀ e ∈ batch, encodable e →
      t.mongo.Holds e.eventId := fun batch hb e he hen ↦ h.holds (hiso batch hb e he hen)
  unfold Isolated EndsStored
  rw [hfinished]
  cases hend : s.ending maxRetries a with
  | none =>
    refine iff_of_true ?_ (by simp)
    simpa using hold
  | some batch =>
    rw [hmongo (by simp [hend])] at hold ⊢
    constructor
    · intro ht batch' hb'
      obtain rfl := Option.some.inj hb'
      exact ht batch (by simp)
    · intro hends batch' hb'
      rcases List.mem_append.mp hb' with hb' | hb'
      · exact hold batch' hb'
      · obtain rfl : batch' = batch := by simpa using hb'
        exact hends batch' rfl

/-! ## What is stored apart -/

/-- A job in flight after a step was started by it, or has had its batch before. -/
theorem started_or_batch_eq (h : WorkerMove maxRetries s a t) {job : Job}
    (ht : t.jobs a.job = some job) :
    (∃ batch, a = .start a.job batch) ∧ t.mongo = s.mongo ∨
      ∃ job', s.jobs a.job = some job' ∧ job'.batch = job.batch := by
  by_cases ha : ∃ i batch, a = .start i batch
  · obtain ⟨i, batch, rfl⟩ := ha
    cases h with
    | skip _ _ | start _ _ => exact Or.inl ⟨⟨_, rfl⟩, rfl⟩
  · obtain ⟨job', hjob'⟩ := h.exists_job fun i batch heq ↦ ha ⟨i, batch, heq⟩
    exact Or.inr ⟨job', hjob', (h.batch_eq hjob' ht).symm⟩

/-- What has been stored apart is stored. -/
theorem holds_of_storesApart {i : ι} {k : String} {as : List (WorkerAction ι)}
    (hrun : (workerMachine ι maxRetries).exec s as = some t)
    (h : (workerMachine ι maxRetries).Since (StoresApart maxRetries i k) (fun _ _ ↦ True) s as) :
    t.mongo.Holds k := by
  obtain ⟨bs, b, cs, u, v, rfl, hu, hv, hapart, -⟩ := h
  have hheld : v.mongo.Holds k := by
    rcases hapart with ⟨-, hk⟩ | ⟨-, -, v', hv', hk⟩
    · exact (move_of_workerStep hv).holds hk
    · obtain rfl := Option.some.inj (hv.symm.trans hv')
      exact hk
  exact Machine.exec_preserves (P := fun w ↦ w.mongo.Holds k)
    (fun w c x hw hx ↦ (move_of_workerStep hx).holds hw) hheld
    ((workerMachine ι maxRetries).exec_after hrun hu hv)

/-- **The ids stored while a poisoned batch is worked on are stored apart from it.** -/
theorem storesApart_of_holds {as : List (WorkerAction ι)} (hidle : ∀ i, s.jobs i = none)
    (hrun : (workerMachine ι maxRetries).exec s as = some t)
    (hdriver : (workerMachine ι maxRetries).Along (MeetsDriver encodable) s as) {i : ι} {job : Job}
    (hjob : t.jobs i = some job) (hpoison : Clean encodable job.batch = false) {k : String}
    (hk : t.mongo.Holds k) :
    (workerMachine ι maxRetries).Since (StoresApart maxRetries i k) (fun _ _ ↦ True) s as := by
  induction as using List.reverseRecOn generalizing t job with
  | nil =>
    obtain rfl := Option.some.inj hrun
    exact absurd hjob (by simp [hidle i])
  | append_singleton as a ih =>
    obtain ⟨u, hu, hstep⟩ := (workerMachine ι maxRetries).exec_concat_eq_some.mp hrun
    have hmove := move_of_workerStep hstep
    rw [Machine.since_concat_iff hu hstep]
    by_cases hi : i = a.job
    · subst hi
      rcases started_or_batch_eq hmove hjob with ⟨hstart, hmongo⟩ | ⟨job', hjob', hbatch⟩
      · exact Or.inl (Or.inl ⟨hstart, hmongo ▸ hk⟩)
      · -- The job's own calls store nothing, so the id was there before.
        rw [← hbatch] at hpoison
        have hbefore := holds_of_poisoned (sound_of_exec hidle hu hdriver.left)
          (hdriver.right hu).head hmove hjob' hpoison hk
        exact Or.inr ⟨ih hu hdriver.left hjob' hpoison hbefore, trivial⟩
    · rw [hmove.jobs_ne hi] at hjob
      by_cases hbefore : u.mongo.Holds k
      · exact Or.inr ⟨ih hu hdriver.left hjob hpoison hbefore, trivial⟩
      · exact Or.inl (Or.inr ⟨Ne.symm hi, hbefore, t, hstep, hk⟩)

/-! ## Whole runs -/

/-- **Poison isolation.** With the driver as assumed, every encodable event whose batch has been
processed is stored — at every moment, exactly when every batch is harmless. -/
theorem isolated_iff (encodable : EventDocument → Bool) (maxRetries : ℤ) (s t : WorkerState ι)
    (as : List (WorkerAction ι)) (hinit : (workerMachine ι maxRetries).init s)
    (hrun : (workerMachine ι maxRetries).exec s as = some t)
    (hdriver : (workerMachine ι maxRetries).Along (MeetsDriver encodable) s as) :
    (workerMachine ι maxRetries).Always (Isolated encodable) s as
      ↔ Harmless encodable maxRetries s as := by
  obtain ⟨-, hidle, hnone⟩ := hinit
  have hends : (workerMachine ι maxRetries).Always (Isolated encodable) s as
      ↔ (workerMachine ι maxRetries).Along (EndsStored encodable maxRetries) s as := by
    refine Machine.always_iff_along (I := fun _ ↦ True) (fun _ _ _ _ _ ↦ trivial)
      (fun u a v _ hiso hstep ↦ isolated_move_iff hiso (move_of_workerStep hstep)) trivial ?_ hrun
    exact fun batch hb ↦ absurd hb (by simp [hnone])
  rw [hends]
  constructor
  · rintro hstored bs a cs u batch rfl hu hend
    refine or_iff_not_imp_left.mpr fun hunclean e he hen ↦ ?_
    obtain ⟨v, hv, -⟩ := (workerMachine ι maxRetries).exec_cons_eq_some.mp
      ((workerMachine ι maxRetries).exec_from hrun hu)
    have hk := hstored bs a cs u rfl hu batch hend e he hen
    rw [Machine.since_concat_iff hu hv]
    have hapart {job : Job} (hjob : u.jobs a.job = some job) (hbatch : job.batch = batch) :
        (workerMachine ι maxRetries).Since (StoresApart maxRetries a.job e.eventId)
          (fun _ _ ↦ True) s bs := by
      refine storesApart_of_holds hidle hu hdriver.left hjob ?_ hk
      rw [hbatch, Bool.eq_false_iff]
      exact fun hclean ↦ hunclean ⟨not_lt.mp fun hneg ↦
        jobs_ne_some_of_neg hneg hidle hu _ _ hjob, hclean⟩
    rcases ending_cases hend with ⟨-, hstart⟩ | ⟨_, _, hjob⟩ | ⟨_, _, hjob⟩
    · exact Or.inl (Or.inl ⟨hstart, hk⟩)
    · exact Or.inr ⟨hapart hjob rfl, trivial⟩
    · exact Or.inr ⟨hapart hjob rfl, trivial⟩
  · rintro hharm bs a cs u rfl hu batch hend e he hen
    obtain ⟨v, hv, -⟩ := (workerMachine ι maxRetries).exec_cons_eq_some.mp
      ((workerMachine ι maxRetries).exec_from hrun hu)
    rcases hharm bs a cs u batch rfl hu hend with ⟨hmax, hclean⟩ | hapart
    · have hs := sound_of_exec hidle hu hdriver.left
      exact Or.inl (stored_of_ending hs hend hmax hclean e he)
    · have hk := holds_of_storesApart
        ((workerMachine ι maxRetries).exec_concat_eq_some.mpr ⟨u, hu, hv⟩) (hapart e he hen)
      have hmongo := (finished_move (move_of_workerStep hv)).2 (by simp [hend])
      rwa [hmongo] at hk

/-! ## A poisoned batch -/

/-- An idle pool of one worker on empty collections. -/
def WorkerState.idle : WorkerState (Fin 1) :=
  ⟨⟨.empty, .empty⟩, .new true, ⟨0, 0, 0⟩, fun _ ↦ none, []⟩

/-- A batch that is written at the first attempt. -/
def healthyRun : List (WorkerAction (Fin 1)) :=
  [.start 0 [makeEvent "e1"], .call 0 (.answered fun _ ↦ false), .resume 0 "" fun _ ↦ .epoch]

theorem healthyRun_isolated :
    (workerMachine (Fin 1) 0).Always (Isolated EventRecord.bsonEncodable) .idle healthyRun := by
  have hdriver : (workerMachine (Fin 1) 0).Along (MeetsDriver EventRecord.bsonEncodable) .idle
      healthyRun := by
    refine .step trivial rfl <| .step ?_ rfl <| .step trivial rfl Machine.along_nil
    intro job hjob
    obtain rfl := Option.some.inj hjob
    exact driverOutcome_answered (by decide)
  have hclean : (workerMachine (Fin 1) 0).Along
      (fun u a ↦ ∀ batch, u.ending 0 a = some batch →
        Clean EventRecord.bsonEncodable batch) .idle healthyRun := by
    refine .step ?_ rfl <| .step ?_ rfl <| .step ?_ rfl Machine.along_nil
    · exact fun batch hend ↦ absurd hend (by simp [WorkerState.ending])
    · exact fun batch hend ↦ absurd hend (by simp [WorkerState.ending])
    · intro batch hend
      obtain rfl := Option.some.inj hend
      decide
  exact (isolated_iff EventRecord.bsonEncodable 0 .idle _ healthyRun ⟨rfl, fun _ ↦ rfl, rfl⟩ rfl
    hdriver).mpr fun bs a cs u batch heq hu hend ↦
      Or.inl ⟨le_rfl, hclean bs a cs u heq hu batch hend⟩

/-- An event whose `schema_version` does not fit in 64 bits. -/
def overflowingEvent (eventId : String) : EventDocument :=
  { makeEvent eventId with
    schemaVersion := 9223372036854775808
    one_le_schemaVersion := by decide }

/-- A batch of two, one of them poisonous: neither the write nor the persist gets through. -/
def poisonedRun : List (WorkerAction (Fin 1)) :=
  [.start 0 [makeEvent "e1", overflowingEvent "e2"], .call 0 (.raised .foreign fun _ ↦ false),
    .resume 0 "MongoDB can only handle up to 8-byte ints" fun _ ↦ .epoch,
    .call 0 (.raised .foreign fun _ ↦ false), .resume 0 "" fun _ ↦ .epoch]

theorem poisonedRun_meetsDriver :
    (workerMachine (Fin 1) 0).Along (MeetsDriver EventRecord.bsonEncodable) .idle poisonedRun := by
  refine .step trivial rfl <| .step ?_ rfl <| .step trivial rfl <| .step ?_ rfl <|
    .step trivial rfl Machine.along_nil
  · intro job hjob
    obtain rfl := Option.some.inj hjob
    exact driverOutcome_raised (by decide)
  · intro job hjob
    obtain rfl := Option.some.inj hjob
    exact driverOutcome_raised (by decide)

/-- The encodable event of the batch is in neither collection. -/
theorem poisonedRun_loses :
    ¬ ∀ (s t : WorkerState (Fin 1)) (as : List (WorkerAction (Fin 1))),
      (workerMachine (Fin 1) 0).init s → (workerMachine (Fin 1) 0).exec s as = some t →
      (workerMachine (Fin 1) 0).Along (MeetsDriver EventRecord.bsonEncodable) s as →
        Isolated EventRecord.bsonEncodable t := by
  intro h
  have hiso := h .idle _ poisonedRun ⟨rfl, fun _ ↦ rfl, rfl⟩ rfl poisonedRun_meetsDriver
  rcases hiso [makeEvent "e1", overflowingEvent "e2"] (by simp [WorkerState.idle])
    (makeEvent "e1") List.mem_cons_self (by decide) with hev | hdl
  · exact absurd hev (by decide)
  · exact absurd hdl (by decide)

end Acheron
