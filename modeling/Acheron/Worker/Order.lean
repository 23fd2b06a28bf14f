import Acheron.Worker.Origin

/-!
# One consumer

With `worker_concurrency` at 1 the pool is serial. The one consumer dequeues in the order of
acceptance, finishes a batch before it takes the next, and retries a batch until it is through; so as
long as nothing is dead-lettered, the store ends up with what inserting the accepted events one by
one would have put there. In particular, of the events that share an id the first accepted is kept.

A failed attempt may have written any part of its batch before it raised. What it has written is what
the batch as a whole stores, and it is the batch's turn, so a lookup sees the store either without
the batch or with it: `Job.Agrees` says which, for each phase of a job.
-/

open Runs Keyed

namespace Acheron

/-- The event under an id, without the marker. -/
def Events.lookup (c : Events) (k : String) : Option (EventRecord BsonDate) :=
  (c.find? k).map EventDoc.event

/-- What the events leave under an id when they are inserted one by one. -/
def Events.after (c : Events) (events : List EventDocument) (k : String) :
    Option (EventRecord BsonDate) := (insertEach c events).lookup k

theorem Events.after_eq (c : Events) (events : List EventDocument) (k : String) :
    c.after events k = (c.lookup k).or ((firstDoc events k).map EventDoc.event) := by
  rw [after, lookup, find?_insertEach, Option.map_or]
  rfl

@[simp] theorem Events.after_nil (c : Events) (k : String) : c.after [] k = c.lookup k := rfl

theorem Events.after_append (c : Events) (xs ys : List EventDocument) (k : String) :
    c.after (xs ++ ys) k = (c.after xs k).or ((firstDoc ys k).map EventDoc.event) := by
  rw [after_eq, after_eq, firstDoc_append, Option.map_or, Option.or_assoc]

/-! ## One call -/

/-- A write, whatever becomes of it, leaves under an id what was there, or fills a gap as the batch
would fill it. -/
theorem lookup_bulkWrite (c : Events) (batch : List EventDocument) (o : InsertOutcome)
    (k : String) : (bulkWrite c batch o).1.lookup k = c.lookup k ∨
      (bulkWrite c batch o).1.lookup k
        = (c.lookup k).or ((firstDoc batch k).map EventDoc.event) := by
  by_cases hb : batch = []
  · subst hb
    exact Or.inl rfl
  · rw [bulkWrite_of_ne_nil hb, Events.lookup, Events.lookup, ← find?_batchDocs]
    have hcases := @Collection.find?_insertMany_or _ _ _ _ c _ o.blocked k (batchDocs_nodup batch)
    rcases hcases with hold | ⟨hnone, hnew⟩
    · exact Or.inl (congrArg _ hold)
    · refine Or.inr ?_
      rw [hnone, Option.map_none, Option.none_or, ← hnew]

/-- A write that returns, with duplicates refused only, fills it. -/
theorem lookup_bulkWrite_of_ok {c : Events} {batch : List EventDocument} {o : InsertOutcome}
    (hdup : o.OnlyDuplicates) (hok : (bulkWrite c batch o).2 = .ok ()) (k : String) :
    (bulkWrite c batch o).1.lookup k = (c.lookup k).or ((firstDoc batch k).map EventDoc.event) := by
  by_cases hb : batch = []
  · subst hb
    exact Option.or_none.symm
  · rw [bulkWrite_of_ne_nil hb] at hok ⊢
    cases o with
    | raised e sent => exact absurd hok (by simp [InsertOutcome.result])
    | answered refused =>
      obtain rfl : refused = fun _ ↦ false := funext hdup
      rw [Events.lookup, Events.lookup, ← find?_batchDocs, ← Option.map_or,
        ← Collection.find?_insertMany]
      rfl

theorem lookup_markIndexed (c : Events) (ids : List String) (k : String) :
    (markIndexed c ids).lookup k = c.lookup k := by
  rw [Events.lookup, find?_markIndexed, Option.map_map, Events.lookup]
  refine congrArg (fun f ↦ (c.find? k).map f) (funext fun d ↦ ?_)
  rw [Function.comp_apply]
  split
  · rfl
  · exact d.mark_event ids

/-- A write of an event with another id is not seen. -/
theorem lookup_bulkWrite_singleton {c : Events} {e : EventDocument} {k : String}
    (hk : e.eventId ≠ k) (o : InsertOutcome) : (bulkWrite c [e] o).1.lookup k = c.lookup k := by
  have hfirst : firstDoc [e] k = none := by simp [firstDoc, hk]
  rcases lookup_bulkWrite c [e] o k with hold | hnew
  · exact hold
  · rw [hnew, hfirst, Option.map_none, Option.or_none]

/-- A replay of another id is not seen, and none of this id comes about while `dead_letter` does not
hold it. -/
theorem lookup_replayStep {m m' : Mongo} {c c' : ReplayCall} {a : ReplayAction} {k : String}
    (hdead : k ∉ m.deadLetters) (hcall : ∀ event h, c ≠ .rewriting k event h)
    (h : replayStep m c a = some (m', c')) :
    k ∉ m'.deadLetters ∧ (∀ event h, c' ≠ .rewriting k event h) ∧
      m'.events.lookup k = m.events.lookup k := by
  have hread : ∀ event h, c' ≠ .rewriting k event h := by
    rintro event hk rfl
    obtain ⟨d, hd, hid, -⟩ := exists_record_of_replayStep h
    exact hdead (Collection.mem_iff_exists.mpr ⟨d, hd, hid⟩)
  have hmove := move_of_replayStep h
  cases hmove with
  | look _ _ _ _ => exact ⟨hdead, hread, rfl⟩
  | @rewrite k' event hk o _ _ _ _ =>
    refine ⟨hdead, hread, lookup_bulkWrite_singleton ?_ o⟩
    rintro rfl
    obtain rfl := hk
    exact hcall event rfl rfl
  | delete _ _ _ hm =>
    rcases hm with rfl | rfl
    · exact ⟨hdead, hread, rfl⟩
    · exact ⟨fun hk ↦ hdead (mem_deleteDeadLetter.mp hk).1, hread, rfl⟩

/-! ## The invariant -/

/-- What a lookup sees in the turn of a batch, given what it sees without the batch (`before`) and
with it (`after`). -/
def Job.Agrees (view before after : Option (EventRecord BsonDate)) : Job → Prop
  | .writing _ _ | .sleeping _ _ | .wrote _ _ (.error _) => view = before ∨ view = after
  | .wrote _ _ (.ok ()) => view = after
  | .pushing _ _ | .pushed _ _ _ => False

variable {ι ρ : Type} [Unique ι] {batchSize maxRetries : ℤ}

/-- What one consumer has dequeued is what it has finished, and what it holds. -/
def DispatchState.InOrder {α : Type} (d : DispatchState α ι) : Prop :=
  d.dequeued = d.finished ++ (d.consumers default).batch

/-- The store in the turn of the consumer's batch. -/
def PoolState.InTurn (c : Events) (k : String) (s : PoolState ι ρ) : Prop :=
  match s.worker.jobs default with
  | none => s.worker.mongo.events.lookup k = c.after (s.dispatch.finished.map Accepted.event) k
  | some job => job.Agrees (s.worker.mongo.events.lookup k)
      (c.after (s.dispatch.finished.map Accepted.event) k)
      (c.after (s.dispatch.finished.map Accepted.event ++ job.batch) k)

/-- The process has dead-lettered nothing, and is in order. -/
structure PoolState.Serial (c : Events) (k : String) (s : PoolState ι ρ) : Prop where
  inOrder : s.dispatch.InOrder
  unrecorded : k ∉ s.worker.mongo.deadLetters
  unreplayed : ∀ r event h, s.replays r ≠ .rewriting k event h
  inTurn : s.InTurn c k

/-! ## One step -/

section Dispatch

variable [DecidableEq ι] {α : Type} {d e : DispatchState α ι} {b : DispatchAction α ι}

theorem inOrder_step (hd : d.InOrder) (h : (dispatchMachine α ι batchSize).step d b = some e) :
    e.InOrder := by
  have hturn := turn_of_step h
  rw [DispatchState.InOrder] at hd ⊢
  cases hturn with
  | put _ | refuse _ | stay _ _ | stop | join _ | abandon _ => exact hd
  | @get i x q hpolling _ =>
    obtain rfl := Unique.eq_default i
    rw [hpolling] at hd
    simp [hd, Consumer.batch]
  | @grow i batch x q hcollecting _ _ =>
    obtain rfl := Unique.eq_default i
    rw [hcollecting] at hd
    simp [hd, Consumer.batch]
  | @close i batch hcollecting =>
    obtain rfl := Unique.eq_default i
    rw [hcollecting] at hd
    simp [hd, Consumer.batch]
  | @finish i batch ending hprocessing =>
    obtain rfl := Unique.eq_default i
    rw [hprocessing] at hd
    have hnone (ok : Bool) : (Consumer.afterBatch ok ending : Consumer (Accepted α)).batch = [] := by
      cases ending <;> cases ok <;> rfl
    dsimp only
    rw [hd, Function.update_self, hnone, List.append_nil]
    rfl
  | @leave i hpolling _ | @cancel i hpolling =>
    obtain rfl := Unique.eq_default i
    rw [hpolling] at hd
    simp [hd, Consumer.batch]

end Dispatch

section Worker

variable [DecidableEq ι] {w w' : WorkerState ι}
  {before after : Option (EventRecord BsonDate)}

omit [Unique ι] [DecidableEq ι] in
/-- A push that reaches its `await` is on record. -/
theorem recorded_pos_of_push {q : DeadLetterQueue} {batch : List EventDocument} {reason : String}
    {now : ℕ → DateTime} {pending : List DLQEntry}
    (h : (q.pushMany batch reason now).2 = some pending) :
    (q.pushMany batch reason now).1.recorded ≠ 0 := by
  intro hzero
  rw [(q.pushMany_spec batch reason now).1, Nat.add_eq_zero_iff, List.length_eq_zero_iff] at hzero
  rw [hzero.2] at h
  exact absurd h (by simp [DeadLetterQueue.pushMany])

omit [Unique ι] in
/-- **A job's step keeps to its turn**: the job goes on, or it ends with its batch in the store. -/
theorem agrees_move {a : WorkerAction ι} (ha : ∀ i batch, a ≠ .start i batch)
    (htimely : ∀ i job, w.jobs i = some job → job.Timely maxRetries) (hmax : maxRetries ≤ 1024)
    (hdup : ∀ j o, a = .call j o → o.OnlyDuplicates)
    (hrecorded : w'.dlq.recorded = 0) (h : WorkerMove maxRetries w a w') {job : Job}
    (hjob : w.jobs a.job = some job) {k : String}
    (hafter : after = before.or ((firstDoc job.batch k).map EventDoc.event))
    (hs : job.Agrees (w.mongo.events.lookup k) before after) :
    w'.mongo.deadLetters = w.mongo.deadLetters ∧
      ((∃ job', w'.jobs a.job = some job' ∧ job'.batch = job.batch ∧
          job'.Agrees (w'.mongo.events.lookup k) before after) ∨
        w'.jobs a.job = none ∧ w'.mongo.events.lookup k = after) := by
  have hgoes (job' : Job) : Function.update w.jobs a.job (some job') a.job = some job' :=
    Function.update_self _ _ _
  have hends : Function.update w.jobs a.job none a.job = none := Function.update_self _ _ _
  cases h with
  | skip _ _ | start _ _ => exact absurd rfl (ha _ _)
  | @write i o batch attempt hi =>
    obtain rfl := Option.some.inj (hi.symm.trans hjob)
    refine ⟨rfl, Or.inl ⟨_, hgoes _, rfl, ?_⟩⟩
    have hview : w.mongo.events.lookup k = before ∨ w.mongo.events.lookup k = after := hs
    -- Filling the gap a second time changes nothing.
    have hfilled : (w.mongo.events.lookup k).or ((firstDoc batch k).map EventDoc.event) = after := by
      rcases hview with hview | hview
      · rw [hview, hafter]
        rfl
      · rw [hview, hafter, Option.or_assoc]
        exact congrArg _ Option.or_self
    cases hok : (bulkWrite w.mongo.events batch o).2 with
    | ok u => exact (lookup_bulkWrite_of_ok (hdup i o rfl) hok k).trans hfilled
    | error e =>
      rcases lookup_bulkWrite w.mongo.events batch o k with hold | hnew
      · exact hview.imp hold.trans hold.trans
      · exact Or.inr (hnew.trans hfilled)
  | persist hi | settle hi =>
    obtain rfl := Option.some.inj (hi.symm.trans hjob)
    exact hs.elim
  | written hi =>
    obtain rfl := Option.some.inj (hi.symm.trans hjob)
    exact ⟨rfl, Or.inr ⟨hends, hs⟩⟩
  | push _ _ _ hpush => exact absurd hrecorded (recorded_pos_of_push hpush)
  | @bufferOnly i reason now batch attempt e hi _ hpush =>
    obtain rfl := Option.some.inj (hi.symm.trans hjob)
    rw [finish_dlq, (w.dlq.pushMany_spec batch reason now).1, Nat.add_eq_zero_iff,
      List.length_eq_zero_iff] at hrecorded
    -- Nothing is recorded, so there was nothing in the batch.
    have hsame : after = before := by
      rw [hafter, Job.batch, hrecorded.2]
      exact Option.or_none
    exact ⟨rfl, Or.inr ⟨hends, hs.elim (·.trans hsame.symm) id⟩⟩
  | overflow hi hmore hbig =>
    have hattempt : _ ≤ _ := htimely _ _ hi
    omega
  | backoff hi _ _ | wake hi =>
    obtain rfl := Option.some.inj (hi.symm.trans hjob)
    exact ⟨rfl, Or.inl ⟨_, hgoes _, rfl, hs⟩⟩

end Worker

section Pool

variable {c : Events} {k : String} {s t : PoolState ι ρ}

/-- The turn is told by the jobs, the lookup and what is finished. -/
theorem PoolState.InTurn.congr (hs : s.InTurn c k) (hjobs : t.worker.jobs = s.worker.jobs)
    (hlookup : t.worker.mongo.events.lookup k = s.worker.mongo.events.lookup k)
    (hfinished : t.dispatch.finished = s.dispatch.finished) : t.InTurn c k := by
  rw [InTurn, hjobs, hlookup, hfinished]
  exact hs

theorem PoolState.inTurn_none (hjob : s.worker.jobs default = none) :
    s.InTurn c k ↔ s.worker.mongo.events.lookup k
      = c.after (s.dispatch.finished.map Accepted.event) k := by
  rw [InTurn, hjob]

theorem PoolState.inTurn_some {job : Job} (hjob : s.worker.jobs default = some job) :
    s.InTurn c k ↔ job.Agrees (s.worker.mongo.events.lookup k)
      (c.after (s.dispatch.finished.map Accepted.event) k)
      (c.after (s.dispatch.finished.map Accepted.event ++ job.batch) k) := by
  rw [InTurn, hjob]

variable [DecidableEq ι] [DecidableEq ρ] [Fintype ι] {a : PoolAction ι ρ}

/-- **The step lemma.** -/
theorem PoolState.Serial.step (hs : s.Serial c k) (hin : InHand batchSize maxRetries s)
    (hmin : 0 ≤ maxRetries) (hmax : maxRetries ≤ 1024) (hdup : PoolState.OnlyDuplicates a)
    (hrecorded : t.worker.dlq.recorded = 0)
    (h : (poolMachine ι ρ batchSize maxRetries).step s a = some t) : t.Serial c k := by
  have hmove := (move_of_poolStep hmin h).2
  cases hmove with
  | refuse | close _ _ _ => exact ⟨hs.inOrder, hs.unrecorded, hs.unreplayed, hs.inTurn⟩
  | dispatch hstep _ _ hfinish _ =>
    exact ⟨inOrder_step hs.inOrder hstep, hs.unrecorded, hs.unreplayed,
      hs.inTurn.congr rfl rfl (running_of_step hstep hfinish).1⟩
  | shutdown _ hstop hjoin =>
    refine ⟨inOrder_step (inOrder_step hs.inOrder hstop) hjoin, hs.unrecorded, hs.unreplayed,
      hs.inTurn.congr rfl rfl ?_⟩
    exact (running_of_step hjoin (by simp)).1.trans (running_of_step hstop (by simp)).1
  | @start i batch d hstep _ hjob =>
    obtain rfl := Unique.eq_default i
    have hturn := (inTurn_none hjob.jobs_of_start).mp hs.inTurn
    rw [← (running_of_step hstep (by simp)).1] at hturn
    have hwriting : (s.worker.proceed default (.writing (batch.map Accepted.event) 0)).jobs default
        = some (.writing (batch.map Accepted.event) 0) := Function.update_self _ _ _
    refine ⟨inOrder_step hs.inOrder hstep, hs.unrecorded, hs.unreplayed,
      (inTurn_some hwriting).mpr ?_⟩
    exact Or.inl hturn
  | @work i b w hmove hjob =>
    obtain rfl := Unique.eq_default i
    obtain ⟨job, hold⟩ := hmove.exists_job (JobAction.of_ne_start default · b)
    have hturn := (inTurn_some (by rwa [JobAction.job_of] at hold)).mp hs.inTurn
    obtain ⟨hdead, ⟨job', hjob', hbatch, hagrees⟩ | ⟨hnone, -⟩⟩ :=
      agrees_move (JobAction.of_ne_start default · b) hin.timely hmax (onlyDuplicates_of hdup)
        hrecorded hmove hold (Events.after_append _ _ _ _) hturn
    · rw [JobAction.job_of] at hjob'
      refine ⟨hs.inOrder, hdead ▸ hs.unrecorded, hs.unreplayed, (inTurn_some hjob').mpr ?_⟩
      rw [hbatch]
      exact hagrees
    · rw [JobAction.job_of] at hnone
      exact absurd hnone hjob
  | @finish i b w d ending hmove hnone hstep =>
    obtain rfl := Unique.eq_default i
    obtain ⟨job, batch, hold, -, hbatch, hfinished⟩ :=
      exists_batch_of_finish hin.linked hmove hstep
    have hturn := (inTurn_some hold).mp hs.inTurn
    obtain ⟨hdead, ⟨job', hjob', -, -⟩ | ⟨-, hlookup⟩⟩ :=
      agrees_move (JobAction.of_ne_start default · b) hin.timely hmax (onlyDuplicates_of hdup)
        hrecorded hmove (by rwa [JobAction.job_of]) (Events.after_append _ _ _ _) hturn
    · rw [JobAction.job_of, hnone] at hjob'
      exact absurd hjob' (by simp)
    · refine ⟨inOrder_step hs.inOrder hstep, hdead ▸ hs.unrecorded, hs.unreplayed,
        (inTurn_none hnone).mpr ?_⟩
      dsimp only
      rw [hfinished, List.map_append, ← hbatch]
      exact hlookup
  | @replay r b m call hmove =>
    obtain ⟨hdead, hcall, hlookup⟩ :=
      lookup_replayStep hs.unrecorded (hs.unreplayed r) (replayStep_of_poolStep h)
    refine ⟨hs.inOrder, hdead, fun r' event hk hr ↦ ?_, hs.inTurn.congr rfl hlookup rfl⟩
    rcases eq_or_ne r' r with rfl | hne
    · exact hcall event hk hr
    · exact hs.unreplayed r' event hk (by rwa [← Function.update_of_ne hne call s.replays])
  | mark ids =>
    exact ⟨hs.inOrder, hs.unrecorded, hs.unreplayed,
      hs.inTurn.congr rfl (lookup_markIndexed _ ids k) rfl⟩

omit [DecidableEq ρ] in
theorem PoolState.Serial.init [DecidableEq ρ]
    (h : (poolMachine ι ρ batchSize maxRetries).init s) (hk : k ∉ s.worker.mongo.deadLetters) :
    s.Serial s.worker.mongo.events k := by
  obtain ⟨⟨maxSize, hd⟩, ⟨-, hidle, -⟩, hreplays, -⟩ := h
  refine ⟨by rw [hd]; rfl, hk, fun r event hk' hr ↦ absurd hr (by simp [hreplays]), ?_⟩
  rw [inTurn_none (hidle default), hd]
  rfl

omit [DecidableEq ι] [DecidableEq ρ] [Fintype ι] in
/-- With nothing unfinished, the one consumer has finished all there was. -/
theorem finished_eq_accepted [Fintype ι] (hin : InHand batchSize maxRetries s)
    (horder : s.dispatch.InOrder) (hdone : s.dispatch.queue.unfinished = 0) :
    s.dispatch.finished = s.dispatch.accepted ∧ s.worker.jobs default = none := by
  have hacc := hin.drain.manned.accounting
  have hunfinished := hacc.unfinished
  rw [hdone, eq_comm, Nat.add_eq_zero_iff, EventQueue.qsize, List.length_eq_zero_iff,
    Multiset.card_eq_zero] at hunfinished
  have hbatch : (s.dispatch.consumers default).batch = [] := by
    have hle := batch_le_inFlight s.dispatch.consumers default
    rwa [hunfinished.2, Multiset.le_zero, Multiset.coe_eq_zero] at hle
  refine ⟨?_, ?_⟩
  · rw [hacc.fifo, hunfinished.1, List.append_nil, horder, hbatch, List.append_nil]
  · have hlinked := hin.linked default
    have hsound := hacc.sound default
    cases hc : s.dispatch.consumers default with
    | processing batch =>
      rw [hc] at hbatch hsound
      exact absurd hsound.1 (by rw [show batch = [] from hbatch]; simp)
    | polling | collecting _ | returned | died | overAcknowledged =>
      rw [hc] at hlinked
      exact Option.map_eq_none_iff.mp hlinked

end Pool

/-- **One consumer stores in the order of acceptance.** In a run with a single consumer in which
nothing has been dead-lettered and the server refuses duplicates only, once every accepted event is
finished the store holds, under each id that `dead_letter` did not hold, the event that inserting the
accepted events one by one would have left there: whatever the batches, the failed attempts with what
they wrote, the replays of other ids and the markings by the indexer. -/
theorem one_consumer_serial (ι ρ : Type) [Unique ι] [DecidableEq ι] [DecidableEq ρ] [Fintype ι]
    (batchSize maxRetries : ℤ) (hmin : 0 ≤ maxRetries) (hmax : maxRetries ≤ 1024)
    (s t : PoolState ι ρ) (as : List (PoolAction ι ρ))
    (hinit : (poolMachine ι ρ batchSize maxRetries).init s)
    (h : (poolMachine ι ρ batchSize maxRetries).exec s as = some t)
    (hdup : (poolMachine ι ρ batchSize maxRetries).Along (fun _ a ↦ PoolState.OnlyDuplicates a) s as)
    (hrecorded : t.worker.dlq.recorded = 0) (hdone : t.dispatch.queue.unfinished = 0) (k : String)
    (hk : k ∉ s.worker.mongo.deadLetters) :
    t.worker.mongo.events.lookup k
      = (insertEach s.worker.mongo.events (t.dispatch.accepted.map Accepted.event)).lookup k := by
  obtain ⟨hin, hserial⟩ := Machine.exec_preserves_along
    (P := fun u ↦ InHand batchSize maxRetries u ∧
      (u.worker.dlq.recorded = 0 → u.Serial s.worker.mongo.events k))
    (fun u a v hu hdup hstep ↦ by
      refine ⟨hu.1.move hmin hstep, fun hzero ↦ ?_⟩
      have hone : (poolMachine ι ρ batchSize maxRetries).exec u [a] = some v :=
        (Machine.exec_cons_eq_some _).mpr ⟨v, hstep, rfl⟩
      have hcounts := countsOn_exec hone
      have hbefore : u.worker.dlq.recorded = 0 := Nat.le_zero.mp (hzero ▸ hcounts.recorded)
      exact (hu.2 hbefore).step hu.1 hmin hmax hdup hzero hstep)
    ⟨.init hinit, fun _ ↦ .init hinit hk⟩ hdup h
  have hs := hserial hrecorded
  obtain ⟨hfinished, hnone⟩ := finished_eq_accepted hin hs.inOrder hdone
  have hview := (PoolState.inTurn_none hnone).mp hs.inTurn
  rwa [hfinished] at hview

/-- Two events under one id, in batches of their own; the first is written at the second attempt. -/
def sameIdRun : List (PoolAction (Fin 1) (Fin 1)) :=
  [.ingest (makeEvent "e1"), .ingest { makeEvent "e1" with userId := "u2" }, .get 0, .collect 0,
    .job 0 (.call (.raised .pyMongo fun _ ↦ false)), .job 0 (.resume "down" fun _ ↦ .epoch),
    .job 0 .wake, .job 0 (.call (.answered fun _ ↦ false)), .job 0 (.resume "" fun _ ↦ .epoch),
    .get 0, .collect 0, .job 0 (.call (.answered fun _ ↦ false)),
    .job 0 (.resume "" fun _ ↦ .epoch)]

theorem sameIdRun_serial :
    ∃ t, (poolMachine (Fin 1) (Fin 1) 1 1).exec .open sameIdRun = some t ∧
      t.worker.mongo.events.lookup "e1"
        = (insertEach .empty [makeEvent "e1", { makeEvent "e1" with userId := "u2" }]).lookup "e1" ∧
      (t.worker.mongo.events.lookup "e1").map EventRecord.userId = some "u1" :=
  ⟨_, rfl, one_consumer_serial (Fin 1) (Fin 1) 1 1 (by decide) (by decide) .open _ sameIdRun
    ⟨⟨10, rfl⟩, ⟨rfl, fun _ ↦ rfl, rfl⟩, fun _ ↦ rfl, rfl, rfl⟩ rfl
    (Machine.along_of_forall (by
      simp [sameIdRun, PoolState.OnlyDuplicates, InsertOutcome.OnlyDuplicates])) rfl rfl "e1"
    (Collection.notMem_empty _), rfl⟩

-- A second consumer may overtake the first.
example : ∃ t, (poolMachine (Fin 2) (Fin 1) 1 0).exec
      ⟨⟨.new 10, fun _ ↦ .polling, false, .idle, [], [], []⟩,
        ⟨⟨.empty, .empty⟩, .new true, ⟨0, 0, 0⟩, fun _ ↦ none, []⟩, fun _ ↦ .idle, true, .running⟩
      [.ingest (makeEvent "e1"), .ingest { makeEvent "e1" with userId := "u2" }, .get 0, .get 1,
        .collect 0, .collect 1, .job 1 (.call (.answered fun _ ↦ false)),
        .job 0 (.call (.answered fun _ ↦ false))] = some t ∧
    (t.worker.mongo.events.lookup "e1").map EventRecord.userId = some "u2" :=
  ⟨_, rfl, rfl⟩

end Acheron
