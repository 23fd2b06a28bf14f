import Acheron.Storage.Batching
import Acheron.Worker.InHand

/-!
# Where a stored event comes from

The path of an event through the process has two branches that meet again in the store: its batch is
written, or its dead letter is, and is replayed later. On either an event is only ever copied, so
whatever the process finds in its two collections was there when it started or is what an accepted
event looks like when it is read back.

And a document is written once. The pool inserts and never replaces, a replay does the same, and the
indexer touches nothing but the marker: under an id that `events` holds, the event stays the same,
and so does a marker that has been set.
-/

open Runs Keyed

namespace Acheron

/-- The event as it is read back once it has been stored. -/
def EventRecord.stored (e : EventDocument) : EventDocument := (e.mapDates DateTime.toBson).rebuild

/-- An instant that has been read back is stored as it is. -/
theorem BsonDate.toDateTime_toBson (d : BsonDate) :
    d.toDateTime.toBson.toDateTime = d.toDateTime := by
  have hmillis : d.toDateTime.toBson.millis * 1000 = d.toDateTime.wall := by
    change (max minWall (min (d.millis * 1000) (wallEnd - 1000)) - 0 * 60000000) / 1000 * 1000
      = max minWall (min (d.millis * 1000) (wallEnd - 1000))
    simp only [minWall, wallEnd]
    omega
  have hwall : max minWall (min (d.toDateTime.wall) (wallEnd - 1000)) = d.toDateTime.wall := by
    change max minWall (min (max minWall (min (d.millis * 1000) (wallEnd - 1000))) (wallEnd - 1000))
      = max minWall (min (d.millis * 1000) (wallEnd - 1000))
    simp only [minWall, wallEnd]
    omega
  change DateTime.ofMillis d.toDateTime.toBson.millis = DateTime.ofMillis d.millis
  unfold DateTime.ofMillis
  congr 1
  rw [hmillis, hwall]
  rfl

/-- So is an event: a replay stores what it has read. -/
theorem stored_rebuild (r : EventRecord BsonDate) : r.rebuild.stored = r.rebuild := by
  simp only [EventRecord.stored, EventRecord.rebuild, EventRecord.mapDates,
    BsonDate.toDateTime_toBson]

/-! ## What is known -/

variable {ι ρ : Type}

/-- What reading a store may bring back, given what it held and what has been accepted since. -/
def Mongo.Known (m : Mongo) (accepted : List (Accepted EventDocument)) (e : EventDocument) : Prop :=
  (∃ d ∈ m.events.docs, d.event.rebuild = e) ∨ (∃ d ∈ m.deadLetters.docs, d.event.rebuild = e) ∨
    ∃ x ∈ accepted, x.event.stored = e

theorem Mongo.Known.mono {m : Mongo} {xs ys : List (Accepted EventDocument)} {e : EventDocument}
    (h : m.Known xs e) (hsub : xs ⊆ ys) : m.Known ys e := by
  refine h.imp_right fun h ↦ h.imp_right ?_
  rintro ⟨x, hx, rfl⟩
  exact ⟨x, hsub hx, rfl⟩

/-- What a job holds, in its batch or its snapshot, is known. -/
def Job.Sourced (K : EventDocument → Prop) (job : Job) : Prop :=
  (∀ e ∈ job.batch, K e.stored) ∧ ∀ e ∈ entryEvents job.pending, K e.stored

/-- Everything the workers hold is known. -/
structure WorkerState.Sourced (K : EventDocument → Prop) (w : WorkerState ι) : Prop where
  events : ∀ d ∈ w.mongo.events.docs, K d.event.rebuild
  deadLetters : ∀ d ∈ w.mongo.deadLetters.docs, K d.event.rebuild
  jobs : ∀ i job, w.jobs i = some job → job.Sourced K
  buffer : ∀ e ∈ entryEvents w.dlq.unpersisted, K e.stored

/-- Everything the process holds is known. -/
structure PoolState.Sourced (K : EventDocument → Prop) (s : PoolState ι ρ) : Prop where
  worker : s.worker.Sourced K
  replays : ∀ r k event h, s.replays r = .rewriting k event h → K event.stored

theorem WorkerState.Sourced.mono {K L : EventDocument → Prop} {w : WorkerState ι}
    (h : w.Sourced K) (hKL : ∀ e, K e → L e) : w.Sourced L :=
  ⟨fun d hd ↦ hKL _ (h.events d hd), fun d hd ↦ hKL _ (h.deadLetters d hd),
    fun i job hi ↦ ⟨fun e he ↦ hKL _ ((h.jobs i job hi).1 e he),
      fun e he ↦ hKL _ ((h.jobs i job hi).2 e he)⟩, fun e he ↦ hKL _ (h.buffer e he)⟩

theorem PoolState.Sourced.mono {K L : EventDocument → Prop} {s : PoolState ι ρ}
    (h : s.Sourced K) (hKL : ∀ e, K e → L e) : s.Sourced L :=
  ⟨h.worker.mono hKL, fun r k event hk hr ↦ hKL _ (h.replays r k event hk hr)⟩

/-! ## One call -/

section Calls

variable {K : EventDocument → Prop}

theorem sourced_bulkWrite {c : Events} {batch : List EventDocument} (o : InsertOutcome)
    (hc : ∀ d ∈ c.docs, K d.event.rebuild) (hbatch : ∀ e ∈ batch, K e.stored) :
    ∀ d ∈ (bulkWrite c batch o).1.docs, K d.event.rebuild := by
  intro d hd
  rcases mem_docs_bulkWrite hd with hold | ⟨e, he, rfl⟩
  · exact hc d hold
  · exact hbatch e he

theorem sourced_persist {c : DeadLetters} {pending : List DLQEntry} (o : InsertOutcome)
    (hc : ∀ d ∈ c.docs, K d.event.rebuild) (hpending : ∀ e ∈ entryEvents pending, K e.stored) :
    ∀ d ∈ (persistDeadLetters c (pending.map entryToDoc) o).1.docs, K d.event.rebuild := by
  intro d hd
  by_cases hnil : pending.map entryToDoc = []
  · rw [hnil] at hd
    exact hc d hd
  · rw [persistDeadLetters_of_ne_nil hnil] at hd
    rcases Collection.mem_docs_insertMany hd with hold | hnew
    · exact hc d hold
    · rw [List.map_map] at hnew
      obtain ⟨entry, hentry, rfl⟩ := List.mem_map.mp hnew
      exact hpending entry.event (List.mem_map_of_mem hentry)

theorem EventDoc.mark_event {τ : Type} (ids : List String) (d : EventDoc τ) :
    (d.mark ids).event = d.event := by
  unfold EventDoc.mark
  split <;> rfl

theorem sourced_markIndexed {c : Events} (ids : List String)
    (hc : ∀ d ∈ c.docs, K d.event.rebuild) :
    ∀ d ∈ (markIndexed c ids).docs, K d.event.rebuild := by
  intro d hd
  unfold markIndexed at hd
  split at hd
  · exact hc d hd
  · obtain ⟨d', hd', rfl⟩ := List.mem_map.mp hd
    rw [EventDoc.mark_event]
    exact hc d' hd'

/-- A replay rewrites what it has read from `dead_letter`. -/
theorem exists_record_of_replayStep {m m' : Mongo} {c : ReplayCall} {a : ReplayAction} {k : String}
    {event : EventDocument} {hk : event.eventId = k}
    (h : replayStep m c a = some (m', .rewriting k event hk)) :
    ∃ d ∈ m.deadLetters.docs, d.id = k ∧ event = d.event.rebuild := by
  unfold replayStep at h
  split at h
  case h_3 eventId =>
    split at h
    · exact absurd h (by simp)
    · next record hread =>
      obtain ⟨hmem, hid⟩ := Collection.find?_eq_some.mp hread
      obtain ⟨-, hcall⟩ := Prod.mk.inj (Option.some.inj h)
      obtain ⟨rfl, rfl⟩ := ReplayCall.rewriting.inj hcall
      exact ⟨record, hmem, hid, rfl⟩
  case h_4 =>
    dsimp only at h
    split at h
    · exact absurd h (by simp)
    · exact absurd h (by simp)
  all_goals exact absurd h (by simp)

theorem sourced_replayStep {m m' : Mongo} {c c' : ReplayCall} {a : ReplayAction}
    (hevents : ∀ d ∈ m.events.docs, K d.event.rebuild)
    (hdead : ∀ d ∈ m.deadLetters.docs, K d.event.rebuild)
    (hcall : ∀ k event h, c = .rewriting k event h → K event.stored)
    (h : replayStep m c a = some (m', c')) :
    (∀ d ∈ m'.events.docs, K d.event.rebuild) ∧ (∀ d ∈ m'.deadLetters.docs, K d.event.rebuild) ∧
      ∀ k event h, c' = .rewriting k event h → K event.stored := by
  have hread : ∀ k event h, c' = .rewriting k event h → K event.stored := by
    rintro k event hk rfl
    obtain ⟨d, hd, -, rfl⟩ := exists_record_of_replayStep h
    rw [stored_rebuild]
    exact hdead d hd
  have hmove := move_of_replayStep h
  cases hmove with
  | look _ _ _ _ => exact ⟨hevents, hdead, hread⟩
  | rewrite o _ _ _ _ =>
    exact ⟨sourced_bulkWrite o hevents (List.forall_mem_singleton.mpr (hcall _ _ _ rfl)), hdead,
      hread⟩
  | delete _ _ _ hm =>
    rcases hm with rfl | rfl
    · exact ⟨hevents, hdead, hread⟩
    · exact ⟨hevents, fun d hd ↦ hdead d (List.mem_of_mem_filter hd), hread⟩

end Calls

/-! ## One step -/

section Step

variable [DecidableEq ι] {maxRetries : ℤ}

/-- A job holds what it was started with. -/
theorem WorkerState.Sourced.move {K : EventDocument → Prop} {w w' : WorkerState ι}
    {a : WorkerAction ι} (hw : w.Sourced K)
    (hstart : ∀ i batch, a = .start i batch → ∀ e ∈ batch, K e.stored)
    (h : WorkerMove maxRetries w a w') : w'.Sourced K := by
  have hnil : ∀ e ∈ entryEvents [], K e.stored := fun e he ↦ absurd he List.not_mem_nil
  have hpushed {i : ι} {batch : List EventDocument} {attempt : ℕ} {result : Except CallError Unit}
      (hjob : w.jobs i = some (.wrote batch attempt result)) :
      ∀ e ∈ entryEvents w.dlq.unpersisted ++ batch, K e.stored := by
    intro e he
    rcases List.mem_append.mp he with hbuf | hnew
    · exact hw.buffer e hbuf
    · exact (hw.jobs _ _ hjob).1 e hnew
  cases h with
  | skip _ _ | written _ | overflow _ _ _ =>
    exact ⟨hw.events, hw.deadLetters, forall_jobs_finish _ _ hw.jobs, hw.buffer⟩
  | start _ _ =>
    exact ⟨hw.events, hw.deadLetters, forall_jobs_proceed _ _ hw.jobs ⟨hstart _ _ rfl, hnil⟩,
      hw.buffer⟩
  | @write _ o _ _ hjob =>
    have hbatch := (hw.jobs _ _ hjob).1
    exact ⟨sourced_bulkWrite o hw.events hbatch, hw.deadLetters,
      forall_jobs_proceed _ _ hw.jobs ⟨hbatch, hnil⟩, hw.buffer⟩
  | @persist _ o _ _ hjob =>
    have hheld := hw.jobs _ _ hjob
    exact ⟨hw.events, sourced_persist o hw.deadLetters hheld.2,
      forall_jobs_proceed _ _ hw.jobs hheld, hw.buffer⟩
  | push pending hjob _ hpush =>
    obtain ⟨hbuffer, hpending⟩ := DeadLetterQueue.pushMany_eq_some hpush
    refine ⟨hw.events, hw.deadLetters, forall_jobs_proceed _ _ hw.jobs
      ⟨(hw.jobs _ _ hjob).1, ?_⟩, ?_⟩
    · change ∀ e ∈ entryEvents pending, K e.stored
      rw [hpending]
      exact hpushed hjob
    · rw [proceed_dlq, hbuffer]
      exact hw.buffer
  | bufferOnly hjob _ hpush =>
    refine ⟨hw.events, hw.deadLetters, forall_jobs_finish _ _ hw.jobs, ?_⟩
    rw [finish_dlq, DeadLetterQueue.entryEvents_of_pushMany_eq_none hpush]
    exact hpushed hjob
  | backoff hjob _ _ | wake hjob =>
    exact ⟨hw.events, hw.deadLetters, forall_jobs_proceed _ _ hw.jobs
      ⟨(hw.jobs _ _ hjob).1, hnil⟩, hw.buffer⟩
  | @settle _ _ _ _ _ stored hjob =>
    refine ⟨hw.events, hw.deadLetters, forall_jobs_finish _ _ hw.jobs, fun e he ↦ ?_⟩
    exact (hw.jobs _ _ hjob).2 e (PushState.mem_entryEvents_resume.mp he).2

theorem accepted_subset_of_step {α : Type} {batchSize : ℤ} {d e : DispatchState α ι}
    {b : DispatchAction α ι} (h : (dispatchMachine α ι batchSize).step d b = some e) :
    d.accepted ⊆ e.accepted := by
  have hturn := turn_of_step h
  cases hturn with
  | put _ => exact List.subset_append_left _ _
  | refuse _ | get _ _ | grow _ _ _ | close _ | finish _ | leave _ _ | stay _ _ | cancel _ | stop
  | join _ | abandon _ => exact List.Subset.refl _

variable [DecidableEq ρ] [Fintype ι] {batchSize : ℤ} {s t : PoolState ι ρ} {a : PoolAction ι ρ}

theorem accepted_subset_of_poolStep (hmax : 0 ≤ maxRetries)
    (h : (poolMachine ι ρ batchSize maxRetries).step s a = some t) :
    s.dispatch.accepted ⊆ t.dispatch.accepted := by
  have hmove := (move_of_poolStep hmax h).2
  cases hmove with
  | refuse | replay _ | mark _ | work _ _ | close _ _ _ => exact List.Subset.refl _
  | dispatch hstep _ _ _ _ | start hstep _ _ | finish _ _ hstep =>
    exact accepted_subset_of_step hstep
  | shutdown _ hstop hjoin =>
    exact List.Subset.trans (accepted_subset_of_step hstop) (accepted_subset_of_step hjoin)

omit [DecidableEq ρ] in
theorem replayStep_of_poolStep [DecidableEq ρ] {r : ρ} {b : ReplayAction}
    (h : (poolMachine ι ρ batchSize maxRetries).step s (.replay r b) = some t) :
    replayStep s.worker.mongo (s.replays r) b = some (t.worker.mongo, t.replays r) := by
  simp only [poolMachine] at h
  split at h
  · exact absurd h (by simp)
  · obtain ⟨⟨m, c⟩, hstep, rfl⟩ := Option.map_eq_some_iff.mp h
    simp [hstep]

/-- **The step lemma.** What the process holds is known if the events it has accepted are. -/
theorem PoolState.Sourced.step {K : EventDocument → Prop} (hs : s.Sourced K)
    (hin : InHand batchSize maxRetries s) (hmax : 0 ≤ maxRetries)
    (h : (poolMachine ι ρ batchSize maxRetries).step s a = some t)
    (hK : ∀ x ∈ t.dispatch.accepted, K x.event.stored) : t.Sourced K := by
  have hmove := (move_of_poolStep hmax h).2
  cases hmove with
  | refuse | dispatch _ _ _ _ _ | shutdown _ _ _ | close _ _ _ => exact ⟨hs.worker, hs.replays⟩
  | @start i batch d hstep hbatch hjob =>
    refine ⟨hs.worker.move ?_ hjob, hs.replays⟩
    rintro j events hstart e he
    obtain ⟨rfl, rfl⟩ := WorkerAction.start.inj hstart
    obtain ⟨x, hx, rfl⟩ := List.mem_map.mp he
    -- The batch of a consumer is part of what was dequeued, and that of what was accepted.
    have hacc := hin.drain.manned.accounting.move (move_of_step hstep)
    have hdequeued : x ∈ d.dequeued := by
      refine (hacc.ordered i).subset ?_
      rw [hbatch]
      exact hx
    refine hK x ?_
    change x ∈ d.accepted
    rw [hacc.fifo]
    exact List.mem_append_left _ hdequeued
  | @work i b w hmove _ | @finish i b w _ _ hmove _ _ =>
    exact ⟨hs.worker.move (fun j batch hb ↦ absurd hb (JobAction.of_ne_start i j b batch)) hmove,
      hs.replays⟩
  | @replay r b m c _ =>
    have hstep := replayStep_of_poolStep h
    obtain ⟨hevents, hdead, hcall⟩ := sourced_replayStep hs.worker.events hs.worker.deadLetters
      (hs.replays r) hstep
    refine ⟨⟨hevents, hdead, hs.worker.jobs, hs.worker.buffer⟩, fun r' k event hk hr ↦ ?_⟩
    rcases eq_or_ne r' r with rfl | hne
    · exact hcall k event hk hr
    · exact hs.replays r' k event hk (by rwa [← Function.update_of_ne hne c s.replays])
  | mark ids =>
    exact ⟨⟨sourced_markIndexed ids hs.worker.events, hs.worker.deadLetters, hs.worker.jobs,
      hs.worker.buffer⟩, hs.replays⟩

end Step

/-! ## Written once -/

/-- Under every id that `c` holds, `c'` holds the same event, marked if it was marked. -/
def Events.Keeps (c c' : Events) : Prop :=
  ∀ k d, c.find? k = some d →
    ∃ d', c'.find? k = some d' ∧ d'.event = d.event ∧ (d.esIndexed = true → d'.esIndexed = true)

theorem Events.Keeps.refl (c : Events) : c.Keeps c := fun _ d hd ↦ ⟨d, hd, rfl, id⟩

theorem Events.Keeps.trans {c₁ c₂ c₃ : Events} (h : c₁.Keeps c₂) (h' : c₂.Keeps c₃) :
    c₁.Keeps c₃ := by
  intro k d hd
  obtain ⟨d', hd', hevent, hmarked⟩ := h k d hd
  obtain ⟨d'', hd'', hevent', hmarked'⟩ := h' k d' hd'
  exact ⟨d'', hd'', hevent'.trans hevent, fun hm ↦ hmarked' (hmarked hm)⟩

/-- A write adds documents after those that are there. -/
theorem Events.keeps_bulkWrite (c : Events) (batch : List EventDocument) (o : InsertOutcome) :
    c.Keeps (bulkWrite c batch o).1 := fun _ d hd ↦
  ⟨d, (extends_bulkWrite c batch o).kept.find?_eq_some hd, rfl, id⟩

theorem EventDoc.mark_esIndexed {τ : Type} {ids : List String} {d : EventDoc τ}
    (h : d.esIndexed = true) : (d.mark ids).esIndexed = true := by
  unfold EventDoc.mark
  split
  · rfl
  · exact h

theorem find?_markIndexed {c : Events} {ids : List String} {k : String} :
    (markIndexed c ids).find? k = (c.find? k).map fun d ↦ if ids = [] then d else d.mark ids := by
  by_cases hids : ids = []
  · subst hids
    simp [markIndexed]
  · have hpred : ((fun d : EventDoc BsonDate ↦ decide (d.id = k)) ∘ EventDoc.mark ids)
        = fun d ↦ decide (d.id = k) := by
      funext d
      rw [Function.comp_apply, EventDoc.mark_id]
    simp only [markIndexed, List.isEmpty_iff, hids, if_false, Collection.find?, Collection.map,
      List.find?_map, hpred]

/-- A marking touches the markers only. -/
theorem Events.keeps_markIndexed (c : Events) (ids : List String) :
    c.Keeps (markIndexed c ids) := by
  intro k d hd
  rw [find?_markIndexed, hd, Option.map_some]
  refine ⟨_, rfl, ?_, fun hmarked ↦ ?_⟩
  · split
    · rfl
    · exact d.mark_event ids
  · split
    · exact hmarked
    · exact EventDoc.mark_esIndexed hmarked

variable [DecidableEq ι] [DecidableEq ρ] [Fintype ι] {batchSize maxRetries : ℤ}
  {s t : PoolState ι ρ}

omit [DecidableEq ρ] [Fintype ι] in
theorem WorkerMove.keeps {w w' : WorkerState ι} {a : WorkerAction ι}
    (h : WorkerMove maxRetries w a w') : w.mongo.events.Keeps w'.mongo.events := by
  cases h with
  | @write _ o batch _ _ => exact Events.keeps_bulkWrite _ batch o
  | skip _ _ | start _ _ | persist _ | written _ | push _ _ _ _ | bufferOnly _ _ _
  | overflow _ _ _ | backoff _ _ _ | settle _ | wake _ => exact .refl _

theorem ReplayMove.keeps {m m' : Mongo} {c c' : ReplayCall} {a : ReplayAction}
    (h : ReplayMove m c a m' c') : m.events.Keeps m'.events := by
  cases h with
  | look _ _ _ _ => exact .refl _
  | rewrite o _ _ _ _ => exact Events.keeps_bulkWrite _ _ o
  | delete _ _ _ hm =>
    rcases hm with rfl | rfl
    · exact .refl _
    · exact .refl _

theorem keeps_of_poolStep (hmax : 0 ≤ maxRetries) {a : PoolAction ι ρ}
    (h : (poolMachine ι ρ batchSize maxRetries).step s a = some t) :
    s.worker.mongo.events.Keeps t.worker.mongo.events := by
  have hmove := (move_of_poolStep hmax h).2
  cases hmove with
  | refuse | dispatch _ _ _ _ _ | shutdown _ _ _ | close _ _ _ => exact .refl _
  | start _ _ hjob | work hjob _ | finish hjob _ _ => exact hjob.keeps
  | replay hreplay => exact hreplay.keeps
  | mark ids => exact Events.keeps_markIndexed _ ids

/-! ## Over a run -/

/-- **What is stored was accepted, and stays.** In every run of the process, each document that a
collection holds was there at the start or is, as it is read back, an event accepted since: whether
it was written by a consumer, or dead-lettered and replayed. From then on the event under its id
never changes, whatever is accepted, retried or replayed later, and a marker once set stays set. -/
theorem store_faithful (ι ρ : Type) [DecidableEq ι] [DecidableEq ρ] [Fintype ι]
    (batchSize maxRetries : ℤ) (hmax : 0 ≤ maxRetries) (s t u : PoolState ι ρ)
    (as bs : List (PoolAction ι ρ)) (hinit : (poolMachine ι ρ batchSize maxRetries).init s)
    (h : (poolMachine ι ρ batchSize maxRetries).exec s as = some t)
    (hlater : (poolMachine ι ρ batchSize maxRetries).exec t bs = some u) :
    (∀ d ∈ t.worker.mongo.events.docs,
        s.worker.mongo.Known t.dispatch.accepted d.event.rebuild) ∧
      (∀ d ∈ t.worker.mongo.deadLetters.docs,
        s.worker.mongo.Known t.dispatch.accepted d.event.rebuild) ∧
      t.worker.mongo.events.Keeps u.worker.mongo.events := by
  have hstart : s.Sourced (s.worker.mongo.Known s.dispatch.accepted) := by
    obtain ⟨-, ⟨hdlq, hidle, -⟩, hreplays, -⟩ := hinit
    refine ⟨⟨fun d hd ↦ Or.inl ⟨d, hd, rfl⟩, fun d hd ↦ Or.inr (Or.inl ⟨d, hd, rfl⟩),
      fun i job hi ↦ absurd hi (by simp [hidle]), fun e he ↦ ?_⟩,
      fun r k event hk hr ↦ absurd hr (by simp [hreplays])⟩
    rw [hdlq] at he
    exact absurd he List.not_mem_nil
  have hsourced : t.Sourced (s.worker.mongo.Known t.dispatch.accepted) := by
    refine (Machine.exec_preserves (P := fun v ↦ InHand batchSize maxRetries v ∧
      v.Sourced (s.worker.mongo.Known v.dispatch.accepted)) (fun v a w hv hstep ↦ ?_)
      ⟨.init hinit, hstart⟩ h).2
    have hsub := accepted_subset_of_poolStep hmax hstep
    exact ⟨hv.1.move hmax hstep, (hv.2.mono fun e he ↦ he.mono hsub).step hv.1 hmax hstep
      fun x hx ↦ Or.inr (Or.inr ⟨x, hx, rfl⟩)⟩
  refine ⟨hsourced.worker.events, hsourced.worker.deadLetters, ?_⟩
  exact Machine.exec_preserves (P := fun v ↦ t.worker.mongo.events.Keeps v.worker.mongo.events)
    (fun v a w hv hstep ↦ hv.trans (keeps_of_poolStep hmax hstep)) (.refl _) hlater

/-- An event is dead-lettered by the one consumer, and replayed. -/
def replayedRun : List (PoolAction (Fin 1) (Fin 1)) :=
  [.ingest (makeEvent "e1"), .get 0, .collect 0, .job 0 (.call (.raised .pyMongo fun _ ↦ false)),
    .job 0 (.resume "down" fun _ ↦ .epoch), .job 0 (.call (.answered fun _ ↦ false)),
    .job 0 (.resume "" fun _ ↦ .epoch), .replay 0 (.begin "e1"), .replay 0 (.read none),
    .replay 0 (.rewrite (.answered fun _ ↦ false)), .replay 0 (.delete none), .replay 0 .finish]

theorem replayedRun_faithful :
    ∃ t, (poolMachine (Fin 1) (Fin 1) 1 0).exec .open replayedRun = some t ∧
      t.worker.mongo.events.docs.length = 1 ∧
      ∀ d ∈ t.worker.mongo.events.docs,
        PoolState.open.worker.mongo.Known t.dispatch.accepted d.event.rebuild :=
  ⟨_, rfl, rfl, (store_faithful (Fin 1) (Fin 1) 1 0 le_rfl .open _ _ replayedRun []
    ⟨⟨10, rfl⟩, ⟨rfl, fun _ ↦ rfl, rfl⟩, fun _ ↦ rfl, rfl, rfl⟩ rfl rfl).1⟩

end Acheron
