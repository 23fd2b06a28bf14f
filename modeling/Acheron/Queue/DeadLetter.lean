import Mathlib.Logic.Function.Basic
import Acheron.Event.Document
import Acheron.Lib.Runs

/-!
# The dead-letter queue

`DeadLetterQueue.push_many` is cut at its one `await`. Up to it the call counts the new entries and
takes a snapshot `pending` of the buffer with the entries appended; after it, the call *overwrites*
the buffer, with nothing if the sink stored the snapshot and with the snapshot if it did not.

## Overlapping calls

The N consumers share one queue, so between the two halves of a call other calls may run theirs.
`pushMachine` is that system: any number of calls, each answered by the sink at a moment of its own
and resumed at a later one. The overwrite is then a lost update waiting to happen — a call resumes
over a buffer that a failed call has filled in the meantime — and `Covered` is the exact condition
under which a resumption loses nothing: every buffered entry is in the call's own snapshot, or is
held elsewhere. `conserved_iff_covered` is the statement over whole runs.

The state carries one history variable, `log`: the events counted by `recorded`, in order.
-/

open Runs

namespace Acheron

/-- `DeadLetterQueue`. -/
structure DeadLetterQueue where
  /-- A `DeadLetterSink` is configured. -/
  hasSink : Bool
  /-- `_unpersisted`. -/
  unpersisted : List DLQEntry
  /-- `_recorded`. -/
  recorded : ℕ

/-- `DeadLetterQueue.__init__`. -/
def DeadLetterQueue.new (hasSink : Bool) : DeadLetterQueue := ⟨hasSink, [], 0⟩

/-- The entries of one call; `now i` is the clock when the `i`-th is built. -/
def pushEntries (events : List EventDocument) (reason : String) (now : ℕ → DateTime) :
    List DLQEntry :=
  events.mapIdx fun i e ↦ ⟨e, reason, now i⟩

/-- `push_many` up to its `await`: the queue afterwards, and the snapshot handed to the sink when
the call gets that far. -/
def DeadLetterQueue.pushMany (q : DeadLetterQueue) (events : List EventDocument) (reason : String)
    (now : ℕ → DateTime) : DeadLetterQueue × Option (List DLQEntry) :=
  if events.isEmpty then (q, none)
  else
    let entries := pushEntries events reason now
    let pending := q.unpersisted ++ entries
    let q' := { q with recorded := q.recorded + entries.length }
    if q.hasSink then (q', some pending) else ({ q' with unpersisted := pending }, none)

/-- `push_many` after its `await`. -/
def DeadLetterQueue.resume (q : DeadLetterQueue) (pending : List DLQEntry) (stored : Bool) :
    DeadLetterQueue :=
  { q with unpersisted := if stored then [] else pending }

/-- The events a list of entries holds. -/
def entryEvents (entries : List DLQEntry) : List EventDocument := entries.map DLQEntry.event

@[simp] theorem entryEvents_pushEntries (events : List EventDocument) (reason : String)
    (now : ℕ → DateTime) : entryEvents (pushEntries events reason now) = events := by
  exact List.ext_getElem (by simp [entryEvents, pushEntries])
    fun i _ _ ↦ by simp [entryEvents, pushEntries]

@[simp] theorem length_pushEntries (events : List EventDocument) (reason : String)
    (now : ℕ → DateTime) : (pushEntries events reason now).length = events.length :=
  List.length_mapIdx

theorem entryEvents_append (xs ys : List DLQEntry) :
    entryEvents (xs ++ ys) = entryEvents xs ++ entryEvents ys := List.map_append

/-! ## The machine -/

/-- A `push_many` call in flight. -/
structure PushCall where
  /-- The snapshot handed to the sink. -/
  pending : List DLQEntry
  /-- The sink's answer, once it has given one: stored everything, or raised and stored nothing. -/
  answer : Option Bool

/-- One queue, its sink, and the calls in flight, by caller. -/
structure PushState (ι : Type) where
  queue : DeadLetterQueue
  /-- The documents the sink has stored. -/
  sink : List (DeadLetterDoc DateTime)
  calls : ι → Option PushCall
  /-- History: the events counted in `recorded`. -/
  log : List EventDocument

/-- What may happen next. -/
inductive PushAction (ι : Type) where
  /-- Caller `i` calls `push_many`, which runs to its `await`. -/
  | call (i : ι) (events : List EventDocument) (reason : String) (now : ℕ → DateTime)
  /-- The sink stores the whole snapshot of caller `i`, or raises. -/
  | answer (i : ι) (stored : Bool)
  /-- Caller `i` resumes. -/
  | resume (i : ι)

variable {ι : Type}

/-- The queue shared by the callers `ι`, under every interleaving at the `await`. -/
def pushMachine (ι : Type) [DecidableEq ι] : Machine (PushState ι) (PushAction ι) where
  init s := (∃ hasSink, s.queue = .new hasSink) ∧ (∀ i, s.calls i = none) ∧ s.log = []
  step s
    | .call i events reason now =>
      match s.calls i with
      | some _ => none
      | none =>
        let r := s.queue.pushMany events reason now
        some { s with
          queue := r.1
          calls := Function.update s.calls i (r.2.map fun pending ↦ ⟨pending, none⟩)
          log := s.log ++ events }
    | .answer i stored =>
      match s.calls i with
      | some ⟨pending, none⟩ =>
        some { s with
          sink := if stored then s.sink ++ pending.map entryToDoc else s.sink
          calls := Function.update s.calls i (some ⟨pending, some stored⟩) }
      | _ => none
    | .resume i =>
      match s.calls i with
      | some ⟨pending, some stored⟩ =>
        some { s with
          queue := s.queue.resume pending stored
          calls := Function.update s.calls i none }
      | _ => none

namespace PushState

/-- The sink holds a record of the event. -/
def Stored (s : PushState ι) (e : EventDocument) : Prop := ∃ d ∈ s.sink, d.event = e

/-- The event is in the snapshot of a call in flight. -/
def InFlight (s : PushState ι) (e : EventDocument) : Prop :=
  ∃ i c, s.calls i = some c ∧ e ∈ entryEvents c.pending

/-- No counted event is lost, and when no call is in flight each one is stored or buffered. -/
structure Conserved (s : PushState ι) : Prop where
  held : ∀ e ∈ s.log, s.Stored e ∨ e ∈ entryEvents s.queue.unpersisted ∨ s.InFlight e
  settled : (∀ i, s.calls i = none) →
    ∀ e ∈ s.log, s.Stored e ∨ e ∈ entryEvents s.queue.unpersisted

/-- **The condition on a step.** When a call resumes, each entry then in the buffer is also in the
call's own snapshot, or already in the sink, or in the snapshot of another call in flight. -/
def Covered (s : PushState ι) : PushAction ι → Prop
  | .resume i => ∀ c, s.calls i = some c → ∀ e ∈ entryEvents s.queue.unpersisted,
      e ∈ entryEvents c.pending ∨ s.Stored e ∨
        ∃ j c', j ≠ i ∧ s.calls j = some c' ∧ e ∈ entryEvents c'.pending
  | _ => True

/-- What every step keeps: the counter counts the log, nothing is buffered or in flight that was
not counted, and a snapshot the sink has accepted is in the sink. -/
structure Accounted (s : PushState ι) : Prop where
  recorded : s.queue.recorded = s.log.length
  buffered : ∀ e ∈ entryEvents s.queue.unpersisted, e ∈ s.log
  inFlight : ∀ e, s.InFlight e → e ∈ s.log
  accepted : ∀ i pending, s.calls i = some ⟨pending, some true⟩ →
    ∀ e ∈ entryEvents pending, s.Stored e

end PushState

/-! ## One step -/

/-- Up to the `await`, a call counts its events and appends them to the buffer or to the snapshot
it hands out. -/
theorem DeadLetterQueue.pushMany_spec (q : DeadLetterQueue) (events : List EventDocument)
    (reason : String) (now : ℕ → DateTime) :
    (q.pushMany events reason now).1.recorded = q.recorded + events.length ∧
      ((q.pushMany events reason now).2 = none ∧
          entryEvents (q.pushMany events reason now).1.unpersisted
            = entryEvents q.unpersisted ++ events ∨
        (q.pushMany events reason now).1.unpersisted = q.unpersisted ∧
          ∃ pending, (q.pushMany events reason now).2 = some pending ∧
            entryEvents pending = entryEvents q.unpersisted ++ events) := by
  unfold pushMany
  by_cases hnil : events.isEmpty
  · obtain rfl := List.isEmpty_iff.mp hnil
    simp
  · rw [if_neg hnil]
    by_cases hsink : q.hasSink
    · simp [hsink, entryEvents_append]
    · simp [hsink, entryEvents_append]

/-- A call that reaches its `await` leaves the buffer as it was, and hands out all of it. -/
theorem DeadLetterQueue.pushMany_eq_some {q : DeadLetterQueue} {events : List EventDocument}
    {reason : String} {now : ℕ → DateTime} {pending : List DLQEntry}
    (h : (q.pushMany events reason now).2 = some pending) :
    (q.pushMany events reason now).1.unpersisted = q.unpersisted ∧
      entryEvents pending = entryEvents q.unpersisted ++ events := by
  rcases (q.pushMany_spec events reason now).2 with ⟨hnone, -⟩ | ⟨hbuf, p, hsome, hp⟩
  · exact absurd h (by simp [hnone])
  · obtain rfl := Option.some.inj (hsome.symm.trans h)
    exact ⟨hbuf, hp⟩

/-- A call that reaches no `await` appends its events to the buffer. -/
theorem DeadLetterQueue.entryEvents_of_pushMany_eq_none {q : DeadLetterQueue}
    {events : List EventDocument} {reason : String} {now : ℕ → DateTime}
    (h : (q.pushMany events reason now).2 = none) :
    entryEvents (q.pushMany events reason now).1.unpersisted
      = entryEvents q.unpersisted ++ events := by
  rcases (q.pushMany_spec events reason now).2 with ⟨-, hbuf⟩ | ⟨-, p, hsome, -⟩
  · exact hbuf
  · exact absurd h (by simp [hsome])

@[simp] theorem DeadLetterQueue.pushMany_hasSink (q : DeadLetterQueue)
    (events : List EventDocument) (reason : String) (now : ℕ → DateTime) :
    (q.pushMany events reason now).1.hasSink = q.hasSink := by
  unfold pushMany
  split
  · rfl
  · dsimp only
    split <;> rfl

/-- With a sink, a call that reaches no `await` had nothing to do. -/
theorem DeadLetterQueue.pushMany_eq_none {q : DeadLetterQueue} {events : List EventDocument}
    {reason : String} {now : ℕ → DateTime} (hsink : q.hasSink = true)
    (h : (q.pushMany events reason now).2 = none) : (q.pushMany events reason now).1 = q := by
  unfold pushMany at h ⊢
  by_cases hnil : events.isEmpty
  · rw [if_pos hnil]
  · rw [if_neg hnil] at h
    exact absurd h (by simp [hsink])

namespace PushState

variable {s t : PushState ι}

theorem Conserved.of_held (h : ∀ e ∈ s.log, s.Stored e ∨ e ∈ entryEvents s.queue.unpersisted
    ∨ s.InFlight e) : s.Conserved := by
  refine ⟨h, fun hidle e he ↦ ?_⟩
  rcases h e he with hs | hb | ⟨i, c, hc, -⟩
  · exact Or.inl hs
  · exact Or.inr hb
  · exact absurd hc (by simp [hidle i])

theorem mem_entryEvents_resume {q : DeadLetterQueue} {pending : List DLQEntry} {stored : Bool}
    {e : EventDocument} :
    e ∈ entryEvents (q.resume pending stored).unpersisted
      ↔ stored = false ∧ e ∈ entryEvents pending := by
  cases stored <;> simp [DeadLetterQueue.resume, entryEvents]

theorem stored_append {docs : List DLQEntry} {calls : ι → Option PushCall} {e : EventDocument} :
    ({ s with sink := s.sink ++ docs.map entryToDoc, calls := calls } : PushState ι).Stored e
      ↔ s.Stored e ∨ e ∈ entryEvents docs := by
  constructor
  · rintro ⟨d, hd, rfl⟩
    rcases List.mem_append.mp hd with hd | hd
    · exact Or.inl ⟨d, hd, rfl⟩
    · obtain ⟨x, hx, rfl⟩ := List.mem_map.mp hd
      exact Or.inr (List.mem_map_of_mem hx)
  · rintro (⟨d, hd, rfl⟩ | he)
    · exact ⟨d, List.mem_append_left _ hd, rfl⟩
    · obtain ⟨x, hx, rfl⟩ := List.mem_map.mp he
      exact ⟨entryToDoc x, List.mem_append_right _ (List.mem_map_of_mem hx), rfl⟩

variable [DecidableEq ι]

theorem step_call {i : ι} {events : List EventDocument} {reason : String} {now : ℕ → DateTime}
    (h : (pushMachine ι).step s (.call i events reason now) = some t) :
    s.calls i = none ∧ t.sink = s.sink ∧ t.log = s.log ++ events ∧
      t.queue = (s.queue.pushMany events reason now).1 ∧
      t.calls = Function.update s.calls i
        ((s.queue.pushMany events reason now).2.map fun pending ↦ ⟨pending, none⟩) := by
  simp only [pushMachine] at h
  split at h
  · exact absurd h (by simp)
  · obtain rfl := Option.some.inj h
    exact ⟨‹_›, rfl, rfl, rfl, rfl⟩

theorem step_answer {i : ι} {stored : Bool}
    (h : (pushMachine ι).step s (.answer i stored) = some t) :
    ∃ pending, s.calls i = some ⟨pending, none⟩ ∧
      t = { s with
        sink := if stored then s.sink ++ pending.map entryToDoc else s.sink
        calls := Function.update s.calls i (some ⟨pending, some stored⟩) } := by
  simp only [pushMachine] at h
  split at h
  · exact ⟨_, ‹_›, (Option.some.inj h).symm⟩
  · exact absurd h (by simp)

theorem step_resume {i : ι} (h : (pushMachine ι).step s (.resume i) = some t) :
    ∃ pending stored, s.calls i = some ⟨pending, some stored⟩ ∧
      t = { s with
        queue := s.queue.resume pending stored
        calls := Function.update s.calls i none } := by
  simp only [pushMachine] at h
  split at h
  · exact ⟨_, _, ‹_›, (Option.some.inj h).symm⟩
  · exact absurd h (by simp)

/-- Replacing the slot of caller `i` leaves the other snapshots alone. -/
theorem inFlight_update {calls : ι → Option PushCall} {i : ι} {c : Option PushCall}
    {e : EventDocument} :
    (∃ j c', Function.update calls i c j = some c' ∧ e ∈ entryEvents c'.pending) ↔
      (∃ c', c = some c' ∧ e ∈ entryEvents c'.pending) ∨
        ∃ j c', j ≠ i ∧ calls j = some c' ∧ e ∈ entryEvents c'.pending := by
  constructor
  · rintro ⟨j, c', hc, he⟩
    by_cases hj : j = i
    · subst hj
      rw [Function.update_self] at hc
      exact Or.inl ⟨c', hc, he⟩
    · rw [Function.update_of_ne hj] at hc
      exact Or.inr ⟨j, c', hj, hc, he⟩
  · rintro (⟨c', hc, he⟩ | ⟨j, c', hj, hc, he⟩)
    · exact ⟨i, c', by rw [Function.update_self, hc], he⟩
    · exact ⟨j, c', by rw [Function.update_of_ne hj, hc], he⟩

/-- The snapshots in flight, seen from one caller. -/
theorem inFlight_iff (i : ι) {e : EventDocument} :
    s.InFlight e ↔ (∃ c, s.calls i = some c ∧ e ∈ entryEvents c.pending) ∨
      ∃ j c, j ≠ i ∧ s.calls j = some c ∧ e ∈ entryEvents c.pending := by
  rw [InFlight, ← inFlight_update (c := s.calls i), Function.update_eq_self]

/-! ## The invariant -/

theorem accounted_init (h : (pushMachine ι).init s) : s.Accounted := by
  obtain ⟨⟨hasSink, hq⟩, hcalls, hlog⟩ := h
  constructor
  · rw [hq, hlog]
    rfl
  · intro e he
    rw [hq] at he
    exact absurd he List.not_mem_nil
  · rintro e ⟨i, c, hc, -⟩
    exact absurd hc (by simp [hcalls i])
  · intro i pending hc
    exact absurd hc (by simp [hcalls i])

theorem accounted_call (hs : s.Accounted) {i : ι} {events : List EventDocument} {reason : String}
    {now : ℕ → DateTime} (h : (pushMachine ι).step s (.call i events reason now) = some t) :
    t.Accounted := by
  obtain ⟨-, hsink, hlog, hqueue, hcalls⟩ := step_call h
  obtain ⟨hrec, hcase⟩ := s.queue.pushMany_spec events reason now
  have hold : ∀ e ∈ s.log, e ∈ t.log := fun e he ↦ hlog ▸ List.mem_append_left _ he
  have hnew : ∀ e ∈ entryEvents s.queue.unpersisted ++ events, e ∈ t.log := by
    intro e he
    rw [hlog]
    exact List.mem_append.mpr ((List.mem_append.mp he).imp_left (hs.buffered e))
  -- The events of the call are on record before its snapshot is taken.
  refine ⟨?_, ?_, ?_, ?_⟩
  · rw [hqueue, hrec, hlog, List.length_append, hs.recorded]
  · intro e he
    rw [hqueue] at he
    rcases hcase with ⟨-, hbuf⟩ | ⟨hbuf, -⟩
    · exact hnew e (hbuf ▸ he)
    · exact hold e (hs.buffered e (hbuf ▸ he))
  · intro e he
    rw [InFlight, hcalls, inFlight_update] at he
    rcases he with ⟨c, hc, he⟩ | ⟨j, c, -, hc, he⟩
    · rcases hcase with ⟨hnone, -⟩ | ⟨-, pending, hsome, hpend⟩
      · simp [hnone] at hc
      · obtain rfl : (⟨pending, none⟩ : PushCall) = c := by simpa [hsome] using hc
        exact hnew e (hpend ▸ he)
    · exact hold e (hs.inFlight e ⟨j, c, hc, he⟩)
  · intro j pending hc e he
    have hj : j ≠ i := by
      rintro rfl
      rw [hcalls, Function.update_self] at hc
      obtain ⟨p, -, hp⟩ := Option.map_eq_some_iff.mp hc
      exact absurd hp (by simp)
    rw [hcalls, Function.update_of_ne hj] at hc
    obtain ⟨d, hd, hde⟩ := hs.accepted j pending hc e he
    exact ⟨d, hsink ▸ hd, hde⟩

theorem accounted_answer (hs : s.Accounted) {i : ι} {stored : Bool}
    (h : (pushMachine ι).step s (.answer i stored) = some t) : t.Accounted := by
  obtain ⟨pending, hi, rfl⟩ := step_answer h
  refine ⟨hs.recorded, hs.buffered, ?_, ?_⟩
  · intro e he
    rw [InFlight, inFlight_update] at he
    rcases he with ⟨c, hc, he⟩ | ⟨j, c, -, hc, he⟩
    · obtain rfl := Option.some.inj hc
      exact hs.inFlight e ⟨i, _, hi, he⟩
    · exact hs.inFlight e ⟨j, c, hc, he⟩
  · intro j p hc e he
    by_cases hj : j = i
    · subst hj
      obtain ⟨rfl, rfl⟩ : pending = p ∧ stored = true := by simpa using hc
      exact stored_append.mpr (Or.inr he)
    · have hold := hs.accepted j p (by simpa [hj] using hc) e he
      cases stored with
      | true => exact stored_append.mpr (Or.inl hold)
      | false => exact hold

theorem accounted_resume (hs : s.Accounted) {i : ι}
    (h : (pushMachine ι).step s (.resume i) = some t) : t.Accounted := by
  obtain ⟨pending, stored, hi, rfl⟩ := step_resume h
  refine ⟨hs.recorded, ?_, ?_, ?_⟩
  · intro e he
    exact hs.inFlight e ⟨i, _, hi, (mem_entryEvents_resume.mp he).2⟩
  · intro e he
    rw [InFlight, inFlight_update] at he
    rcases he with ⟨c, hc, -⟩ | ⟨j, c, -, hc, he⟩
    · exact absurd hc (by simp)
    · exact hs.inFlight e ⟨j, c, hc, he⟩
  · intro j p hc
    have hj : j ≠ i := by
      rintro rfl
      exact absurd hc (by simp)
    exact hs.accepted j p (by simpa [hj] using hc)

theorem accounted_step (hs : s.Accounted) {a : PushAction ι}
    (h : (pushMachine ι).step s a = some t) : t.Accounted := by
  cases a with
  | call i events reason now => exact accounted_call hs h
  | answer i stored => exact accounted_answer hs h
  | resume i => exact accounted_resume hs h

/-! ## Conservation -/

/-- Starting a call loses nothing: what it counts goes to the buffer or into its snapshot. -/
theorem conserved_call (hs : s.Conserved) {i : ι} {events : List EventDocument} {reason : String}
    {now : ℕ → DateTime} (h : (pushMachine ι).step s (.call i events reason now) = some t) :
    t.Conserved := by
  obtain ⟨hfree, hsink, hlog, hqueue, hcalls⟩ := step_call h
  obtain ⟨-, hcase⟩ := s.queue.pushMany_spec events reason now
  have hput : ∀ e ∈ entryEvents s.queue.unpersisted ++ events,
      e ∈ entryEvents t.queue.unpersisted ∨ t.InFlight e := by
    intro e he
    rcases hcase with ⟨-, hbuf⟩ | ⟨-, pending, hsome, hpend⟩
    · exact Or.inl (by rwa [hqueue, hbuf])
    · refine Or.inr ?_
      rw [InFlight, hcalls, inFlight_update, hsome]
      exact Or.inl ⟨⟨pending, none⟩, rfl, hpend ▸ he⟩
  refine .of_held fun e he ↦ ?_
  rw [hlog, List.mem_append] at he
  rcases he with he | he
  · rcases hs.held e he with ⟨d, hd, hde⟩ | hb | hf
    · exact Or.inl ⟨d, hsink ▸ hd, hde⟩
    · exact Or.inr (hput e (List.mem_append_left _ hb))
    · refine Or.inr (Or.inr ?_)
      rw [InFlight, hcalls, inFlight_update]
      refine Or.inr (((inFlight_iff i).mp hf).resolve_left ?_)
      rintro ⟨c, hc, -⟩
      exact absurd hc (by simp [hfree])
  · exact Or.inr (hput e (List.mem_append_right _ he))

/-- The sink's answer loses nothing. -/
theorem conserved_answer (hs : s.Conserved) {i : ι} {stored : Bool}
    (h : (pushMachine ι).step s (.answer i stored) = some t) : t.Conserved := by
  obtain ⟨pending, hi, rfl⟩ := step_answer h
  refine .of_held fun e he ↦ ?_
  rcases hs.held e he with hst | hb | hf
  · cases stored with
    | true => exact Or.inl (stored_append.mpr (Or.inl hst))
    | false => exact Or.inl hst
  · exact Or.inr (Or.inl hb)
  · refine Or.inr (Or.inr ?_)
    rw [InFlight, inFlight_update]
    refine ((inFlight_iff i).mp hf).imp_left ?_
    rintro ⟨c, hc, he⟩
    obtain rfl := Option.some.inj (hi.symm.trans hc)
    exact ⟨_, rfl, he⟩

/-- **A resumption loses nothing exactly when it is covered.** -/
theorem conserved_resume_iff (hacc : s.Accounted) (hs : s.Conserved) {i : ι}
    (h : (pushMachine ι).step s (.resume i) = some t) : t.Conserved ↔ s.Covered (.resume i) := by
  obtain ⟨pending, stored, hi, rfl⟩ := step_resume h
  constructor
  · intro ht c hc e he
    obtain rfl := Option.some.inj (hi.symm.trans hc)
    rcases ht.held e (hacc.buffered e he) with hst | hb | hf
    · exact Or.inr (Or.inl hst)
    · exact Or.inl (mem_entryEvents_resume.mp hb).2
    · rw [InFlight, inFlight_update] at hf
      exact Or.inr (Or.inr (hf.resolve_left (by simp)))
  · intro hcov
    -- The call's own snapshot survives it: in the sink if accepted, else as the new buffer.
    have hown : ∀ e ∈ entryEvents pending, s.Stored e ∨
        e ∈ entryEvents (s.queue.resume pending stored).unpersisted := by
      intro e he
      cases stored with
      | true => exact Or.inl (hacc.accepted i pending hi e he)
      | false => exact Or.inr (mem_entryEvents_resume.mpr ⟨rfl, he⟩)
    have hother : ∀ e, (∃ j c, j ≠ i ∧ s.calls j = some c ∧ e ∈ entryEvents c.pending) →
        ∃ j c, Function.update s.calls i none j = some c ∧ e ∈ entryEvents c.pending :=
      fun e he ↦ inFlight_update.mpr (Or.inr he)
    refine .of_held fun e he ↦ ?_
    rcases hs.held e he with hst | hb | hf
    · exact Or.inl hst
    · rcases hcov _ hi e hb with hp | hst | ho
      · exact (hown e hp).imp_right Or.inl
      · exact Or.inl hst
      · exact Or.inr (Or.inr (hother e ho))
    · rcases (inFlight_iff i).mp hf with ⟨c, hc, hp⟩ | ho
      · obtain rfl := Option.some.inj (hi.symm.trans hc)
        exact (hown e hp).imp_right Or.inl
      · exact Or.inr (Or.inr (hother e ho))

theorem conserved_init (h : (pushMachine ι).init s) : s.Conserved :=
  .of_held fun e he ↦ absurd he (by simp [h.2.2])

end PushState

open PushState

variable [DecidableEq ι]

theorem always_conserved_iff {s t : PushState ι} {as : List (PushAction ι)}
    (hinit : (pushMachine ι).init s) (hrun : (pushMachine ι).exec s as = some t) :
    (pushMachine ι).Always Conserved s as ↔ (pushMachine ι).Along Covered s as := by
  refine Machine.always_iff_along (fun _ _ _ hu h ↦ accounted_step hu h) ?_
    (accounted_init hinit) (conserved_init hinit) hrun
  intro u a v hu hcons hstep
  cases a with
  | call i events reason now => exact iff_of_true (conserved_call hcons hstep) trivial
  | answer i stored => exact iff_of_true (conserved_answer hcons hstep) trivial
  | resume i => exact conserved_resume_iff hu hcons hstep

/-- **Dead-letter conservation.** In a run of any number of overlapping calls, `recorded` counts the
logged events, and each of them stays in the sink, in the buffer or in a snapshot in flight — at
every moment, exactly when every resumption is covered. -/
theorem conserved_iff_covered (s t : PushState ι) (as : List (PushAction ι))
    (hinit : (pushMachine ι).init s) (hrun : (pushMachine ι).exec s as = some t) :
    t.queue.recorded = t.log.length ∧
      ((pushMachine ι).Always Conserved s as ↔ (pushMachine ι).Along Covered s as) := by
  have hacc : t.Accounted :=
    Machine.exec_preserves (fun _ _ _ hu h ↦ accounted_step hu h) (accounted_init hinit) hrun
  exact ⟨hacc.recorded, always_conserved_iff hinit hrun⟩

/-! ## One call at a time -/

/-- A call starts only while no other is in flight. -/
def PushState.Exclusive (s : PushState ι) : PushAction ι → Prop
  | .call _ _ _ _ => ∀ i, s.calls i = none
  | _ => True

/-- The one call in flight has the whole buffer in its snapshot. -/
def PushState.Snapshot (s : PushState ι) : Prop :=
  ∀ i c, s.calls i = some c →
    (∀ j, j ≠ i → s.calls j = none) ∧
      ∀ e ∈ entryEvents s.queue.unpersisted, e ∈ entryEvents c.pending

omit [DecidableEq ι] in
theorem PushState.Snapshot.covered {s : PushState ι} (hs : s.Snapshot) (a : PushAction ι) :
    s.Covered a := by
  cases a with
  | resume i => exact fun c hc e he ↦ Or.inl ((hs i c hc).2 e he)
  | call i events reason now => trivial
  | answer i stored => trivial

theorem snapshot_step {s t : PushState ι} {a : PushAction ι} (hs : s.Snapshot)
    (hexcl : s.Exclusive a) (h : (pushMachine ι).step s a = some t) : t.Snapshot := by
  have hself : ∀ {i j : ι} {c : Option PushCall} {c' : PushCall},
      Function.update s.calls i c j = some c' → (∀ j, j ≠ i → s.calls j = none) → j = i := by
    intro i j c c' hc hnone
    by_contra hj
    rw [Function.update_of_ne hj, hnone j hj] at hc
    exact absurd hc (by simp)
  -- A call in flight is alone, so its snapshot still covers the buffer.
  cases a with
  | call i events reason now =>
    obtain ⟨-, -, -, hqueue, hcalls⟩ := step_call h
    obtain ⟨-, hcase⟩ := s.queue.pushMany_spec events reason now
    intro j c hc
    rw [hcalls] at hc
    obtain rfl := hself hc fun k _ ↦ hexcl k
    refine ⟨fun k hk ↦ by rw [hcalls, Function.update_of_ne hk, hexcl k], fun e he ↦ ?_⟩
    rw [Function.update_self] at hc
    rw [hqueue] at he
    rcases hcase with ⟨hnone, -⟩ | ⟨hbuf, pending, hsome, hpend⟩
    · exact absurd hc (by simp [hnone])
    · obtain rfl : (⟨pending, none⟩ : PushCall) = c := by simpa [hsome] using hc
      rw [hbuf] at he
      exact hpend ▸ List.mem_append_left events he
  | answer i stored =>
    obtain ⟨pending, hi, rfl⟩ := step_answer h
    obtain ⟨halone, hsub⟩ := hs i _ hi
    intro j c hc
    obtain rfl := hself hc halone
    refine ⟨fun k hk ↦ (Function.update_of_ne hk _ _).trans (halone k hk), fun e he ↦ ?_⟩
    obtain rfl : (⟨pending, some stored⟩ : PushCall) = c := by simpa using hc
    exact hsub e he
  | resume i =>
    obtain ⟨pending, stored, hi, rfl⟩ := step_resume h
    intro j c hc
    obtain rfl := hself hc (hs i _ hi).1
    exact absurd hc (by simp)

/-- One call at a time never loses an event. -/
theorem conserved_of_exclusive {s t : PushState ι} {as : List (PushAction ι)}
    (hinit : (pushMachine ι).init s) (hrun : (pushMachine ι).exec s as = some t)
    (hexcl : (pushMachine ι).Along Exclusive s as) : (pushMachine ι).Always Conserved s as := by
  have hidle : s.Snapshot := fun i c hc ↦ absurd hc (by simp [hinit.2.1 i])
  have hcov : (pushMachine ι).Along Covered s as :=
    hexcl.imp_of_invariant (fun _ _ _ hu hex hv ↦ snapshot_step hu hex hv)
      (fun _ a hu _ ↦ hu.covered a) hidle
  exact (always_conserved_iff hinit hrun).mpr hcov

/-! ## Two overlapping calls

Caller 0 takes its snapshot, caller 1 takes its own over the same empty buffer, the sink refuses
caller 0 and accepts caller 1. Whichever resumes second overwrites what the first left. -/

/-- An idle queue with a sink and no history. -/
def PushState.idle : PushState (Fin 2) := ⟨.new true, [], fun _ ↦ none, []⟩

/-- Two calls of one event each, up to the resumption of the refused one. -/
def overlappingPushes : List (PushAction (Fin 2)) :=
  [.call 0 [makeEvent "e1"] "down" fun _ ↦ .epoch, .call 1 [makeEvent "e2"] "down" fun _ ↦ .epoch,
    .answer 0 false, .resume 0]

/-- The rest of the schedule: the second call is accepted and clears the buffer. -/
def acceptedPush : List (PushAction (Fin 2)) := [.answer 1 true, .resume 1]

/-- Up to the refused call's resumption the schedule loses nothing. -/
theorem overlappingPushes_conserved :
    (pushMachine (Fin 2)).Always Conserved .idle overlappingPushes := by
  have hcov : (pushMachine (Fin 2)).Along Covered .idle overlappingPushes := by
    refine .step trivial rfl <| .step trivial rfl <| .step trivial rfl <|
      .step ?_ rfl Machine.along_nil
    exact fun _ _ e he ↦ absurd he List.not_mem_nil
  exact (conserved_iff_covered .idle _ overlappingPushes ⟨⟨true, rfl⟩, fun _ ↦ rfl, rfl⟩
    rfl).2.mpr hcov

/-- The event of the refused call is counted, no call is in flight, and the event is neither in the
sink nor in the buffer. -/
theorem acceptedPush_loses :
    ¬ ∀ (s t : PushState (Fin 2)) (as : List (PushAction (Fin 2))),
      (pushMachine (Fin 2)).init s → (pushMachine (Fin 2)).exec s as = some t → t.Conserved := by
  intro h
  have hlost := (h .idle _ (overlappingPushes ++ acceptedPush) ⟨⟨true, rfl⟩, fun _ ↦ rfl, rfl⟩
    rfl).settled ?_ (makeEvent "e1") List.mem_cons_self
  · rcases hlost with ⟨d, hd, hde⟩ | hb
    · obtain rfl := List.mem_singleton.mp hd
      exact absurd (congrArg EventRecord.eventId hde) (by decide)
    · exact absurd hb List.not_mem_nil
  · intro i
    match i with
    | 0 => rfl
    | 1 => rfl

end Acheron
