import Acheron.Api.Replay
import Acheron.Queue.DeadLetter

/-!
# Cleared dead letters

A replay that is answered `replayed` has deleted its record. The dead-letter queue does not hear of
it: its buffer, and the snapshots of the pushes under way, may hold an entry of the same event, and
the next persist puts it back. `persist_dead_letters` takes an insert for a no-op when the event has
been recorded before, which it is only as long as the record is there.

How an entry comes to be held when its record can be replayed is the lost acknowledgement: the
insert stores the snapshot and then raises, so the queue keeps what is already stored.

`clearMachine` is the queue and its callers, the replays, and the collection between them. The
history variable `cleared` lists the ids answered `replayed` and not recorded since.

## From the delete on

A record may be back before the replay that has deleted it is answered: the server is done with the
delete, and a push is persisted, or recorded, while the answer is on its way. So what a record must
not come back after is the delete, and an id is `Gone` from then on, until it is recorded after the
answer. `cleared_stays_iff` says exactly when no id that is gone has a record, of which the ids
answered `replayed` are a part.
-/

open Runs

namespace Acheron

/-- The id a replay has just cleared, if it has. -/
def ReplayCall.clears : ReplayCall → List String
  | .answered eventId .replayed => [eventId]
  | _ => []

/-- The store, the dead-letter queue with its calls, and the replays. -/
structure ClearState (ι ρ : Type) where
  mongo : Mongo
  queue : DeadLetterQueue
  pushes : ι → Option PushCall
  replays : ρ → ReplayCall
  /-- History: the ids answered `replayed` and not recorded since. -/
  cleared : List String

/-- What may happen next. -/
inductive ClearAction (ι ρ : Type) where
  /-- Caller `i` calls `push_many`, which runs to its `await`. -/
  | push (i : ι) (events : List EventDocument) (reason : String) (now : ℕ → DateTime)
  /-- The `persist_dead_letters` of caller `i` meets its outcome. -/
  | persist (i : ι) (o : InsertOutcome)
  /-- Caller `i` resumes. -/
  | resume (i : ι)
  | replay (r : ρ) (a : ReplayAction)

/-- The dead-letter queue and the replays on one store, under every interleaving. -/
def clearMachine (ι ρ : Type) [DecidableEq ι] [DecidableEq ρ] :
    Machine (ClearState ι ρ) (ClearAction ι ρ) where
  init s := (∃ hasSink, s.queue = .new hasSink) ∧ (∀ i, s.pushes i = none) ∧
    (∀ r, s.replays r = .idle) ∧ s.cleared = []
  step s
    | .push i events reason now =>
      match s.pushes i with
      | some _ => none
      | none =>
        let r := s.queue.pushMany events reason now
        some { s with
          queue := r.1
          pushes := Function.update s.pushes i (r.2.map fun pending ↦ ⟨pending, none⟩)
          -- Retries exhausted again: the event may have a record from now on.
          cleared := s.cleared.filter fun k ↦ k ∉ events.map EventRecord.eventId }
    | .persist i o =>
      match s.pushes i with
      | some ⟨pending, none⟩ =>
        let r := persistDeadLetters s.mongo.deadLetters (pending.map entryToDoc) o
        some { s with
          mongo := { s.mongo with deadLetters := r.1 }
          pushes := Function.update s.pushes i (some ⟨pending, some r.2.isOk⟩) }
      | _ => none
    | .resume i =>
      match s.pushes i with
      | some ⟨pending, some stored⟩ =>
        some { s with
          queue := s.queue.resume pending stored
          pushes := Function.update s.pushes i none }
      | _ => none
    | .replay r a =>
      (replayStep s.mongo (s.replays r) a).map fun t ↦
        { s with
          mongo := t.1
          replays := Function.update s.replays r t.2
          cleared := t.2.clears ++ s.cleared }

namespace ClearState

variable {ι ρ : Type}

/-- No cleared event has a record. -/
def StaysCleared (s : ClearState ι ρ) : Prop := ∀ k ∈ s.cleared, k ∉ s.mongo.deadLetters

/-- The delete of a replay has taken effect, and its answer is due. -/
def Due (s : ClearState ι ρ) (k : String) : Prop := ∃ r, s.replays r = .deleted k none

/-- A replay has deleted the record, and the event was not recorded since that was answered. -/
def Gone (s : ClearState ι ρ) (k : String) : Prop := k ∈ s.cleared ∨ s.Due k

/-- No event that is gone has a record. -/
def StaysGone (s : ClearState ι ρ) : Prop := ∀ k, s.Gone k → k ∉ s.mongo.deadLetters

/-- **The condition on a persist.** No entry that takes effect is of an event that is gone. -/
def Harmless (s : ClearState ι ρ) : ClearAction ι ρ → Prop
  | .persist i o => ∀ pending, s.pushes i = some ⟨pending, none⟩ → ∀ j entry,
      pending[j]? = some entry → o.blocked j = false → ¬ s.Gone entry.event.eventId
  | _ => True

/-- The queue holds an entry of the event: in the buffer, or in the snapshot of a push whose persist
has not succeeded. -/
def Holds (s : ClearState ι ρ) (k : String) : Prop :=
  (∃ e ∈ entryEvents s.queue.unpersisted, e.eventId = k) ∨
    ∃ i c, s.pushes i = some c ∧ c.answer ≠ some true ∧ ∃ e ∈ entryEvents c.pending, e.eventId = k

/-- **The cause.** When the delete of a replay takes effect, the queue holds no entry of its event;
and until it is answered, the event is not recorded. -/
def Released (s : ClearState ι ρ) : ClearAction ι ρ → Prop
  | .replay r (.delete none) => ∀ k, s.replays r = .deleting k → ¬ s.Holds k
  | .push _ events _ _ => ∀ e ∈ events, ¬ s.Due e.eventId
  | _ => True

/-- The queue holds no entry of an event that is gone. -/
def NoneHeld (s : ClearState ι ρ) : Prop := ∀ k, s.Gone k → ¬ s.Holds k

end ClearState

open ClearState

/-! ## One step of a replay -/

theorem ReplayCall.mem_clears {c : ReplayCall} {k : String} :
    k ∈ c.clears ↔ c = .answered k .replayed := by
  unfold ReplayCall.clears
  split
  · simp [eq_comm]
  · rename_i hne
    refine iff_of_false List.not_mem_nil ?_
    rintro rfl
    exact hne k rfl

/-- A delete that is going to return has removed the record. -/
theorem delete_of_deleted {m m' : Mongo} {c : ReplayCall} {a : ReplayAction} {k : String}
    (h : replayStep m c a = some (m', .deleted k none)) :
    a = .delete none ∧ c = .deleting k ∧
      m' = { m with deadLetters := deleteDeadLetter m.deadLetters k } := by
  unfold replayStep at h
  split at h
  · simp at h
  · simp at h
  · split at h <;> simp at h
  · dsimp only at h
    split at h <;> simp at h
  · obtain ⟨rfl, hcall⟩ := Prod.mk.inj (Option.some.inj h)
    obtain ⟨rfl, -⟩ := ReplayCall.deleted.inj hcall
    exact ⟨rfl, rfl, rfl⟩
  · simp at h
  · simp at h
  · simp at h

/-- The answer finds the store as it is. -/
theorem finish_of_replayed {m m' : Mongo} {c : ReplayCall} {a : ReplayAction} {k : String}
    (h : replayStep m c a = some (m', .answered k .replayed)) : c = .deleted k none ∧ m' = m := by
  have hmove := move_of_replayStep h
  have hdeleted := hmove.deleted_of_replayed
  refine ⟨hdeleted, ?_⟩
  subst hdeleted
  cases hmove with
  | look _ _ _ _ => rfl

/-- A replay adds no record. -/
theorem ReplayMove.mem_deadLetters_of_mem {m m' : Mongo} {c c' : ReplayCall} {a : ReplayAction}
    (h : ReplayMove m c a m' c') {k : String} (hk : k ∈ m'.deadLetters) : k ∈ m.deadLetters := by
  induction h with
  | look _ _ _ _ | rewrite _ _ _ _ _ => exact hk
  | delete _ _ _ hm =>
    rcases hm with rfl | rfl
    · exact hk
    · exact (mem_deleteDeadLetter.mp hk).1

/-! ## One step -/

variable {ι ρ : Type} [DecidableEq ι] [DecidableEq ρ] {s t : ClearState ι ρ}

/-- The steps. -/
inductive ClearMove (s : ClearState ι ρ) : ClearAction ι ρ → ClearState ι ρ → Prop
  | push {i : ι} {events : List EventDocument} {reason : String} {now : ℕ → DateTime} :
      ClearMove s (.push i events reason now) { s with
        queue := (s.queue.pushMany events reason now).1
        pushes := Function.update s.pushes i
          ((s.queue.pushMany events reason now).2.map fun pending ↦ ⟨pending, none⟩)
        cleared := s.cleared.filter fun k ↦ k ∉ events.map EventRecord.eventId }
  | persist {i : ι} {o : InsertOutcome} {pending : List DLQEntry}
      (hcall : s.pushes i = some ⟨pending, none⟩) :
      ClearMove s (.persist i o) { s with
        mongo := { s.mongo with deadLetters :=
          (persistDeadLetters s.mongo.deadLetters (pending.map entryToDoc) o).1 }
        pushes := Function.update s.pushes i (some ⟨pending,
          some (persistDeadLetters s.mongo.deadLetters (pending.map entryToDoc) o).2.isOk⟩) }
  | resume {i : ι} {pending : List DLQEntry} {stored : Bool}
      (hcall : s.pushes i = some ⟨pending, some stored⟩) :
      ClearMove s (.resume i) { s with
        queue := s.queue.resume pending stored
        pushes := Function.update s.pushes i none }
  | replay {r : ρ} {a : ReplayAction} {m : Mongo} {c : ReplayCall}
      (hstep : replayStep s.mongo (s.replays r) a = some (m, c)) :
      ClearMove s (.replay r a) { s with
        mongo := m
        replays := Function.update s.replays r c
        cleared := c.clears ++ s.cleared }

theorem move_of_clearStep {a : ClearAction ι ρ} (h : (clearMachine ι ρ).step s a = some t) :
    ClearMove s a t := by
  cases a with
  | push i events reason now =>
    simp only [clearMachine] at h
    split at h
    case h_1 => exact absurd h (by simp)
    case h_2 => exact Option.some.inj h ▸ .push
  | persist i o =>
    simp only [clearMachine] at h
    split at h
    case h_1 hcall => exact Option.some.inj h ▸ .persist hcall
    case h_2 => exact absurd h (by simp)
  | resume i =>
    simp only [clearMachine] at h
    split at h
    case h_1 hcall => exact Option.some.inj h ▸ .resume hcall
    case h_2 => exact absurd h (by simp)
  | replay r b =>
    obtain ⟨⟨m, c⟩, hstep, rfl⟩ := Option.map_eq_some_iff.mp h
    exact .replay hstep

omit [DecidableEq ρ] in
/-- **A persist brings an event back exactly when an entry of it takes effect.** -/
theorem staysGone_persist_iff (hs : s.StaysGone) {i : ι} {o : InsertOutcome}
    {pending : List DLQEntry} {stored : Bool} (hcall : s.pushes i = some ⟨pending, none⟩) :
    StaysGone { s with
      mongo := { s.mongo with deadLetters :=
        (persistDeadLetters s.mongo.deadLetters (pending.map entryToDoc) o).1 }
      pushes := Function.update s.pushes i (some ⟨pending, some stored⟩) } ↔
    s.Harmless (.persist i o) := by
  constructor
  · intro ht pending' hcall' j entry hj hblocked hk
    obtain rfl : pending = pending' := by simpa [hcall] using hcall'
    refine ht _ hk (mem_persistDeadLetters.mpr (Or.inr ⟨j, entryToDoc entry, ?_, hblocked, rfl⟩))
    rw [List.getElem?_map, hj, Option.map_some]
  · intro hharmless k hk hthere
    rcases mem_persistDeadLetters.mp hthere with hold | ⟨j, d, hj, hblocked, rfl⟩
    · exact hs k hk hold
    · rw [List.getElem?_map] at hj
      obtain ⟨entry, hentry, rfl⟩ := Option.map_eq_some_iff.mp hj
      exact hharmless pending hcall j entry hentry hblocked hk

omit [DecidableEq ι] in
/-- What is gone after a step of a replay is what was gone, or what it has just deleted. -/
theorem gone_replay {r : ρ} {a : ReplayAction} {m : Mongo} {c : ReplayCall} {k : String}
    (hstep : replayStep s.mongo (s.replays r) a = some (m, c))
    (hk : Gone { s with
      mongo := m
      replays := Function.update s.replays r c
      cleared := c.clears ++ s.cleared } k) :
    s.Gone k ∨ a = .delete none ∧ s.replays r = .deleting k ∧
      m = { s.mongo with deadLetters := deleteDeadLetter s.mongo.deadLetters k } := by
  rcases hk with hcleared | ⟨q, hq⟩
  · rcases List.mem_append.mp hcleared with hnew | hold
    · -- An event is cleared by the answer to a delete, which was due.
      obtain rfl := ReplayCall.mem_clears.mp hnew
      exact Or.inl (Or.inr ⟨r, (finish_of_replayed hstep).1⟩)
    · exact Or.inl (Or.inl hold)
  · dsimp only at hq
    by_cases hqr : q = r
    · subst hqr
      rw [Function.update_self] at hq
      subst hq
      exact Or.inr (delete_of_deleted hstep)
    · rw [Function.update_of_ne hqr] at hq
      exact Or.inl (Or.inr ⟨q, hq⟩)

omit [DecidableEq ι] [DecidableEq ρ] in
/-- A push only takes from what is gone. -/
theorem gone_push {p : String → Bool} {queue : DeadLetterQueue} {pushes : ι → Option PushCall}
    {k : String} (hk : Gone { s with
      queue := queue
      pushes := pushes
      cleared := s.cleared.filter p } k) : s.Gone k :=
  hk.imp_left fun hcleared ↦ (List.mem_filter.mp hcleared).1

/-- **One step.** A step brings an event back exactly when it is a persist of an entry of it. -/
theorem staysGone_move_iff {a : ClearAction ι ρ} (hs : s.StaysGone) (h : ClearMove s a t) :
    t.StaysGone ↔ s.Harmless a := by
  induction h with
  | push => exact iff_of_true (fun k hk ↦ hs k (gone_push hk)) trivial
  | persist hcall => exact staysGone_persist_iff hs hcall
  | resume _ => exact iff_of_true hs trivial
  | replay hstep =>
    refine iff_of_true (fun k hk hthere ↦ ?_) trivial
    -- The id it has deleted has lost its record; the others had none, and a replay adds none.
    rcases gone_replay hstep hk with hold | ⟨-, -, rfl⟩
    · exact hs k hold ((move_of_replayStep hstep).mem_deadLetters_of_mem hthere)
    · exact (mem_deleteDeadLetter.mp hthere).2 rfl

/-! ## What the queue holds -/

/-- A snapshot of one call is its own, or that of a call that has not changed. -/
theorem snapshot_of_update {pushes : ι → Option PushCall} {i : ι} {p : Option PushCall} {k : String}
    (h : ∃ j c, Function.update pushes i p j = some c ∧ c.answer ≠ some true ∧
      ∃ e ∈ entryEvents c.pending, e.eventId = k) :
    (∃ c, p = some c ∧ c.answer ≠ some true ∧ ∃ e ∈ entryEvents c.pending, e.eventId = k) ∨
      ∃ j c, pushes j = some c ∧ c.answer ≠ some true ∧
        ∃ e ∈ entryEvents c.pending, e.eventId = k := by
  obtain ⟨j, c, hj, hheld⟩ := h
  by_cases hji : j = i
  · subst hji
    rw [Function.update_self] at hj
    exact Or.inl ⟨c, hj, hheld⟩
  · rw [Function.update_of_ne hji] at hj
    exact Or.inr ⟨j, c, hj, hheld⟩

/-- The events a step records. -/
def ClearAction.records : ClearAction ι ρ → List String
  | .push _ events _ _ => events.map EventRecord.eventId
  | _ => []

/-- **A step holds what the queue held, and the events it records.** -/
theorem holds_move {a : ClearAction ι ρ} (h : ClearMove s a t) {k : String} (hk : t.Holds k) :
    s.Holds k ∨ k ∈ a.records := by
  induction h with
  | @push i events reason now =>
    have happend {e : EventDocument} (he : e ∈ entryEvents s.queue.unpersisted ++ events)
        (hid : e.eventId = k) : s.Holds k ∨ k ∈ events.map EventRecord.eventId := by
      rcases List.mem_append.mp he with hold | hnew
      · exact Or.inl (Or.inl ⟨e, hold, hid⟩)
      · exact Or.inr (List.mem_map.mpr ⟨e, hnew, hid⟩)
    rcases hk with ⟨e, he, hid⟩ | hsnapshot
    · rcases (s.queue.pushMany_spec events reason now).2 with ⟨-, hbuffer⟩ | ⟨hsame, -⟩
      · exact happend (hbuffer ▸ he) hid
      · dsimp only at he
        rw [hsame] at he
        exact Or.inl (Or.inl ⟨e, he, hid⟩)
    · rcases snapshot_of_update hsnapshot with ⟨c, hc, -, e, he, hid⟩ | hother
      · obtain ⟨pending, hpending, rfl⟩ := Option.map_eq_some_iff.mp hc
        have hevents := (DeadLetterQueue.pushMany_eq_some hpending).2
        exact happend (hevents ▸ he) hid
      · exact Or.inl (Or.inr hother)
  | persist hcall =>
    rcases hk with hbuffer | hsnapshot
    · exact Or.inl (Or.inl hbuffer)
    · rcases snapshot_of_update hsnapshot with ⟨c, hc, -, hheld⟩ | hother
      · obtain rfl := Option.some.inj hc
        exact Or.inl (Or.inr ⟨_, _, hcall, by simp, hheld⟩)
      · exact Or.inl (Or.inr hother)
  | resume hcall =>
    -- What a resumption puts into the buffer was held by its snapshot.
    rcases hk with ⟨e, he, hid⟩ | hsnapshot
    · obtain ⟨rfl, hpending⟩ := PushState.mem_entryEvents_resume.mp he
      exact Or.inl (Or.inr ⟨_, _, hcall, by simp, e, hpending, hid⟩)
    · rcases snapshot_of_update hsnapshot with ⟨c, hc, -⟩ | hother
      · exact absurd hc (by simp)
      · exact Or.inl (Or.inr hother)
  | replay _ => exact Or.inl hk

/-- **If a replay deletes only what the queue does not hold, and nothing is recorded before its
answer, the queue holds no event that is gone.** -/
theorem noneHeld_move {a : ClearAction ι ρ} (hs : s.NoneHeld) (ha : s.Released a)
    (h : ClearMove s a t) : t.NoneHeld := by
  intro k hk hholds
  have hbefore := holds_move h hholds
  induction h with
  | push =>
    have hnot : ∀ events : List EventDocument, (∀ e ∈ events, ¬ s.Due e.eventId) →
        s.Due k → k ∉ events.map EventRecord.eventId := by
      rintro events hdue hk' hmem
      obtain ⟨e, he, rfl⟩ := List.mem_map.mp hmem
      exact hdue e he hk'
    refine hs k (gone_push hk) (hbefore.resolve_right ?_)
    rcases hk with hcleared | hdue
    · exact of_decide_eq_true (List.mem_filter.mp hcleared).2
    · exact hnot _ ha hdue
  | persist _ | resume _ => exact hs k hk (hbefore.resolve_right List.not_mem_nil)
  | replay hstep =>
    -- An event goes with this very delete, where the condition speaks of it, or was gone before.
    rcases gone_replay hstep hk with hold | ⟨rfl, hdeleting, -⟩
    · exact hs k hold (hbefore.resolve_right List.not_mem_nil)
    · exact ha k hdeleting (hbefore.resolve_right List.not_mem_nil)

omit [DecidableEq ι] [DecidableEq ρ] in
/-- A persist of what the queue holds is then harmless. -/
theorem harmless_of_noneHeld (hs : s.NoneHeld) (a : ClearAction ι ρ) : s.Harmless a := by
  match a with
  | .push _ _ _ _ | .resume _ | .replay _ _ => trivial
  | .persist i o =>
    intro pending hcall j entry hj _ hk
    refine hs _ hk (Or.inr ⟨i, _, hcall, by simp, entry.event, ?_, rfl⟩)
    exact List.mem_map_of_mem (List.mem_of_getElem? hj)

/-! ## Whole runs -/

/-- **A replayed dead letter stays cleared** in every run in which no persist that takes effect
carries an entry of an event that is gone, and from its delete on it stays gone in no other. It is
so in every run in which, whenever the delete of a replay takes effect, the queue holds no entry of
its event, and the event is not recorded again before the answer. -/
theorem cleared_stays_iff (ι ρ : Type) [DecidableEq ι] [DecidableEq ρ] (s t : ClearState ι ρ)
    (as : List (ClearAction ι ρ)) (hinit : (clearMachine ι ρ).init s)
    (hrun : (clearMachine ι ρ).exec s as = some t) :
    ((clearMachine ι ρ).Along Harmless s as → (clearMachine ι ρ).Always StaysCleared s as) ∧
      ((clearMachine ι ρ).Always StaysGone s as ↔ (clearMachine ι ρ).Along Harmless s as) ∧
      ((clearMachine ι ρ).Along Released s as → (clearMachine ι ρ).Along Harmless s as) := by
  obtain ⟨-, -, hidle, hcleared⟩ := hinit
  have hnot : ∀ k, ¬ s.Gone k := by
    rintro k (hk | ⟨r, hr⟩)
    · simp [hcleared] at hk
    · simp [hidle r] at hr
  have hstart : s.StaysGone := fun k hk ↦ absurd hk (hnot k)
  have hnone : s.NoneHeld := fun k hk ↦ absurd hk (hnot k)
  -- Each persist decides for itself, so no invariant is needed for the exact condition.
  have hiff : (clearMachine ι ρ).Always StaysGone s as ↔ (clearMachine ι ρ).Along Harmless s as :=
    Machine.always_iff_along (I := fun _ ↦ True) (fun _ _ _ _ _ ↦ trivial)
      (fun _ _ _ _ hu hstep ↦ staysGone_move_iff hu (move_of_clearStep hstep)) trivial hstart hrun
  refine ⟨fun hharmless bs cs u has hu k hk ↦ hiff.mpr hharmless bs cs u has hu k (Or.inl hk), hiff,
    fun hreleased ↦ ?_⟩
  exact hreleased.imp_of_invariant (P := NoneHeld)
    (fun _ _ _ hu ha hstep ↦ noneHeld_move hu ha (move_of_clearStep hstep))
    (fun _ a hu _ ↦ harmless_of_noneHeld hu a) hnone

/-- Nothing recorded and nothing stored. -/
def ClearState.fresh : ClearState (Fin 1) (Fin 1) :=
  ⟨⟨.empty, .empty⟩, .new true, fun _ ↦ none, fun _ ↦ .idle, []⟩

/-- One event exhausts its retries and is replayed; then another does. The first persist meets
`o`. -/
def clearRun (o : InsertOutcome) : List (ClearAction (Fin 1) (Fin 1)) :=
  [.push 0 [makeEvent "e1"] "boom" fun _ ↦ .epoch, .persist 0 o, .resume 0,
    .replay 0 (.begin "e1"), .replay 0 (.read none), .replay 0 (.rewrite (.answered fun _ ↦ false)),
    .replay 0 (.delete none), .replay 0 .finish, .push 0 [makeEvent "e2"] "boom" fun _ ↦ .epoch,
    .persist 0 (.answered fun _ ↦ false)]

/-- With the acknowledgement of the first persist, the queue holds nothing when the record is
deleted. -/
theorem clearRun_stays :
    (clearMachine (Fin 1) (Fin 1)).Always StaysCleared .fresh
      (clearRun (.answered fun _ ↦ false)) := by
  obtain ⟨hstays, -, hharmless⟩ := cleared_stays_iff (Fin 1) (Fin 1) .fresh _
    (clearRun (.answered fun _ ↦ false)) ⟨⟨true, rfl⟩, fun _ ↦ rfl, fun _ ↦ rfl, rfl⟩ rfl
  refine hstays (hharmless ?_)
  refine .step ?_ rfl <| .step trivial rfl <| .step trivial rfl <| .step trivial rfl <|
    .step trivial rfl <| .step trivial rfl <| .step ?_ rfl <| .step trivial rfl <|
    .step ?_ rfl <| .step trivial rfl Machine.along_nil
  · rintro e - ⟨r, hr⟩
    exact absurd hr (by simp [ClearState.fresh])
  · rintro k - (⟨e, he, -⟩ | ⟨i, c, hi, -⟩)
    · exact absurd he List.not_mem_nil
    · rw [Fin.fin_one_eq_zero i] at hi
      exact absurd hi (by simp)
  · rintro e - ⟨r, hr⟩
    rw [Fin.fin_one_eq_zero r] at hr
    exact absurd hr (by simp)

/-- The first persist stores its record, and its acknowledgement is lost. -/
theorem lostAcknowledgement_brings_back :
    ¬ ∀ (s t : ClearState (Fin 1) (Fin 1)) (as : List (ClearAction (Fin 1) (Fin 1))),
      (clearMachine (Fin 1) (Fin 1)).init s → (clearMachine (Fin 1) (Fin 1)).exec s as = some t →
        ∀ k ∈ t.cleared, k ∉ t.mongo.deadLetters := by
  intro h
  refine h .fresh _ (clearRun (.raised .pyMongo fun _ ↦ true))
    ⟨⟨true, rfl⟩, fun _ ↦ rfl, fun _ ↦ rfl, rfl⟩ rfl "e1" ?_ ?_
  · decide
  · decide

end Acheron
