import Mathlib.Logic.Function.Basic
import Acheron.Lib.Runs
import Acheron.Storage.Mongo

/-!
# Replay

`POST /events/dlq/{event_id}/replay` reads a dead-letter record, rewrites its event, and deletes the
record: three calls to Mongo with no transaction around them. `replayStep` is one call taking one of
its steps; `replayMachine` runs any number of them against the same collections, together with the
bulk writes of the workers, the persists of the dead-letter queue, and crashes. The delete is two
steps, as other calls may take effect between the server's part of it and its answer.

## The commit point

The delete is safe when the event is in `events`, and the route takes a normal return of
`bulk_write` to mean that. `CommitsSafely` is what has to hold for it to be right, and
`last_copy_iff` says that nothing else is needed: neither a second replay, nor a re-recording of the
same id, nor a failure or a crash between the steps can lose the event.
-/

open Runs

namespace Acheron

/-- How a replay is answered. -/
inductive ReplayAnswer where
  /-- 200, status `replayed`. -/
  | replayed
  /-- 404. -/
  | notFound
  /-- 503. -/
  | unavailable
  /-- 500: the exception is not a `PyMongoError`. -/
  | serverError
  deriving DecidableEq

/-- The `except PyMongoError` of the route. -/
def ReplayAnswer.ofError : CallError → ReplayAnswer
  | .pyMongo => .unavailable
  | .foreign => .serverError

/-- The answer once `delete_dead_letter` has returned or raised. -/
def ReplayAnswer.ofDelete : Option CallError → ReplayAnswer
  | none => .replayed
  | some e => .ofError e

/-- Where a replay is. -/
inductive ReplayCall where
  | idle
  /-- In `get_dead_letter`. -/
  | reading (eventId : String)
  /-- In `bulk_write`, with the event rebuilt from the record. -/
  | rewriting (eventId : String) (event : EventDocument) (id_eq : event.eventId = eventId)
  /-- In `delete_dead_letter`, before the server has seen it. -/
  | deleting (eventId : String)
  /-- In `delete_dead_letter`, on the way back from the server. -/
  | deleted (eventId : String) (raised : Option CallError)
  | answered (eventId : String) (answer : ReplayAnswer)

/-- What may happen to a replay; an error comes with what the call did before it. -/
inductive ReplayAction where
  | begin (eventId : String)
  /-- The read answers, or raises. -/
  | read (raised : Option CallError)
  | rewrite (o : InsertOutcome)
  /-- The delete takes effect, or will raise having taken effect or not. -/
  | delete (raised : Option (CallError × Bool))
  /-- The delete returns or raises. -/
  | finish

/-- The event a replay is about to delete the record of, or has. -/
def ReplayCall.rewrote : ReplayCall → Option String
  | .deleting eventId | .deleted eventId _ => some eventId
  | _ => none

/-- `replay_dead_letter`, one step. A record that cannot be rebuilt is one whose read raises. -/
def replayStep (m : Mongo) : ReplayCall → ReplayAction → Option (Mongo × ReplayCall)
  | .idle, .begin eventId => some (m, .reading eventId)
  | .reading eventId, .read (some e) => some (m, .answered eventId (.ofError e))
  | .reading eventId, .read none =>
    match h : getDeadLetter m.deadLetters eventId with
    | none => some (m, .answered eventId .notFound)
    | some record =>
      some (m, .rewriting eventId record.event.rebuild
        (record.id_eq.symm.trans (Keyed.Collection.find?_eq_some.mp h).2))
  | .rewriting eventId event _, .rewrite o =>
    -- The record is deleted only after the write has come back without an error.
    let r := bulkWrite m.events [event] o
    match r.2 with
    | .ok () => some ({ m with events := r.1 }, .deleting eventId)
    | .error e => some ({ m with events := r.1 }, .answered eventId (.ofError e))
  | .deleting eventId, .delete none =>
    some ({ m with deadLetters := deleteDeadLetter m.deadLetters eventId }, .deleted eventId none)
  | .deleting eventId, .delete (some (e, took)) =>
    some (if took then { m with deadLetters := deleteDeadLetter m.deadLetters eventId } else m,
      .deleted eventId (some e))
  | .deleted eventId raised, .finish => some (m, .answered eventId (.ofDelete raised))
  | _, _ => none

/-- The two collections and the replays under way. -/
structure ReplayState (ρ : Type) where
  mongo : Mongo
  calls : ρ → ReplayCall
  /-- History: the ids that have been in `dead_letter`. -/
  persisted : List String

/-- What may happen next. -/
inductive SystemAction (ρ : Type) where
  | replay (r : ρ) (a : ReplayAction)
  /-- A worker's `bulk_write`. -/
  | bulkWrite (batch : List EventDocument) (o : InsertOutcome)
  /-- The dead-letter queue's `persist_dead_letters`. -/
  | persist (docs : List (DeadLetterDoc DateTime)) (o : InsertOutcome)
  /-- The process dies; the collections stay. -/
  | crash

variable {ρ : Type}

/-- Replays, workers and the dead-letter queue on one store. -/
def replayMachine (ρ : Type) [DecidableEq ρ] : Machine (ReplayState ρ) (SystemAction ρ) where
  init s := (∀ r, s.calls r = .idle) ∧ s.persisted = s.mongo.deadLetters.docs.map DeadLetterDoc.id
  step s
    | .replay r a =>
      (replayStep s.mongo (s.calls r) a).map fun t ↦
        { s with mongo := t.1, calls := Function.update s.calls r t.2 }
    | .bulkWrite batch o =>
      some { s with mongo := { s.mongo with events := (bulkWrite s.mongo.events batch o).1 } }
    | .persist docs o =>
      -- A persist that raises may have stored some of its records.
      let deadLetters := (persistDeadLetters s.mongo.deadLetters docs o).1
      some { s with
        mongo := { s.mongo with deadLetters := deadLetters }
        persisted := s.persisted ++ deadLetters.docs.map DeadLetterDoc.id }
    | .crash => some { s with calls := fun _ ↦ .idle }

namespace ReplayState

/-- The last copy is safe. -/
structure Kept (s : ReplayState ρ) : Prop where
  /-- What has been in `dead_letter` is in one of the collections. -/
  copies : ∀ k ∈ s.persisted, k ∈ s.mongo.deadLetters ∨ k ∈ s.mongo.events
  /-- An event answered `replayed` is in `events`. -/
  replayed : ∀ r k, s.calls r = .answered k .replayed → k ∈ s.mongo.events
  /-- A replay goes on to its delete only with the event in `events`. -/
  rewritten : ∀ r k, (s.calls r).rewrote = some k → k ∈ s.mongo.events

/-- **The condition on a rewrite.** If the server refuses the event with a write error that is not a
duplicate key, its id is in `events` already. -/
def CommitsSafely (s : ReplayState ρ) : SystemAction ρ → Prop
  | .replay r (.rewrite o) => ∀ k event h, s.calls r = .rewriting k event h →
      RefusalsCovered s.mongo.events (batchDocs [event]) o
  | _ => True

end ReplayState

open ReplayState

/-! ## One step of a replay -/

/-- The steps of a replay, told by their effect on the store. -/
inductive ReplayMove (m : Mongo) : ReplayCall → ReplayAction → Mongo → ReplayCall → Prop
  /-- Before the rewrite nothing changes and nothing is promised, and after the delete it is
  answered. -/
  | look {c : ReplayCall} {a : ReplayAction} (c' : ReplayCall) (hdel : c'.rewrote = none)
      (hdone : ∀ k, c' = .answered k .replayed → c = .deleted k none)
      (hlook : ∀ o, a ≠ .rewrite o) : ReplayMove m c a m c'
  /-- The rewrite: one bulk write, then on to the delete or to an error. -/
  | rewrite {k : String} {event : EventDocument} {hk : event.eventId = k} (o : InsertOutcome)
      (c' : ReplayCall) (hdone : ∀ k, c' ≠ .answered k .replayed)
      (hdel : ∀ k', c'.rewrote = some k' →
        k' = k ∧ (bulkWrite m.events [event] o).2 = .ok ())
      (hok : (bulkWrite m.events [event] o).2 = .ok () → c' = .deleting k) :
      ReplayMove m (.rewriting k event hk) (.rewrite o)
        { m with events := (bulkWrite m.events [event] o).1 } c'
  /-- The delete takes effect or not. -/
  | delete {k : String} (raised : Option (CallError × Bool)) (m' : Mongo) (e : Option CallError)
      (hm : m' = m ∨ m' = { m with deadLetters := deleteDeadLetter m.deadLetters k }) :
      ReplayMove m (.deleting k) (.delete raised) m' (.deleted k e)

theorem ofError_ne_replayed (e : CallError) : ReplayAnswer.ofError e ≠ .replayed := by
  cases e <;> decide

theorem ofDelete_eq_replayed {raised : Option CallError} :
    ReplayAnswer.ofDelete raised = .replayed ↔ raised = none := by
  cases raised with
  | none => exact iff_of_true rfl rfl
  | some e => exact iff_of_false (ofError_ne_replayed e) (by simp)

theorem move_of_replayStep {m m' : Mongo} {c c' : ReplayCall} {a : ReplayAction}
    (h : replayStep m c a = some (m', c')) : ReplayMove m c a m' c' := by
  have hinj {x : Mongo × ReplayCall} (hx : some x = some (m', c')) : m' = x.1 ∧ c' = x.2 := by
    obtain rfl := Option.some.inj hx
    exact ⟨rfl, rfl⟩
  unfold replayStep at h
  split at h
  · obtain ⟨rfl, rfl⟩ := hinj h
    exact .look _ rfl (by simp) (by simp)
  · obtain ⟨rfl, rfl⟩ := hinj h
    exact .look _ rfl (by simp [ofError_ne_replayed]) (by simp)
  · split at h
    · obtain ⟨rfl, rfl⟩ := hinj h
      exact .look _ rfl (by simp) (by simp)
    · obtain ⟨rfl, rfl⟩ := hinj h
      exact .look _ rfl (by simp) (by simp)
  · dsimp only at h
    split at h
    next hok =>
      obtain ⟨rfl, rfl⟩ := hinj h
      refine .rewrite _ _ (by simp) (fun k' hk' ↦ ⟨(Option.some.inj hk').symm, hok⟩) fun _ ↦ rfl
    next herror =>
      obtain ⟨rfl, rfl⟩ := hinj h
      exact .rewrite _ _ (by simp [ofError_ne_replayed]) (by simp [ReplayCall.rewrote])
        (by simp [herror])
  · obtain ⟨rfl, rfl⟩ := hinj h
    exact .delete _ _ _ (Or.inr rfl)
  · obtain ⟨rfl, rfl⟩ := hinj h
    refine .delete _ _ _ ?_
    split
    · exact Or.inr rfl
    · exact Or.inl rfl
  · obtain ⟨rfl, rfl⟩ := hinj h
    refine .look _ rfl (fun k hk ↦ ?_) (by simp)
    obtain ⟨rfl, hraised⟩ := ReplayCall.answered.inj hk
    rw [ofDelete_eq_replayed.mp hraised]
  · exact absurd h (by simp)

theorem mem_deleteDeadLetter {c : DeadLetters} {k l : String} :
    l ∈ deleteDeadLetter c k ↔ l ∈ c ∧ l ≠ k := Keyed.Collection.mem_erase

/-- A replay step removes nothing from `events`. -/
theorem ReplayMove.mem_events {m m' : Mongo} {c c' : ReplayCall} {a : ReplayAction}
    (h : ReplayMove m c a m' c') {k : String} (hk : k ∈ m.events) : k ∈ m'.events := by
  cases h with
  | look _ _ _ _ => exact hk
  | rewrite o _ _ _ _ => exact mem_bulkWrite_of_mem hk
  | delete _ _ _ hm => rcases hm with rfl | rfl <;> exact hk

/-- A replay step removes at most the record of its own event, and that in its delete. -/
theorem ReplayMove.mem_deadLetters {m m' : Mongo} {c c' : ReplayCall} {a : ReplayAction}
    (h : ReplayMove m c a m' c') {k : String} (hk : k ∈ m.deadLetters) :
    k ∈ m'.deadLetters ∨ c = .deleting k := by
  cases h with
  | look _ _ _ _ => exact Or.inl hk
  | rewrite _ _ _ _ _ => exact Or.inl hk
  | @delete l _ _ _ hm =>
    rcases hm with rfl | rfl
    · exact Or.inl hk
    · by_cases hl : k = l
      · exact Or.inr (hl ▸ rfl)
      · exact Or.inl (mem_deleteDeadLetter.mpr ⟨hk, hl⟩)

/-- A replay is answered `replayed` after its delete. -/
theorem ReplayMove.deleted_of_replayed {m m' : Mongo} {c : ReplayCall} {a : ReplayAction}
    {k : String} (h : ReplayMove m c a m' (.answered k .replayed)) : c = .deleted k none := by
  cases h with
  | look _ _ hdone _ => exact hdone k rfl
  | rewrite _ _ hdone _ _ => exact absurd rfl (hdone k)

/-- A replay that goes on to its delete has the event stored, if its rewrite commits safely. -/
theorem ReplayMove.stored_of_rewrote {m m' : Mongo} {c c' : ReplayCall} {a : ReplayAction}
    {k : String} (h : ReplayMove m c a m' c') (hc' : c'.rewrote = some k)
    (hsafe : ∀ o l event hl, a = .rewrite o → c = .rewriting l event hl →
      RefusalsCovered m.events (batchDocs [event]) o)
    (hold : c.rewrote = some k → k ∈ m.events) : k ∈ m'.events := by
  cases h with
  | look _ hdel _ _ => exact absurd (hdel.symm.trans hc') (by simp)
  | @rewrite l event hl o _ _ hdel _ =>
    obtain ⟨rfl, hok⟩ := hdel k hc'
    have hstored := (bulkWrite_stores_iff m.events [event] o).mpr (hsafe o k event hl rfl rfl) hok
    exact hl ▸ hstored event List.mem_cons_self
  | delete _ _ _ hm => rcases hm with rfl | rfl <;> exact hold hc'

/-! ## One step of the system -/

variable [DecidableEq ρ] {s t : ReplayState ρ}

theorem step_replay {r : ρ} {a : ReplayAction}
    (h : (replayMachine ρ).step s (.replay r a) = some t) :
    ∃ c, ReplayMove s.mongo (s.calls r) a t.mongo c ∧ t.calls = Function.update s.calls r c ∧
      t.persisted = s.persisted := by
  obtain ⟨⟨m, c⟩, hstep, rfl⟩ := Option.map_eq_some_iff.mp h
  exact ⟨c, move_of_replayStep hstep, rfl, rfl⟩

/-- A safe rewrite, and every other step of a replay, keeps the copies. -/
theorem kept_replay (hs : s.Kept) {r : ρ} {a : ReplayAction}
    (hsafe : s.CommitsSafely (.replay r a))
    (h : (replayMachine ρ).step s (.replay r a) = some t) : t.Kept := by
  obtain ⟨c, hmove, hcalls, hpersisted⟩ := step_replay h
  have hslot : ∀ q, q = r ∧ t.calls q = c ∨ t.calls q = s.calls q := by
    intro q
    rw [hcalls]
    by_cases hq : q = r
    · exact Or.inl ⟨hq, by rw [hq, Function.update_self]⟩
    · exact Or.inr (Function.update_of_ne hq _ _)
  refine ⟨?_, ?_, ?_⟩
  · intro k hk
    rcases hs.copies k (hpersisted ▸ hk) with hdead | hstored
    · refine (hmove.mem_deadLetters hdead).imp_right fun hdel ↦ ?_
      exact hmove.mem_events (hs.rewritten r k (by rw [hdel]; rfl))
    · exact Or.inr (hmove.mem_events hstored)
  · intro q k hq
    rcases hslot q with ⟨rfl, hc⟩ | hold
    · obtain rfl := hc.symm.trans hq
      exact hmove.mem_events (hs.rewritten q k (by rw [hmove.deleted_of_replayed]; rfl))
    · exact hmove.mem_events (hs.replayed q k (hold ▸ hq))
  · intro q k hq
    rcases hslot q with ⟨rfl, hc⟩ | hold
    · refine hmove.stored_of_rewrote (hc ▸ hq) ?_ (hs.rewritten q k)
      rintro o l event hl rfl hcall
      exact hsafe l event hl hcall
    · exact hmove.mem_events (hs.rewritten q k (hold ▸ hq))

/-- A rewrite that does not commit safely goes on to its delete without the event stored. -/
theorem commitsSafely_of_kept {r : ρ} {a : ReplayAction} (ht : t.Kept)
    (h : (replayMachine ρ).step s (.replay r a) = some t) : s.CommitsSafely (.replay r a) := by
  cases a with
  | begin _ | read _ | delete _ | finish => trivial
  | rewrite o =>
    intro k event hk hcall
    obtain ⟨c, hmove, hcalls, -⟩ := step_replay h
    have hrewritten : c = .deleting k → k ∈ t.mongo.events := fun hc ↦
      ht.rewritten r k (by rw [hcalls, Function.update_self, hc]; rfl)
    rw [hcall] at hmove
    generalize t.mongo = m at hmove hrewritten
    cases hmove with
    | look _ _ _ hlook => exact absurd rfl (hlook o)
    | rewrite _ _ _ _ hok =>
      rw [← bulkWrite_stores_iff]
      intro hdone e he
      obtain rfl := List.mem_singleton.mp he
      exact hk ▸ hrewritten (hok hdone)

/-- What the workers, the dead-letter queue and a crash do keeps the copies. -/
theorem kept_other (hs : s.Kept) {a : SystemAction ρ} (ha : ∀ r b, a ≠ .replay r b)
    (h : (replayMachine ρ).step s a = some t) : t.Kept := by
  cases a with
  | replay r b => exact absurd rfl (ha r b)
  | bulkWrite batch o =>
    obtain rfl := Option.some.inj h
    exact ⟨fun k hk ↦ (hs.copies k hk).imp_right mem_bulkWrite_of_mem,
      fun r k hr ↦ mem_bulkWrite_of_mem (hs.replayed r k hr),
      fun r k hr ↦ mem_bulkWrite_of_mem (hs.rewritten r k hr)⟩
  | persist docs o =>
    obtain rfl := Option.some.inj h
    refine ⟨fun k hk ↦ ?_, hs.replayed, hs.rewritten⟩
    rcases List.mem_append.mp hk with hold | hnew
    · exact (hs.copies k hold).imp_left mem_persistDeadLetters_of_mem
    · exact Or.inl hnew
  | crash =>
    obtain rfl := Option.some.inj h
    exact ⟨hs.copies, fun r k hr ↦ absurd hr (by simp),
      fun r k hr ↦ absurd hr (by simp [ReplayCall.rewrote])⟩

theorem kept_init (h : (replayMachine ρ).init s) : s.Kept := by
  obtain ⟨hidle, hpersisted⟩ := h
  refine ⟨fun k hk ↦ Or.inl (by rwa [hpersisted] at hk), fun r k hr ↦ ?_, fun r k hr ↦ ?_⟩
  · exact absurd hr (by simp [hidle r])
  · exact absurd hr (by simp [hidle r, ReplayCall.rewrote])

/-! ## Whole runs -/

theorem always_kept_iff {as : List (SystemAction ρ)} (hinit : (replayMachine ρ).init s)
    (hrun : (replayMachine ρ).exec s as = some t) :
    (replayMachine ρ).Always Kept s as ↔ (replayMachine ρ).Along CommitsSafely s as := by
  refine Machine.always_iff_along (I := fun _ ↦ True) (fun _ _ _ _ _ ↦ trivial) ?_ trivial
    (kept_init hinit) hrun
  intro u a v _ hu hstep
  cases a with
  | replay r b =>
    exact ⟨fun hv ↦ commitsSafely_of_kept hv hstep, fun hsafe ↦ kept_replay hu hsafe hstep⟩
  | bulkWrite _ _ | persist _ _ | crash =>
    exact iff_of_true (kept_other hu (by simp) hstep) trivial

/-- **Replay never destroys the last copy**, exactly when every rewrite commits safely. In that case
whatever answers `replayed` or removes a record does so with the event in `events` already. -/
theorem last_copy_iff (s t : ReplayState ρ) (as : List (SystemAction ρ))
    (hinit : (replayMachine ρ).init s) (hrun : (replayMachine ρ).exec s as = some t) :
    ((replayMachine ρ).Always Kept s as ↔ (replayMachine ρ).Along CommitsSafely s as) ∧
      ((replayMachine ρ).Along CommitsSafely s as → ∀ bs r a cs u v k,
        as = bs ++ .replay r a :: cs → (replayMachine ρ).exec s bs = some u →
        (replayMachine ρ).step u (.replay r a) = some v →
        v.calls r = .answered k .replayed ∨ k ∈ u.mongo.deadLetters ∧ k ∉ v.mongo.deadLetters →
          k ∈ u.mongo.events) := by
  have hiff := always_kept_iff hinit hrun
  refine ⟨hiff, fun hsafe bs r a cs u v k has hu hstep hends ↦ ?_⟩
  have hkept : u.Kept := hiff.mpr hsafe bs (.replay r a :: cs) u has hu
  obtain ⟨c, hmove, hcalls, -⟩ := step_replay hstep
  refine hkept.rewritten r k ?_
  rcases hends with hanswered | ⟨hthere, hgone⟩
  · rw [hcalls, Function.update_self] at hanswered
    subst hanswered
    rw [hmove.deleted_of_replayed]
    rfl
  · rw [(hmove.mem_deadLetters hthere).resolve_left hgone]
    rfl

/-! ## A refused rewrite -/

/-- One dead letter and nothing else. -/
def oneDeadLetter : ReplayState (Fin 1) where
  mongo := ⟨.empty, (persistDeadLetters .empty [entryToDoc ⟨makeEvent "e1", "boom", .epoch⟩]
    (.answered fun _ ↦ false)).1⟩
  calls := fun _ ↦ .idle
  persisted := ["e1"]

/-- A replay of it, its rewrite meeting `refused`. -/
def replayRun (refused : ℕ → Bool) : List (SystemAction (Fin 1)) :=
  [.replay 0 (.begin "e1"), .replay 0 (.read none), .replay 0 (.rewrite (.answered refused)),
    .replay 0 (.delete none), .replay 0 .finish]

/-- A healthy replay moves the event over. -/
theorem replayRun_keeps :
    (replayMachine (Fin 1)).Always Kept oneDeadLetter (replayRun fun _ ↦ false) := by
  have hsafe : (replayMachine (Fin 1)).Along CommitsSafely oneDeadLetter
      (replayRun fun _ ↦ false) := by
    refine .cons trivial fun _ _ ↦ .cons trivial fun _ _ ↦ .cons ?_ fun _ _ ↦ .cons trivial
      fun _ _ ↦ .cons trivial fun _ _ ↦ Machine.along_nil
    exact fun k event h _ i d _ hrefused ↦ absurd hrefused (by simp)
  exact (last_copy_iff oneDeadLetter _ (replayRun fun _ ↦ false) ⟨fun _ ↦ rfl, rfl⟩ rfl).1.mpr hsafe

/-- A rewrite refused with another write error returns normally, so the replay deletes the only
copy and is answered `replayed`. -/
theorem replayRun_destroys :
    ¬ ∀ (s t : ReplayState (Fin 1)) (as : List (SystemAction (Fin 1))),
      (replayMachine (Fin 1)).init s → (replayMachine (Fin 1)).exec s as = some t →
        ∀ k ∈ t.persisted, k ∈ t.mongo.deadLetters ∨ k ∈ t.mongo.events := by
  intro h
  have hcopies := h oneDeadLetter _ (replayRun fun _ ↦ true) ⟨fun _ ↦ rfl, rfl⟩ rfl
  rcases hcopies "e1" (by decide) with hdead | hstored
  · exact absurd hdead (by decide)
  · exact absurd hstored (by decide)

end Acheron
