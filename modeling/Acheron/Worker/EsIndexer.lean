import Acheron.Lib.Runs
import Acheron.Storage.Elastic
import Acheron.Storage.Mongo

/-!
# The Elasticsearch indexer

`EsIndexer._run` reads a batch of events from the outbox, sends it to `bulk_index`, and marks the
events it read: three awaits on two stores, with writers at work on one of them and a crash possible
between any two steps. `indexerMachine` is that system. A pass that raises changes nothing but the
failure counter; the events stay in the outbox and are read again.

## Marked implies indexed

The marks are safe when the index holds every event of the pass by the time the pass goes on to
mark. A transport failure ends the pass, but a *partial* success does not: `bulk_index` logs the
documents the server refused and returns normally, and the pass goes on to mark them as well.
`marked_indexed_iff` says that this is the only way to mark an event that is not indexed.
-/

open Runs

namespace Acheron

/-- The counters of `EsIndexer.metrics`. -/
structure IndexerMetrics where
  eventsIndexed : ℕ
  indexFailures : ℕ

/-- Where the process is, as far as the mirror is concerned. -/
inductive IndexerPhase where
  /-- In the `ensure_mapping` of the startup: asking, or creating the index. -/
  | starting (creating : Bool)
  /-- Between passes. -/
  | idle
  /-- In the `ensure_mapping` of a `bulk_index`. -/
  | ensuring (events : List EventDocument) (creating : Bool)
  /-- In the `async_bulk`. -/
  | indexing (events : List EventDocument)
  /-- In `mark_indexed`. -/
  | marking (eventIds : List String)

/-- The two stores and the indexer between them. -/
structure IndexerState where
  events : Events
  server : EsServer
  /-- `_mapping_ready`. -/
  mappingReady : Bool
  phase : IndexerPhase
  metrics : IndexerMetrics

/-- What may happen next. -/
inductive IndexerAction where
  /-- A worker or a replay writes. -/
  | write (batch : List EventDocument) (o : InsertOutcome)
  /-- `fetch_unindexed` answers, ties broken by `tie`. -/
  | fetch (tie : String → ℕ)
  /-- `indices.exists` answers, or raises. -/
  | lookup (raised : Bool)
  /-- `indices.create` answers, or raises having taken effect or not. -/
  | create (raised : Option Bool)
  /-- `async_bulk` meets its outcome. -/
  | bulk (o : BulkOutcome)
  /-- `mark_indexed` answers, or raises having marked some of the events. -/
  | mark (raised : Option (String → Bool))
  /-- The process dies and starts again; the stores stay. -/
  | crash
  /-- The index is lost. -/
  | lose

namespace IndexerState

/-- An exception: the startup goes on without the mapping, a pass ends and is counted. -/
def failed (s : IndexerState) : IndexerState :=
  match s.phase with
  | .starting _ => { s with phase := .idle }
  | _ => { s with phase := .idle, metrics := { s.metrics with
      indexFailures := s.metrics.indexFailures + 1 } }

/-- The actions are built, and `async_bulk` is called; an event that cannot be dumped ends the
pass. -/
def sending (s : IndexerState) (events : List EventDocument) : IndexerState :=
  if events.all EventRecord.dumps then { s with phase := .indexing events } else s.failed

/-- `ensure_mapping` has succeeded. -/
def mapped (s : IndexerState) : IndexerState :=
  match s.phase with
  | .ensuring events _ => { s with mappingReady := true }.sending events
  | _ => { s with mappingReady := true, phase := .idle }

/-- `indices.exists` has said no. -/
def missing (s : IndexerState) : IndexerState :=
  { s with phase :=
      match s.phase with
      | .starting _ => .starting true
      | .ensuring events _ => .ensuring events true
      | phase => phase }

end IndexerState

/-- The indexer, its stores, and the writers, with batches of up to `batchSize`. -/
def indexerMachine (batchSize : ℕ) : Machine IndexerState IndexerAction where
  init s := (∀ d ∈ s.events.docs, d.esIndexed = true → s.server.Has d.id) ∧
    s.mappingReady = false ∧ s.phase = .starting false
  step s
    | .write batch o => some { s with events := (bulkWrite s.events batch o).1 }
    | .fetch tie =>
      match s.phase with
      | .idle =>
        match rebuildAll (fetchUnindexed s.events tie batchSize) with
        | none => some s.failed
        | some events =>
          if events.isEmpty then some s
          else if s.mappingReady then some (s.sending events)
          else some { s with phase := .ensuring events false }
      | _ => none
    -- The mapping is looked up at startup, and before a pass that does not know it is there.
    | .lookup raised =>
      match s.phase with
      | .starting false | .ensuring _ false =>
        if raised then some s.failed
        else if s.server.isSome then some s.mapped else some s.missing
      | _ => none
    | .create raised =>
      match s.phase with
      | .starting true | .ensuring _ true =>
        -- The index may have been created although the call raised.
        match s.server.create, raised with
        | none, _ | some _, some false => some s.failed
        | some server, some true => some { s with server := server }.failed
        | some server, none => some { s with server := server }.mapped
      | _ => none
    | .bulk o =>
      match s.phase with
      | .indexing events =>
        let s' := { s with server := s.server.afterBulk events o }
        match o with
        -- `bulk_index` logs the refused documents and returns.
        | .answered _ => some { s' with phase := .marking (events.map EventRecord.eventId) }
        | .transport _ _ => some s'.failed
      | _ => none
    | .mark raised =>
      match s.phase with
      | .marking eventIds =>
        match raised with
        | none =>
          some { s with
            events := markIndexed s.events eventIds
            phase := .idle
            metrics := { s.metrics with
              eventsIndexed := s.metrics.eventsIndexed + eventIds.length } }
        | some marked =>
          -- An `update_many` that raises has marked any part of the ids.
          some { s with events := markIndexed s.events (eventIds.filter marked) }.failed
      | _ => none
    | .crash => some { s with mappingReady := false, phase := .starting false }
    | .lose => some { s with server := none }

namespace IndexerState

/-- Marked implies indexed. -/
structure MarkedIndexed (s : IndexerState) : Prop where
  /-- An event whose document is marked is in the index. -/
  marked : ∀ d ∈ s.events.docs, d.esIndexed = true → s.server.Has d.id
  /-- A pass goes on to mark only what is in the index. -/
  marking : ∀ eventIds, s.phase = .marking eventIds → ∀ id ∈ eventIds, s.server.Has id

/-- **The condition on a bulk request.** Whatever document the server refuses is in the index
already, or is accepted in the same request. -/
def RefusalsIndexed (s : IndexerState) : IndexerAction → Prop
  | .bulk (.answered refused) => ∀ events, s.phase = .indexing events →
      ∀ i e, events[i]? = some e → refused i = true → s.server.Has e.eventId ∨
        ∃ j e', events[j]? = some e' ∧ refused j = false ∧ e'.eventId = e.eventId
  | _ => True

/-- The index is not lost. -/
def KeepsIndex (_ : IndexerState) (a : IndexerAction) : Prop := a ≠ .lose

end IndexerState

open IndexerState

/-! ## What a step can do -/

namespace IndexerState

variable (s : IndexerState)

@[simp] theorem missing_events : s.missing.events = s.events := rfl

@[simp] theorem missing_server : s.missing.server = s.server := rfl

@[simp] theorem failed_events : s.failed.events = s.events := by
  unfold failed
  split <;> rfl

@[simp] theorem failed_server : s.failed.server = s.server := by
  unfold failed
  split <;> rfl

@[simp] theorem failed_phase : s.failed.phase = .idle := by
  unfold failed
  split <;> rfl

theorem sending_cases (events : List EventDocument) :
    s.sending events = { s with phase := .indexing events } ∨ s.sending events = s.failed := by
  unfold sending
  split
  · exact Or.inl rfl
  · exact Or.inr rfl

@[simp] theorem sending_events (events : List EventDocument) :
    (s.sending events).events = s.events := by
  rcases s.sending_cases events with h | h <;> simp [h]

@[simp] theorem sending_server (events : List EventDocument) :
    (s.sending events).server = s.server := by
  rcases s.sending_cases events with h | h <;> simp [h]

theorem sending_phase (events : List EventDocument) (eventIds : List String) :
    (s.sending events).phase ≠ .marking eventIds := by
  rcases s.sending_cases events with h | h <;> simp [h]

@[simp] theorem mapped_events : s.mapped.events = s.events := by
  unfold mapped
  split <;> simp

@[simp] theorem mapped_server : s.mapped.server = s.server := by
  unfold mapped
  split <;> simp

theorem mapped_phase (eventIds : List String) : s.mapped.phase ≠ .marking eventIds := by
  unfold mapped
  split
  · exact sending_phase _ _ eventIds
  · simp

theorem missing_phase {eventIds : List String} (h : s.missing.phase = .marking eventIds) :
    s.phase = .marking eventIds := by
  unfold missing at h
  dsimp only at h
  split at h
  · exact absurd h (by simp)
  · exact absurd h (by simp)
  · exact h

end IndexerState

/-- `ensure_mapping` waits for `indices.exists`, or for `indices.create`. -/
def IndexerPhase.Asks : IndexerPhase → Bool → Prop
  | .starting creating, b | .ensuring _ creating, b => creating = b
  | _, _ => False

/-- After `indices.exists`. -/
theorem lookup_cases {batchSize : ℕ} {s t : IndexerState} {raised : Bool}
    (h : (indexerMachine batchSize).step s (.lookup raised) = some t) :
    s.phase.Asks false ∧ (raised = true ∧ t = s.failed ∨
      raised = false ∧ s.server.isSome = true ∧ t = s.mapped ∨
      raised = false ∧ s.server = none ∧ t = s.missing) := by
  simp only [indexerMachine] at h
  split at h
  case h_3 => exact absurd h (by simp)
  all_goals
    refine ⟨by simp [IndexerPhase.Asks, ‹s.phase = _›], ?_⟩
    split at h
    · exact Or.inl ⟨‹_›, (Option.some.inj h).symm⟩
    · split at h
      · exact Or.inr (Or.inl ⟨by simpa using ‹¬ raised = true›, ‹_›, (Option.some.inj h).symm⟩)
      · have hnone : s.server = none := Option.not_isSome_iff_eq_none.mp ‹_›
        exact Or.inr (Or.inr ⟨by simpa using ‹¬ raised = true›, hnone, (Option.some.inj h).symm⟩)

/-- After `indices.create`. -/
theorem create_cases {batchSize : ℕ} {s t : IndexerState} {raised : Option Bool}
    (h : (indexerMachine batchSize).step s (.create raised) = some t) :
    s.phase.Asks true ∧ ((s.server.create = none ∨ raised = some false) ∧ t = s.failed ∨
      ∃ server, s.server.create = some server ∧ (raised = some true ∧
        t = { s with server := server }.failed ∨
          raised = none ∧ t = { s with server := server }.mapped)) := by
  simp only [indexerMachine] at h
  split at h
  case h_3 => exact absurd h (by simp)
  all_goals
    refine ⟨by simp [IndexerPhase.Asks, ‹s.phase = _›], ?_⟩
    split at h
    · exact Or.inl ⟨Or.inl ‹_›, (Option.some.inj h).symm⟩
    · exact Or.inl ⟨Or.inr rfl, (Option.some.inj h).symm⟩
    · exact Or.inr ⟨_, ‹_›, Or.inl ⟨rfl, (Option.some.inj h).symm⟩⟩
    · exact Or.inr ⟨_, ‹_›, Or.inr ⟨rfl, (Option.some.inj h).symm⟩⟩

/-- The steps, told by what they do to the two stores and to the marking. -/
inductive IndexerMove (s t : IndexerState) : IndexerAction → Prop
  /-- No event is written or marked, no document leaves the index, no marking begins. -/
  | quiet {a : IndexerAction} (ha : ∀ refused, a ≠ .bulk (.answered refused))
      (hevents : t.events = s.events) (hserver : ∀ k, s.server.Has k → t.server.Has k)
      (hphase : ∀ eventIds, t.phase = .marking eventIds → s.phase = .marking eventIds) :
      IndexerMove s t a
  | write {batch : List EventDocument} {o : InsertOutcome}
      (hevents : t.events = (bulkWrite s.events batch o).1) (hserver : t.server = s.server)
      (hphase : t.phase = s.phase) : IndexerMove s t (.write batch o)
  | answered {refused : ℕ → Bool} (events : List EventDocument)
      (hindexing : s.phase = .indexing events) (hevents : t.events = s.events)
      (hserver : t.server = s.server.bulk events refused)
      (hphase : t.phase = .marking (events.map EventRecord.eventId)) :
      IndexerMove s t (.bulk (.answered refused))
  | mark {raised : Option (String → Bool)} (eventIds marked : List String)
      (hmarking : s.phase = .marking eventIds) (hsub : marked ⊆ eventIds)
      (hevents : t.events = markIndexed s.events marked) (hserver : t.server = s.server)
      (hphase : t.phase = .idle) : IndexerMove s t (.mark raised)
  | lose : IndexerMove s t .lose

theorem move_of_indexerStep {batchSize : ℕ} {s t : IndexerState} {a : IndexerAction}
    (h : (indexerMachine batchSize).step s a = some t) : IndexerMove s t a := by
  cases a with
  | write batch o =>
    obtain rfl := Option.some.inj h
    exact .write rfl rfl rfl
  | fetch tie =>
    simp only [indexerMachine] at h
    split at h
    case h_1 hidle =>
      split at h
      · obtain rfl := Option.some.inj h
        exact .quiet (by simp) (by simp) (by simp) (by simp)
      · split at h
        · obtain rfl := Option.some.inj h
          exact .quiet (by simp) rfl (fun _ ↦ id) fun _ ↦ id
        · split at h <;> obtain rfl := Option.some.inj h
          · exact .quiet (by simp) (by simp) (by simp) fun ids hids ↦
              absurd hids (s.sending_phase _ ids)
          · exact .quiet (by simp) rfl (fun _ ↦ id) (by simp)
    case h_2 => exact absurd h (by simp)
  | lookup raised =>
    obtain ⟨-, ⟨-, rfl⟩ | ⟨-, -, rfl⟩ | ⟨-, -, rfl⟩⟩ := lookup_cases h
    · exact .quiet (by simp) (by simp) (by simp) (by simp)
    · exact .quiet (by simp) (by simp) (by simp) fun ids hids ↦ absurd hids (s.mapped_phase ids)
    · exact .quiet (by simp) rfl (fun _ ↦ id) fun _ ↦ s.missing_phase
  | create raised =>
    obtain ⟨-, ⟨-, rfl⟩ | ⟨server, hcreate, ⟨-, rfl⟩ | ⟨-, rfl⟩⟩⟩ := create_cases h
    · exact .quiet (by simp) (by simp) (by simp) (by simp)
    · -- A pass that fails after `indices.create` leaves the new index behind.
      refine .quiet (by simp) (by simp) (fun k hk ↦ ?_) (by simp)
      rw [failed_server]
      exact EsServer.has_create hcreate hk
    · refine .quiet (by simp) (by simp) (fun k hk ↦ ?_) fun ids hids ↦
        absurd hids (mapped_phase _ ids)
      rw [mapped_server]
      exact EsServer.has_create hcreate hk
  | bulk o =>
    simp only [indexerMachine] at h
    split at h
    case h_1 events hindexing =>
      cases o with
      | answered refused =>
        obtain rfl := Option.some.inj h
        exact .answered events hindexing rfl rfl rfl
      -- Nothing will be marked: the pass is over, with some documents in the index.
      | transport reached indexed =>
        obtain rfl := Option.some.inj h
        refine .quiet (by simp) (by simp) (fun k hk ↦ ?_) (by simp)
        rw [failed_server]
        exact EsServer.has_afterBulk (o := .transport reached indexed) hk
    case h_2 => exact absurd h (by simp)
  | mark raised =>
    simp only [indexerMachine] at h
    split at h
    case h_1 eventIds hmarking =>
      cases raised with
      | none =>
        obtain rfl := Option.some.inj h
        exact .mark eventIds eventIds hmarking (List.Subset.refl _) rfl rfl rfl
      | some marked =>
        obtain rfl := Option.some.inj h
        exact .mark eventIds (eventIds.filter marked) hmarking (List.filter_subset_self _) (by simp)
          (by simp) (by simp)
    case h_2 => exact absurd h (by simp)
  | crash =>
    obtain rfl := Option.some.inj h
    exact .quiet (by simp) rfl (fun _ ↦ id) (by simp)
  | lose => exact .lose

/-! ## One step -/

/-- **A step keeps marked-implies-indexed exactly when the refusals of its bulk request, if it is
one, are indexed.** -/
theorem markedIndexed_move_iff {s t : IndexerState} {a : IndexerAction} (hs : s.MarkedIndexed)
    (ha : s.KeepsIndex a) (h : IndexerMove s t a) : t.MarkedIndexed ↔ s.RefusalsIndexed a := by
  cases h with
  | quiet hquiet hevents hserver hphase =>
    refine iff_of_true ⟨?_, ?_⟩ ?_
    · intro d hd hmarked
      exact hserver _ (hs.marked d (hevents ▸ hd) hmarked)
    · intro ids hids id hid
      exact hserver _ (hs.marking ids (hphase ids hids) id hid)
    · unfold RefusalsIndexed
      split
      · exact absurd rfl (hquiet _)
      · trivial
  | write hevents hserver hphase =>
    refine iff_of_true ⟨?_, ?_⟩ trivial
    · intro d hd hmarked
      rw [hevents] at hd
      rcases unmarked_of_mem_bulkWrite hd with hold | hnew
      · exact hserver ▸ hs.marked d hold hmarked
      · exact absurd hmarked (by simp [hnew])
    · intro ids hids id hid
      exact hserver ▸ hs.marking ids (hphase ▸ hids) id hid
  | @answered refused events hindexing hevents hserver hphase =>
    -- This is where the condition is needed: every id of the request is about to be marked.
    constructor
    · intro ht events' hindexing' i e he _
      obtain rfl : events = events' := by simpa [hindexing] using hindexing'
      have hid : e.eventId ∈ events.map EventRecord.eventId :=
        List.mem_map_of_mem (List.mem_of_getElem? he)
      have hhas := ht.marking _ hphase e.eventId hid
      rw [hserver, EsServer.has_bulk] at hhas
      exact hhas
    · intro href
      refine ⟨?_, ?_⟩
      · intro d hd hmarked
        rw [hserver, EsServer.has_bulk]
        exact Or.inl (hs.marked d (hevents ▸ hd) hmarked)
      · intro ids hids id hid
        obtain rfl : events.map EventRecord.eventId = ids := by simpa [hphase] using hids
        obtain ⟨e, he, rfl⟩ := List.mem_map.mp hid
        obtain ⟨i, hi⟩ := List.mem_iff_getElem?.mp he
        rw [hserver, EsServer.has_bulk]
        by_cases hr : refused i = true
        · exact href events hindexing i e hi hr
        · exact Or.inr ⟨i, e, hi, by simpa using hr, rfl⟩
  | mark eventIds marked hmarking hsub hevents hserver hphase =>
    refine iff_of_true ⟨?_, ?_⟩ trivial
    · intro d hd hmarked
      rw [hevents] at hd
      rcases marked_of_mem_markIndexed hd hmarked with ⟨d', hd', hid, hold⟩ | hnew
      · exact hserver ▸ hid ▸ hs.marked d' hd' hold
      · exact hserver ▸ hs.marking eventIds hmarking d.id (hsub hnew)
    · intro ids hids
      exact absurd hids (by simp [hphase])
  | lose => exact absurd rfl ha

/-! ## Whole runs -/

/-- **Outbox safety.** As long as the index is not lost, marked implies indexed in every state of a
run — exactly when every bulk request's refusals are indexed. -/
theorem marked_indexed_iff (batchSize : ℕ) (s t : IndexerState) (as : List IndexerAction)
    (hinit : (indexerMachine batchSize).init s)
    (hrun : (indexerMachine batchSize).exec s as = some t)
    (hkeeps : (indexerMachine batchSize).Along KeepsIndex s as) :
    (indexerMachine batchSize).Always MarkedIndexed s as
      ↔ (indexerMachine batchSize).Along RefusalsIndexed s as := by
  obtain ⟨hmarked, -, hphase⟩ := hinit
  refine Machine.always_iff_along_of (I := fun _ ↦ True) (fun _ _ _ _ _ _ ↦ trivial) ?_ trivial
    ⟨hmarked, fun ids hids ↦ absurd hids (by simp [hphase])⟩ hkeeps hrun
  intro u a v _ hu ha hstep
  exact markedIndexed_move_iff hu ha (move_of_indexerStep hstep)

/-! ## A refused document -/

/-- One event in the outbox and an empty index, ready for a pass. -/
def IndexerState.outboxOfOne : IndexerState where
  events := (bulkWrite .empty [makeEvent "e1"] (.answered fun _ ↦ false)).1
  server := some ⟨true, fun _ ↦ none⟩
  mappingReady := false
  phase := .starting false
  metrics := ⟨0, 0⟩

theorem outboxOfOne_init : (indexerMachine 10).init .outboxOfOne := by
  refine ⟨fun d hd hmarked ↦ ?_, rfl, rfl⟩
  rcases unmarked_of_mem_bulkWrite hd with hold | hnew
  · exact absurd hold List.not_mem_nil
  · exact absurd hmarked (by simp [hnew])

/-- A startup and a pass, the bulk request meeting `refused`. -/
def indexerRun (refused : ℕ → Bool) : List IndexerAction :=
  [.lookup false, .fetch fun _ ↦ 0, .bulk (.answered refused), .mark none]

theorem indexerRun_keepsIndex (refused : ℕ → Bool) :
    (indexerMachine 10).Along KeepsIndex .outboxOfOne (indexerRun refused) :=
  .cons (by simp [KeepsIndex]) fun _ _ ↦ .cons (by simp [KeepsIndex]) fun _ _ ↦
    .cons (by simp [KeepsIndex]) fun _ _ ↦ .cons (by simp [KeepsIndex]) fun _ _ ↦ Machine.along_nil

theorem indexerRun_marks :
    (indexerMachine 10).Always MarkedIndexed .outboxOfOne (indexerRun fun _ ↦ false) := by
  refine (marked_indexed_iff 10 .outboxOfOne _ (indexerRun fun _ ↦ false) outboxOfOne_init rfl
    (indexerRun_keepsIndex _)).mpr ?_
  refine .cons trivial fun _ _ ↦ .cons trivial fun _ _ ↦ .cons ?_ fun _ _ ↦ .cons trivial
    fun _ _ ↦ Machine.along_nil
  exact fun _ _ _ _ _ hr ↦ absurd hr (by simp)

/-- A document refused by an otherwise successful request is marked as indexed. -/
theorem indexerRun_marks_refused :
    ¬ ∀ (s t : IndexerState) (as : List IndexerAction),
      (indexerMachine 10).init s → (indexerMachine 10).exec s as = some t →
      (indexerMachine 10).Along KeepsIndex s as →
        ∀ d ∈ t.events.docs, d.esIndexed = true → t.server.Has d.id := by
  intro h
  have hmarked := h .outboxOfOne _ (indexerRun fun _ ↦ true) outboxOfOne_init rfl
    (indexerRun_keepsIndex _) _ List.mem_cons_self rfl
  obtain ⟨index, hindex, hdoc⟩ := hmarked
  obtain rfl := Option.some.inj hindex
  exact absurd hdoc (by decide)

end Acheron
