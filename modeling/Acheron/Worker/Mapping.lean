import Acheron.Worker.EsIndexer

/-!
# The explicit mapping

A bulk request to a missing index creates it with dynamic mapping, and the mapping of a field cannot
be changed afterwards. `ensure_mapping` is there to create the index first. It runs at startup, and
again before a pass while `_mapping_ready` is not set; once the flag is set, `bulk_index` asks no
more. The flag lives in the process and the index on the server. `bulkMachine` is the indexer
with its single requests in sight: `async_bulk` cuts a batch into several, and the index may be lost
between any two of them.

## What the flag stands for

`ready_iff_since`: the flag is set *and* the index is the explicit one exactly when `ensure_mapping`
has created that index, or found an index so created, and since then the index has not been lost nor
the process restarted. Nothing takes the flag back when the index is lost, and `indices.exists` does
not look at the mapping of what exists; these are the two ways for a request to go to an index
without the mapping, and `requests_explicit_iff` says that there is no third.
-/

open Runs

namespace Acheron

/-- The index exists, created by `ensure_mapping` with `_MAPPING`. -/
def EsServer.Explicit (server : EsServer) : Prop :=
  ∃ index, server = some index ∧ index.explicit = true

/-- The indexer and its stores, and whether the startup is still in its `connect`. -/
structure BulkState where
  connecting : Bool
  indexer : IndexerState

/-- What may happen next. -/
inductive BulkAction where
  /-- The `connect` of the startup answers, or raises. -/
  | connect (raised : Bool)
  /-- A request of an `async_bulk` before its last one: a chunk of the batch, or a chunk that is
  sent again. The server refuses the positions in `refused`. -/
  | request (start len : ℕ) (refused : ℕ → Bool)
  /-- A step of the indexer or of its surroundings; a `bulk` is the last request of its call. -/
  | step (a : IndexerAction)

/-- The indexer, request by request. -/
def bulkMachine (batchSize : ℕ) : Machine BulkState BulkAction where
  init s := s.connecting = true ∧ s.indexer.mappingReady = false ∧
    s.indexer.phase = .starting false
  step s
    | .connect raised =>
      -- `lifespan` catches what `connect` raises, and `ensure_mapping` is not reached.
      if s.connecting then some ⟨false, if raised then s.indexer.failed else s.indexer⟩ else none
    | .request start len refused =>
      match s.indexer.phase with
      | .indexing events =>
        let chunk := (events.drop start).take len
        if chunk.isEmpty then none
        else some { s with indexer := { s.indexer with
          server := s.indexer.server.bulk chunk refused } }
      | _ => none
    | .step (.lookup raised) =>
      if s.connecting then none
      else ((indexerMachine batchSize).step s.indexer (.lookup raised)).map (⟨false, ·⟩)
    | .step .crash => ((indexerMachine batchSize).step s.indexer .crash).map (⟨true, ·⟩)
    | .step a => ((indexerMachine batchSize).step s.indexer a).map (⟨s.connecting, ·⟩)

/-- A bulk request that reaches the server. -/
def BulkAction.Hits : BulkAction → Prop
  | .request _ _ _ | .step (.bulk (.answered _)) => True
  | .step (.bulk (.transport reached _)) => reached = true
  | _ => False

namespace IndexerState

/-- `_mapping_ready` is set, and the index is the explicit one. -/
def Ready (s : IndexerState) : Prop := s.mappingReady = true ∧ s.server.Explicit

/-- `ensure_mapping` is left with the flag set, having created the index, or having found one that
was created so. -/
def Confirms (s : IndexerState) : IndexerAction → Prop
  | .lookup raised => raised = false ∧ s.server.Explicit
  | .create raised => raised = none ∧ s.server = none
  | _ => False

/-- The flag is not set while `ensure_mapping` runs, and it is set while requests are sent. -/
def FlagFits (s : IndexerState) : Prop :=
  match s.phase with
  | .starting _ | .ensuring _ _ => s.mappingReady = false
  | .indexing _ => s.mappingReady = true
  | _ => True

end IndexerState

namespace BulkState

/-- **What a request needs to have behind it.** `ensure_mapping` creates the index, or finds one
that was created so. -/
def Confirms (s : BulkState) : BulkAction → Prop
  | .step a => s.indexer.Confirms a
  | _ => False

/-- The index is not lost, and the process does not restart. -/
def Undisturbed (_ : BulkState) (a : BulkAction) : Prop := a ≠ .step .lose ∧ a ≠ .step .crash

/-- **No bulk request hits an index without the explicit mapping.** -/
def HitsExplicit (s : BulkState) (a : BulkAction) : Prop := a.Hits → s.indexer.server.Explicit

end BulkState

open IndexerState

/-! ## The flag and the phases -/

namespace EsServer

theorem not_explicit_none : ¬ Explicit none := by
  rintro ⟨index, hindex, -⟩
  exact absurd hindex (by simp)

/-- A request leaves an index what it is, and an index it has to create is not explicit. -/
@[simp] theorem explicit_bulk {server : EsServer} {events : List EventDocument}
    {refused : ℕ → Bool} : (server.bulk events refused).Explicit ↔ server.Explicit := by
  cases server <;> simp [Explicit, bulk, autoCreated]

@[simp] theorem explicit_afterBulk {server : EsServer} {events : List EventDocument}
    {o : BulkOutcome} : (server.afterBulk events o).Explicit ↔ server.Explicit := by
  cases o with
  | answered refused => exact explicit_bulk
  | transport reached indexed =>
    rw [afterBulk]
    split
    · exact explicit_bulk
    · exact Iff.rfl

theorem explicit_create {server server' : EsServer} (h : server.create = some server') :
    server = none ∧ server'.Explicit := by
  cases server with
  | none => exact ⟨rfl, _, (Option.some.inj h).symm, rfl⟩
  | some index => exact absurd h (by simp [create])

end EsServer

namespace IndexerState

variable {s t : IndexerState}

@[simp] theorem failed_mappingReady : s.failed.mappingReady = s.mappingReady := by
  unfold failed
  split <;> rfl

@[simp] theorem ready_failed : s.failed.Ready ↔ s.Ready := by simp [Ready]

@[simp] theorem sending_mappingReady (events : List EventDocument) :
    (s.sending events).mappingReady = s.mappingReady := by
  rcases s.sending_cases events with h | h <;> simp [h]

@[simp] theorem mapped_mappingReady : s.mapped.mappingReady = true := by
  unfold mapped
  split <;> simp

@[simp] theorem ready_sending (events : List EventDocument) :
    (s.sending events).Ready ↔ s.Ready := by simp [Ready]

@[simp] theorem ready_mapped : s.mapped.Ready ↔ s.server.Explicit := by simp [Ready]

@[simp] theorem ready_missing : s.missing.Ready ↔ s.Ready := Iff.rfl

theorem flagFits_failed : s.failed.FlagFits := by simp [FlagFits]

theorem flagFits_sending (h : s.mappingReady = true) (events : List EventDocument) :
    (s.sending events).FlagFits := by
  rcases s.sending_cases events with hs | hs
  · rw [hs]
    exact h
  · rw [hs]
    exact flagFits_failed

theorem flagFits_mapped : s.mapped.FlagFits := by
  unfold mapped
  split
  · exact flagFits_sending rfl _
  · trivial

theorem flagFits_missing (h : s.FlagFits) : s.missing.FlagFits := by
  unfold FlagFits missing at *
  dsimp only
  cases hphase : s.phase with
  | starting _ | ensuring _ _ | indexing _ => simpa [hphase] using h
  | idle | marking _ => trivial

theorem FlagFits.not_set {creating : Bool} (h : s.FlagFits) (hphase : s.phase.Asks creating) :
    s.mappingReady = false := by
  cases hp : s.phase with
  | starting _ | ensuring _ _ => simpa [FlagFits, hp] using h
  | idle | indexing _ | marking _ => simp [IndexerPhase.Asks, hp] at hphase

theorem FlagFits.ready_iff {events : List EventDocument} (h : s.FlagFits)
    (hphase : s.phase = .indexing events) : s.Ready ↔ s.server.Explicit := by
  simp only [FlagFits, hphase] at h
  simp [Ready, h]

/-- A step that is no confirmation, no loss and no restart. -/
theorem ready_iff_of_quiet {a : IndexerAction} (hconfirms : ¬ s.Confirms a) (hlose : a ≠ .lose)
    (hcrash : a ≠ .crash) (h : t.Ready ↔ s.Ready) :
    t.Ready ↔ s.Confirms a ∨ s.Ready ∧ a ≠ .lose ∧ a ≠ .crash := by
  simp [h, hconfirms, hlose, hcrash]

end IndexerState

/-! ## One step -/

/-- **What a step of the indexer does to the flag and the index.** -/
theorem ready_step_iff {batchSize : ℕ} {s t : IndexerState} {a : IndexerAction} (hs : s.FlagFits)
    (h : (indexerMachine batchSize).step s a = some t) :
    t.FlagFits ∧ (t.Ready ↔ s.Confirms a ∨ s.Ready ∧ a ≠ .lose ∧ a ≠ .crash) := by
  cases a with
  | write batch o =>
    obtain rfl := Option.some.inj h
    exact ⟨hs, ready_iff_of_quiet id (by simp) (by simp) Iff.rfl⟩
  | fetch tie =>
    simp only [indexerMachine] at h
    split at h
    case h_2 => exact absurd h (by simp)
    case h_1 hidle =>
      split at h
      · obtain rfl := Option.some.inj h
        exact ⟨flagFits_failed, ready_iff_of_quiet id (by simp) (by simp) ready_failed⟩
      · split at h
        · obtain rfl := Option.some.inj h
          exact ⟨hs, ready_iff_of_quiet id (by simp) (by simp) Iff.rfl⟩
        · -- A pass asks first exactly when the flag is not set.
          split at h
          case isTrue hset =>
            obtain rfl := Option.some.inj h
            exact ⟨flagFits_sending hset _,
              ready_iff_of_quiet id (by simp) (by simp) (ready_sending _)⟩
          case isFalse hset =>
            obtain rfl := Option.some.inj h
            exact ⟨by simpa [FlagFits] using hset,
              ready_iff_of_quiet id (by simp) (by simp) Iff.rfl⟩
  | lookup raised =>
    obtain ⟨hasks, hcases⟩ := lookup_cases h
    have hready : ¬ s.Ready := by simp [Ready, hs.not_set hasks]
    rcases hcases with ⟨hraised, rfl⟩ | ⟨hraised, -, rfl⟩ | ⟨-, hnone, rfl⟩
    · exact ⟨flagFits_failed, by simp [Confirms, hraised]⟩
    · exact ⟨flagFits_mapped, by simp [Confirms, hraised, hready]⟩
    · have hexplicit : ¬ s.server.Explicit := hnone ▸ EsServer.not_explicit_none
      exact ⟨flagFits_missing hs, by simp [Confirms, hexplicit]⟩
  | create raised =>
    obtain ⟨hasks, hcases⟩ := create_cases h
    have hunset := hs.not_set hasks
    have hready : ¬ s.Ready := by simp [Ready, hunset]
    rcases hcases with ⟨hfailed, rfl⟩ | ⟨server, hcreate, hcases⟩
    · refine ⟨flagFits_failed, iff_of_false (by simpa using hready) ?_⟩
      rintro (⟨hraised, hnone⟩ | ⟨hset, -⟩)
      · rcases hfailed with hsome | hraised'
        · simp [hnone, EsServer.create] at hsome
        · exact absurd (hraised.symm.trans hraised') (by simp)
      · exact hready hset
    · obtain ⟨hnone, hexplicit⟩ := EsServer.explicit_create hcreate
      rcases hcases with ⟨hraised, rfl⟩ | ⟨hraised, rfl⟩
      · refine ⟨flagFits_failed, iff_of_false ?_ ?_⟩
        · simp [Ready, hunset]
        · simp [Confirms, hraised, hready]
      · exact ⟨flagFits_mapped, by simp [Confirms, hraised, hnone, hexplicit]⟩
  | bulk o =>
    simp only [indexerMachine] at h
    split at h
    case h_2 => exact absurd h (by simp)
    case h_1 events hindexing =>
      cases o with
      | answered refused =>
        obtain rfl := Option.some.inj h
        exact ⟨trivial, ready_iff_of_quiet id (by simp) (by simp) (by simp [Ready])⟩
      | transport reached indexed =>
        obtain rfl := Option.some.inj h
        exact ⟨flagFits_failed, ready_iff_of_quiet id (by simp) (by simp) (by simp [Ready])⟩
  | mark raised =>
    simp only [indexerMachine] at h
    split at h
    case h_2 => exact absurd h (by simp)
    case h_1 eventIds hmarking =>
      cases raised with
      | none =>
        obtain rfl := Option.some.inj h
        exact ⟨trivial, ready_iff_of_quiet id (by simp) (by simp) Iff.rfl⟩
      | some marked =>
        obtain rfl := Option.some.inj h
        exact ⟨flagFits_failed, ready_iff_of_quiet id (by simp) (by simp) (by simp [Ready])⟩
  | crash =>
    obtain rfl := Option.some.inj h
    exact ⟨rfl, by simp [Ready, Confirms]⟩
  | lose =>
    obtain rfl := Option.some.inj h
    exact ⟨hs, by simp [Ready, Confirms, EsServer.not_explicit_none]⟩

open BulkState

/-- The steps, told by what they do to the indexer. -/
theorem bulkStep_cases {batchSize : ℕ} {s t : BulkState} {a : BulkAction}
    (h : (bulkMachine batchSize).step s a = some t) :
    (∃ raised, a = .connect raised ∧
      (t.indexer = s.indexer.failed ∨ t.indexer = s.indexer)) ∨
    (∃ start len refused chunk events, a = .request start len refused ∧
      s.indexer.phase = .indexing events ∧
      t.indexer = { s.indexer with server := s.indexer.server.bulk chunk refused }) ∨
    ∃ b, a = .step b ∧ (indexerMachine batchSize).step s.indexer b = some t.indexer := by
  simp only [bulkMachine] at h
  split at h
  case h_1 raised =>
    split at h
    · obtain rfl := Option.some.inj h
      cases raised
      · exact Or.inl ⟨_, rfl, Or.inr rfl⟩
      · exact Or.inl ⟨_, rfl, Or.inl rfl⟩
    · exact absurd h (by simp)
  case h_2 start len refused =>
    split at h
    case h_1 events hindexing =>
      split at h
      · exact absurd h (by simp)
      · obtain rfl := Option.some.inj h
        exact Or.inr (Or.inl ⟨start, len, refused, _, events, rfl, hindexing, rfl⟩)
    case h_2 => exact absurd h (by simp)
  case h_3 raised =>
    split at h
    · exact absurd h (by simp)
    · obtain ⟨u, hu, rfl⟩ := Option.map_eq_some_iff.mp h
      exact Or.inr (Or.inr ⟨_, rfl, hu⟩)
  all_goals
    obtain ⟨u, hu, rfl⟩ := Option.map_eq_some_iff.mp h
    exact Or.inr (Or.inr ⟨_, rfl, hu⟩)

theorem ready_bulkStep_iff {batchSize : ℕ} {s t : BulkState} {a : BulkAction}
    (hs : s.indexer.FlagFits) (h : (bulkMachine batchSize).step s a = some t) :
    t.indexer.FlagFits ∧
      (t.indexer.Ready ↔ s.Confirms a ∨ s.indexer.Ready ∧ s.Undisturbed a) := by
  rcases bulkStep_cases h with ⟨raised, rfl, hfailed | hsame⟩ |
    ⟨start, len, refused, chunk, events, rfl, hindexing, hserver⟩ | ⟨b, rfl, hstep⟩
  · rw [hfailed]
    exact ⟨flagFits_failed, by simp [BulkState.Confirms, Undisturbed]⟩
  · rw [hsame]
    exact ⟨hs, by simp [BulkState.Confirms, Undisturbed]⟩
  · -- A request asks nothing and tells nothing: it is where the flag is believed.
    rw [hserver]
    exact ⟨hs, by simp [BulkState.Confirms, Undisturbed, Ready]⟩
  · have hready := ready_step_iff hs hstep
    simpa [BulkState.Confirms, Undisturbed] using hready

/-- Requests are sent between `ensure_mapping` and `mark_indexed`. -/
theorem indexing_of_hits {batchSize : ℕ} {s t : BulkState} {a : BulkAction}
    (h : (bulkMachine batchSize).step s a = some t) (ha : a.Hits) :
    ∃ events, s.indexer.phase = .indexing events := by
  rcases bulkStep_cases h with ⟨raised, rfl, -⟩ |
    ⟨start, len, refused, chunk, events, -, hindexing, -⟩ | ⟨b, rfl, hstep⟩
  · exact absurd ha id
  · exact ⟨events, hindexing⟩
  · cases b with
    | bulk o =>
      simp only [indexerMachine] at hstep
      split at hstep
      case h_1 events hindexing => exact ⟨events, hindexing⟩
      case h_2 => exact absurd hstep (by simp)
    | write _ _ | fetch _ | lookup _ | create _ | mark _ | crash | lose => exact absurd ha id

/-! ## Whole runs -/

section Run

variable {batchSize : ℕ} {s t : BulkState} {as : List BulkAction}

theorem flagFits_of_init (hinit : (bulkMachine batchSize).init s) : s.indexer.FlagFits := by
  obtain ⟨-, hunset, hphase⟩ := hinit
  simp [FlagFits, hphase, hunset]

theorem flagFits_of_exec (hinit : (bulkMachine batchSize).init s)
    (hrun : (bulkMachine batchSize).exec s as = some t) : t.indexer.FlagFits :=
  Machine.exec_preserves (P := fun u : BulkState ↦ u.indexer.FlagFits)
    (fun _ _ _ hu hstep ↦ (ready_bulkStep_iff hu hstep).1) (flagFits_of_init hinit) hrun

/-- **What the flag stands for.** It is set and the index is the explicit one exactly when
`ensure_mapping` has confirmed that index, and since then it was not lost nor the process
restarted. -/
theorem ready_iff_since (hinit : (bulkMachine batchSize).init s)
    (hrun : (bulkMachine batchSize).exec s as = some t) :
    t.indexer.Ready ↔ (bulkMachine batchSize).Since BulkState.Confirms Undisturbed s as := by
  refine Machine.since_iff (I := fun u ↦ u.indexer.FlagFits) (P := fun u ↦ u.indexer.Ready)
    (fun u a v hu hstep ↦ (ready_bulkStep_iff hu hstep).1)
    (fun u a v hu hstep ↦ (ready_bulkStep_iff hu hstep).2) (flagFits_of_init hinit) ?_ hrun
  simp [Ready, hinit.2.1]

/-- **Every bulk request of a run goes to the explicit index exactly when, before each of them,
`ensure_mapping` has confirmed it, with no loss of the index and no restart since.** -/
theorem requests_explicit_iff (hinit : (bulkMachine batchSize).init s)
    (hrun : (bulkMachine batchSize).exec s as = some t) :
    (bulkMachine batchSize).Along HitsExplicit s as ↔
      ∀ bs a cs, as = bs ++ a :: cs → a.Hits →
        (bulkMachine batchSize).Since BulkState.Confirms Undisturbed s bs := by
  have hsent : ∀ bs a cs u, as = bs ++ a :: cs → a.Hits →
      (bulkMachine batchSize).exec s bs = some u → (u.indexer.server.Explicit ↔
        (bulkMachine batchSize).Since BulkState.Confirms Undisturbed s bs) := by
    rintro bs a cs u rfl ha hu
    obtain ⟨v, hv, -⟩ := Machine.exec_cons_eq_some _ |>.mp (Machine.exec_from _ hrun hu)
    obtain ⟨events, hindexing⟩ := indexing_of_hits hv ha
    rw [← ready_iff_since hinit hu, (flagFits_of_exec hinit hu).ready_iff hindexing]
  constructor
  · rintro hall bs a cs rfl ha
    obtain ⟨u, hu, -⟩ := Machine.exec_append_eq_some _ |>.mp hrun
    exact (hsent bs a cs u rfl ha hu).mp (hall bs a cs u rfl hu ha)
  · rintro hall bs a cs u rfl hu ha
    exact (hsent bs a cs u rfl ha hu).mpr (hall bs a cs rfl ha)

end Run

/-! ## A lost index -/

/-- An event in the outbox, no index, and a process about to start. -/
def BulkState.unindexed : BulkState where
  connecting := true
  indexer := { IndexerState.outboxOfOne with server := none }

theorem unindexed_init : (bulkMachine 10).init .unindexed := ⟨rfl, rfl, rfl⟩

/-- A startup that creates the index. -/
def createRun : List BulkAction :=
  [.connect false, .step (.lookup false), .step (.create none)]

/-- A pass whose batch is sent twice. -/
def sendRun : List BulkAction :=
  [.step (.fetch fun _ ↦ 0), .request 0 1 fun _ ↦ true, .step (.bulk (.answered fun _ ↦ false))]

theorem sendRun_confirmed :
    (bulkMachine 10).Along HitsExplicit .unindexed (createRun ++ sendRun) ∧
      (bulkMachine 10).Since BulkState.Confirms Undisturbed .unindexed
        (createRun ++ sendRun.take 2) := by
  have hall : (bulkMachine 10).Along HitsExplicit .unindexed (createRun ++ sendRun) := by
    refine .step False.elim rfl <| .step False.elim rfl <| .step False.elim rfl <|
      .step False.elim rfl <| .step ?_ rfl <| .step ?_ rfl Machine.along_nil
    · exact fun _ ↦ ⟨_, rfl, rfl⟩
    · exact fun _ ↦ ⟨_, rfl, rfl⟩
  exact ⟨hall, (requests_explicit_iff unindexed_init rfl).mp hall _
    (.step (.bulk (.answered fun _ ↦ false))) [] rfl trivial⟩

/-- The index is lost while the process runs, and the next request goes to no explicit index. -/
theorem sendRun_after_lose :
    ¬ ∀ (s t : BulkState) (as : List BulkAction), (bulkMachine 10).init s →
      (bulkMachine 10).exec s as = some t → (bulkMachine 10).Along HitsExplicit s as := by
  intro h
  have hall := h .unindexed _ (createRun ++ .step .lose :: sendRun) unindexed_init rfl
  have hlost := hall (createRun ++ .step .lose :: sendRun.take 1) (.request 0 1 fun _ ↦ true)
    (sendRun.drop 2) _ rfl rfl trivial
  exact EsServer.not_explicit_none hlost

end Acheron
