import Acheron.App.Platform
import Acheron.Lib.CatchUp
import Acheron.Worker.Backfill

/-!
# The outbox of the platform

The events that are not marked are a backlog: the workers and the replays add to it, and the indexer
works on it in passes, which may fail or die with the process. `outbox_catches_up` bounds how far it
is behind. Once the passes that got through since some moment could have marked all that is stored
by now, every event that was stored at that moment is marked; and if no document has been refused,
and the index has not been lost, it is in the index.
-/

open Runs CatchUp

namespace Acheron

/-- The ids of the events with a marker. -/
def idsOf (c : Events) (marked : Bool) : Finset String :=
  ((c.docs.filter fun d ↦ d.esIndexed = marked).map EventDoc.id).toFinset

/-- The ids of the pass under way. -/
def IndexerPhase.batch : IndexerPhase → Option (Finset String)
  | .ensuring events _ | .indexing events => some (events.map EventRecord.eventId).toFinset
  | .marking eventIds => some eventIds.toFinset
  | .starting _ | .idle => none

/-- A pass gets through. -/
def IndexerAction.completes : IndexerAction → Bool
  | .mark none => true
  | _ => false

/-- A pass of the indexer gets through. -/
def PlatformAction.completes {ι ρ : Type} (a : PlatformAction ι ρ) : Bool :=
  a.indexing.any IndexerAction.completes

/-- The outbox as a backlog. -/
def IndexerState.backlog (s : IndexerState) : Backlog String :=
  ⟨idsOf s.events false, idsOf s.events true, s.phase.batch⟩

/-! ## The ids of the outbox -/

section Ids

variable {c c' : Events} {k : String} {marked : Bool}

theorem mem_idsOf : k ∈ idsOf c marked ↔ ∃ d ∈ c.docs, d.esIndexed = marked ∧ d.id = k := by
  simp [idsOf, and_assoc]

/-- No id is marked and not marked. -/
theorem disjoint_idsOf (c : Events) : Disjoint (idsOf c false) (idsOf c true) := by
  refine Finset.disjoint_left.mpr fun k hpending hmarked ↦ ?_
  obtain ⟨d, hd, hunset, hid⟩ := mem_idsOf.mp hpending
  obtain ⟨d', hd', hset, hid'⟩ := mem_idsOf.mp hmarked
  have hsame : d = d' := List.inj_on_of_nodup_map c.nodup hd hd' (hid.trans hid'.symm)
  rw [hsame, hset] at hunset
  exact absurd hunset (by simp)

theorem nodup_map_id_filter (c : Events) (p : EventDoc BsonDate → Bool) :
    ((c.docs.filter p).map EventDoc.id).Nodup :=
  c.nodup.sublist (List.filter_sublist.map _)

theorem card_idsOf (c : Events) (marked : Bool) :
    (idsOf c marked).card = c.docs.countP fun d ↦ d.esIndexed = marked := by
  rw [idsOf, List.toFinset_card_of_nodup (nodup_map_id_filter c _), List.length_map,
    List.countP_eq_length_filter]

/-- Every event is one or the other. -/
theorem card_idsOf_union (c : Events) :
    (idsOf c false ∪ idsOf c true).card = c.docs.length := by
  have hall : idsOf c false ∪ idsOf c true = (c.docs.map EventDoc.id).toFinset := by
    ext k
    simp only [Finset.mem_union, mem_idsOf, List.mem_toFinset, List.mem_map]
    constructor
    · rintro (⟨d, hd, -, hid⟩ | ⟨d, hd, -, hid⟩)
      · exact ⟨d, hd, hid⟩
      · exact ⟨d, hd, hid⟩
    · rintro ⟨d, hd, hid⟩
      cases hmarked : d.esIndexed with
      | false => exact Or.inl ⟨d, hd, hmarked, hid⟩
      | true => exact Or.inr ⟨d, hd, hmarked, hid⟩
  rw [hall, List.toFinset_card_of_nodup c.nodup, List.length_map]

/-- Marking takes ids out of the outbox. -/
theorem idsOf_markIndexed_false (c : Events) (ids : List String) :
    idsOf (markIndexed c ids) false = idsOf c false \ ids.toFinset := by
  have hpending (c : Events) : idsOf c false = ((pendingDocs c).map EventDoc.id).toFinset := by
    simp only [idsOf, pendingDocs, Bool.decide_eq_false]
  ext k
  rw [hpending, hpending, pendingDocs_markIndexed, Finset.mem_sdiff]
  simp only [List.mem_toFinset, List.mem_map, List.mem_filter, decide_eq_true_eq]
  constructor
  · rintro ⟨d, ⟨hd, hnot⟩, rfl⟩
    exact ⟨⟨d, hd, rfl⟩, hnot⟩
  · rintro ⟨⟨d, hd, rfl⟩, hnot⟩
    exact ⟨d, ⟨hd, hnot⟩, rfl⟩

theorem esIndexed_mark {ids : List String} {d : EventDoc BsonDate} :
    (d.mark ids).esIndexed = true ↔ d.esIndexed = true ∨ d.id ∈ ids := by
  unfold EventDoc.mark
  split
  next hid => simp [hid]
  next hid => simp [hid]

/-- And marks those that are there. -/
theorem idsOf_markIndexed_true (c : Events) (ids : List String) :
    idsOf (markIndexed c ids) true = idsOf c true ∪ ids.toFinset ∩ idsOf c false := by
  ext k
  rw [mem_idsOf, markIndexed_docs, Finset.mem_union, Finset.mem_inter, mem_idsOf, mem_idsOf,
    List.mem_toFinset]
  constructor
  · rintro ⟨d', hd', hmarked, rfl⟩
    obtain ⟨d, hd, rfl⟩ := List.mem_map.mp hd'
    rw [EventDoc.mark_id]
    cases hset : d.esIndexed with
    | true => exact Or.inl ⟨d, hd, hset, rfl⟩
    | false =>
      have hid := (esIndexed_mark.mp hmarked).resolve_left (by simp [hset])
      exact Or.inr ⟨hid, d, hd, hset, rfl⟩
  · rintro (⟨d, hd, hset, rfl⟩ | ⟨hid, d, hd, -, rfl⟩)
    · exact ⟨_, List.mem_map_of_mem hd, esIndexed_mark.mpr (Or.inl hset), d.mark_id ids⟩
    · exact ⟨_, List.mem_map_of_mem hd, esIndexed_mark.mpr (Or.inr hid), d.mark_id ids⟩

/-- What is written waits. -/
theorem idsOf_of_extends (h : Extends c c') :
    idsOf c' true = idsOf c true ∧ idsOf c' false = idsOf c false ∪ idsOf c' false := by
  refine ⟨?_, (Finset.union_eq_right.mpr fun k hk ↦ ?_).symm⟩
  · ext k
    rw [mem_idsOf, mem_idsOf]
    constructor
    · rintro ⟨d, hd, hset, hid⟩
      exact ⟨d, (h.unmarked d hd).resolve_right (by simp [hset]), hset, hid⟩
    · rintro ⟨d, hd, hset, hid⟩
      exact ⟨d, h.kept.subset hd, hset, hid⟩
  · obtain ⟨d, hd, hset, hid⟩ := mem_idsOf.mp hk
    exact mem_idsOf.mpr ⟨d, h.kept.subset hd, hset, hid⟩

/-- A pass takes as much as there is, up to a batch. -/
theorem fetched_ids (c : Events) (tie : String → ℕ) (batchSize : ℕ) :
    let batch := (((fetchUnindexed c tie batchSize).map EventRecord.rebuild).map
      EventRecord.eventId).toFinset
    batch ⊆ idsOf c false ∧ batch.card = min batchSize (idsOf c false).card := by
  have hperm := (outboxOrdering c tie).perm
  have hnodup : ((outboxOrdering c tie).items.map EventDoc.id).Nodup :=
    (hperm.map _).nodup_iff.mpr (nodup_map_id_filter c _)
  have hids : ((fetchUnindexed c tie batchSize).map EventRecord.rebuild).map EventRecord.eventId
      = (fetchedDocs c tie batchSize).map EventDoc.id := by
    rw [fetchUnindexed_eq, map_rebuild]
  simp only [hids]
  constructor
  · intro k hk
    obtain ⟨d, hd, hid⟩ := List.mem_map.mp (List.mem_toFinset.mp hk)
    have hpending := List.mem_filter.mp (hperm.mem_iff.mp (List.mem_of_mem_take hd))
    exact mem_idsOf.mpr ⟨d, hpending.1, by simpa using hpending.2, hid⟩
  · have hlength : (fetchedDocs c tie batchSize).length = min batchSize (pendingDocs c).length := by
      rw [fetchedDocs, List.length_take, (outboxOrdering c tie).length_items]
    have hcard : (idsOf c false).card = (pendingDocs c).length := by
      rw [card_idsOf, List.countP_eq_length_filter, pendingDocs]
      simp
    rw [List.toFinset_card_of_nodup, List.length_map, hlength, hcard]
    exact (List.take_sublist _ _).map EventDoc.id |>.nodup hnodup

end Ids

/-! ## One step -/

section Steps

variable {batchSize : ℕ} {u v : IndexerState}

/-- The pass goes on. -/
theorem step_of_batch_eq (hevents : v.events = u.events) (hbatch : v.phase.batch = u.phase.batch) :
    Step batchSize u.backlog false v.backlog := by
  have hsame : v.backlog = u.backlog := by
    rw [IndexerState.backlog, IndexerState.backlog, hevents, hbatch]
  rw [hsame]
  exact .stay

/-- What is left when a pass has ended, having marked some ids. -/
theorem backlog_of_marked (ids : List String) (hevents : v.events = markIndexed u.events ids)
    (hbatch : v.phase.batch = none) :
    v.backlog = ⟨u.backlog.pending \ ids.toFinset,
      u.backlog.settled ∪ ids.toFinset ∩ u.backlog.pending, none⟩ := by
  rw [IndexerState.backlog, hevents, hbatch, idsOf_markIndexed_false, idsOf_markIndexed_true]
  rfl

/-- A pass that raises gives up. -/
theorem step_of_giveUp (ids : List String) (hevents : v.events = markIndexed u.events ids)
    (hbatch : v.phase.batch = none) : Step batchSize u.backlog false v.backlog := by
  rw [backlog_of_marked ids hevents hbatch]
  exact .giveUp

/-- A pass that gets through is complete. -/
theorem step_of_complete {ids : List String} (hmarking : u.phase = .marking ids)
    (hevents : v.events = markIndexed u.events ids) (hbatch : v.phase.batch = none) :
    Step batchSize u.backlog true v.backlog := by
  rw [backlog_of_marked ids hevents hbatch]
  exact .complete (congrArg IndexerPhase.batch hmarking)

theorem batch_failed (s : IndexerState) : s.failed.phase.batch = none := by
  rw [IndexerState.failed_phase]
  rfl

theorem batch_sending (s : IndexerState) (events : List EventDocument) :
    (s.sending events).phase.batch = some (events.map EventRecord.eventId).toFinset ∨
      (s.sending events).phase.batch = none := by
  rcases s.sending_cases events with h | h
  · exact Or.inl (by rw [h]; rfl)
  · exact Or.inr (by rw [h, batch_failed])

/-- With the mapping there, the pass goes on or gives up. -/
theorem step_of_mapped {s : IndexerState} (hevents : s.events = u.events)
    (hphase : s.phase = u.phase) : Step batchSize u.backlog false s.mapped.backlog := by
  have hsame : s.mapped.events = u.events := (IndexerState.mapped_events s).trans hevents
  have hbatch : s.mapped.phase.batch = s.phase.batch ∨ s.mapped.phase.batch = none := by
    unfold IndexerState.mapped
    split
    next events _ hensuring =>
      rw [hensuring]
      exact batch_sending _ events
    next => exact Or.inr rfl
  rcases hbatch with hbatch | hbatch
  · exact step_of_batch_eq hsame (hbatch.trans (by rw [hphase]))
  · exact step_of_giveUp [] hsame hbatch

theorem batch_missing (s : IndexerState) : s.missing.phase.batch = s.phase.batch := by
  unfold IndexerState.missing
  cases s.phase <;> rfl

/-- A step of the indexer is one of the backlog. -/
theorem backlog_of_indexerStep {a : IndexerAction} (ha : a.ofIndexer = true)
    (h : (indexerMachine batchSize).step u a = some v) :
    Step batchSize u.backlog a.completes v.backlog := by
  cases a with
  | write _ _ | crash | lose => exact absurd ha (by simp [IndexerAction.ofIndexer])
  | fetch tie =>
    simp only [indexerMachine] at h
    split at h
    next hidle =>
      obtain ⟨hsub, hcard⟩ := fetched_ids u.events tie batchSize
      split at h
      next =>
        obtain rfl := Option.some.inj h
        exact step_of_giveUp [] (IndexerState.failed_events u) (batch_failed u)
      next events hevents =>
        obtain rfl := rebuildAll_eq_some hevents
        split at h
        · exact Option.some.inj h ▸ .stay
        · split at h
          · obtain rfl := Option.some.inj h
            rcases u.sending_cases _ with hsending | hsending
            · exact hsending ▸ .take hsub hcard
            · rw [hsending]
              exact step_of_giveUp [] (IndexerState.failed_events u) (batch_failed u)
          · exact Option.some.inj h ▸ .take hsub hcard
    next => exact absurd h (by simp)
  | lookup raised =>
    obtain ⟨-, ⟨-, rfl⟩ | ⟨-, -, rfl⟩ | ⟨-, -, rfl⟩⟩ := lookup_cases h
    · exact step_of_giveUp [] (IndexerState.failed_events u) (batch_failed u)
    · exact step_of_mapped rfl rfl
    · exact step_of_batch_eq rfl (batch_missing u)
  | create raised =>
    obtain ⟨-, ⟨-, rfl⟩ | ⟨server, -, ⟨-, rfl⟩ | ⟨-, rfl⟩⟩⟩ := create_cases h
    · exact step_of_giveUp [] (IndexerState.failed_events u) (batch_failed u)
    · exact step_of_giveUp [] (IndexerState.failed_events _) (batch_failed _)
    · exact step_of_mapped rfl rfl
  | bulk o =>
    simp only [indexerMachine] at h
    split at h
    next events hindexing =>
      cases o with
      | answered refused =>
        obtain rfl := Option.some.inj h
        exact step_of_batch_eq rfl (by simp [IndexerPhase.batch, hindexing])
      | transport reached indexed =>
        obtain rfl := Option.some.inj h
        exact step_of_giveUp [] (IndexerState.failed_events _) (batch_failed _)
    next => exact absurd h (by simp)
  | mark raised =>
    simp only [indexerMachine] at h
    split at h
    next eventIds hmarking =>
      cases raised with
      | none =>
        obtain rfl := Option.some.inj h
        exact step_of_complete hmarking rfl rfl
      | some marked =>
        obtain rfl := Option.some.inj h
        exact step_of_giveUp (eventIds.filter marked) (by simp) (batch_failed _)
    next => exact absurd h (by simp)

section Platform

variable {ι ρ : Type} [DecidableEq ι] [DecidableEq ρ] [Fintype ι] {maxSize maxRetries : ℤ}
  {s t : PlatformState ι ρ}

/-- A step of the platform is one of the backlog. -/
theorem backlog_of_platformMove (hmax : 0 ≤ maxRetries) {o : Option IndexerAction}
    (h : PlatformMove maxSize batchSize maxRetries s o t) :
    Step batchSize s.indexer.backlog (o.any IndexerAction.completes) t.indexer.backlog := by
  cases h with
  | @pool a p stage hstep ha hmark =>
    obtain ⟨hsettled, hpending⟩ := idsOf_of_extends (extends_of_poolStep hmax hstep hmark)
    have hnew : Disjoint (idsOf p.worker.mongo.events false) s.indexer.backlog.settled := by
      change Disjoint _ (idsOf s.events true)
      exact hsettled ▸ disjoint_idsOf _
    have hbacklog : ({ s with pool := p, stage := stage } : PlatformState ι ρ).indexer.backlog
        = { s.indexer.backlog with
            pending := s.indexer.backlog.pending ∪ idsOf p.worker.mongo.events false } :=
      congrArg₂ (fun pending settled ↦ Backlog.mk pending settled s.indexing.batch) hpending
        hsettled
    rw [hbacklog]
    exact .add hnew
  | @index a u metrics stage hopen ha hstep =>
    have hindexed := backlog_of_indexerStep ha hstep
    exact hindexed
  | refresh _ _ _ | stop _ _ | lose => exact .stay
  | restart => exact step_of_giveUp [] rfl rfl

/-- A bulk request refuses only what is indexed, and the index is not lost. -/
def PlatformState.Indexes (s : PlatformState ι ρ) (a : PlatformAction ι ρ) : Prop :=
  ∀ b, a.indexing = some b → s.indexer.RefusalsIndexed b ∧ b ≠ .lose

/-- Marked stays indexed. -/
theorem markedIndexed_of_platformMove (hmax : 0 ≤ maxRetries) (hs : s.indexer.MarkedIndexed)
    {o : Option IndexerAction} (ho : ∀ b, o = some b → s.indexer.RefusalsIndexed b ∧ b ≠ .lose)
    (h : PlatformMove maxSize batchSize maxRetries s o t) : t.indexer.MarkedIndexed := by
  cases h with
  | @pool a p stage hstep ha hmark =>
    have hextends := extends_of_poolStep hmax hstep hmark
    refine ⟨fun d hd hmarked ↦ ?_, hs.marking⟩
    exact hs.marked d ((hextends.unmarked d hd).resolve_right (by simp [hmarked])) hmarked
  | @index a u metrics stage hopen ha hstep =>
    obtain ⟨hrefused, hkept⟩ := ho a rfl
    have hu := (markedIndexed_move_iff hs hkept (move_of_indexerStep hstep)).mpr hrefused
    exact ⟨hu.marked, hu.marking⟩
  | refresh _ _ _ | stop _ _ => exact ⟨hs.marked, hs.marking⟩
  | lose => exact absurd rfl (ho .lose rfl).2
  | restart =>
    refine ⟨hs.marked, fun _ hids ↦ absurd hids ?_⟩
    simp [PlatformState.restarted, PlatformState.indexer]

end Platform

end Steps

/-! ## Runs -/

section Runs

variable {ι ρ : Type} [DecidableEq ι] [DecidableEq ρ] [Fintype ι] {maxSize maxRetries : ℤ}
  {batchSize : ℕ} {s t u : PlatformState ι ρ} {as bs : List (PlatformAction ι ρ)}

/-- The passes that get through in a run. -/
def passesOf (maxSize : ℤ) (batchSize : ℕ) (maxRetries : ℤ) (s : PlatformState ι ρ)
    (as : List (PlatformAction ι ρ)) : ℕ :=
  (platformMachine ι ρ maxSize batchSize maxRetries).count (fun _ a _ ↦ a.completes) s as

theorem backlog_of_platformStep (hmax : 0 ≤ maxRetries) (s : PlatformState ι ρ)
    (a : PlatformAction ι ρ) (t : PlatformState ι ρ)
    (h : (platformMachine ι ρ maxSize batchSize maxRetries).step s a = some t) :
    Step batchSize s.indexer.backlog a.completes t.indexer.backlog :=
  backlog_of_platformMove hmax (move_of_platformStep h)

/-- The backlog of a run is sound. -/
theorem sound_backlog (hmax : 0 ≤ maxRetries)
    (hinit : (platformMachine ι ρ maxSize batchSize maxRetries).init s)
    (h : (platformMachine ι ρ maxSize batchSize maxRetries).exec s as = some t) :
    t.indexer.backlog.Sound := by
  have hs : s.indexer.backlog.Sound := by
    refine ⟨disjoint_idsOf _, fun batch hbatch ↦ absurd hbatch ?_⟩
    rw [hinit.1]
    simp [PlatformState.restarted, PlatformState.indexer, IndexerState.backlog, IndexerPhase.batch]
  exact (progress_exec (fun v : PlatformState ι ρ ↦ v.indexer.backlog)
    (backlog_of_platformStep hmax) hs h).sound

/-- Marked stays indexed in a run. -/
theorem markedIndexed_of_platformExec (hmax : 0 ≤ maxRetries)
    (hinit : (platformMachine ι ρ maxSize batchSize maxRetries).init s)
    (hmarked : ∀ d ∈ s.events.docs, d.esIndexed = true → s.server.Has d.id)
    (hindexes : (platformMachine ι ρ maxSize batchSize maxRetries).Along PlatformState.Indexes s as)
    (h : (platformMachine ι ρ maxSize batchSize maxRetries).exec s as = some t) :
    t.indexer.MarkedIndexed := by
  refine Machine.exec_preserves_along (P := fun v : PlatformState ι ρ ↦ v.indexer.MarkedIndexed)
    (fun _ _ _ hv ha hstep ↦ markedIndexed_of_platformMove hmax hv ha (move_of_platformStep hstep))
    ⟨hmarked, fun ids hids ↦ absurd hids ?_⟩ hindexes h
  rw [hinit.1]
  simp [PlatformState.restarted, PlatformState.indexer]

/-- A source renders the event, whatever the marker. -/
theorem EsSource.Mirrors.congr {source : EsSource} {d d' : EventDoc BsonDate}
    (h : source.Mirrors d) (hevent : d.event = d'.event) : source.Mirrors d' := by
  refine ⟨?_, hevent ▸ h.text⟩
  rw [h.event, EventDoc.rendering, EventDoc.rendering, hevent]

/-- What has been stored in the course of a run is stored at its end, and is marked if it was. -/
theorem exists_kept (hmax : 0 ≤ maxRetries)
    (hinit : (platformMachine ι ρ maxSize batchSize maxRetries).init s)
    (hmirrors : s.indexer.Mirrors)
    (h : (platformMachine ι ρ maxSize batchSize maxRetries).exec s as = some t)
    (hlater : (platformMachine ι ρ maxSize batchSize maxRetries).exec t bs = some u)
    {d : EventDoc BsonDate} (hd : d ∈ t.events.docs) :
    ∃ d' ∈ u.events.docs, d'.id = d.id ∧ d'.event = d.event ∧
      (d.esIndexed = true → d'.esIndexed = true) := by
  have hkeeps := keeps_of_platformExec ((Faithful.init hinit hmirrors).exec hmax h) hmax hlater
  obtain ⟨d', hd', hkept⟩ := hkeeps d.id d (t.events.find?_eq_some.mpr ⟨hd, rfl⟩)
  obtain ⟨hd', hid⟩ := u.events.find?_eq_some.mp hd'
  exact ⟨d', hd', hid, hkept⟩

/-- Once enough passes have got through, what was stored is marked. -/
theorem marked_of_passes (hmax : 0 ≤ maxRetries)
    (hinit : (platformMachine ι ρ maxSize batchSize maxRetries).init s)
    (hmirrors : s.indexer.Mirrors)
    (h : (platformMachine ι ρ maxSize batchSize maxRetries).exec s as = some t)
    (hlater : (platformMachine ι ρ maxSize batchSize maxRetries).exec t bs = some u)
    (henough : u.events.docs.length ≤ (t.events.docs.countP fun d ↦ d.esIndexed = true)
      + (passesOf maxSize batchSize maxRetries t bs - t.indexer.backlog.underWay) * batchSize)
    {d : EventDoc BsonDate} (hd : d ∈ t.events.docs) :
    ∃ d' ∈ u.events.docs, d'.id = d.id ∧ d'.event = d.event ∧ d'.esIndexed = true := by
  obtain ⟨d', hd', hid, hevent, hkept⟩ := exists_kept hmax hinit hmirrors h hlater hd
  refine ⟨d', hd', hid, hevent, ?_⟩
  cases hset : d.esIndexed with
  | true => exact hkept hset
  | false =>
    rw [← card_idsOf, ← card_idsOf_union] at henough
    have hsettled := catches_up (fun v : PlatformState ι ρ ↦ v.indexer.backlog)
      (backlog_of_platformStep hmax) (sound_backlog hmax hinit h) hlater henough
    obtain ⟨d'', hd'', hmarked, hid'⟩ := mem_idsOf.mp (hsettled (mem_idsOf.mpr ⟨d, hd, hset, rfl⟩))
    rwa [List.inj_on_of_nodup_map u.events.nodup hd' hd'' (hid.trans hid'.symm)]

/-- And if the index has kept all it was sent, it is there. -/
theorem mirrored_of_passes (hmax : 0 ≤ maxRetries)
    (hinit : (platformMachine ι ρ maxSize batchSize maxRetries).init s)
    (hmirrors : s.indexer.Mirrors)
    (hmarked : ∀ d ∈ s.events.docs, d.esIndexed = true → s.server.Has d.id)
    (h : (platformMachine ι ρ maxSize batchSize maxRetries).exec s as = some t)
    (hlater : (platformMachine ι ρ maxSize batchSize maxRetries).exec t bs = some u)
    (henough : u.events.docs.length ≤ (t.events.docs.countP fun d ↦ d.esIndexed = true)
      + (passesOf maxSize batchSize maxRetries t bs - t.indexer.backlog.underWay) * batchSize)
    (hindexes : (platformMachine ι ρ maxSize batchSize maxRetries).Along PlatformState.Indexes s
      (as ++ bs)) {d : EventDoc BsonDate} (hd : d ∈ t.events.docs) :
    ∃ d' ∈ u.events.docs, d'.event = d.event ∧
      ∃ source, u.server.docAt d.id = some source ∧ source.Mirrors d' := by
  obtain ⟨d', hd', hid, hevent, hset⟩ := marked_of_passes hmax hinit hmirrors h hlater henough hd
  have hrun := (Machine.exec_append_eq_some _).mpr ⟨t, h, hlater⟩
  have hindexed :=
    (markedIndexed_of_platformExec hmax hinit hmarked hindexes hrun).marked d' hd' hset
  obtain ⟨source, hsource⟩ := Option.isSome_iff_exists.mp (EsServer.has_iff_docAt.mp hindexed)
  have hfaithful := (Faithful.init hinit hmirrors).exec hmax hrun
  obtain ⟨d'', hd'', hid', hmirror⟩ := hfaithful.mirror.mirrors d'.id source hsource
  obtain rfl : d'' = d' := List.inj_on_of_nodup_map u.events.nodup hd'' hd' hid'
  exact ⟨d'', hd', hevent, source, hid ▸ hsource, hmirror⟩

end Runs

/-- **The outbox catches up.** Take any two moments of a run, over any number of processes, whatever
the workers, the replays and the clients do, and however many passes of the indexer fail. If between
them so many passes got through that they could have marked, but for one that was under way already,
what is stored by the later moment and was not marked at the earlier, then every event that was
stored at the earlier moment is marked at the later. If no document of the run has been refused
without being indexed, and the index was not lost, then it is in the index, as it is stored. -/
theorem outbox_catches_up (ι ρ : Type) [DecidableEq ι] [DecidableEq ρ] [Fintype ι] (maxSize : ℤ)
    (batchSize : ℕ) (maxRetries : ℤ) (hmax : 0 ≤ maxRetries) (s t u : PlatformState ι ρ)
    (as bs : List (PlatformAction ι ρ))
    (hinit : (platformMachine ι ρ maxSize batchSize maxRetries).init s)
    (hmirrors : s.indexer.Mirrors)
    (hmarked : ∀ d ∈ s.events.docs, d.esIndexed = true → s.server.Has d.id)
    (h : (platformMachine ι ρ maxSize batchSize maxRetries).exec s as = some t)
    (hlater : (platformMachine ι ρ maxSize batchSize maxRetries).exec t bs = some u)
    (henough : u.events.docs.length ≤ (t.events.docs.countP fun d ↦ d.esIndexed = true)
      + (passesOf maxSize batchSize maxRetries t bs - t.indexer.backlog.underWay) * batchSize) :
    (∀ d ∈ t.events.docs, ∃ d' ∈ u.events.docs, d'.id = d.id ∧ d'.event = d.event ∧
        d'.esIndexed = true) ∧
      ((platformMachine ι ρ maxSize batchSize maxRetries).Along PlatformState.Indexes s (as ++ bs) →
        ∀ d ∈ t.events.docs, ∃ source, u.server.docAt d.id = some source ∧ source.Mirrors d) := by
  refine ⟨fun d hd ↦ marked_of_passes hmax hinit hmirrors h hlater henough hd, ?_⟩
  intro hindexes d hd
  obtain ⟨d', -, hevent, source, hsource, hmirror⟩ :=
    mirrored_of_passes hmax hinit hmirrors hmarked h hlater henough hindexes hd
  exact ⟨source, hsource, hmirror.congr hevent⟩

/-- The index is not lost, and refuses nothing. -/
def IndexerAction.Harmless : IndexerAction → Prop
  | .lose => False
  | .bulk (.answered refused) => ∀ i, refused i = false
  | _ => True

theorem PlatformState.indexes_of_harmless {ι ρ : Type} (s : PlatformState ι ρ)
    {a : PlatformAction ι ρ} (h : ∀ b ∈ a.indexing, b.Harmless) : s.Indexes a := by
  refine fun b hb ↦ ⟨?_, fun hlose ↦ ?_⟩
  · unfold IndexerState.RefusalsIndexed
    split
    · intro events _ i e _ hrefused
      exact absurd (h _ hb i) (by simp [hrefused])
    · trivial
  · subst hlose
    exact h _ hb

/-- An event is stored. -/
def storedEventRun : List (PlatformAction (Fin 1) (Fin 1)) := indexedEventRun.take 9

/-- A pass fails, and the next one gets through. -/
def secondPassRun : List (PlatformAction (Fin 1) (Fin 1)) :=
  [.index (.fetch fun _ ↦ 0), .index (.bulk (.transport false fun _ ↦ false)),
    .index (.fetch fun _ ↦ 0), .index (.bulk (.answered fun _ ↦ false)), .index (.mark none)]

theorem secondPassRun_indexes : (platformMachine (Fin 1) (Fin 1) 10 1 0).Along
    PlatformState.Indexes .cold (storedEventRun ++ secondPassRun) := by
  have hall : ∀ a ∈ storedEventRun ++ secondPassRun, ∀ b ∈ a.indexing, b.Harmless := by
    simp [storedEventRun, indexedEventRun, secondPassRun, PlatformAction.indexing,
      IndexerAction.Harmless]
  exact fun bs a cs v heq _ ↦ v.indexes_of_harmless (hall a (heq ▸ by simp))

theorem secondPassRun_catches_up :
    ∃ t u, (platformMachine (Fin 1) (Fin 1) 10 1 0).exec .cold storedEventRun = some t ∧
      (platformMachine (Fin 1) (Fin 1) 10 1 0).exec t secondPassRun = some u ∧
      t.events.docs.map EventDoc.id = ["e1"] ∧
      ∀ d ∈ t.events.docs, ∃ source, u.server.docAt d.id = some source ∧ source.Mirrors d := by
  refine ⟨_, _, rfl, rfl, rfl, ?_⟩
  exact (outbox_catches_up (Fin 1) (Fin 1) 10 1 0 le_rfl .cold _ _ storedEventRun secondPassRun
    ⟨rfl, rfl, rfl, rfl, rfl⟩ (IndexerState.mirrors_of_empty fun _ ↦ rfl)
    (fun _ hd ↦ absurd hd List.not_mem_nil) rfl rfl (by decide)).2 secondPassRun_indexes

end Acheron
