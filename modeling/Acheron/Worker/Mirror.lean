import Acheron.Worker.EsIndexer

/-!
# The mirror

What the Elasticsearch index holds, compared with what Mongo holds. The two stores are written by
different tasks: the writers insert events, whenever they like and under ids that may be taken; the
indexer copies what it has read some steps ago, again and again if a pass fails or the process dies.
Still every document of the index is the rendering of the stored document with its id.

The reason is that a stored event never changes. An insert under a taken id is refused, and marking
touches the marker only; so what the indexer has read stays true of the store for as long as it
takes to be sent. `Follows` says what a step can do to the two stores in these terms, and
`mirror_faithful` follows from it.
-/

open Runs

namespace Acheron

/-! ## Rendering a stored document -/

/-- The JSON rendering of a stored document, without `_id` and `es_indexed`. -/
def EventDoc.rendering (d : EventDoc BsonDate) : EventRecord String :=
  { d.event.mapDates fun date ↦ date.toDateTime.isoformat with metadata := d.event.metadata.dump }

/-- The source is the rendering of the stored document and the text of its metadata. -/
structure EsSource.Mirrors (source : EsSource) (d : EventDoc BsonDate) : Prop where
  event : source.event = d.rendering
  text : source.metadataText = Acheron.metadataText d.event.metadata

/-- What the indexer builds from what it has read. -/
theorem esSource_rebuild (d : EventDoc BsonDate) : (esSource d.event.rebuild).Mirrors d :=
  ⟨rfl, rfl⟩

/-- One stored document has one source. -/
theorem EsSource.Mirrors.unique {source source' : EsSource} {d d' : EventDoc BsonDate}
    (h : source.Mirrors d) (h' : source'.Mirrors d') (hevent : d'.event = d.event) :
    source' = source := by
  obtain ⟨event, text⟩ := source
  obtain ⟨event', text'⟩ := source'
  obtain ⟨rfl, rfl⟩ := h
  obtain ⟨rfl, rfl⟩ := h'
  simp [EventDoc.rendering, hevent]

/-! ## The two stores -/

namespace EsServer

/-- The document under an id. -/
def docAt (server : EsServer) (k : String) : Option EsSource := server.bind fun index ↦ index.docs k

theorem has_iff_docAt {server : EsServer} {k : String} :
    server.Has k ↔ (server.docAt k).isSome := by
  rcases server with _ | index
  · simp [Has, docAt]
  · simp [Has, docAt]

theorem putAll_eq_some {docs : String → Option EsSource} {events : List EventDocument}
    {refused : ℕ → Bool} {k : String} {source : EsSource}
    (h : putAll docs events refused k = some source) :
    docs k = some source ∨ ∃ e ∈ events, e.eventId = k ∧ source = esSource e := by
  induction events generalizing docs refused with
  | nil => exact Or.inl h
  | cons e es ih =>
    rw [putAll] at h
    rcases ih h with hold | ⟨x, hx, hk, hsource⟩
    · by_cases hr : refused 0 = true
      · rw [if_pos hr] at hold
        exact Or.inl hold
      · rw [if_neg hr] at hold
        by_cases hk : k = e.eventId
        · subst hk
          rw [Function.update_self] at hold
          exact Or.inr ⟨e, List.mem_cons_self, rfl, (Option.some.inj hold).symm⟩
        · rw [Function.update_of_ne hk] at hold
          exact Or.inl hold
    · exact Or.inr ⟨x, List.mem_cons_of_mem _ hx, hk, hsource⟩

/-- What is under an id after a request was there before it, or is in the request. -/
theorem docAt_bulk {server : EsServer} {events : List EventDocument} {refused : ℕ → Bool}
    {k : String} {source : EsSource} (h : (server.bulk events refused).docAt k = some source) :
    server.docAt k = some source ∨ ∃ e ∈ events, e.eventId = k ∧ source = esSource e := by
  have hold : server.autoCreated.docs k = server.docAt k := by
    rcases server with _ | index <;> rfl
  rw [← hold]
  exact putAll_eq_some h

theorem docAt_afterBulk {server : EsServer} {events : List EventDocument} {o : BulkOutcome}
    {k : String} {source : EsSource} (h : (server.afterBulk events o).docAt k = some source) :
    server.docAt k = some source ∨ ∃ e ∈ events, e.eventId = k ∧ source = esSource e := by
  match o with
  | .answered refused => exact docAt_bulk h
  | .transport reached indexed =>
    rw [afterBulk] at h
    split at h
    · exact docAt_bulk h
    · exact Or.inl h

end EsServer

/-- The events of a pass that are still to be sent. -/
def IndexerPhase.unsent : IndexerPhase → List EventDocument
  | .ensuring events _ | .indexing events => events
  | _ => []

namespace IndexerState

/-- Every document of the index is the rendering of the stored document with its id. -/
def Mirrors (s : IndexerState) : Prop :=
  ∀ k source, s.server.docAt k = some source →
    ∃ d ∈ s.events.docs, d.id = k ∧ source.Mirrors d

/-- What the indexer is about to send is what is stored. -/
structure MirrorInvariant (s : IndexerState) : Prop where
  mirrors : s.Mirrors
  unsent : ∀ e ∈ s.phase.unsent, ∃ d ∈ s.events.docs, e = d.event.rebuild

/-- **What a step can do to the stores.** A stored event stays as it is; a document of the index was
there before, or is built from an event of the pass; and a pass has what was read from the store. -/
structure Follows (s t : IndexerState) : Prop where
  stored : ∀ d ∈ s.events.docs, ∃ d' ∈ t.events.docs, d'.id = d.id ∧ d'.event = d.event
  indexed : ∀ k source, t.server.docAt k = some source → s.server.docAt k = some source ∨
    ∃ e ∈ s.phase.unsent, e.eventId = k ∧ source = esSource e
  unsent : ∀ e ∈ t.phase.unsent, e ∈ s.phase.unsent ∨ ∃ d ∈ s.events.docs, e = d.event.rebuild

end IndexerState

open IndexerState

/-! ## One step -/

/-- An insert leaves the stored documents alone. -/
theorem mem_docs_bulkWrite_of_mem {c : Events} {batch : List EventDocument} {o : InsertOutcome}
    {d : EventDoc BsonDate} (h : d ∈ c.docs) : d ∈ (bulkWrite c batch o).1.docs := by
  by_cases hb : batch = []
  · subst hb
    exact h
  · rw [bulkWrite_of_ne_nil hb]
    exact (Keyed.Collection.docs_prefix_insertMany c (batchDocs batch) o.blocked).subset h

/-- Marking leaves the stored events alone. -/
theorem exists_mem_markIndexed {c : Events} {ids : List String} {d : EventDoc BsonDate}
    (h : d ∈ c.docs) : ∃ d' ∈ (markIndexed c ids).docs, d'.id = d.id ∧ d'.event = d.event := by
  rw [markIndexed]
  split
  · exact ⟨d, h, rfl, rfl⟩
  · refine ⟨d.mark ids, List.mem_map_of_mem h, EventDoc.mark_id ids d, ?_⟩
    unfold EventDoc.mark
    split <;> rfl

/-- What is read from the outbox is stored. -/
theorem mem_fetchUnindexed {c : Events} {tie : String → ℕ} {limit : ℕ} {e : EventRecord BsonDate}
    (h : e ∈ fetchUnindexed c tie limit) : ∃ d ∈ c.docs, e = d.event := by
  obtain ⟨d, hd, rfl⟩ := List.mem_map.mp h
  have hsorted := List.mem_of_mem_take hd
  rw [List.mem_insertionSort] at hsorted
  exact ⟨d, (List.mem_filter.mp hsorted).1, rfl⟩

namespace IndexerState

variable {s t : IndexerState}

theorem unsent_missing {e : EventDocument} (h : e ∈ s.missing.phase.unsent) :
    e ∈ s.phase.unsent := by
  unfold missing at h
  dsimp only at h
  split at h
  case h_1 => exact absurd h List.not_mem_nil
  case h_2 events _ hphase =>
    rw [hphase]
    exact h
  case h_3 => exact h

theorem unsent_failed (s : IndexerState) : s.failed.phase.unsent = [] := by
  rw [failed_phase]
  rfl

theorem unsent_sending {events : List EventDocument} {e : EventDocument}
    (h : e ∈ (s.sending events).phase.unsent) : e ∈ events := by
  rcases s.sending_cases events with hs | hs
  · rw [hs] at h
    exact h
  · rw [hs, unsent_failed] at h
    exact absurd h List.not_mem_nil

theorem unsent_mapped {e : EventDocument} (h : e ∈ s.mapped.phase.unsent) : e ∈ s.phase.unsent := by
  unfold mapped at h
  split at h
  case h_1 events _ hphase =>
    rw [hphase]
    exact unsent_sending h
  case h_2 => exact absurd h List.not_mem_nil

namespace Follows

/-- A step that writes no event, and puts nothing new into the index. -/
theorem of_quiet (hevents : t.events = s.events)
    (hserver : ∀ k source, t.server.docAt k = some source → s.server.docAt k = some source)
    (hunsent : ∀ e ∈ t.phase.unsent, e ∈ s.phase.unsent) : Follows s t where
  stored d hd := ⟨d, hevents ▸ hd, rfl, rfl⟩
  indexed k source h := Or.inl (hserver k source h)
  unsent e he := Or.inl (hunsent e he)

/-- A pass that raises has put nothing new into the index. -/
theorem of_failed {u : IndexerState} (hevents : u.events = s.events)
    (hserver : ∀ k source, u.server.docAt k = some source → s.server.docAt k = some source) :
    Follows s u.failed := by
  refine of_quiet ((failed_events u).trans hevents) (fun k source h ↦ ?_) fun e he ↦ ?_
  · rw [failed_server] at h
    exact hserver k source h
  · rw [unsent_failed] at he
    exact absurd he List.not_mem_nil

/-- A new index holds nothing. -/
theorem docAt_create {server server' : EsServer} (h : server.create = some server') (k : String) :
    server'.docAt k = none := by
  match server with
  | some _ => exact absurd h (by simp [EsServer.create])
  | none =>
    obtain rfl := Option.some.inj h
    rfl

theorem of_step {batchSize : ℕ} {a : IndexerAction}
    (h : (indexerMachine batchSize).step s a = some t) : Follows s t := by
  induction a with
  | write batch o =>
    obtain rfl := Option.some.inj h
    exact ⟨fun d hd ↦ ⟨d, mem_docs_bulkWrite_of_mem hd, rfl, rfl⟩, fun _ _ ↦ Or.inl,
      fun _ ↦ Or.inl⟩
  | fetch tie =>
    -- What a pass reads is stored at that moment.
    have hread : ∀ e ∈ (fetchUnindexed s.events tie batchSize).map EventRecord.rebuild,
        ∃ d ∈ s.events.docs, e = d.event.rebuild := by
      intro e he
      obtain ⟨r, hr, rfl⟩ := List.mem_map.mp he
      obtain ⟨d, hd, rfl⟩ := mem_fetchUnindexed hr
      exact ⟨d, hd, rfl⟩
    simp only [indexerMachine] at h
    split at h
    case h_1 =>
      split at h
      case h_1 =>
        obtain rfl := Option.some.inj h
        exact of_failed rfl fun _ _ ↦ id
      case h_2 events hevents =>
        obtain rfl := rebuildAll_eq_some hevents
        split at h
        · obtain rfl := Option.some.inj h
          exact of_quiet rfl (fun _ _ ↦ id) fun _ ↦ id
        · split at h <;> obtain rfl := Option.some.inj h
          · refine ⟨fun d hd ↦ ⟨d, by rwa [sending_events], rfl, rfl⟩, fun k source hd ↦ ?_,
              fun e he ↦ Or.inr (hread e (unsent_sending he))⟩
            rw [sending_server] at hd
            exact Or.inl hd
          · exact ⟨fun d hd ↦ ⟨d, hd, rfl, rfl⟩, fun _ _ ↦ Or.inl, fun e he ↦ Or.inr (hread e he)⟩
    case h_2 => exact absurd h (by simp)
  | lookup raised =>
    obtain ⟨-, ⟨-, rfl⟩ | ⟨-, -, rfl⟩ | ⟨-, -, rfl⟩⟩ := lookup_cases h
    · exact of_failed rfl fun _ _ ↦ id
    · refine of_quiet (mapped_events s) (fun k source hd ↦ ?_) fun e ↦ unsent_mapped
      rwa [mapped_server] at hd
    · exact of_quiet rfl (fun _ _ ↦ id) fun e ↦ unsent_missing
  | create raised =>
    obtain ⟨-, ⟨-, rfl⟩ | ⟨server, hcreate, ⟨-, rfl⟩ | ⟨-, rfl⟩⟩⟩ := create_cases h
    · exact of_failed rfl fun _ _ ↦ id
    · exact of_failed rfl fun k source hd ↦ absurd hd (by simp [docAt_create hcreate])
    · refine of_quiet (mapped_events _) (fun k source hd ↦ ?_) fun e he ↦
        unsent_mapped (s := { s with server := server }) he
      rw [mapped_server] at hd
      exact absurd hd (by simp [docAt_create hcreate])
  | bulk o =>
    simp only [indexerMachine] at h
    split at h
    case h_1 events hindexing =>
      have hunsent : s.phase.unsent = events := by rw [hindexing]; rfl
      induction o with
      | answered refused =>
        obtain rfl := Option.some.inj h
        refine ⟨fun d hd ↦ ⟨d, hd, rfl, rfl⟩, fun k source hd ↦ ?_,
          fun e he ↦ absurd he List.not_mem_nil⟩
        -- Whatever the request indexed is of the pass.
        rw [hunsent]
        exact EsServer.docAt_afterBulk (o := .answered refused) hd
      | transport reached indexed =>
        obtain rfl := Option.some.inj h
        refine ⟨fun d hd ↦ ⟨d, (failed_events _).symm ▸ hd, rfl, rfl⟩, fun k source hd ↦ ?_,
          fun e he ↦ ?_⟩
        · rw [failed_server] at hd
          rw [hunsent]
          exact EsServer.docAt_afterBulk (o := .transport reached indexed) hd
        · rw [unsent_failed] at he
          exact absurd he List.not_mem_nil
    case h_2 => exact absurd h (by simp)
  | mark raised =>
    simp only [indexerMachine] at h
    split at h
    case h_1 eventIds _ =>
      induction raised with
      | none =>
        obtain rfl := Option.some.inj h
        exact ⟨fun d hd ↦ exists_mem_markIndexed hd, fun _ _ ↦ Or.inl,
          fun e he ↦ absurd he List.not_mem_nil⟩
      | some marked =>
        obtain rfl := Option.some.inj h
        refine ⟨fun d hd ↦ ?_, fun k source hd ↦ Or.inl ?_, fun e he ↦ ?_⟩
        · rw [failed_events]
          exact exists_mem_markIndexed hd
        · rwa [failed_server] at hd
        · rw [unsent_failed] at he
          exact absurd he List.not_mem_nil
    case h_2 => exact absurd h (by simp)
  | crash =>
    obtain rfl := Option.some.inj h
    exact of_quiet rfl (fun _ _ ↦ id) fun e he ↦ absurd he List.not_mem_nil
  | lose =>
    obtain rfl := Option.some.inj h
    exact of_quiet rfl (fun k source hd ↦ absurd hd (by simp [EsServer.docAt])) fun _ ↦ id

end Follows

/-- **A step keeps the mirror faithful.** -/
theorem MirrorInvariant.follow (hs : s.MirrorInvariant) (h : Follows s t) : t.MirrorInvariant := by
  refine ⟨fun k source hdoc ↦ ?_, fun e he ↦ ?_⟩
  -- A document that was there mirrors what is still stored; a new one mirrors what was read.
  · rcases h.indexed k source hdoc with hold | ⟨e, he, rfl, rfl⟩
    · obtain ⟨d, hd, hid, hmirror⟩ := hs.mirrors k source hold
      obtain ⟨d', hd', hid', hevent⟩ := h.stored d hd
      refine ⟨d', hd', hid'.trans hid, ?_, ?_⟩
      · rw [hmirror.event, EventDoc.rendering, EventDoc.rendering, hevent]
      · rw [hmirror.text, hevent]
    · obtain ⟨d, hd, rfl⟩ := hs.unsent e he
      obtain ⟨d', hd', hid', hevent⟩ := h.stored d hd
      refine ⟨d', hd', hid'.trans d.id_eq, ?_⟩
      rw [← hevent]
      exact esSource_rebuild d'
  · have hread : ∃ d ∈ s.events.docs, e = d.event.rebuild := by
      rcases h.unsent e he with hold | hnew
      · exact hs.unsent e hold
      · exact hnew
    obtain ⟨d, hd, rfl⟩ := hread
    obtain ⟨d', hd', -, hevent⟩ := h.stored d hd
    exact ⟨d', hd', by rw [hevent]⟩

/-- An empty index mirrors any store. -/
theorem mirrors_of_empty (h : ∀ k, s.server.docAt k = none) : s.Mirrors :=
  fun k source hdoc ↦ absurd hdoc (by simp [h k])

/-- While the index is not lost, no document leaves it. -/
theorem has_of_step {batchSize : ℕ} {a : IndexerAction}
    (h : (indexerMachine batchSize).step s a = some t) (ha : s.KeepsIndex a) {k : String}
    (hk : s.server.Has k) : t.server.Has k := by
  have hmove := move_of_indexerStep h
  induction hmove with
  | quiet _ _ hserver _ => exact hserver k hk
  | write _ hserver _ => exact hserver ▸ hk
  | answered events _ _ hserver _ =>
    rw [hserver, EsServer.has_bulk]
    exact Or.inl hk
  | mark _ _ _ _ _ hserver _ => exact hserver ▸ hk
  | lose => exact absurd rfl ha

/-- **A document of a faithful mirror never changes**, while the index is not lost. -/
theorem docAt_of_step {batchSize : ℕ} {a : IndexerAction} (hs : s.MirrorInvariant)
    (h : (indexerMachine batchSize).step s a = some t) (ha : s.KeepsIndex a) {k : String}
    {source : EsSource} (hdoc : s.server.docAt k = some source) :
    t.server.docAt k = some source := by
  have hfollows := Follows.of_step h
  have hhas := has_of_step h ha (EsServer.has_iff_docAt.mpr (by rw [hdoc]; rfl))
  obtain ⟨source', hdoc'⟩ := Option.isSome_iff_exists.mp (EsServer.has_iff_docAt.mp hhas)
  obtain ⟨d, hd, hid, hmirror⟩ := hs.mirrors k source hdoc
  obtain ⟨d', hd', hid', hmirror'⟩ := (hs.follow hfollows).mirrors k source' hdoc'
  -- The stored document is the same before and after the step, so its source is.
  obtain ⟨d'', hd'', hid'', hevent⟩ := hfollows.stored d hd
  have hsame : d'' = d' := t.events.eq_of_key_eq hd'' hd' (hid''.trans (hid.trans hid'.symm))
  rw [hdoc', hmirror.unique hmirror' (hsame ▸ hevent)]

end IndexerState

/-! ## Whole runs -/

/-- **The mirror is faithful.** In every run from an index that mirrors the store — an empty one,
say — every document of the index is the rendering of the stored document with its id. From any
state of the run on, as long as the index is not lost, a document in it stays as it is, however
often its event is indexed again. -/
theorem mirror_faithful (batchSize : ℕ) (s t : IndexerState) (as : List IndexerAction)
    (hinit : (indexerMachine batchSize).init s) (hstart : s.Mirrors)
    (hrun : (indexerMachine batchSize).exec s as = some t) :
    (∀ k source, t.server.docAt k = some source →
        ∃ d ∈ t.events.docs, d.id = k ∧ source.Mirrors d) ∧
      ∀ u bs, (indexerMachine batchSize).exec t bs = some u →
        (indexerMachine batchSize).Along KeepsIndex t bs →
          ∀ k source, t.server.docAt k = some source → u.server.docAt k = some source := by
  obtain ⟨-, -, hphase⟩ := hinit
  have ht : t.MirrorInvariant := by
    refine Machine.exec_preserves (fun u a v hu hstep ↦ hu.follow (Follows.of_step hstep)) ?_ hrun
    exact ⟨hstart, fun e he ↦ absurd he (by rw [hphase]; exact List.not_mem_nil)⟩
  refine ⟨ht.mirrors, fun u bs hbs hkeeps k source hdoc ↦ ?_⟩
  have hu : u.MirrorInvariant ∧ u.server.docAt k = some source := by
    -- The invariant goes along: it is what makes a second rendering the same.
    refine Machine.exec_preserves_along
      (P := fun v ↦ v.MirrorInvariant ∧ v.server.docAt k = some source) (C := KeepsIndex)
      (fun v a w hv ha hstep ↦ ?_) ⟨ht, hdoc⟩ hkeeps hbs
    exact ⟨hv.1.follow (Follows.of_step hstep), docAt_of_step hv.1 hstep ha hv.2⟩
  exact hu.2

/-- A pass up to the answer to its bulk request. -/
def indexedRun : List IndexerAction :=
  [.lookup false, .fetch fun _ ↦ 0, .bulk (.answered fun _ ↦ false)]

/-- Another event arrives under the same id; the process dies before it has marked the first, and
indexes it again. -/
def reindexedRun : List IndexerAction :=
  [.write [{ makeEvent "e1" with userId := "u2" }] (.answered fun _ ↦ false), .crash,
    .lookup false, .fetch fun _ ↦ 0, .bulk (.answered fun _ ↦ false), .mark none]

theorem reindexedRun_unchanged :
    ∃ t u source, (indexerMachine 10).exec .outboxOfOne indexedRun = some t ∧
      (indexerMachine 10).exec t reindexedRun = some u ∧
      t.server.docAt "e1" = some source ∧ u.server.docAt "e1" = some source ∧
      ∃ d ∈ u.events.docs, d.id = "e1" ∧ source.Mirrors d := by
  have hempty : IndexerState.outboxOfOne.Mirrors := mirrors_of_empty fun _ ↦ rfl
  have hkeeps (t : IndexerState) : (indexerMachine 10).Along KeepsIndex t reindexedRun :=
    Machine.along_of_forall (D := fun a : IndexerAction ↦ a ≠ .lose) (by simp [reindexedRun])
  obtain ⟨-, hsame⟩ := mirror_faithful 10 .outboxOfOne _ indexedRun outboxOfOne_init hempty rfl
  have hdoc := hsame _ reindexedRun rfl (hkeeps _) "e1" _ rfl
  obtain ⟨hmirrors, -⟩ := mirror_faithful 10 .outboxOfOne _ (indexedRun ++ reindexedRun)
    outboxOfOne_init hempty rfl
  exact ⟨_, _, _, rfl, rfl, rfl, hdoc, hmirrors "e1" _ hdoc⟩

end Acheron
