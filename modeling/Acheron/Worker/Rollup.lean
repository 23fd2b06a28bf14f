import Mathlib.Data.List.Induction
import Acheron.Event.Iso
import Acheron.Lib.Runs
import Acheron.Storage.Batching
import Acheron.Storage.Stats

/-!
# The rollup scheduler

`RollupScheduler` refreshes one document, first in `start` and then in its loop, so one refresh ends
before the next begins. A refresh is an aggregation, which sees the events as they are at one
moment, and an upsert; events are inserted and marked all the while. Either call may fail, and a
refresh that is given up with its task has failed. An upsert that takes effect has succeeded,
whether or not its acknowledgement arrives.

`rollupMachine` keeps, as history, the events each aggregation has seen. `Backed` says that these
lie one behind the other: what the rollup counts, what a refresh under way has counted, what there
is now.
-/

open Runs Paging

namespace Acheron

/-- The document of the rollups collection; `computedAt` is in ISO format. -/
structure RollupDoc where
  counts : List StatRow
  total : ℕ
  computedAt : String

/-- The orders in which Mongo may answer an unfiltered aggregation. -/
abbrev CountsAnswer (c : Events) : Type :=
  Ordering (StatRow.sortKey none) (statRows c none none none)

/-- Where the scheduler is. -/
inductive RefreshPhase where
  | waiting
  /-- The aggregation has answered; the upsert is under way. -/
  | upserting (counts : List StatRow)

/-- The two collections and the scheduler. -/
structure RollupState where
  events : Events
  rollup : Option RollupDoc
  phase : RefreshPhase
  /-- History: the events the last aggregation has seen. -/
  seen : Events
  /-- History: the events the aggregation behind the rollup has seen. -/
  rollupSeen : Events

/-- What may happen next. -/
inductive RollupAction where
  | insert (batch : List EventDocument) (o : InsertOutcome)
  | markIndexed (eventIds : List String)
  | aggregate (answer : ∀ c : Events, CountsAnswer c)
  | aggregateError
  | upsert (now : DateTime)
  /-- The upsert raises without having taken effect; one that raises after it is an `upsert`. -/
  | upsertError

/-- The scheduler, and what happens to the events meanwhile. -/
def rollupMachine : Machine RollupState RollupAction where
  init s := s.rollup = none ∧ s.phase = .waiting ∧ s.seen = s.events ∧ s.rollupSeen = s.events
  step s
    | .insert batch o => some { s with events := (bulkWrite s.events batch o).1 }
    | .markIndexed eventIds => some { s with events := Acheron.markIndexed s.events eventIds }
    | .aggregate answer =>
      match s.phase with
      | .waiting => some { s with
          phase := .upserting (aggregateCounts s.events none none none (answer s.events))
          seen := s.events }
      | .upserting _ => none
    | .aggregateError =>
      match s.phase with
      | .waiting => some s
      | .upserting _ => none
    -- What is stored is what the aggregation returned, not what there is by now.
    | .upsert now =>
      match s.phase with
      | .upserting counts => some { s with
          rollup := some ⟨counts, totalCount counts, now.pyIsoformat⟩
          phase := .waiting
          rollupSeen := s.seen }
      | .waiting => none
    | .upsertError =>
      match s.phase with
      | .upserting _ => some { s with phase := .waiting }
      | .waiting => none

/-- The later collection holds the events of the earlier one, and perhaps more. -/
def Grown (c c' : Events) : Prop := c.docs.map EventDoc.event <+: c'.docs.map EventDoc.event

/-- The counts are those of the collection. -/
def CountsOf (c : Events) (counts : List StatRow) : Prop :=
  ∀ answer : CountsAnswer c, counts = aggregateCounts c none none none answer

/-- What has been counted, and when. -/
structure Backed (s : RollupState) : Prop where
  pending : ∀ counts, s.phase = .upserting counts → CountsOf s.seen counts
  stored : ∀ r, s.rollup = some r → r.total = totalCount r.counts ∧ CountsOf s.rollupSeen r.counts
  before : Grown s.rollupSeen s.seen
  behind : Grown s.seen s.events

/-! ## Growing -/

theorem Grown.refl (c : Events) : Grown c c := List.prefix_refl _

theorem Grown.trans {c₁ c₂ c₃ : Events} (h : Grown c₁ c₂) (h' : Grown c₂ c₃) : Grown c₁ c₃ :=
  List.IsPrefix.trans h h'

theorem grown_bulkWrite (c : Events) (batch : List EventDocument) (o : InsertOutcome) :
    Grown c (bulkWrite c batch o).1 := (extends_bulkWrite c batch o).kept.map _

theorem map_event_markIndexed (c : Events) (eventIds : List String) :
    (markIndexed c eventIds).docs.map EventDoc.event = c.docs.map EventDoc.event := by
  rw [markIndexed]
  split
  · rfl
  · rw [Keyed.Collection.map, List.map_map]
    refine List.map_congr_left fun d _ ↦ ?_
    rw [Function.comp_apply, EventDoc.mark]
    split <;> rfl

theorem grown_markIndexed (c : Events) (eventIds : List String) :
    Grown c (markIndexed c eventIds) :=
  ⟨[], by rw [List.append_nil, map_event_markIndexed]⟩

theorem countsOf_aggregate (c : Events) (answer : CountsAnswer c) :
    CountsOf c (aggregateCounts c none none none answer) :=
  fun answer' ↦ aggregateCounts_unique answer answer'

/-- Later counts have every row of the earlier ones, and none of them smaller. -/
theorem CountsOf.mono {c c' : Events} {counts counts' : List StatRow} (h : CountsOf c counts)
    (h' : CountsOf c' counts') (hgrown : Grown c c') {row : StatRow} (hrow : row ∈ counts) :
    ∃ row' ∈ counts', row'.eventType = row.eventType ∧ row.count ≤ row'.count := by
  have hmem : row ∈ statRows c none none none := by
    rw [h (Ordering.sort _ _)] at hrow
    exact mem_aggregateCounts.mp hrow
  obtain ⟨row', hrow', htype, -, hle⟩ := statRows_mono hgrown hmem
  refine ⟨row', ?_, htype, hle⟩
  rw [h' (Ordering.sort _ _)]
  exact mem_aggregateCounts.mpr hrow'

/-- Collections with the same events have the same counts. -/
theorem CountsOf.congr {c c' : Events} {counts : List StatRow} (h : CountsOf c counts)
    (heq : c.docs.map EventDoc.event = c'.docs.map EventDoc.event) : CountsOf c' counts := by
  intro answer
  have hrows : statRows c none none none = statRows c' none none none := statRows_congr heq
  exact h ⟨answer.items, answer.perm.trans (List.Perm.of_eq hrows.symm), answer.sorted⟩

/-! ## One step -/

variable {s t : RollupState}

/-- The steps. -/
inductive RollupMove (s : RollupState) : RollupAction → RollupState → Prop
  | insert {batch : List EventDocument} {o : InsertOutcome} :
      RollupMove s (.insert batch o) { s with events := (bulkWrite s.events batch o).1 }
  | markIndexed {eventIds : List String} :
      RollupMove s (.markIndexed eventIds) { s with events := Acheron.markIndexed s.events eventIds }
  | aggregate {answer : ∀ c : Events, CountsAnswer c} (hphase : s.phase = .waiting) :
      RollupMove s (.aggregate answer) { s with
        phase := .upserting (aggregateCounts s.events none none none (answer s.events))
        seen := s.events }
  | aggregateError (hphase : s.phase = .waiting) : RollupMove s .aggregateError s
  | upsert {now : DateTime} {counts : List StatRow} (hphase : s.phase = .upserting counts) :
      RollupMove s (.upsert now) { s with
        rollup := some ⟨counts, totalCount counts, now.pyIsoformat⟩
        phase := .waiting
        rollupSeen := s.seen }
  | upsertError {counts : List StatRow} (hphase : s.phase = .upserting counts) :
      RollupMove s .upsertError { s with phase := .waiting }

theorem move_of_rollupStep {a : RollupAction} (h : rollupMachine.step s a = some t) :
    RollupMove s a t := by
  match a with
  | .insert batch o =>
    obtain rfl := Option.some.inj h
    exact .insert
  | .markIndexed eventIds =>
    obtain rfl := Option.some.inj h
    exact .markIndexed
  | .aggregate answer =>
    simp only [rollupMachine] at h
    split at h
    case h_1 hphase =>
      obtain rfl := Option.some.inj h
      exact .aggregate hphase
    case h_2 => exact absurd h (by simp)
  | .aggregateError =>
    simp only [rollupMachine] at h
    split at h
    case h_1 hphase =>
      obtain rfl := Option.some.inj h
      exact .aggregateError hphase
    case h_2 => exact absurd h (by simp)
  | .upsert now =>
    simp only [rollupMachine] at h
    split at h
    case h_1 hphase =>
      obtain rfl := Option.some.inj h
      exact .upsert hphase
    case h_2 => exact absurd h (by simp)
  | .upsertError =>
    simp only [rollupMachine] at h
    split at h
    case h_1 hphase =>
      obtain rfl := Option.some.inj h
      exact .upsertError hphase
    case h_2 => exact absurd h (by simp)

theorem backed_move {a : RollupAction} (hs : Backed s) (h : RollupMove s a t) : Backed t := by
  induction h with
  | insert => exact ⟨hs.pending, hs.stored, hs.before, hs.behind.trans (grown_bulkWrite _ _ _)⟩
  | markIndexed => exact ⟨hs.pending, hs.stored, hs.before, hs.behind.trans (grown_markIndexed _ _)⟩
  | aggregate _ =>
    refine ⟨fun counts hcounts ↦ ?_, hs.stored, hs.before.trans hs.behind, .refl _⟩
    obtain rfl := RefreshPhase.upserting.inj hcounts
    exact countsOf_aggregate _ _
  | aggregateError _ => exact hs
  | upsert hphase =>
    refine ⟨fun counts hcounts ↦ absurd hcounts (by simp), fun r hr ↦ ?_, .refl _, hs.behind⟩
    obtain rfl := Option.some.inj hr
    exact ⟨rfl, hs.pending _ hphase⟩
  | upsertError _ =>
    exact ⟨fun counts hcounts ↦ absurd hcounts (by simp), hs.stored, hs.before, hs.behind⟩

theorem backed_of_init (hinit : rollupMachine.init s) : Backed s := by
  obtain ⟨hrollup, hphase, hseen, hrollupSeen⟩ := hinit
  refine ⟨fun counts hcounts ↦ ?_, fun r hr ↦ ?_, ?_, ?_⟩
  · exact absurd (hphase.symm.trans hcounts) (by simp)
  · exact absurd (hrollup.symm.trans hr) (by simp)
  · rw [hseen, hrollupSeen]
    exact .refl _
  · rw [hseen]
    exact .refl _

theorem backed_exec {as : List RollupAction} (hs : Backed s)
    (hrun : rollupMachine.exec s as = some t) : Backed t :=
  Machine.exec_preserves (fun _ _ _ hu hstep ↦ backed_move hu (move_of_rollupStep hstep)) hs hrun

/-! ## Runs -/

/-- Only an upsert changes the rollup. -/
theorem RollupMove.rollup_eq {a : RollupAction} (h : RollupMove s a t)
    (ha : ∀ now, a ≠ .upsert now) : t.rollup = s.rollup := by
  induction h with
  | upsert _ => exact absurd rfl (ha _)
  | insert | markIndexed | aggregate | aggregateError | upsertError => rfl

/-- **A refresh that fails leaves the rollup as it was**, whatever happens meanwhile. -/
theorem rollup_of_no_upsert {as : List RollupAction} (hrun : rollupMachine.exec s as = some t)
    (has : ∀ now, .upsert now ∉ as) : t.rollup = s.rollup := by
  have halong : rollupMachine.Along (fun _ a ↦ ∀ now, a ≠ .upsert now) s as :=
    Machine.along_of_forall fun a ha now heq ↦ has now (heq ▸ ha)
  refine Machine.exec_preserves_along (P := fun u : RollupState ↦ u.rollup = s.rollup) ?_ rfl
    halong hrun
  intro u a v hu ha hstep
  exact ((move_of_rollupStep hstep).rollup_eq ha).trans hu

/-- The collection is that of a state the run has passed through. -/
def Passed (s : RollupState) (as : List RollupAction) (c : Events) : Prop :=
  ∃ bs cs u, as = bs ++ cs ∧ rollupMachine.exec s bs = some u ∧ u.events = c

theorem Passed.concat {as : List RollupAction} {c : Events} (h : Passed s as c) (a : RollupAction) :
    Passed s (as ++ [a]) c := by
  obtain ⟨bs, cs, u, rfl, hu, hc⟩ := h
  exact ⟨bs, cs ++ [a], u, List.append_assoc _ _ _, hu, hc⟩

/-- What the aggregations have seen are earlier states of the collection. -/
theorem passed_of_exec (hinit : rollupMachine.init s) {as : List RollupAction}
    (hrun : rollupMachine.exec s as = some t) : Passed s as t.seen ∧ Passed s as t.rollupSeen := by
  induction as using List.reverseRecOn generalizing t with
  | nil =>
    obtain rfl := Option.some.inj hrun
    obtain ⟨-, -, hseen, hrollupSeen⟩ := hinit
    exact ⟨⟨[], [], s, rfl, rfl, hseen.symm⟩, ⟨[], [], s, rfl, rfl, hrollupSeen.symm⟩⟩
  | append_singleton as a ih =>
    obtain ⟨u, hu, hstep⟩ := rollupMachine.exec_concat_eq_some.mp hrun
    obtain ⟨hseen, hrollupSeen⟩ := ih hu
    have hmove := move_of_rollupStep hstep
    induction hmove with
    | insert | markIndexed | aggregateError | upsertError =>
      exact ⟨hseen.concat _, hrollupSeen.concat _⟩
    | aggregate => exact ⟨⟨as, [_], u, rfl, hu, rfl⟩, hrollupSeen.concat _⟩
    | upsert => exact ⟨hseen.concat _, hseen.concat _⟩

/-- A stored rollup stays or is followed by one that has seen no less. -/
theorem rollupSeen_grown {as : List RollupAction} (hs : Backed s)
    (hrun : rollupMachine.exec s as = some t) : Grown s.rollupSeen t.rollupSeen := by
  refine (Machine.exec_preserves
    (P := fun u : RollupState ↦ Backed u ∧ Grown s.rollupSeen u.rollupSeen) ?_ ⟨hs, .refl _⟩ hrun).2
  rintro u a v ⟨hu, hgrown⟩ hstep
  have hmove := move_of_rollupStep hstep
  refine ⟨backed_move hu hmove, ?_⟩
  induction hmove with
  | insert | markIndexed | aggregate | aggregateError | upsertError => exact hgrown
  | upsert => exact hgrown.trans hu.before

/-- Without an insert, the events stay. -/
theorem RollupMove.events_eq {a : RollupAction} (h : RollupMove s a t)
    (ha : ∀ batch o, a ≠ .insert batch o) :
    t.events.docs.map EventDoc.event = s.events.docs.map EventDoc.event := by
  induction h with
  | insert => exact absurd rfl (ha _ _)
  | markIndexed => exact map_event_markIndexed _ _
  | aggregate | aggregateError | upsert | upsertError => rfl

/-- While nothing is inserted, what the last aggregation saw stays what there is. -/
theorem RollupMove.seen_eq {a : RollupAction} (h : RollupMove s a t)
    (ha : ∀ batch o, a ≠ .insert batch o)
    (hseen : s.seen.docs.map EventDoc.event = s.events.docs.map EventDoc.event) :
    t.seen.docs.map EventDoc.event = t.events.docs.map EventDoc.event := by
  rw [h.events_eq ha]
  induction h with
  | insert => exact absurd rfl (ha _ _)
  | aggregate => rfl
  | markIndexed | aggregateError | upsert | upsertError => exact hseen

/-- Nor does a stored rollup get out of date: an upsert stores what that aggregation counted. -/
theorem RollupMove.rollupSeen_eq {a : RollupAction} (h : RollupMove s a t)
    (ha : ∀ batch o, a ≠ .insert batch o)
    (hseen : s.seen.docs.map EventDoc.event = s.events.docs.map EventDoc.event)
    (hrollup : s.rollup ≠ none ∧
      s.rollupSeen.docs.map EventDoc.event = s.events.docs.map EventDoc.event) :
    t.rollup ≠ none ∧
      t.rollupSeen.docs.map EventDoc.event = t.events.docs.map EventDoc.event := by
  rw [h.events_eq ha]
  induction h with
  | insert => exact absurd rfl (ha _ _)
  | upsert => exact ⟨by simp, hseen⟩
  | markIndexed | aggregate | aggregateError | upsertError => exact hrollup

/-- What is counted after an aggregation, with no insert since, is what there is. -/
theorem counts_of_no_insert {bs : List RollupAction} {answer : ∀ c : Events, CountsAnswer c}
    {now : DateTime} (hs : Backed s)
    (hrun : rollupMachine.exec s (.aggregate answer :: bs) = some t)
    (hinsert : ∀ batch o, .insert batch o ∉ bs) (hupsert : .upsert now ∈ bs) :
    ∃ r, t.rollup = some r ∧ r.total = totalCount r.counts ∧ CountsOf t.events r.counts := by
  obtain ⟨u, hu, hrest⟩ := rollupMachine.exec_cons_eq_some.mp hrun
  have hsame : u.seen.docs.map EventDoc.event = u.events.docs.map EventDoc.event := by
    have hmove := move_of_rollupStep hu
    cases hmove
    rfl
  -- The run up to the upsert, the upsert, and the rest.
  obtain ⟨cs, ds, rfl⟩ := List.append_of_mem hupsert
  have halong : rollupMachine.Along (fun _ a ↦ ∀ batch o, a ≠ .insert batch o) u
      (cs ++ .upsert now :: ds) :=
    Machine.along_of_forall fun a ha batch o heq ↦ hinsert batch o (heq ▸ ha)
  obtain ⟨v, hv, hlast⟩ := rollupMachine.exec_append_eq_some.mp hrest
  obtain ⟨w, hw, hend⟩ := rollupMachine.exec_cons_eq_some.mp hlast
  have hseen : v.seen.docs.map EventDoc.event = v.events.docs.map EventDoc.event := by
    refine Machine.exec_preserves_along
      (P := fun x : RollupState ↦ x.seen.docs.map EventDoc.event = x.events.docs.map EventDoc.event)
      (fun x a y hx ha hy ↦ ?_) hsame halong.left hv
    exact (move_of_rollupStep hy).seen_eq ha hx
  have hstored : w.seen.docs.map EventDoc.event = w.events.docs.map EventDoc.event ∧
      w.rollup ≠ none ∧
      w.rollupSeen.docs.map EventDoc.event = w.events.docs.map EventDoc.event := by
    have hmove := move_of_rollupStep hw
    cases hmove
    exact ⟨hseen, by simp, hseen⟩
  have hfinal : t.seen.docs.map EventDoc.event = t.events.docs.map EventDoc.event ∧
      t.rollup ≠ none ∧
      t.rollupSeen.docs.map EventDoc.event = t.events.docs.map EventDoc.event := by
    refine Machine.exec_preserves_along (P := fun x : RollupState ↦
      x.seen.docs.map EventDoc.event = x.events.docs.map EventDoc.event ∧ x.rollup ≠ none ∧
      x.rollupSeen.docs.map EventDoc.event = x.events.docs.map EventDoc.event)
      (fun x a y hx ha hy ↦ ?_) hstored (halong.right hv |>.tail hw) hend
    have hmove := move_of_rollupStep hy
    exact ⟨hmove.seen_eq ha hx.1, hmove.rollupSeen_eq ha hx.1 hx.2⟩
  obtain ⟨-, hsome, hcounted⟩ := hfinal
  obtain ⟨r, hr⟩ := Option.ne_none_iff_exists'.mp hsome
  obtain ⟨htotal, hcounts⟩ := (backed_exec hs hrun).stored r hr
  exact ⟨r, hr, htotal, hcounts.congr hcounted⟩

end Acheron
