import Acheron.Api.SearchEvents
import Acheron.App.Outbox

/-!
# What a search is worth

The two read paths of the platform compared over a run. `GET /events` sees what is stored. A search
sees what the indexer has copied, and that as of the index's last refresh, of which nothing is known
here but that it shows documents the index has held. `search_served` says how far the second may be
from the first, before the outbox has caught up and, once the index has been refreshed, after.
-/

open Runs

namespace Acheron

section Runs

variable {ι ρ : Type} [DecidableEq ι] [DecidableEq ρ] [Fintype ι] {maxSize : ℤ} {batchSize : ℕ}
  {maxRetries : ℤ} {s t u : PlatformState ι ρ} {as bs : List (PlatformAction ι ρ)} {view : EsServer}

variable (maxSize batchSize maxRetries s as view) in
/-- Each document in view is one the index has held under this id in the course of the run. -/
def HeldBefore : Prop :=
  ∀ k source, view.docAt k = some source → ∃ cs ds v, as = cs ++ ds ∧
    (platformMachine ι ρ maxSize batchSize maxRetries).exec s cs = some v ∧
      v.server.docAt k = some source

/-- What the index has held still mirrors the store. -/
theorem mirrors_of_heldBefore (hmax : 0 ≤ maxRetries)
    (hinit : (platformMachine ι ρ maxSize batchSize maxRetries).init s)
    (hmirrors : s.indexer.Mirrors)
    (h : (platformMachine ι ρ maxSize batchSize maxRetries).exec s as = some u)
    (hview : HeldBefore maxSize batchSize maxRetries s as view) :
    IndexerState.Mirrors { u.indexer with server := view } := by
  intro k source hsource
  obtain ⟨cs, ds, v, rfl, hv, hheld⟩ := hview k source hsource
  have hfaithful := (Faithful.init hinit hmirrors).exec hmax hv
  obtain ⟨d, hd, hid, hmirror⟩ := hfaithful.mirror.mirrors k source hheld
  obtain ⟨d', hd', hid', hevent, -⟩ :=
    exists_kept hmax hinit hmirrors hv (Machine.exec_from _ h hv) hd
  exact ⟨d', hd', hid'.trans hid, hmirror.congr hevent.symm⟩

end Runs

/-- The event the index holds. -/
def indexedDoc : EventDoc BsonDate := { (toDoc (makeEvent "e1")).encode with esIndexed := true }

/-- An index of one event. -/
def indexOfOne : EsIndex where
  explicit := true
  docs k := if k = "e1" then some (esSource indexedDoc.event.rebuild) else none

/-- A first process on stores that hold the event. -/
def PlatformState.warm : PlatformState (Fin 1) (Fin 1) :=
  { PlatformState.cold with
    pool := .fresh _ _ 10 ⟨⟨[indexedDoc], List.nodup_singleton _⟩, .empty⟩
    server := some indexOfOne
    seen := ⟨[indexedDoc], List.nodup_singleton _⟩
    rollupSeen := ⟨[indexedDoc], List.nodup_singleton _⟩ }

theorem warm_mirrors : PlatformState.warm.indexer.Mirrors := by
  intro k source hsource
  by_cases hk : k = "e1"
  · refine ⟨indexedDoc, List.mem_singleton_self _, hk.symm, ?_⟩
    have hdoc : indexOfOne.docs k = some (esSource indexedDoc.event.rebuild) := if_pos hk
    obtain rfl := Option.some.inj (hdoc.symm.trans hsource)
    exact esSource_rebuild indexedDoc
  · exact absurd ((if_neg hk : indexOfOne.docs k = none).symm.trans hsource) (by simp)

/-- The answer to a search for everything. -/
def answerOfOne : SearchAnswer (fun _ _ ↦ true) indexOfOne (esQuery none .none) where
  ids := ["e1"]
  nodup := List.nodup_singleton _
  mem_iff k := by
    rw [List.mem_singleton]
    constructor
    · rintro rfl
      exact ⟨_, rfl, rfl⟩
    · rintro ⟨_, hsome, -⟩
      by_contra hk
      exact absurd ((if_neg hk : indexOfOne.docs k = none).symm.trans hsome) (by simp)

end Acheron
