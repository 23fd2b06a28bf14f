import Mathlib.Logic.Function.Basic
import Acheron.Event.Document
import Acheron.Event.Iso

/-!
# The Elasticsearch mirror

What `ElasticsearchStore` sends and what the server makes of it. The index may be missing; a bulk
request to a missing index creates it with dynamic mapping, which is what `ensure_mapping` is there
to prevent. An index request replaces the whole document under its `_id`.

`async_bulk` with `raise_on_error=False` raises on a transport failure, of which any part may have
reached the server; otherwise it indexes some of the documents and returns the refused ones.
-/

namespace Acheron

/-! ## Documents -/

namespace Json

/-- `str(value)` of a scalar leaf; `none` for `None`. -/
def leafText : Json → Option String
  | .null => none
  | .bool b => some (if b then "True" else "False")
  | .int n => some (toString n)
  | .float x => some x.text
  | .nonFinite .nan => some "nan"
  | .nonFinite .infinity => some "inf"
  | .nonFinite .negInfinity => some "-inf"
  | .str s => some s
  | .arr _ | .obj _ => none

mutual

/-- `_walk`: the texts of the leaves, in traversal order. -/
def leaves : Json → List String
  | .arr items => itemsLeaves items
  | .obj members => membersLeaves members
  | v => v.leafText.toList

/-- `_walk` over the items of a list. -/
def itemsLeaves : List Json → List String
  | [] => []
  | v :: vs => v.leaves ++ itemsLeaves vs

/-- `_walk` over the values of a `dict`. -/
def membersLeaves : List (String × Json) → List String
  | [] => []
  | (_, v) :: ms => v.leaves ++ membersLeaves ms

end

end Json

/-- `_metadata_text`. The interpreter's limits are left out: `_walk` raises on a value nested deeper
than the recursion limit, and `str` on an integer of more than 4300 digits. -/
def metadataText (metadata : Metadata) : String :=
  String.intercalate " " (Json.obj metadata.members).leaves

/-- The `_source` of an index request. -/
structure EsSource where
  /-- `model_dump(mode="json")`. -/
  event : EventRecord String
  metadataText : String

/-- The `_source` that `bulk_index` builds. `model_dump` has a limit that is left out: it raises on
metadata nested 256 deep, which no store accepts. -/
def esSource (e : EventDocument) : EsSource where
  event := { e.mapDates DateTime.isoformat with metadata := e.metadata.dump }
  metadataText := metadataText e.metadata

/-! ## The server -/

/-- The events index. -/
structure EsIndex where
  /-- Created by `ensure_mapping`, not by a bulk request. -/
  explicit : Bool
  docs : String → Option EsSource

/-- The server: the index, or its absence. -/
abbrev EsServer := Option EsIndex

/-- How the server and the network meet one `async_bulk` call. -/
inductive BulkOutcome where
  /-- The server answers; it refuses the positions in `refused`. -/
  | answered (refused : ℕ → Bool)
  /-- The call raises; if the server was reached, it indexed the positions in `indexed`. -/
  | transport (reached : Bool) (indexed : ℕ → Bool)

namespace EsServer

/-- The index holds a document under the id. -/
def Has (server : EsServer) (id : String) : Prop :=
  ∃ index, server = some index ∧ (index.docs id).isSome

/-- The index a bulk request goes to, created if it is missing. -/
def autoCreated (server : EsServer) : EsIndex := server.getD ⟨false, fun _ ↦ none⟩

/-- The documents of a request, as far as they are not refused. -/
def putAll (docs : String → Option EsSource) :
    List EventDocument → (ℕ → Bool) → String → Option EsSource
  | [], _ => docs
  | e :: es, refused =>
    putAll (if refused 0 then docs else Function.update docs e.eventId (some (esSource e))) es
      fun i ↦ refused (i + 1)

/-- One bulk request as the server carries it out. -/
def bulk (server : EsServer) (events : List EventDocument) (refused : ℕ → Bool) : EsServer :=
  some { server.autoCreated with docs := putAll server.autoCreated.docs events refused }

/-- The server after a call, however the call ends. -/
def afterBulk (server : EsServer) (events : List EventDocument) : BulkOutcome → EsServer
  | .answered refused => server.bulk events refused
  | .transport reached indexed =>
    if reached then server.bulk events fun i ↦ !indexed i else server

/-- `indices.create` with the explicit mapping; `none` if the index exists. -/
def create (server : EsServer) : Option EsServer :=
  match server with
  | some _ => none
  | none => some (some ⟨true, fun _ ↦ none⟩)

/-! ## What a call indexes -/

theorem putAll_isSome {docs : String → Option EsSource} {events : List EventDocument}
    {refused : ℕ → Bool} {k : String} : (putAll docs events refused k).isSome ↔
      (docs k).isSome ∨ ∃ i e, events[i]? = some e ∧ refused i = false ∧ e.eventId = k := by
  induction events generalizing docs refused with
  | nil => simp [putAll]
  | cons e es ih =>
    have hshift : (∃ i x, (e :: es)[i]? = some x ∧ refused i = false ∧ x.eventId = k) ↔
        (refused 0 = false ∧ e.eventId = k) ∨
          ∃ i x, es[i]? = some x ∧ refused (i + 1) = false ∧ x.eventId = k := by
      constructor
      · rintro ⟨i, x, hx, hr, hk⟩
        rcases i with _ | i
        · exact Or.inl ⟨hr, by simp at hx; exact hx ▸ hk⟩
        · exact Or.inr ⟨i, x, by simpa using hx, hr, hk⟩
      · rintro (⟨hr, hk⟩ | ⟨i, x, hx, hr, hk⟩)
        · exact ⟨0, e, rfl, hr, hk⟩
        · exact ⟨i + 1, x, by simpa using hx, hr, hk⟩
    rw [putAll, ih, hshift, ← or_assoc]
    refine or_congr_left ?_
    by_cases hr : refused 0 = true
    · simp [hr]
    · by_cases hk : k = e.eventId
      · subst hk
        simp [hr]
      · simp [hr, hk, Ne.symm hk]

theorem has_bulk {server : EsServer} {events : List EventDocument} {refused : ℕ → Bool}
    {k : String} : (server.bulk events refused).Has k ↔
      server.Has k ∨ ∃ i e, events[i]? = some e ∧ refused i = false ∧ e.eventId = k := by
  have hhas : (server.bulk events refused).Has k
      ↔ (putAll server.autoCreated.docs events refused k).isSome := by
    simp [Has, bulk]
  have hold : server.Has k ↔ (server.autoCreated.docs k).isSome := by
    cases server <;> simp [Has, autoCreated]
  rw [hhas, hold, putAll_isSome]

/-- Creating the index loses no document: there was none. -/
theorem has_create {server server' : EsServer} (h : server.create = some server') {k : String}
    (hk : server.Has k) : server'.Has k := by
  obtain ⟨index, rfl, -⟩ := hk
  exact absurd h (by simp [create])

/-- A call loses no document, however it ends. -/
theorem has_afterBulk {server : EsServer} {events : List EventDocument} {o : BulkOutcome}
    {k : String} (h : server.Has k) : (server.afterBulk events o).Has k := by
  cases o with
  | answered refused => exact has_bulk.mpr (Or.inl h)
  | transport reached indexed =>
    rw [afterBulk]
    split
    · exact has_bulk.mpr (Or.inl h)
    · exact h

end EsServer

end Acheron
