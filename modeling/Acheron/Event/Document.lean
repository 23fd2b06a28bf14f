import Acheron.Event.DateTime
import Acheron.Event.Json

/-!
# Events

`EventCreate` is the validated request body, `EventDocument` the full record the pipeline passes
around. A pydantic model and its `model_dump()` carry the same fields, so one record type serves
for both; it is generic in the type of its dates, because the same fields occur with Python
datetimes (`EventDocument`), with BSON dates (what Mongo holds), and with ISO strings (what the
search mirror holds).

`_to_doc` and `_entry_to_doc` wrap the record for the two Mongo collections. Both key the document
by the event's id, and both say so in a field of the document type.
-/

namespace Acheron

/-- `model_fields_set`, for the fields a body may omit. The others are required. -/
structure FieldsSet where
  timestamp : Bool
  metadata : Bool
  schemaVersion : Bool
  deriving DecidableEq

/-- The fields the caller supplies on `POST /events`, after validation. -/
structure EventCreate where
  eventType : String
  /-- Defaults to the current time. -/
  timestamp : DateTime
  userId : String
  sourceUrl : String
  /-- Defaults to the empty `dict`. -/
  metadata : Metadata
  /-- Defaults to 1. -/
  schemaVersion : ℤ
  /-- Validated `ge=1`. -/
  one_le_schemaVersion : 1 ≤ schemaVersion
  /-- Which optional fields the body set. -/
  fieldsSet : FieldsSet

/-- The fields of an event record, with dates in `τ`. -/
structure EventRecord (τ : Type) where
  eventType : String
  timestamp : τ
  userId : String
  sourceUrl : String
  metadata : Metadata
  schemaVersion : ℤ
  one_le_schemaVersion : 1 ≤ schemaVersion
  eventId : String
  receivedAt : τ

/-- The full event record, as the pipeline passes it around. -/
abbrev EventDocument := EventRecord DateTime

namespace EventRecord

variable {τ υ : Type}

/-- Re-express the dates. -/
def mapDates (f : τ → υ) (e : EventRecord τ) : EventRecord υ where
  eventType := e.eventType
  timestamp := f e.timestamp
  userId := e.userId
  sourceUrl := e.sourceUrl
  metadata := e.metadata
  schemaVersion := e.schemaVersion
  one_le_schemaVersion := e.one_le_schemaVersion
  eventId := e.eventId
  receivedAt := f e.receivedAt

@[simp] theorem mapDates_eventId (f : τ → υ) (e : EventRecord τ) :
    (e.mapDates f).eventId = e.eventId := rfl

/-- The event has a BSON encoding. -/
def bsonEncodable (e : EventDocument) : Bool :=
  e.timestamp.bsonEncodable && e.receivedAt.bsonEncodable && Json.int64 e.schemaVersion
    && (Json.obj e.metadata.members).bsonEncodable

end EventRecord

/-! ## The events collection -/

/-- A document of the `events` collection. -/
structure EventDoc (τ : Type) where
  /-- `_id`. -/
  id : String
  /-- The event's own fields. -/
  event : EventRecord τ
  /-- The outbox marker. -/
  esIndexed : Bool
  /-- `_id` is the event's id, which is what makes inserts idempotent. -/
  id_eq : id = event.eventId

/-- Serialise an event for the `events` collection. -/
def toDoc (event : EventDocument) : EventDoc DateTime where
  id := event.eventId
  event := event
  esIndexed := false
  id_eq := rfl

/-- The driver's encoding of an `events` document. -/
def EventDoc.encode (d : EventDoc DateTime) : EventDoc BsonDate where
  id := d.id
  event := d.event.mapDates DateTime.toBson
  esIndexed := d.esIndexed
  id_eq := d.id_eq

@[simp] theorem toDoc_id (e : EventDocument) : (toDoc e).id = e.eventId := rfl

@[simp] theorem EventDoc.encode_id (d : EventDoc DateTime) : d.encode.id = d.id := rfl

/-! ## The dead_letter collection -/

/-- A dead-lettered event with its failure context, as the queue holds it. -/
structure DLQEntry where
  event : EventDocument
  reason : String
  failedAt : DateTime

/-- A document of the `dead_letter` collection. -/
structure DeadLetterDoc (τ : Type) where
  /-- `_id`. -/
  id : String
  eventId : String
  /-- The original payload. -/
  event : EventRecord τ
  reason : String
  failedAt : τ
  /-- The record is keyed by the id of the event it carries. -/
  id_eq : id = event.eventId

/-- Serialise a dead-letter entry to a durable record. -/
def entryToDoc (entry : DLQEntry) : DeadLetterDoc DateTime where
  id := entry.event.eventId
  eventId := entry.event.eventId
  event := entry.event
  reason := entry.reason
  failedAt := entry.failedAt
  id_eq := rfl

/-- The driver's encoding of a dead-letter record. -/
def DeadLetterDoc.encode (d : DeadLetterDoc DateTime) : DeadLetterDoc BsonDate where
  id := d.id
  eventId := d.eventId
  event := d.event.mapDates DateTime.toBson
  reason := d.reason
  failedAt := d.failedAt.toBson
  id_eq := d.id_eq

@[simp] theorem entryToDoc_id (entry : DLQEntry) : (entryToDoc entry).id = entry.event.eventId :=
  rfl

@[simp] theorem DeadLetterDoc.encode_id (d : DeadLetterDoc DateTime) : d.encode.id = d.id := rfl

/-- `EventDocument(**record)` on a record read back from Mongo, where it is accepted. -/
def EventRecord.rebuild (e : EventRecord BsonDate) : EventDocument :=
  e.mapDates BsonDate.toDateTime

/-- `EventDocument(**record)` accepts the record: its `metadata` is read back as a mapping, not as a
`DBRef`. -/
def EventRecord.rebuilds {τ : Type} (e : EventRecord τ) : Bool := !Json.isDBRef e.metadata.members

/-- `model_dump(mode="json")` of a rebuilt record does not raise, as it does on a `DBRef` anywhere
under `metadata`. (Nor is it nested as deep as pydantic refuses to dump, 256: the server stores no
document of more than 100 levels.) -/
def EventRecord.dumps {τ : Type} (e : EventRecord τ) : Bool := Json.membersPlain e.metadata.members

@[simp] theorem EventRecord.rebuild_dumps (e : EventRecord BsonDate) : e.rebuild.dumps = e.dumps :=
  rfl

/-- `[EventDocument(**doc) for doc in docs]`; `none` is an exception. -/
def rebuildAll (docs : List (EventRecord BsonDate)) : Option (List EventDocument) :=
  if docs.all EventRecord.rebuilds then some (docs.map EventRecord.rebuild) else none

theorem rebuildAll_eq_some {docs : List (EventRecord BsonDate)} {events : List EventDocument}
    (h : rebuildAll docs = some events) : events = docs.map EventRecord.rebuild := by
  unfold rebuildAll at h
  split at h
  · exact (Option.some.inj h).symm
  · exact absurd h (by simp)

@[simp] theorem EventRecord.rebuild_eventId (e : EventRecord BsonDate) :
    e.rebuild.eventId = e.eventId := rfl

/-- 1970-01-01T00:00:00+00:00. -/
def DateTime.epoch : DateTime where
  wall := 0
  utcOffset := some 0
  wall_mem := by decide
  offset_mem := by simp

/-- The default of `schema_version` passes its own check. -/
theorem one_le_defaultSchemaVersion : (1 : ℤ) ≤ 1 := Int.le_refl 1

/-- `make_event` of the test factories, with both dates at the epoch. -/
def makeEvent (eventId : String) : EventDocument where
  eventType := "page_view"
  timestamp := .epoch
  userId := "u1"
  sourceUrl := "https://example.test"
  metadata := .empty
  schemaVersion := 1
  one_le_schemaVersion := one_le_defaultSchemaVersion
  eventId := eventId
  receivedAt := .epoch

end Acheron
