import Acheron.Storage.Mongo

/-!
# Filters on events

The filters that `GET /events` and `GET /events/search` share, and the query `find_events` builds
from them for Mongo. An absent filter and an empty string are the same to both builders; a datetime
is never false.
-/

namespace Acheron

/-- What a read may restrict events by. -/
structure EventFilters where
  eventType : Option String
  userId : Option String
  sourceUrl : Option String
  /-- Inclusive bounds on `timestamp`. -/
  fromTs : Option DateTime
  toTs : Option DateTime

/-- No restriction. -/
def EventFilters.none : EventFilters := ⟨.none, .none, .none, .none, .none⟩

/-- What passes `if value:`. -/
def truthy (value : Option String) : Option String := value.filter (· ≠ "")

/-- A `{"$gte"/"$lte": ...}` clause. -/
structure TimestampClause where
  gte : Option DateTime
  lte : Option DateTime

/-- `_timestamp_clause`. -/
def timestampClause (fromTs toTs : Option DateTime) : Option TimestampClause :=
  match fromTs, toTs with
  | none, none => none
  | _, _ => some ⟨fromTs, toTs⟩

/-- The `filt` of `find_events`. -/
structure MongoFilter where
  eventType : Option String
  userId : Option String
  sourceUrl : Option String
  timestamp : Option TimestampClause

/-- The filter `find_events` builds. -/
def mongoFilter (q : EventFilters) : MongoFilter where
  eventType := truthy q.eventType
  userId := truthy q.userId
  sourceUrl := truthy q.sourceUrl
  timestamp := timestampClause q.fromTs q.toTs

/-- The instant is within the bounds, which the driver encodes as BSON dates. It can encode none whose
UTC instant lies outside the years 1 to 9999: such a query raises `OverflowError`. -/
def TimestampClause.Matches (c : TimestampClause) (timestamp : BsonDate) : Bool :=
  c.gte.all (fun t ↦ t.toBson.millis ≤ timestamp.millis) &&
    c.lte.all (fun t ↦ timestamp.millis ≤ t.toBson.millis)

/-- Mongo selects the event. -/
def MongoFilter.Matches (f : MongoFilter) (e : EventRecord BsonDate) : Bool :=
  f.eventType.all (· = e.eventType) && f.userId.all (· = e.userId) &&
    f.sourceUrl.all (· = e.sourceUrl) && f.timestamp.all (·.Matches e.timestamp)

/-- The bounds decide, whether there is a clause or not. -/
theorem timestampClause_matches (fromTs toTs : Option DateTime) (timestamp : BsonDate) :
    (timestampClause fromTs toTs).all (·.Matches timestamp) = true ↔
      (∀ t ∈ fromTs, t.toBson.millis ≤ timestamp.millis) ∧
        ∀ t ∈ toTs, timestamp.millis ≤ t.toBson.millis := by
  cases fromTs <;> cases toTs <;> simp [timestampClause, TimestampClause.Matches]

/-- What the filter built by `find_events` selects. -/
theorem mongoFilter_matches (q : EventFilters) (e : EventRecord BsonDate) :
    (mongoFilter q).Matches e = true ↔
      (truthy q.eventType).all (· = e.eventType) = true ∧
        (truthy q.userId).all (· = e.userId) = true ∧
        (truthy q.sourceUrl).all (· = e.sourceUrl) = true ∧
        (∀ t ∈ q.fromTs, t.toBson.millis ≤ e.timestamp.millis) ∧
        ∀ t ∈ q.toTs, e.timestamp.millis ≤ t.toBson.millis := by
  rw [MongoFilter.Matches, Bool.and_eq_true, Bool.and_eq_true, Bool.and_eq_true, mongoFilter,
    timestampClause_matches, and_assoc, and_assoc]

end Acheron
