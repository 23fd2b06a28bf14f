import Mathlib.Data.Int.Basic

/-!
# Instants

A Python `datetime` is a wall-clock reading with an optional UTC offset. BSON keeps neither: a
date is stored as the UTC instant in whole milliseconds, and is read back as a naive UTC value.
The two conversions here are the only lossy step between a validated event and its stored form.

Validation parses offsets in whole minutes, strictly within a day, and years 1 to 9999; both
bounds are fields of the structure.
-/

namespace Acheron

/-- Microseconds from 1970-01-01T00:00:00 to 0001-01-01T00:00:00. -/
def minWall : ℤ := -62135596800000000

/-- Microseconds from 1970-01-01T00:00:00 to 10000-01-01T00:00:00, the first reading out of
range. -/
def wallEnd : ℤ := 253402300800000000

/-- A Python `datetime`. -/
structure DateTime where
  /-- The wall-clock reading, in microseconds since 1970-01-01T00:00:00 on the same clock. -/
  wall : ℤ
  /-- `utcoffset()` in minutes; `none` for a naive value. -/
  utcOffset : Option ℤ
  /-- The year is 1 to 9999. -/
  wall_mem : minWall ≤ wall ∧ wall < wallEnd
  /-- An offset is strictly less than a day. -/
  offset_mem : ∀ m ∈ utcOffset, -1440 < m ∧ m < 1440
  deriving DecidableEq

/-- A BSON date: UTC milliseconds since the epoch. -/
structure BsonDate where
  millis : ℤ
  deriving DecidableEq

namespace DateTime

/-- The UTC instant in microseconds; a naive value is taken as UTC. -/
def instant (t : DateTime) : ℤ := t.wall - t.utcOffset.getD 0 * 60000000

/-- The UTC instant is itself a `datetime`; the driver's subtraction overflows when it is not. -/
def bsonEncodable (t : DateTime) : Bool := minWall ≤ t.instant && t.instant < wallEnd

/-- What the driver stores: the UTC instant, floored to the millisecond. -/
def toBson (t : DateTime) : BsonDate := ⟨t.instant / 1000⟩

/-- The naive UTC reading of an instant in milliseconds, held to Python's range (which a stored
date never leaves). -/
def ofMillis (ms : ℤ) : DateTime where
  wall := max minWall (min (ms * 1000) (wallEnd - 1000))
  utcOffset := none
  wall_mem := by simp only [minWall, wallEnd]; omega
  offset_mem := by simp

end DateTime

/-- The driver can decode the date: it lies in the years 1 to 9999, as every date does that the
driver has encoded. -/
def BsonDate.InRange (date : BsonDate) : Prop :=
  minWall ≤ date.millis * 1000 ∧ date.millis * 1000 < wallEnd

instance (date : BsonDate) : Decidable date.InRange := inferInstanceAs (Decidable (_ ∧ _))

/-- What the driver reads back: a naive UTC value. -/
def BsonDate.toDateTime (d : BsonDate) : DateTime := DateTime.ofMillis d.millis

end Acheron
