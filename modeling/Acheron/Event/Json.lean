import Mathlib.Data.List.Nodup

/-!
# Metadata values

The values a request body may put under `metadata`: the image of `json.loads`, which is also what
Mongo stores and what the mirror re-renders. Integers are unbounded, as Python's are; whether the
store can hold one is a separate question (`Json.bsonEncodable`).

A finite float is represented by its shortest round-trip text. Python's `repr` is injective on
finite floats and nothing in the program computes with a metadata value, so the text *is* the
value. `json.loads` also reads the three names of the other floats, which JSON does not have;
`Json.dump`, the JSON mode of `model_dump`, turns them into `null`.

`Metadata` is a `dict` of such values: an ordered list of members whose keys are distinct at every
depth, which is what a Python `dict` guarantees.
-/

namespace Acheron

/-- The characters of a finite float's text. -/
def isFloatChar (c : Char) : Bool :=
  c.isDigit || c = '-' || c = '+' || c = '.' || c = 'e'

/-- A finite float, by its shortest round-trip text. The text has a point or an exponent, which is
what keeps a float apart from an integer. -/
structure FloatText where
  /-- The digits, as `float.__repr__` prints them. -/
  text : String
  /-- Only the characters of a float literal occur. -/
  chars : text.toList.all isFloatChar = true
  /-- A point or an exponent occurs. -/
  marked : text.toList.any (fun c ↦ c = '.' || c = 'e') = true

/-- The floats that are not finite. -/
inductive NonFinite where
  | nan
  | infinity
  | negInfinity
  deriving DecidableEq

/-- A value `json.loads` can produce. -/
inductive Json where
  | null
  | bool (b : Bool)
  | int (n : Int)
  | float (x : FloatText)
  | nonFinite (x : NonFinite)
  | str (s : String)
  | arr (items : List Json)
  | obj (members : List (String × Json))

namespace Json

mutual

/-- The keys of every object in the value are distinct. -/
def keysDistinct : Json → Bool
  | .null | .bool _ | .int _ | .float _ | .nonFinite _ | .str _ => true
  | .arr items => itemsKeysDistinct items
  | .obj members => (members.map Prod.fst).Nodup && membersKeysDistinct members

/-- `keysDistinct` for each item of an array. -/
def itemsKeysDistinct : List Json → Bool
  | [] => true
  | v :: vs => v.keysDistinct && itemsKeysDistinct vs

/-- `keysDistinct` for each member's value. -/
def membersKeysDistinct : List (String × Json) → Bool
  | [] => true
  | (_, v) :: ms => v.keysDistinct && membersKeysDistinct ms

end

/-- BSON's 64-bit integers are the largest it has. -/
def int64 (n : Int) : Bool := -9223372036854775808 ≤ n && n < 9223372036854775808

mutual

/-- The value has a BSON encoding: every integer fits in 64 bits and no key holds a NUL. -/
def bsonEncodable : Json → Bool
  | .null | .bool _ | .float _ | .nonFinite _ | .str _ => true
  | .int n => int64 n
  | .arr items => itemsEncodable items
  | .obj members => membersEncodable members

/-- `bsonEncodable` for each item of an array. -/
def itemsEncodable : List Json → Bool
  | [] => true
  | v :: vs => v.bsonEncodable && itemsEncodable vs

/-- `bsonEncodable` for each member, keys included. -/
def membersEncodable : List (String × Json) → Bool
  | [] => true
  | (k, v) :: ms => !k.toList.contains '\x00' && v.bsonEncodable && membersEncodable ms

end

/-- A string. -/
def isStr : Json → Bool
  | .str _ => true
  | _ => false

/-- The members `bson` reads back as a `DBRef`: a string under `$ref`, a `$id`, and under `$db` a
string or `null`, if there is one. -/
def isDBRef (members : List (String × Json)) : Bool :=
  (members.any fun m ↦ m.1 = "$ref" && m.2.isStr) && (members.any fun m ↦ m.1 = "$id") &&
    members.all fun m ↦ m.1 ≠ "$db" || m.2.isStr || m.2 matches .null

mutual

/-- The value is read back from BSON as it is: no object in it is taken for a `DBRef`. -/
def plain : Json → Bool
  | .null | .bool _ | .int _ | .float _ | .nonFinite _ | .str _ => true
  | .arr items => itemsPlain items
  | .obj members => !isDBRef members && membersPlain members

/-- `plain` for each item of an array. -/
def itemsPlain : List Json → Bool
  | [] => true
  | v :: vs => v.plain && itemsPlain vs

/-- `plain` for each member's value. -/
def membersPlain : List (String × Json) → Bool
  | [] => true
  | (_, v) :: ms => v.plain && membersPlain ms

end

mutual

/-- The value in the JSON mode of `model_dump`. -/
def dump : Json → Json
  | .nonFinite _ => .null
  | .arr items => .arr (dumpItems items)
  | .obj members => .obj (dumpMembers members)
  | v => v

/-- `dump` for each item of an array. -/
def dumpItems : List Json → List Json
  | [] => []
  | v :: vs => v.dump :: dumpItems vs

/-- `dump` for each member's value. -/
def dumpMembers : List (String × Json) → List (String × Json)
  | [] => []
  | (k, v) :: ms => (k, v.dump) :: dumpMembers ms

end

mutual

/-- Every number in the value is finite. -/
def finite : Json → Bool
  | .nonFinite _ => false
  | .arr items => itemsFinite items
  | .obj members => membersFinite members
  | .null | .bool _ | .int _ | .float _ | .str _ => true

/-- `finite` for each item of an array. -/
def itemsFinite : List Json → Bool
  | [] => true
  | v :: vs => v.finite && itemsFinite vs

/-- `finite` for each member's value. -/
def membersFinite : List (String × Json) → Bool
  | [] => true
  | (_, v) :: ms => v.finite && membersFinite ms

end

mutual

/-- The JSON mode changes nothing else. -/
theorem dump_of_finite : ∀ {v : Json}, v.finite = true → v.dump = v
  | .null, _ | .bool _, _ | .int _, _ | .float _, _ | .str _, _ => rfl
  | .nonFinite _, h => absurd h (by simp [finite])
  | .arr items, h => congrArg Json.arr (dumpItems_of_finite h)
  | .obj members, h => congrArg Json.obj (dumpMembers_of_finite h)

theorem dumpItems_of_finite : ∀ {vs : List Json}, itemsFinite vs = true → dumpItems vs = vs
  | [], _ => rfl
  | v :: vs, h => by
    obtain ⟨hv, hvs⟩ := Bool.and_eq_true_iff.mp h
    rw [dumpItems, dump_of_finite hv, dumpItems_of_finite hvs]

theorem dumpMembers_of_finite :
    ∀ {ms : List (String × Json)}, membersFinite ms = true → dumpMembers ms = ms
  | [], _ => rfl
  | (k, v) :: ms, h => by
    obtain ⟨hv, hms⟩ := Bool.and_eq_true_iff.mp h
    rw [dumpMembers, dump_of_finite hv, dumpMembers_of_finite hms]

end

@[simp] theorem keys_dumpMembers (ms : List (String × Json)) :
    (dumpMembers ms).map Prod.fst = ms.map Prod.fst := by
  induction ms with
  | nil => rfl
  | cons m ms ih => rw [dumpMembers, List.map_cons, List.map_cons, ih]

mutual

theorem keysDistinct_dump : ∀ v : Json, v.dump.keysDistinct = v.keysDistinct
  | .null | .bool _ | .int _ | .float _ | .nonFinite _ | .str _ => rfl
  | .arr items => itemsKeysDistinct_dump items
  | .obj members => by
    rw [dump, keysDistinct, keysDistinct, keys_dumpMembers, membersKeysDistinct_dump members]

theorem itemsKeysDistinct_dump : ∀ vs, itemsKeysDistinct (dumpItems vs) = itemsKeysDistinct vs
  | [] => rfl
  | v :: vs => by
    rw [dumpItems, itemsKeysDistinct, itemsKeysDistinct, keysDistinct_dump v,
      itemsKeysDistinct_dump vs]

theorem membersKeysDistinct_dump :
    ∀ ms, membersKeysDistinct (dumpMembers ms) = membersKeysDistinct ms
  | [] => rfl
  | (k, v) :: ms => by
    rw [dumpMembers, membersKeysDistinct, membersKeysDistinct, keysDistinct_dump v,
      membersKeysDistinct_dump ms]

end

end Json

/-- A `dict[str, Any]` as `json.loads` builds one. -/
structure Metadata where
  /-- The members, in insertion order. -/
  members : List (String × Json)
  /-- Keys are distinct, here and at every depth. -/
  distinct : (Json.obj members).keysDistinct = true

/-- The `dict` in the JSON mode of `model_dump`. -/
def Metadata.dump (m : Metadata) : Metadata :=
  ⟨Json.dumpMembers m.members, (Json.keysDistinct_dump (.obj m.members)).trans m.distinct⟩

/-- The empty `dict`, the default of `EventCreate.metadata`. -/
def Metadata.empty : Metadata := ⟨[], rfl⟩

end Acheron
