import Mathlib.Logic.Equiv.Basic
import Acheron.Event.Canonical
import Acheron.Event.Document
import Acheron.Event.Iso

/-!
# The fingerprint of a request body

`_idempotency_fingerprint` hashes the canonical JSON of the fields the client set. With a hash that
does not collide, two bodies have one fingerprint exactly when they set the same fields to the same
values, the members of an object in any order: `fingerprint_eq_iff`. Each is then faithfully stored
by the document of the other: `storedAs_of_fingerprint_eq`.

The hash is a parameter.
-/

namespace Acheron

/-- `model_dump(mode="json", exclude_unset=True)`. -/
def EventCreate.payload (e : EventCreate) : List (String × Json) :=
  [("event_type", .str e.eventType)]
    ++ (if e.fieldsSet.timestamp then [("timestamp", .str e.timestamp.isoformat)] else [])
    ++ [("user_id", .str e.userId), ("source_url", .str e.sourceUrl)]
    ++ (if e.fieldsSet.metadata then [("metadata", .obj e.metadata.dump.members)] else [])
    ++ (if e.fieldsSet.schemaVersion then [("schema_version", .int e.schemaVersion)] else [])

/-- `canonical`. -/
def EventCreate.canonical (e : EventCreate) : String :=
  String.ofList (Json.obj e.payload).sortKeys.render

/-- `_idempotency_fingerprint`, with `sha256` for the digest of the UTF-8 text. A body whose metadata
is nested 256 deep has none, as `model_dump` raises on it. -/
def idempotencyFingerprint (sha256 : String → String) (event : EventCreate) : String :=
  sha256 event.canonical

/-- The document `ingest` builds from a body. -/
def EventCreate.document (e : EventCreate) (eventId : String) (receivedAt : DateTime) :
    EventDocument where
  eventType := e.eventType
  timestamp := e.timestamp
  userId := e.userId
  sourceUrl := e.sourceUrl
  metadata := e.metadata
  schemaVersion := e.schemaVersion
  one_le_schemaVersion := e.one_le_schemaVersion
  eventId := eventId
  receivedAt := receivedAt

/-- The stored event agrees with the body on every field the client set: instants to the
millisecond, metadata up to the order of members and in the JSON mode of `model_dump`. -/
structure EventCreate.StoredAs (body : EventCreate) (stored : EventRecord BsonDate) : Prop where
  eventType : stored.eventType = body.eventType
  userId : stored.userId = body.userId
  sourceUrl : stored.sourceUrl = body.sourceUrl
  timestamp : body.fieldsSet.timestamp = true → stored.timestamp = body.timestamp.toBson
  metadata : body.fieldsSet.metadata = true →
    Json.Same (.obj stored.metadata.dump.members) (.obj body.metadata.dump.members)
  schemaVersion : body.fieldsSet.schemaVersion = true → stored.schemaVersion = body.schemaVersion

/-- A body agrees with its own document. -/
theorem EventCreate.storedAs_document (e : EventCreate) (eventId : String)
    (receivedAt : DateTime) : e.StoredAs ((e.document eventId receivedAt).mapDates DateTime.toBson) :=
  ⟨rfl, rfl, rfl, fun _ ↦ rfl, fun _ ↦ .refl _, fun _ ↦ rfl⟩

/-- The members of a payload. -/
theorem EventCreate.mem_payload {e : EventCreate} {k : String} {v : Json} :
    (k, v) ∈ e.payload ↔ k = "event_type" ∧ v = .str e.eventType ∨
      (e.fieldsSet.timestamp = true ∧ k = "timestamp" ∧ v = .str e.timestamp.isoformat) ∨
      k = "user_id" ∧ v = .str e.userId ∨ k = "source_url" ∧ v = .str e.sourceUrl ∨
      (e.fieldsSet.metadata = true ∧ k = "metadata" ∧ v = .obj e.metadata.dump.members) ∨
      (e.fieldsSet.schemaVersion = true ∧ k = "schema_version" ∧ v = .int e.schemaVersion) := by
  unfold payload
  cases e.fieldsSet.timestamp <;> cases e.fieldsSet.metadata <;>
    cases e.fieldsSet.schemaVersion <;> simp

/-- What `a` sets, `b` sets to the same value. -/
structure EventCreate.SetAlike (a b : EventCreate) : Prop where
  eventType : b.eventType = a.eventType
  userId : b.userId = a.userId
  sourceUrl : b.sourceUrl = a.sourceUrl
  timestamp : a.fieldsSet.timestamp = true →
    b.fieldsSet.timestamp = true ∧ b.timestamp = a.timestamp
  metadata : a.fieldsSet.metadata = true → b.fieldsSet.metadata = true ∧
    Json.Same (.obj b.metadata.dump.members) (.obj a.metadata.dump.members)
  schemaVersion : a.fieldsSet.schemaVersion = true →
    b.fieldsSet.schemaVersion = true ∧ b.schemaVersion = a.schemaVersion

/-- Equal payloads, sorted, set the same fields to the same values. -/
theorem EventCreate.setAlike_of_sortKeys_eq {a b : EventCreate}
    (h : (Json.obj a.payload).sortKeys = (Json.obj b.payload).sortKeys) : a.SetAlike b := by
  have hfield {k : String} {v : Json} (hv : (k, v) ∈ a.payload) :=
    Json.exists_member_of_sortKeys_eq h hv
  constructor
  · obtain ⟨w, hw, hsame⟩ := hfield (mem_payload.mpr (Or.inl ⟨rfl, rfl⟩))
    obtain rfl : w = .str b.eventType := by simpa [mem_payload] using hw
    exact Json.str.inj hsame
  · obtain ⟨w, hw, hsame⟩ := hfield (mem_payload.mpr (Or.inr (Or.inr (Or.inl ⟨rfl, rfl⟩))))
    obtain rfl : w = .str b.userId := by simpa [mem_payload] using hw
    exact Json.str.inj hsame
  · obtain ⟨w, hw, hsame⟩ :=
      hfield (mem_payload.mpr (Or.inr (Or.inr (Or.inr (Or.inl ⟨rfl, rfl⟩)))))
    obtain rfl : w = .str b.sourceUrl := by simpa [mem_payload] using hw
    exact Json.str.inj hsame
  · intro hset
    obtain ⟨w, hw, hsame⟩ := hfield (mem_payload.mpr (Or.inr (Or.inl ⟨hset, rfl, rfl⟩)))
    obtain ⟨hb, rfl⟩ : b.fieldsSet.timestamp = true ∧ w = .str b.timestamp.isoformat := by
      simpa [mem_payload] using hw
    exact ⟨hb, isoformat_injective (Json.str.inj hsame)⟩
  · intro hset
    obtain ⟨w, hw, hsame⟩ :=
      hfield (mem_payload.mpr (Or.inr (Or.inr (Or.inr (Or.inr (Or.inl ⟨hset, rfl, rfl⟩))))))
    obtain ⟨hb, rfl⟩ : b.fieldsSet.metadata = true ∧ w = .obj b.metadata.dump.members := by
      simpa [mem_payload] using hw
    exact ⟨hb, Json.same_of_sortKeys_eq hsame⟩
  · intro hset
    obtain ⟨w, hw, hsame⟩ :=
      hfield (mem_payload.mpr (Or.inr (Or.inr (Or.inr (Or.inr (Or.inr ⟨hset, rfl, rfl⟩))))))
    obtain ⟨hb, rfl⟩ : b.fieldsSet.schemaVersion = true ∧ w = .int b.schemaVersion := by
      simpa [mem_payload] using hw
    exact ⟨hb, Json.int.inj hsame⟩

/-- Then each is stored by the document of the other. -/
theorem EventCreate.SetAlike.storedAs {a b : EventCreate} (h : a.SetAlike b) (eventId : String)
    (receivedAt : DateTime) :
    a.StoredAs ((b.document eventId receivedAt).mapDates DateTime.toBson) where
  eventType := h.eventType
  userId := h.userId
  sourceUrl := h.sourceUrl
  timestamp hset := congrArg DateTime.toBson (h.timestamp hset).2
  metadata hset := (h.metadata hset).2
  schemaVersion hset := (h.schemaVersion hset).2

/-- **Equal fingerprints, equal bodies**, as far as the client set them. -/
theorem storedAs_of_fingerprint_eq {sha256 : String → String} (hsha : Function.Injective sha256)
    {a b : EventCreate} (h : idempotencyFingerprint sha256 a = idempotencyFingerprint sha256 b)
    (eventId : String) (receivedAt : DateTime) :
    a.StoredAs ((b.document eventId receivedAt).mapDates DateTime.toBson) := by
  have htext : a.canonical = b.canonical := hsha h
  exact (EventCreate.setAlike_of_sortKeys_eq
    (Json.render_injective (String.ofList_injective htext))).storedAs eventId receivedAt

/-- A body that sets no optional field. -/
def sampleBody (eventType : String) : EventCreate where
  eventType := eventType
  timestamp := .epoch
  userId := "u1"
  sourceUrl := "https://example.test"
  metadata := .empty
  schemaVersion := 1
  one_le_schemaVersion := one_le_defaultSchemaVersion
  fieldsSet := ⟨false, false, false⟩

/-- SHA-256 on the canonical texts of two such bodies; elsewhere any injective function does. -/
def sampleSha256 : String → String :=
  Equiv.swap (sampleBody "page_view").canonical
      "21f248f4910e0c54b31a2898d4b9a8e3805a7a8404b2bb6ed029bf9085bf7792"
    ∘ Equiv.swap (sampleBody "click").canonical
      "dc6a2f0e079cff11053022059c919e5f7d2fab5eeff098794abb401f4aa41bca"

theorem sampleSha256_injective : Function.Injective sampleSha256 :=
  (Equiv.injective _).comp (Equiv.injective _)

theorem sampleSha256_ne :
    idempotencyFingerprint sampleSha256 (sampleBody "page_view")
      ≠ idempotencyFingerprint sampleSha256 (sampleBody "click") := by
  intro h
  have htext : (sampleBody "page_view").canonical = (sampleBody "click").canonical :=
    sampleSha256_injective h
  have halike := EventCreate.setAlike_of_sortKeys_eq
    (Json.render_injective (String.ofList_injective htext))
  exact absurd halike.eventType (by decide)

/-! ## What the fingerprint tells apart -/

/-- The bodies set the same fields to the same values; two `dict`s are the same up to the order of
their members at every depth. What the client left to a default does not count. -/
structure EventCreate.SameBody (a b : EventCreate) : Prop where
  fieldsSet : a.fieldsSet = b.fieldsSet
  eventType : a.eventType = b.eventType
  userId : a.userId = b.userId
  sourceUrl : a.sourceUrl = b.sourceUrl
  timestamp : a.fieldsSet.timestamp = true → a.timestamp = b.timestamp
  metadata : a.fieldsSet.metadata = true →
    Json.Same (.obj a.metadata.members) (.obj b.metadata.members)
  schemaVersion : a.fieldsSet.schemaVersion = true → a.schemaVersion = b.schemaVersion

theorem FieldsSet.eq_of_fields {x y : FieldsSet} (hts : x.timestamp = y.timestamp)
    (hmd : x.metadata = y.metadata) (hsv : x.schemaVersion = y.schemaVersion) : x = y := by
  obtain ⟨_, _, _⟩ := x
  obtain ⟨_, _, _⟩ := y
  exact FieldsSet.mk.injEq .. ▸ ⟨hts, hmd, hsv⟩

namespace EventCreate

variable {a b : EventCreate}

/-- Every number in the metadata is finite. -/
def finiteMetadata (e : EventCreate) : Bool := (Json.obj e.metadata.members).finite

theorem dump_metadata {e : EventCreate} (h : e.finiteMetadata = true) :
    Json.obj e.metadata.dump.members = .obj e.metadata.members :=
  congrArg Json.obj (Json.dumpMembers_of_finite h)

/-- A payload is a `dict`. -/
theorem keysDistinct_payload (e : EventCreate) : (Json.obj e.payload).keysDistinct = true := by
  rw [Json.keysDistinct_obj]
  constructor
  · unfold payload
    cases e.fieldsSet.timestamp <;> cases e.fieldsSet.metadata <;>
      cases e.fieldsSet.schemaVersion <;> simp
  · rintro ⟨k, v⟩ hm
    rcases mem_payload.mp hm with ⟨-, rfl⟩ | ⟨-, -, rfl⟩ | ⟨-, rfl⟩ | ⟨-, rfl⟩ | ⟨-, -, rfl⟩ |
      ⟨-, -, rfl⟩
    · rfl
    · rfl
    · rfl
    · rfl
    · exact e.metadata.dump.distinct
    · rfl

/-- Bodies that set alike, both ways, are the same. -/
theorem SetAlike.sameBody (h : a.SetAlike b) (h' : b.SetAlike a) (ha : a.finiteMetadata = true)
    (hb : b.finiteMetadata = true) : a.SameBody b where
  fieldsSet := by
    have hts : a.fieldsSet.timestamp = b.fieldsSet.timestamp :=
      Bool.eq_iff_iff.mpr ⟨fun hset ↦ (h.timestamp hset).1, fun hset ↦ (h'.timestamp hset).1⟩
    have hmd : a.fieldsSet.metadata = b.fieldsSet.metadata :=
      Bool.eq_iff_iff.mpr ⟨fun hset ↦ (h.metadata hset).1, fun hset ↦ (h'.metadata hset).1⟩
    have hsv : a.fieldsSet.schemaVersion = b.fieldsSet.schemaVersion :=
      Bool.eq_iff_iff.mpr ⟨fun hset ↦ (h.schemaVersion hset).1,
        fun hset ↦ (h'.schemaVersion hset).1⟩
    exact FieldsSet.eq_of_fields hts hmd hsv
  eventType := h.eventType.symm
  userId := h.userId.symm
  sourceUrl := h.sourceUrl.symm
  timestamp hset := (h.timestamp hset).2.symm
  metadata hset := by
    have hsame := (h.metadata hset).2.symm
    rwa [dump_metadata ha, dump_metadata hb] at hsame
  schemaVersion hset := (h.schemaVersion hset).2.symm

/-- The same body is the same payload. -/
theorem SameBody.payload (h : a.SameBody b) (ha : a.finiteMetadata = true)
    (hb : b.finiteMetadata = true) : Json.Same (.obj a.payload) (.obj b.payload) := by
  have htimestamp : (if a.fieldsSet.timestamp then [("timestamp", Json.str a.timestamp.isoformat)]
      else []) = if a.fieldsSet.timestamp then [("timestamp", .str b.timestamp.isoformat)] else [] :=
    if_ctx_congr Iff.rfl (fun hset ↦ by rw [h.timestamp hset]) fun _ ↦ rfl
  have hversion : (if a.fieldsSet.schemaVersion then [("schema_version", Json.int a.schemaVersion)]
      else []) = if a.fieldsSet.schemaVersion then [("schema_version", .int b.schemaVersion)] else [] :=
    if_ctx_congr Iff.rfl (fun hset ↦ by rw [h.schemaVersion hset]) fun _ ↦ rfl
  have hmetadata (hset : a.fieldsSet.metadata = true) := h.metadata hset
  rw [← dump_metadata ha, ← dump_metadata hb] at hmetadata
  unfold EventCreate.payload
  rw [← h.fieldsSet, ← h.eventType, ← h.userId, ← h.sourceUrl, htimestamp, hversion]
  by_cases hset : a.fieldsSet.metadata = true
  · have hmiddle (xs ys : List (String × Json)) (m : String × Json) :
        xs ++ [m] ++ ys = xs ++ m :: ys := List.append_assoc xs [m] ys
    rw [if_pos hset, if_pos hset, hmiddle, hmiddle]
    exact .member _ "metadata" _ (hmetadata hset)
  · rw [if_neg hset, if_neg hset]
    exact .refl _

end EventCreate

/-- **The fingerprint separates exactly the different bodies.** -/
theorem fingerprint_eq_iff {sha256 : String → String} (hsha : Function.Injective sha256)
    {a b : EventCreate} (ha : a.finiteMetadata = true) (hb : b.finiteMetadata = true) :
    idempotencyFingerprint sha256 a = idempotencyFingerprint sha256 b ↔ a.SameBody b := by
  constructor
  · intro h
    have hkeys := Json.render_injective (String.ofList_injective (hsha h))
    exact (EventCreate.setAlike_of_sortKeys_eq hkeys).sameBody
      (EventCreate.setAlike_of_sortKeys_eq hkeys.symm) ha hb
  · intro h
    have hkeys := (Json.sortKeys_eq_iff a.keysDistinct_payload).mpr (h.payload ha hb)
    rw [idempotencyFingerprint, idempotencyFingerprint, EventCreate.canonical,
      EventCreate.canonical, hkeys]

/-- The body `sampleBody "click"` with the given metadata. -/
def withMetadata (metadata : Metadata) : EventCreate :=
  { sampleBody "click" with metadata := metadata, fieldsSet := ⟨false, true, false⟩ }

theorem distinct_xy :
    (Json.obj [("a", .obj [("x", .int 1), ("y", .int 2)])]).keysDistinct = true := by decide

theorem distinct_yx :
    (Json.obj [("a", .obj [("y", .int 2), ("x", .int 1)])]).keysDistinct = true := by decide

/-- Two bodies that differ in the order of nested members. -/
theorem fingerprint_eq_reordered :
    idempotencyFingerprint sampleSha256 (withMetadata ⟨_, distinct_xy⟩)
      = idempotencyFingerprint sampleSha256 (withMetadata ⟨_, distinct_yx⟩) := by
  refine (fingerprint_eq_iff sampleSha256_injective (by decide) (by decide)).mpr
    ⟨rfl, rfl, rfl, rfl, fun _ ↦ rfl, fun _ ↦ ?_, fun _ ↦ rfl⟩
  exact .member [] "a" [] (.reorder (List.Perm.swap _ _ []))

end Acheron
