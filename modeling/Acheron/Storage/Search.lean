import Acheron.Event.IsoRead
import Acheron.Storage.Filter

/-!
# Searching events

The query `ElasticsearchStore.search` builds from the filters it shares with `find_events`. Its
bounds on `timestamp` are texts, of which Elasticsearch reads the milliseconds, and a text without
sub-second digits it completes: to the first millisecond of the second in a lower bound, to the last
one in an upper bound. `datetime.isoformat()` leaves the digits out of a whole second.

So an upper bound on a whole second lets through the events within that second, which Mongo's bound
does not. `reads_agree_iff` says that there is no other difference.
-/

namespace Acheron

/-! ## The query -/

/-- A `{"gte"/"lte": ...}` range. -/
structure TimestampRange where
  gte : Option String
  lte : Option String

/-- `_timestamp_range`. -/
def timestampRange (fromTs toTs : Option DateTime) : Option TimestampRange :=
  match fromTs, toTs with
  | none, none => none
  | _, _ => some ⟨fromTs.map DateTime.pyIsoformat, toTs.map DateTime.pyIsoformat⟩

/-- The `keyword` fields that are filtered on. -/
inductive KeywordField where
  | eventType
  | userId
  | sourceUrl

/-- The value of a field. -/
def KeywordField.of (e : EventRecord BsonDate) : KeywordField → String
  | .eventType => e.eventType
  | .userId => e.userId
  | .sourceUrl => e.sourceUrl

/-- One of the `filters`. -/
inductive EsFilter where
  | term (field : KeywordField) (value : String)
  /-- A range on `timestamp`. -/
  | range (r : TimestampRange)

/-- An `es_query`. -/
inductive EsQuery where
  | matchAll
  /-- `must` is the text of a `multi_match`. -/
  | bool (must : Option String) (filter : List EsFilter)

/-- `filters`. -/
def esFilters (q : EventFilters) : List EsFilter :=
  ((truthy q.eventType).map (EsFilter.term .eventType)).toList
    ++ ((truthy q.userId).map (EsFilter.term .userId)).toList
    ++ ((truthy q.sourceUrl).map (EsFilter.term .sourceUrl)).toList
    ++ ((timestampRange q.fromTs q.toTs).map EsFilter.range).toList

/-- The query `search` sends. -/
def esQuery (query : Option String) (q : EventFilters) : EsQuery :=
  match truthy query, esFilters q with
  | none, [] => .matchAll
  | must, filters => .bool must filters

/-! ## What it selects -/

/-- A lower bound: missing sub-second digits are zero. -/
def IsoReading.first (r : IsoReading) : ℤ := r.seconds * 1000 + r.millis.getD 0

/-- An upper bound: missing sub-second digits are `.999`. -/
def IsoReading.last (r : IsoReading) : ℤ := r.seconds * 1000 + r.millis.getD 999

/-- The instant is within the bounds. -/
def TimestampRange.Matches (r : TimestampRange) (timestamp : BsonDate) : Bool :=
  r.gte.all (fun text ↦ (readIso text).any fun b ↦ b.first ≤ timestamp.millis) &&
    r.lte.all (fun text ↦ (readIso text).any fun b ↦ timestamp.millis ≤ b.last)

/-- Elasticsearch selects the event. -/
def EsFilter.Matches (e : EventRecord BsonDate) : EsFilter → Bool
  | .term field value => value = field.of e
  | .range r => r.Matches e.timestamp

/-- Elasticsearch selects the event; `analyzed` tells which texts match it. -/
def EsQuery.Matches (analyzed : String → Bool) (e : EventRecord BsonDate) : EsQuery → Bool
  | .matchAll => true
  | .bool must filter => must.all analyzed && filter.all (EsFilter.Matches e)

/-! ## Bounds -/

/-- The `microsecond` of a `datetime` is zero. -/
def DateTime.WholeSecond (t : DateTime) : Prop := t.wall % 1000000 = 0

instance (t : DateTime) : Decidable t.WholeSecond := inferInstanceAs (Decidable (_ = _))

/-- A lower bound is the one Mongo uses. -/
theorem first_pyIsoformat (t : DateTime) :
    ∃ b, readIso t.pyIsoformat = some b ∧ b.first = t.toBson.millis := by
  refine ⟨_, readIso_pyIsoformat t, ?_⟩
  have hinstant : t.instant % 1000000 = t.wall % 1000000 := by
    unfold DateTime.instant
    omega
  unfold IsoReading.first DateTime.toBson
  by_cases hwhole : t.wall % 1000000 = 0
  · rw [if_pos hwhole, Option.getD_none]
    dsimp only
    omega
  · rw [if_neg hwhole, Option.getD_some]
    dsimp only
    omega

/-- An upper bound is the one Mongo uses, or it is the end of that second. -/
theorem last_pyIsoformat (t : DateTime) : ∃ b, readIso t.pyIsoformat = some b ∧
    b.last = t.toBson.millis + if t.WholeSecond then 999 else 0 := by
  refine ⟨_, readIso_pyIsoformat t, ?_⟩
  have hinstant : t.instant % 1000000 = t.wall % 1000000 := by
    unfold DateTime.instant
    omega
  unfold IsoReading.last DateTime.toBson
  by_cases hwhole : t.wall % 1000000 = 0
  · have hwhole' : t.WholeSecond := hwhole
    rw [if_pos hwhole, if_pos hwhole', Option.getD_none]
    dsimp only
    omega
  · have hwhole' : ¬ t.WholeSecond := hwhole
    rw [if_neg hwhole, if_neg hwhole', Option.getD_some]
    dsimp only
    omega

theorem timestampRange_of_some {fromTs toTs : Option DateTime} (h : fromTs ≠ none ∨ toTs ≠ none) :
    timestampRange fromTs toTs
      = some ⟨fromTs.map DateTime.pyIsoformat, toTs.map DateTime.pyIsoformat⟩ := by
  rcases fromTs with _ | t
  · rcases toTs with _ | u
    · simp at h
    · rfl
  · rfl

/-- What the range selects. -/
theorem timestampRange_matches (fromTs toTs : Option DateTime) (timestamp : BsonDate) :
    (timestampRange fromTs toTs).all (·.Matches timestamp) = true ↔
      (∀ t ∈ fromTs, t.toBson.millis ≤ timestamp.millis) ∧
        ∀ t ∈ toTs, timestamp.millis ≤ t.toBson.millis + if t.WholeSecond then 999 else 0 := by
  have hfrom : (fromTs.map DateTime.pyIsoformat).all
      (fun text ↦ (readIso text).any fun b ↦ b.first ≤ timestamp.millis) = true ↔
        ∀ t ∈ fromTs, t.toBson.millis ≤ timestamp.millis := by
    rcases fromTs with _ | t
    · simp
    · obtain ⟨b, hb, hfirst⟩ := first_pyIsoformat t
      rw [Option.map_some, Option.all_some, hb, Option.any_some, hfirst, decide_eq_true_iff]
      simp
  have hto : (toTs.map DateTime.pyIsoformat).all
      (fun text ↦ (readIso text).any fun b ↦ timestamp.millis ≤ b.last) = true ↔
        ∀ t ∈ toTs, timestamp.millis ≤ t.toBson.millis + if t.WholeSecond then 999 else 0 := by
    rcases toTs with _ | t
    · simp
    · obtain ⟨b, hb, hlast⟩ := last_pyIsoformat t
      rw [Option.map_some, Option.all_some, hb, Option.any_some, hlast, decide_eq_true_iff]
      simp
  rw [← hfrom, ← hto, ← Bool.and_eq_true]
  by_cases hsome : fromTs ≠ none ∨ toTs ≠ none
  · rw [timestampRange_of_some hsome, Option.all_some, TimestampRange.Matches]
  · rw [not_or, not_not, not_not] at hsome
    obtain ⟨rfl, rfl⟩ := hsome
    simp [timestampRange]

theorem all_term (value : Option String) (field : KeywordField) (e : EventRecord BsonDate) :
    (value.map (EsFilter.term field)).toList.all (EsFilter.Matches e)
      = value.all (· = field.of e) := by
  rcases value with _ | v
  · rfl
  · simp only [Option.map_some, Option.toList_some, List.all_cons, List.all_nil, Bool.and_true,
      EsFilter.Matches, Option.all_some]

theorem all_range (r : Option TimestampRange) (e : EventRecord BsonDate) :
    (r.map EsFilter.range).toList.all (EsFilter.Matches e) = r.all (·.Matches e.timestamp) := by
  rcases r with _ | r
  · rfl
  · simp only [Option.map_some, Option.toList_some, List.all_cons, List.all_nil, Bool.and_true,
      EsFilter.Matches, Option.all_some]

/-- What the query selects, without free text. -/
theorem esQuery_matches {query : Option String} (hquery : truthy query = none) (q : EventFilters)
    (analyzed : String → Bool) (e : EventRecord BsonDate) :
    (esQuery query q).Matches analyzed e = true ↔
      (truthy q.eventType).all (· = e.eventType) = true ∧
        (truthy q.userId).all (· = e.userId) = true ∧
        (truthy q.sourceUrl).all (· = e.sourceUrl) = true ∧
        (∀ t ∈ q.fromTs, t.toBson.millis ≤ e.timestamp.millis) ∧
        ∀ t ∈ q.toTs, e.timestamp.millis ≤ t.toBson.millis + if t.WholeSecond then 999 else 0 := by
  have hfilters : (esQuery query q).Matches analyzed e
      = (esFilters q).all (EsFilter.Matches e) := by
    rw [esQuery, hquery]
    rcases hf : esFilters q with _ | ⟨f, fs⟩
    · rfl
    · simp [EsQuery.Matches]
  rw [hfilters, ← timestampRange_matches, esFilters, List.all_append, List.all_append,
    List.all_append, all_term, all_term, all_term, all_range, Bool.and_eq_true,
    Bool.and_eq_true, Bool.and_eq_true, and_assoc, and_assoc]
  exact Iff.rfl

/-! ## The two read paths -/

/-- **The difference.** The upper bound is on a whole second and the event lies later within that
second; the other filters let it through. -/
structure Overshoots (q : EventFilters) (e : EventRecord BsonDate) : Prop where
  eventType : (truthy q.eventType).all (· = e.eventType) = true
  userId : (truthy q.userId).all (· = e.userId) = true
  sourceUrl : (truthy q.sourceUrl).all (· = e.sourceUrl) = true
  fromTs : ∀ t ∈ q.fromTs, t.toBson.millis ≤ e.timestamp.millis
  toTs : ∃ t ∈ q.toTs, t.WholeSecond ∧ t.toBson.millis < e.timestamp.millis ∧
    e.timestamp.millis ≤ t.toBson.millis + 999

/-- **Without free text the two read paths agree on an event unless it overshoots.** -/
theorem reads_agree_iff {query : Option String} (hquery : truthy query = none) (q : EventFilters)
    (analyzed : String → Bool) (e : EventRecord BsonDate) :
    ((mongoFilter q).Matches e = true ↔ (esQuery query q).Matches analyzed e = true) ↔
      ¬ Overshoots q e := by
  rw [mongoFilter_matches, esQuery_matches hquery]
  constructor
  · rintro hiff ⟨htype, huser, hurl, hfrom, t, ht, hwhole, hlt, hle⟩
    have hto : ∀ u ∈ q.toTs,
        e.timestamp.millis ≤ u.toBson.millis + if u.WholeSecond then 999 else 0 := by
      intro u hu
      obtain rfl := Option.some.inj (ht.symm.trans hu)
      rw [if_pos hwhole]
      exact hle
    obtain ⟨-, -, -, -, hmongo⟩ := hiff.mpr ⟨htype, huser, hurl, hfrom, hto⟩
    exact absurd (hmongo t ht) (not_le.mpr hlt)
  · intro hnot
    refine and_congr_right fun htype ↦ and_congr_right fun huser ↦ and_congr_right fun hurl ↦
      and_congr_right fun hfrom ↦ forall₂_congr fun t ht ↦ ?_
    by_cases hwhole : t.WholeSecond
    · rw [if_pos hwhole]
      constructor
      · intro hle
        omega
      · intro hle
        by_contra hlt
        exact hnot ⟨htype, huser, hurl, hfrom, t, ht, hwhole, not_le.mp hlt, hle⟩
    · rw [if_neg hwhole, Int.add_zero]

/-- Events up to the epoch. -/
def upToEpoch : EventFilters := { EventFilters.none with toTs := some .epoch }

/-- An event some milliseconds after the epoch. -/
def eventAt (millis : ℤ) : EventRecord BsonDate :=
  { (makeEvent "e1").mapDates DateTime.toBson with timestamp := ⟨millis⟩ }

theorem eventAt_zero_agree : (mongoFilter upToEpoch).Matches (eventAt 0) = true ↔
    (esQuery (some "") upToEpoch).Matches (fun _ ↦ true) (eventAt 0) = true := by
  refine (reads_agree_iff rfl upToEpoch (fun _ ↦ true) (eventAt 0)).mpr ?_
  rintro ⟨-, -, -, -, t, ht, -, hlt, -⟩
  obtain rfl := Option.some.inj ht
  exact absurd hlt (by decide)

/-- Half a second after the bound, the event is still found by a search. -/
theorem eventAt_500_disagree : ¬ ((mongoFilter upToEpoch).Matches (eventAt 500) = true ↔
    (esQuery none upToEpoch).Matches (fun _ ↦ true) (eventAt 500) = true) := by
  rw [mongoFilter_matches, esQuery_matches rfl]
  intro hiff
  have hmongo := (hiff.mpr ⟨rfl, rfl, rfl,
    fun t ht ↦ absurd ht (by simp [upToEpoch, EventFilters.none]),
    fun t ht ↦ by
      obtain rfl := Option.some.inj ht
      decide⟩).2.2.2.2
  exact absurd (hmongo .epoch rfl) (by decide)

end Acheron
