import Acheron.Api.Listing
import Acheron.Storage.Search
import Acheron.Worker.Mirror

/-!
# Search

`GET /events/search` over what the index holds. A source has its dates as texts, of which
Elasticsearch keeps the instants; free text is its own matter, and `analyzed` says which sources
match it. The hits may come in any order, as nothing is asked for but a score. The server searches
the index as of its last refresh, not as of now; that index is the `view` of a search.

Of an index that mirrors the store, a search finds events of the store only, and returns each as
`GET /events` does (`mem_hits`, `length_ids_le`); what is mirrored and passes the filters, it finds
(`mem_ids_of_matches`).
-/

namespace Acheron

/-! ## What a source says -/

/-- The value of a `keyword` field of a source. -/
def KeywordField.ofSource (source : EsSource) : KeywordField → String
  | .eventType => source.event.eventType
  | .userId => source.event.userId
  | .sourceUrl => source.event.sourceUrl

/-- The `timestamp` of a source, as its `date` field has it. -/
def EsSource.timestamp (source : EsSource) : Option BsonDate :=
  (readIso source.event.timestamp).map fun r ↦ ⟨r.first⟩

/-- The filter selects the source. -/
def EsFilter.Selects (source : EsSource) : EsFilter → Bool
  | .term field value => value = field.ofSource source
  | .range r => source.timestamp.any r.Matches

/-- The query selects the source; `analyzed` tells which sources match a free text. -/
def EsQuery.Selects (analyzed : EsSource → String → Bool) (source : EsSource) : EsQuery → Bool
  | .matchAll => true
  | .bool must filter => must.all (analyzed source) && filter.all (EsFilter.Selects source)

/-! ## The answer -/

/-- What the server answers to a query before it is cut: the ids of the sources it selects in the
index as it sees it. -/
structure SearchAnswer (analyzed : EsSource → String → Bool) (index : EsIndex)
    (query : EsQuery) where
  ids : List String
  nodup : ids.Nodup
  mem_iff : ∀ k, k ∈ ids ↔ ∃ source, index.docs k = some source ∧ query.Selects analyzed source

/-- What `search_events` answers. -/
inductive SearchReply where
  | found (hits : List (EventRecord String)) (total : ℕ) (query : Option String) (size offset : ℕ)
  /-- 502: the search raised. -/
  | badGateway

/-- `ElasticsearchStore.search`: the page of `_source` bodies without `metadata_text`, and the
number of matches. -/
def search {analyzed : EsSource → String → Bool} {index : EsIndex} {query : EsQuery}
    (answer : SearchAnswer analyzed index query) (size offset : ℕ) :
    List (EventRecord String) × ℕ :=
  (((answer.ids.drop offset).take size).filterMap fun k ↦ (index.docs k).map EsSource.event,
    answer.ids.length)

/-- `search_events`, where `view` is the index as of its last refresh. Without an index the search
raises; it may raise with one. -/
def searchEvents (analyzed : EsSource → String → Bool) (query : Option String) (q : EventFilters)
    (size offset : ℕ) (view : EsServer) (raised : Bool)
    (answer : ∀ index, view = some index → SearchAnswer analyzed index (esQuery query q)) :
    SearchReply :=
  match view, raised, answer with
  | some index, false, answer =>
    let r := search (answer index rfl) size offset
    .found r.1 r.2 query size offset
  | _, _, _ => .badGateway

/-- The reply is a page of the answer. -/
theorem searchEvents_eq_found {analyzed : EsSource → String → Bool} {query query' : Option String}
    {q : EventFilters} {size offset size' offset' : ℕ} {view : EsServer} {raised : Bool}
    {answer : ∀ index, view = some index → SearchAnswer analyzed index (esQuery query q)}
    {hits : List (EventRecord String)} {total : ℕ}
    (h : searchEvents analyzed query q size offset view raised answer
      = .found hits total query' size' offset') :
    ∃ index, ∃ hview : view = some index,
      hits = (search (answer index hview) size offset).1 ∧
        total = (answer index hview).ids.length := by
  unfold searchEvents at h
  split at h
  next index answer =>
    obtain ⟨rfl, rfl, -⟩ := SearchReply.found.inj h
    exact ⟨index, rfl, rfl, rfl⟩
  next => exact absurd h (by simp)

/-- The body of an event in `GET /events`: `EventDocument` in JSON mode. -/
def listed (e : EventRecord BsonDate) : EventRecord String :=
  { e.rebuild.mapDates DateTime.isoformat with metadata := e.metadata.dump }

theorem listed_event (d : EventDoc BsonDate) : listed d.event = d.rendering := rfl

/-! ## A mirrored document -/

/-- A date that can be decoded is read back as it is. -/
theorem BsonDate.toBson_toDateTime {date : BsonDate} (h : date.InRange) :
    date.toDateTime.toBson = date := by
  obtain ⟨millis⟩ := date
  simp only [BsonDate.InRange, minWall, wallEnd] at h
  refine congrArg BsonDate.mk ?_
  simp only [DateTime.instant, BsonDate.toDateTime, DateTime.ofMillis, minWall, wallEnd,
    Option.getD_none]
  omega

/-- A naive value has one text. -/
theorem isoformat_eq_pyIsoformat {t : DateTime} (h : t.utcOffset = none) :
    t.isoformat = t.pyIsoformat := by
  rw [DateTime.isoformat, DateTime.pyIsoformat, h, pyOffset, List.append_nil]

/-- The date field has the instant that is stored. -/
theorem timestamp_of_mirrors {source : EsSource} {d : EventDoc BsonDate} (h : source.Mirrors d)
    (hdate : d.event.timestamp.InRange) : source.timestamp = some d.event.timestamp := by
  obtain ⟨b, hb, hfirst⟩ := first_pyIsoformat d.event.timestamp.toDateTime
  have htext : source.event.timestamp = d.event.timestamp.toDateTime.pyIsoformat := by
    rw [h.event]
    exact isoformat_eq_pyIsoformat rfl
  rw [EsSource.timestamp, htext, hb, Option.map_some, hfirst, BsonDate.toBson_toDateTime hdate]

/-- **A query selects a source as it selects the stored event.** -/
theorem selects_iff_of_mirrors {source : EsSource} {d : EventDoc BsonDate} (h : source.Mirrors d)
    (hdate : d.event.timestamp.InRange) (analyzed : EsSource → String → Bool) (query : EsQuery) :
    query.Selects analyzed source = query.Matches (analyzed source) d.event := by
  have hfilter (f : EsFilter) : f.Selects source = f.Matches d.event := by
    rcases f with ⟨field, value⟩ | r
    · have hfield : field.ofSource source = field.of d.event := by
        cases field with
        | eventType | userId | sourceUrl =>
          simp only [KeywordField.ofSource, KeywordField.of, h.event]
          rfl
      rw [EsFilter.Selects, EsFilter.Matches, hfield]
    · rw [EsFilter.Selects, EsFilter.Matches, timestamp_of_mirrors h hdate, Option.any_some]
  rcases query with _ | ⟨must, filter⟩
  · rfl
  · rw [EsQuery.Selects, EsQuery.Matches, funext hfilter]

/-! ## The filters -/

instance (q : EventFilters) (e : EventRecord BsonDate) : Decidable (Overshoots q e) :=
  decidable_of_iff (((truthy q.eventType).all (· = e.eventType) = true ∧
      (truthy q.userId).all (· = e.userId) = true ∧
      (truthy q.sourceUrl).all (· = e.sourceUrl) = true) ∧
      (∀ t ∈ q.fromTs, t.toBson.millis ≤ e.timestamp.millis) ∧
      ∃ t ∈ q.toTs, t.WholeSecond ∧ t.toBson.millis < e.timestamp.millis ∧
        e.timestamp.millis ≤ t.toBson.millis + 999)
    ⟨fun ⟨⟨htype, huser, hurl⟩, hfrom, hto⟩ ↦ ⟨htype, huser, hurl, hfrom, hto⟩,
      fun h ↦ ⟨⟨h.eventType, h.userId, h.sourceUrl⟩, h.fromTs, h.toTs⟩⟩

section Filters

variable {q : EventFilters} {analyzed : String → Bool} {e : EventRecord BsonDate}

/-- The free text narrows what the filters select. -/
theorem esQuery_matches_text (query : Option String) :
    (esQuery query q).Matches analyzed e = true ↔
      (truthy query).all analyzed = true ∧ (esQuery none q).Matches analyzed e = true := by
  have hquery (query : Option String) : (esQuery query q).Matches analyzed e
      = ((truthy query).all analyzed && (esFilters q).all (EsFilter.Matches e)) := by
    unfold esQuery
    split
    next hnone hnil => rw [hnone, hnil]; rfl
    next => rfl
  rw [hquery query, hquery none, Bool.and_eq_true]
  exact Iff.rfl

/-- An event that overshoots is no match. -/
theorem Overshoots.not_matches (h : Overshoots q e) : ¬ (mongoFilter q).Matches e = true := by
  obtain ⟨t, ht, -, hlt, -⟩ := h.toTs
  rw [mongoFilter_matches]
  rintro ⟨-, -, -, -, hto⟩
  exact absurd (hto t ht) (not_le.mpr hlt)

/-- The filters of a search let through the matches and what overshoots. -/
theorem esQuery_matches_iff :
    (esQuery none q).Matches analyzed e = true ↔
      (mongoFilter q).Matches e = true ∨ Overshoots q e := by
  rw [esQuery_matches rfl, mongoFilter_matches]
  constructor
  · rintro ⟨htype, huser, hurl, hfrom, hto⟩
    by_cases hbound : ∀ t ∈ q.toTs, e.timestamp.millis ≤ t.toBson.millis
    · exact Or.inl ⟨htype, huser, hurl, hfrom, hbound⟩
    · push Not at hbound
      obtain ⟨t, ht, hlt⟩ := hbound
      have hle := hto t ht
      have hwhole : t.WholeSecond := by
        by_contra hnot
        rw [if_neg hnot] at hle
        omega
      rw [if_pos hwhole] at hle
      exact Or.inr ⟨htype, huser, hurl, hfrom, t, ht, hwhole, hlt, hle⟩
  · rintro (⟨htype, huser, hurl, hfrom, hto⟩ | ⟨htype, huser, hurl, hfrom, t, ht, hwhole, -, hle⟩)
    · refine ⟨htype, huser, hurl, hfrom, fun t ht ↦ (hto t ht).trans ?_⟩
      split
      · omega
      · omega
    · refine ⟨htype, huser, hurl, hfrom, fun u hu ↦ ?_⟩
      obtain rfl := Option.some.inj (ht.symm.trans hu)
      rwa [if_pos hwhole]

end Filters

/-- The stored events the filters of a search let through. -/
def searchable (c : Events) (q : EventFilters) : List (EventRecord BsonDate) :=
  (c.docs.map EventDoc.event).filter ((esQuery none q).Matches fun _ ↦ true)

/-- The stored events that overshoot. -/
def overshooting (c : Events) (q : EventFilters) : List (EventRecord BsonDate) :=
  (c.docs.map EventDoc.event).filter fun e ↦ Overshoots q e

theorem length_searchable (c : Events) (q : EventFilters) :
    (searchable c q).length = (matching c q).length + (overshooting c q).length := by
  rw [searchable, matching, overshooting]
  induction c.docs.map EventDoc.event with
  | nil => rfl
  | cons e es ih =>
    have hiff : (esQuery none q).Matches (fun _ ↦ true) e = true ↔
        (mongoFilter q).Matches e = true ∨ Overshoots q e := esQuery_matches_iff
    rw [List.filter_cons, List.filter_cons, List.filter_cons]
    by_cases hover : Overshoots q e
    · have hmatch : (mongoFilter q).Matches e = false := by simpa using hover.not_matches
      rw [if_pos (hiff.mpr (Or.inr hover)), if_neg (by simp [hmatch]), if_pos (by simp [hover]),
        List.length_cons, List.length_cons, ih, Nat.add_assoc]
    · rw [if_neg (c := decide (Overshoots q e) = true) (by simp [hover])]
      by_cases hmatch : (mongoFilter q).Matches e = true
      · rw [if_pos (hiff.mpr (Or.inl hmatch)), if_pos hmatch, List.length_cons, List.length_cons,
          ih]
        omega
      · rw [if_neg fun h ↦ (hiff.mp h).elim hmatch hover, if_neg hmatch, ih]

theorem nodup_map_eventId (c : Events) (q : EventFilters) :
    ((matching c q).map EventRecord.eventId).Nodup := by
  have hids : (c.docs.map EventDoc.event).map EventRecord.eventId = c.docs.map EventDoc.id := by
    rw [List.map_map]
    exact List.map_congr_left fun d _ ↦ d.id_eq.symm
  exact (hids ▸ c.nodup).sublist (List.filter_sublist.map _)

/-! ## What a search finds -/

section Found

variable {s : IndexerState} {index : EsIndex} {query : Option String} {q : EventFilters}
  {analyzed : EsSource → String → Bool} (answer : SearchAnswer analyzed index (esQuery query q))

/-- The answer is about stored events. -/
theorem exists_stored (hmirrors : s.Mirrors) (hserver : s.server = some index)
    (hdates : ∀ d ∈ s.events.docs, d.event.timestamp.InRange) {k : String} (hk : k ∈ answer.ids) :
    ∃ d ∈ s.events.docs, d.id = k ∧ (index.docs k).map EsSource.event = some (listed d.event) ∧
      (esQuery none q).Matches (fun _ ↦ true) d.event = true := by
  obtain ⟨source, hsource, hselects⟩ := (answer.mem_iff k).mp hk
  obtain ⟨d, hd, hid, hmirror⟩ := hmirrors k source (by rw [hserver]; exact hsource)
  rw [selects_iff_of_mirrors hmirror (hdates d hd), esQuery_matches_text] at hselects
  refine ⟨d, hd, hid, ?_, esQuery_matches_iff.mpr (esQuery_matches_iff.mp hselects.2)⟩
  rw [hsource, Option.map_some, hmirror.event, listed_event]

/-- **Every hit is a stored event as it is listed.** -/
theorem mem_hits (hmirrors : s.Mirrors) (hserver : s.server = some index)
    (hdates : ∀ d ∈ s.events.docs, d.event.timestamp.InRange) {size offset : ℕ}
    {hit : EventRecord String} (hhit : hit ∈ (search answer size offset).1) :
    ∃ d ∈ s.events.docs, hit = listed d.event ∧
      ((mongoFilter q).Matches d.event = true ∨ Overshoots q d.event) := by
  obtain ⟨k, hk, hevent⟩ := List.mem_filterMap.mp hhit
  have hids := List.mem_of_mem_drop (List.mem_of_mem_take hk)
  obtain ⟨d, hd, -, hlisted, hmatches⟩ := exists_stored answer hmirrors hserver hdates hids
  exact ⟨d, hd, Option.some.inj (hevent.symm.trans hlisted), esQuery_matches_iff.mp hmatches⟩

/-- The hits of a page are the ids of the page. -/
theorem map_eventId_hits (hmirrors : s.Mirrors) (hserver : s.server = some index)
    (hdates : ∀ d ∈ s.events.docs, d.event.timestamp.InRange) (size offset : ℕ) :
    (search answer size offset).1.map EventRecord.eventId
      = (answer.ids.drop offset).take size := by
  have hall : ∀ k ∈ (answer.ids.drop offset).take size,
      (index.docs k).map (fun source ↦ source.event.eventId) = some k := by
    intro k hk
    have hids := List.mem_of_mem_drop (List.mem_of_mem_take hk)
    obtain ⟨d, -, hid, hlisted, -⟩ := exists_stored answer hmirrors hserver hdates hids
    have hmap := congrArg (Option.map EventRecord.eventId) hlisted
    rw [Option.map_map, Option.map_some] at hmap
    exact hmap.trans (congrArg some (d.id_eq.symm.trans hid))
  have hhits : (search answer size offset).1.map EventRecord.eventId
      = ((answer.ids.drop offset).take size).filterMap
          fun k ↦ (index.docs k).map fun source ↦ source.event.eventId := by
    simp only [search, List.map_filterMap, Option.map_map]
    rfl
  rw [hhits, List.filterMap_congr hall, List.filterMap_some]

/-- **There are no more matches than `GET /events` has, and what overshoots.** -/
theorem length_ids_le (hmirrors : s.Mirrors) (hserver : s.server = some index)
    (hdates : ∀ d ∈ s.events.docs, d.event.timestamp.InRange) :
    answer.ids.length ≤ (matching s.events q).length + (overshooting s.events q).length := by
  have hsub : answer.ids ⊆ (searchable s.events q).map EventRecord.eventId := by
    intro k hk
    obtain ⟨d, hd, hid, -, hmatches⟩ := exists_stored answer hmirrors hserver hdates hk
    refine List.mem_map.mpr ⟨d.event, List.mem_filter.mpr ⟨List.mem_map_of_mem hd, hmatches⟩, ?_⟩
    exact d.id_eq.symm.trans hid
  have hle := (List.subperm_of_subset answer.nodup hsub).length_le
  rwa [List.length_map, length_searchable] at hle

/-- **What is mirrored and passes the filters is found.** -/
theorem mem_ids_of_matches (hquery : truthy query = none) {d : EventDoc BsonDate}
    {source : EsSource} (hsource : index.docs d.id = some source) (hmirror : source.Mirrors d)
    (hdate : d.event.timestamp.InRange) (hmatch : (mongoFilter q).Matches d.event = true) :
    d.id ∈ answer.ids := by
  refine (answer.mem_iff d.id).mpr ⟨source, hsource, ?_⟩
  rw [selects_iff_of_mirrors hmirror hdate, esQuery_matches_text, hquery]
  exact ⟨rfl, esQuery_matches_iff.mpr (Or.inl hmatch)⟩

end Found

end Acheron
