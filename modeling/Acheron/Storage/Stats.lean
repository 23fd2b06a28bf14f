import Mathlib.Algebra.GroupWithZero.Nat
import Mathlib.Data.Prod.Lex
import Mathlib.Data.String.Basic
import Acheron.Lib.Grouping
import Acheron.Lib.Paging
import Acheron.Storage.Filter

/-!
# Counting events

`MongoStore.aggregate_counts`: the events within the bounds, grouped by type or by type and time
bucket, and the groups sorted. `$group` answers the groups in any order; the sort keys tell them
apart, so what comes out is the same whatever order that was: `aggregateCounts_unique`.

Buckets cut the group of a type into parts, and the groups are the events within the bounds:
`bucketsPartition_aggregateCounts`.

## What the driver makes of it

The rows come back through the driver, which decodes the buckets, and it has encoded the bounds
before. Both may fail: an offset may put a bound outside the years a date can have, and the first
week of the year 1 begins in a year before it. `buckets_partition_iff` says that nothing else keeps
the counts from being partitioned.
-/

open Paging Grouping

namespace Acheron

/-- A row of the counts, with its bucket if they are bucketed. -/
@[ext] structure StatRow where
  eventType : String
  bucket : Option BsonDate
  count : ℕ
  deriving DecidableEq

/-- What `interval` may be. -/
inductive TimeUnit where
  | minute
  | hour
  | day
  | week

/-- The length of a unit. -/
def TimeUnit.millis : TimeUnit → ℤ
  | .minute => 60000
  | .hour => 3600000
  | .day => 86400000
  | .week => 604800000

/-- A boundary of the unit; weeks begin on Sunday. -/
def TimeUnit.origin : TimeUnit → ℤ
  | .week => 259200000
  | _ => 0

/-- `$dateTrunc`. -/
def dateTrunc (unit : TimeUnit) (d : BsonDate) : BsonDate :=
  ⟨(d.millis - unit.origin) / unit.millis * unit.millis + unit.origin⟩

/-- What the `$match` stage lets through; without bounds there is none. -/
def matchStage (c : Events) (fromTs toTs : Option DateTime) : List (EventRecord BsonDate) :=
  (c.docs.map EventDoc.event).filter fun e ↦ (timestampClause fromTs toTs).all (·.Matches e.timestamp)

/-- The `_id` of the `$group` stage. -/
def groupKey (interval : Option TimeUnit) (e : EventRecord BsonDate) : String × Option BsonDate :=
  (e.eventType, interval.map (dateTrunc · e.timestamp))

/-- The `$project` stage. -/
def StatRow.ofGroup (g : (String × Option BsonDate) × ℕ) : StatRow := ⟨g.1.1, g.1.2, g.2⟩

/-- The rows, in no particular order. -/
def statRows (c : Events) (fromTs toTs : Option DateTime) (interval : Option TimeUnit) :
    List StatRow :=
  (groups (groupKey interval) (matchStage c fromTs toTs)).map StatRow.ofGroup

/-- The key of the `$sort` stage: largest count first, or by bucket; then by type. -/
def StatRow.sortKey (interval : Option TimeUnit) (r : StatRow) : ℤ ×ₗ String :=
  match interval with
  | none => toLex (-(r.count : ℤ), r.eventType)
  | some _ => toLex (r.bucket.elim 0 BsonDate.millis, r.eventType)

/-- The rows the server answers `MongoStore.aggregate_counts` with. -/
def aggregateCounts (c : Events) (fromTs toTs : Option DateTime) (interval : Option TimeUnit)
    (answer : Ordering (StatRow.sortKey interval) (statRows c fromTs toTs interval)) :
    List StatRow := answer.items

/-- `MongoStore.aggregate_counts`: the rows, unless the driver raises an `OverflowError` for a bound
it cannot encode, or an `InvalidBSON` for a bucket it cannot decode. -/
def aggregateCountsCall (c : Events) (fromTs toTs : Option DateTime) (interval : Option TimeUnit)
    (answer : Ordering (StatRow.sortKey interval) (statRows c fromTs toTs interval)) :
    Except CallError (List StatRow) :=
  if fromTs.all DateTime.bsonEncodable && toTs.all DateTime.bsonEncodable then
    let rows := aggregateCounts c fromTs toTs interval answer
    if rows.all fun r ↦ r.bucket.all fun b ↦ b.InRange then .ok rows else .error .foreign
  else .error .foreign

/-- `sum(row["count"] for row in rows)`. -/
def totalCount (rows : List StatRow) : ℕ := (rows.map StatRow.count).sum

variable {c c' : Events} {fromTs toTs : Option DateTime} {interval : Option TimeUnit}

theorem mem_statRows {r : StatRow} : r ∈ statRows c fromTs toTs interval ↔
    ((r.eventType, r.bucket), r.count) ∈ groups (groupKey interval) (matchStage c fromTs toTs) := by
  rw [statRows, List.mem_map]
  constructor
  · rintro ⟨g, hg, rfl⟩
    exact hg
  · intro h
    exact ⟨_, h, rfl⟩

/-- A row has a bucket exactly if the counts are bucketed. -/
theorem bucket_of_mem_statRows {r : StatRow} (h : r ∈ statRows c fromTs toTs interval) :
    ∃ timestamp, r.bucket = interval.map (dateTrunc · timestamp) := by
  obtain ⟨⟨e, -, he⟩, -⟩ := mem_groups.mp (mem_statRows.mp h)
  exact ⟨e.timestamp, (Prod.mk.inj he).2.symm⟩

/-- The sort key tells the rows apart. -/
theorem sortKey_injOn {r r' : StatRow} (hr : r ∈ statRows c fromTs toTs interval)
    (hr' : r' ∈ statRows c fromTs toTs interval)
    (h : r.sortKey interval = r'.sortKey interval) : r = r' := by
  obtain ⟨timestamp, hb⟩ := bucket_of_mem_statRows hr
  obtain ⟨timestamp', hb'⟩ := bucket_of_mem_statRows hr'
  have hkey : r.eventType = r'.eventType ∧ r.bucket = r'.bucket := by
    rcases interval with _ | unit
    · exact ⟨(Prod.mk.inj (toLex.injective h)).2, hb.trans hb'.symm⟩
    · obtain ⟨hmillis, htype⟩ := Prod.mk.inj (toLex.injective h)
      rw [hb, hb'] at hmillis
      refine ⟨htype, hb.trans (Eq.trans ?_ hb'.symm)⟩
      exact congrArg some (congrArg BsonDate.mk hmillis)
  have hgroup := mem_statRows.mp hr
  rw [hkey.1, hkey.2] at hgroup
  exact StatRow.ext hkey.1 hkey.2 (groups_unique hgroup (mem_statRows.mp hr'))

/-- **The answer to an aggregation is determined by the collection.** -/
theorem aggregateCounts_unique
    (a a' : Ordering (StatRow.sortKey interval) (statRows c fromTs toTs interval)) :
    aggregateCounts c fromTs toTs interval a = aggregateCounts c fromTs toTs interval a' :=
  Ordering.items_eq (fun _ hr _ hr' ↦ sortKey_injOn hr hr') a a'

theorem mem_aggregateCounts {r : StatRow}
    {a : Ordering (StatRow.sortKey interval) (statRows c fromTs toTs interval)} :
    r ∈ aggregateCounts c fromTs toTs interval a ↔ r ∈ statRows c fromTs toTs interval :=
  a.perm.mem_iff

/-- What the counts see of the collection are its events. -/
theorem statRows_congr (h : c.docs.map EventDoc.event = c'.docs.map EventDoc.event) :
    statRows c fromTs toTs interval = statRows c' fromTs toTs interval := by
  rw [statRows, statRows, matchStage, matchStage, h]

/-- More events have more groups, and none of them smaller. -/
theorem statRows_mono (h : c.docs.map EventDoc.event <+: c'.docs.map EventDoc.event) {r : StatRow}
    (hr : r ∈ statRows c fromTs toTs interval) :
    ∃ r' ∈ statRows c' fromTs toTs interval,
      r'.eventType = r.eventType ∧ r'.bucket = r.bucket ∧ r.count ≤ r'.count := by
  have hmatch : (matchStage c fromTs toTs).Subperm (matchStage c' fromTs toTs) :=
    (h.sublist.filter _).subperm
  obtain ⟨m, hm, hle⟩ := groups_mono hmatch (mem_statRows.mp hr)
  exact ⟨⟨r.eventType, r.bucket, m⟩, mem_statRows.mpr hm, rfl, rfl, hle⟩

/-! ## Buckets -/

/-- The instant is within the bounds. -/
def inRange (fromTs toTs : Option DateTime) (timestamp : BsonDate) : Bool :=
  fromTs.all (fun t ↦ t.toBson.millis ≤ timestamp.millis) &&
    toTs.all (fun t ↦ timestamp.millis ≤ t.toBson.millis)

/-- The order of the rows: largest count first, or by bucket; then by type. -/
def StatRow.Before : Option TimeUnit → StatRow → StatRow → Prop
  | none, r, r' => r'.count < r.count ∨ r'.count = r.count ∧ r.eventType < r'.eventType
  | some _, r, r' => ∃ b ∈ r.bucket, ∃ b' ∈ r'.bucket,
      b.millis < b'.millis ∨ b = b' ∧ r.eventType < r'.eventType

theorem matchStage_eq (c : Events) (fromTs toTs : Option DateTime) :
    matchStage c fromTs toTs
      = (c.docs.map EventDoc.event).filter fun e ↦ inRange fromTs toTs e.timestamp := by
  refine List.filter_congr fun e _ ↦ ?_
  rw [Bool.eq_iff_iff, timestampClause_matches, inRange, Bool.and_eq_true]
  cases fromTs <;> cases toTs <;> simp

/-- The rows of a type add up to its group. -/
theorem sum_count_statRows {t : String} {n : ℕ}
    (h : (t, n) ∈ groups EventRecord.eventType (matchStage c fromTs toTs)) :
    (((statRows c fromTs toTs interval).filter fun r ↦ r.eventType = t).map StatRow.count).sum
      = n := by
  rw [statRows, List.filter_map, List.map_map]
  exact sum_groups_of_finer (groupKey interval) Prod.fst (matchStage c fromTs toTs) h

/-- Without buckets the groups are the types. -/
theorem mem_statRows_none {r : StatRow} : r ∈ statRows c fromTs toTs none ↔
    r.bucket = none ∧ (r.eventType, r.count) ∈ groups EventRecord.eventType
      (matchStage c fromTs toTs) := by
  rw [mem_statRows, mem_groups, mem_groups]
  constructor
  · rintro ⟨⟨e, he, hkey⟩, hcount⟩
    obtain ⟨htype, hbucket⟩ := Prod.mk.inj hkey
    refine ⟨hbucket.symm, ⟨e, he, htype⟩, hcount.trans (List.countP_congr fun e' _ ↦ ?_)⟩
    simp [groupKey, ← hbucket]
  · rintro ⟨hbucket, ⟨e, he, htype⟩, hcount⟩
    refine ⟨⟨e, he, by rw [groupKey, htype, hbucket]; rfl⟩,
      hcount.trans (List.countP_congr fun e' _ ↦ ?_)⟩
    simp [groupKey, hbucket]

/-- The rows without buckets: each type that occurs within the bounds, and how often. -/
theorem mem_aggregateCounts_none {r : StatRow}
    {a : Ordering (StatRow.sortKey none) (statRows c fromTs toTs none)} :
    r ∈ aggregateCounts c fromTs toTs none a ↔ r.bucket = none ∧ 0 < r.count ∧
      r.count = c.docs.countP fun d ↦
        d.event.eventType = r.eventType && inRange fromTs toTs d.event.timestamp := by
  have hcount : (matchStage c fromTs toTs).countP (·.eventType = r.eventType)
      = c.docs.countP fun d ↦
        d.event.eventType = r.eventType && inRange fromTs toTs d.event.timestamp := by
    rw [matchStage_eq, List.countP_filter, List.countP_map]
    rfl
  rw [mem_aggregateCounts, mem_statRows_none, ← hcount]
  refine and_congr_right fun _ ↦ ⟨fun h ↦ ⟨pos_of_mem_groups h, (mem_groups.mp h).2⟩, ?_⟩
  rintro ⟨hpos, heq⟩
  obtain ⟨e, he, htype⟩ := List.countP_pos_iff.mp (heq ▸ hpos)
  exact mem_groups.mpr ⟨⟨e, he, of_decide_eq_true htype⟩, heq⟩

theorem nodup_groupKey_statRows :
    ((statRows c fromTs toTs interval).map fun r ↦ (r.eventType, r.bucket)).Nodup := by
  have hkeys := nodup_fst_groups (groupKey interval) (matchStage c fromTs toTs)
  rw [statRows, List.map_map]
  exact hkeys

/-- Without buckets a type has one row. -/
theorem nodup_eventType_aggregateCounts
    {a : Ordering (StatRow.sortKey none) (statRows c fromTs toTs none)} :
    ((aggregateCounts c fromTs toTs none a).map StatRow.eventType).Nodup := by
  have hkeys : ((aggregateCounts c fromTs toTs none a).map fun r ↦ (r.eventType, r.bucket)).Nodup :=
    (a.perm.map _).nodup_iff.mpr nodup_groupKey_statRows
  have hpairs : (aggregateCounts c fromTs toTs none a).map (fun r ↦ (r.eventType, r.bucket))
      = ((aggregateCounts c fromTs toTs none a).map StatRow.eventType).map fun t ↦ (t, none) := by
    rw [List.map_map]
    refine List.map_congr_left fun r hr ↦ ?_
    rw [(mem_aggregateCounts_none.mp hr).1]
    rfl
  rw [hpairs] at hkeys
  exact hkeys.of_map _

theorem before_of_sortKey {r r' : StatRow} (hr : r ∈ statRows c fromTs toTs interval)
    (hr' : r' ∈ statRows c fromTs toTs interval) (hne : r ≠ r')
    (h : r.sortKey interval ≤ r'.sortKey interval) : r.Before interval r' := by
  have hlt : r.sortKey interval < r'.sortKey interval :=
    lt_of_le_of_ne h fun heq ↦ hne (sortKey_injOn hr hr' heq)
  obtain ⟨timestamp, hb⟩ := bucket_of_mem_statRows hr
  obtain ⟨timestamp', hb'⟩ := bucket_of_mem_statRows hr'
  rcases interval with _ | unit
  · rcases Prod.Lex.toLex_lt_toLex.mp hlt with hcount | ⟨hcount, htype⟩
    · exact Or.inl (by omega)
    · exact Or.inr ⟨by omega, htype⟩
  · refine ⟨_, hb, _, hb', ?_⟩
    rw [StatRow.sortKey, StatRow.sortKey, hb, hb'] at hlt
    rcases Prod.Lex.toLex_lt_toLex.mp hlt with hbucket | ⟨hbucket, htype⟩
    · exact Or.inl hbucket
    · exact Or.inr ⟨congrArg BsonDate.mk hbucket, htype⟩

theorem totalCount_filter_aggregateCounts
    (a : Ordering (StatRow.sortKey interval) (statRows c fromTs toTs interval)) {t : String} {n : ℕ}
    (h : (t, n) ∈ groups EventRecord.eventType (matchStage c fromTs toTs)) :
    totalCount ((aggregateCounts c fromTs toTs interval a).filter fun r ↦ r.eventType = t) = n :=
  ((a.perm.filter _).map _).sum_eq.trans (sum_count_statRows h)

theorem totalCount_aggregateCounts
    (a : Ordering (StatRow.sortKey interval) (statRows c fromTs toTs interval)) :
    totalCount (aggregateCounts c fromTs toTs interval a) = (matchStage c fromTs toTs).length := by
  refine (a.perm.map StatRow.count).sum_eq.trans ?_
  rw [statRows, List.map_map]
  exact sum_groups (groupKey interval) (matchStage c fromTs toTs)

/-- Each type and bucket has one row and no row is empty; the buckets of a type add up to its count;
all rows add up to the events within the bounds; and the rows come in order. -/
def BucketsPartition (c : Events) (fromTs toTs : Option DateTime) (interval : Option TimeUnit)
    (rows types : List StatRow) : Prop :=
  (rows.map fun r ↦ (r.eventType, r.bucket)).Nodup ∧
    (∀ r ∈ rows, 0 < r.count) ∧
    (∀ r ∈ rows, ∃ r' ∈ types, r'.eventType = r.eventType) ∧
    (∀ r ∈ types, totalCount (rows.filter (·.eventType = r.eventType)) = r.count) ∧
    totalCount rows = c.docs.countP (fun d ↦ inRange fromTs toTs d.event.timestamp) ∧
    rows.Pairwise (StatRow.Before interval) ∧ types.Pairwise (StatRow.Before none)

/-- Rows of different keys that are sorted by the key are in order. -/
theorem pairwise_before (a : Ordering (StatRow.sortKey interval) (statRows c fromTs toTs interval)) :
    (aggregateCounts c fromTs toTs interval a).Pairwise (StatRow.Before interval) := by
  have hrows : (aggregateCounts c fromTs toTs interval a).Nodup :=
    List.Nodup.of_map _ ((a.perm.map _).nodup_iff.mpr nodup_groupKey_statRows)
  refine (List.pairwise_and_iff.mpr ⟨a.sorted, hrows⟩).imp_of_mem fun hr hr' ⟨hle, hne⟩ ↦ ?_
  exact before_of_sortKey (mem_aggregateCounts.mp hr) (mem_aggregateCounts.mp hr') hne hle

/-- **The server's rows partition the counts.** -/
theorem bucketsPartition_aggregateCounts
    (a : Ordering (StatRow.sortKey interval) (statRows c fromTs toTs interval))
    (a' : Ordering (StatRow.sortKey none) (statRows c fromTs toTs none)) :
    BucketsPartition c fromTs toTs interval (aggregateCounts c fromTs toTs interval a)
      (aggregateCounts c fromTs toTs none a') := by
  refine ⟨?_, fun r hr ↦ ?_, fun r hr ↦ ?_, fun r hr ↦ ?_, ?_, pairwise_before a,
    pairwise_before a'⟩
  · exact (a.perm.map _).nodup_iff.mpr nodup_groupKey_statRows
  · exact pos_of_mem_groups (mem_statRows.mp (mem_aggregateCounts.mp hr))
  · obtain ⟨⟨e, he, hkey⟩, -⟩ := mem_groups.mp (mem_statRows.mp (mem_aggregateCounts.mp hr))
    refine ⟨⟨r.eventType, none, (matchStage c fromTs toTs).countP (·.eventType = r.eventType)⟩,
      mem_aggregateCounts.mpr (mem_statRows_none.mpr ⟨rfl, mem_groups.mpr ⟨?_, rfl⟩⟩), rfl⟩
    exact ⟨e, he, (Prod.mk.inj hkey).1⟩
  · obtain ⟨-, hgroup⟩ := mem_statRows_none.mp (mem_aggregateCounts.mp hr)
    exact totalCount_filter_aggregateCounts a hgroup
  · rw [totalCount_aggregateCounts, matchStage_eq, ← List.countP_eq_length_filter, List.countP_map]
    rfl

/-! ## The buckets a driver can decode -/

namespace TimeUnit

/-- The first beginning of a unit in the years 1 to 9999, in milliseconds: 0001-01-07 is the first
Sunday. -/
def firstMillis : TimeUnit → ℤ
  | .week => -62135078400000
  | _ => -62135596800000

/-- The first beginning of a unit after these years. -/
def endMillis : TimeUnit → ℤ
  | .week => 253402387200000
  | _ => 253402300800000

/-- The unit of the instant begins in these years. Of the instants a `datetime` can have, only the
first six days of the year 1 are in a week that does not. -/
def Begins (unit : TimeUnit) (timestamp : BsonDate) : Prop :=
  unit.firstMillis ≤ timestamp.millis ∧ timestamp.millis < unit.endMillis

theorem inRange_dateTrunc_iff {unit : TimeUnit} {timestamp : BsonDate} :
    (dateTrunc unit timestamp).InRange ↔ unit.Begins timestamp := by
  cases unit with
  | minute | hour | day | week =>
    simp only [BsonDate.InRange, dateTrunc, Begins, millis, origin, firstMillis, endMillis, minWall,
      wallEnd]
    omega

end TimeUnit

/-- **The call returns exactly if** the bounds can be encoded, and no event within them is in a unit
that begins before the years there are, or after. -/
theorem aggregateCountsCall_eq_ok_iff {rows : List StatRow}
    {a : Ordering (StatRow.sortKey interval) (statRows c fromTs toTs interval)} :
    aggregateCountsCall c fromTs toTs interval a = .ok rows ↔
      rows = aggregateCounts c fromTs toTs interval a ∧
        ((∀ t ∈ fromTs, t.bsonEncodable = true) ∧ ∀ t ∈ toTs, t.bsonEncodable = true) ∧
        ∀ unit ∈ interval, ∀ d ∈ c.docs, inRange fromTs toTs d.event.timestamp = true →
          unit.Begins d.event.timestamp := by
  have hbounds : (fromTs.all DateTime.bsonEncodable && toTs.all DateTime.bsonEncodable) = true ↔
      (∀ t ∈ fromTs, t.bsonEncodable = true) ∧ ∀ t ∈ toTs, t.bsonEncodable = true := by
    simp [Option.all_eq_true]
  have hbuckets : ((aggregateCounts c fromTs toTs interval a).all fun r ↦
      r.bucket.all fun b ↦ b.InRange) = true ↔ ∀ unit ∈ interval, ∀ d ∈ c.docs,
        inRange fromTs toTs d.event.timestamp = true → unit.Begins d.event.timestamp := by
    rw [List.all_eq_true]
    constructor
    · -- Each event within the bounds is in a row.
      intro hall unit hunit d hd hin
      have hmatched : d.event ∈ matchStage c fromTs toTs := by
        rw [matchStage_eq]
        exact List.mem_filter.mpr ⟨List.mem_map_of_mem hd, hin⟩
      obtain ⟨n, hrow⟩ : ∃ n, (groupKey interval d.event, n) ∈
          groups (groupKey interval) (matchStage c fromTs toTs) :=
        ⟨_, mem_groups.mpr ⟨⟨d.event, hmatched, rfl⟩, rfl⟩⟩
      have hdecodes := hall ⟨d.event.eventType, interval.map (dateTrunc · d.event.timestamp), n⟩
        (mem_aggregateCounts.mpr (mem_statRows.mpr hrow))
      obtain rfl := hunit
      rw [← TimeUnit.inRange_dateTrunc_iff]
      simpa using hdecodes
    · intro hall r hr
      obtain ⟨⟨e, he, hkey⟩, -⟩ := mem_groups.mp (mem_statRows.mp (mem_aggregateCounts.mp hr))
      rw [← (Prod.mk.inj hkey).2]
      rw [matchStage_eq] at he
      obtain ⟨he, hin⟩ := List.mem_filter.mp he
      obtain ⟨d, hd, rfl⟩ := List.mem_map.mp he
      cases interval with
      | none => rfl
      | some unit =>
        simpa using TimeUnit.inRange_dateTrunc_iff.mpr (hall unit rfl d hd hin)
  unfold aggregateCountsCall
  rw [← hbounds, ← hbuckets]
  split
  next hencodes =>
    dsimp only
    split
    next hdecodes => simp [hencodes, hdecodes, eq_comm]
    next hdecodes => simp [hdecodes]
  next hencodes => simp [hencodes]

/-- **Bucketing partitions the counts, exactly when** the bounds can be encoded and no event within
them is in a unit that begins outside the years a date can have: when it does not, the call raises
and there are no rows. -/
theorem buckets_partition_iff (c : Events) (fromTs toTs : Option DateTime)
    (interval : Option TimeUnit)
    (a : Ordering (StatRow.sortKey interval) (statRows c fromTs toTs interval))
    (a' : Ordering (StatRow.sortKey none) (statRows c fromTs toTs none)) :
    (∃ rows types, aggregateCountsCall c fromTs toTs interval a = .ok rows ∧
      aggregateCountsCall c fromTs toTs none a' = .ok types ∧
        BucketsPartition c fromTs toTs interval rows types) ↔
      ((∀ t ∈ fromTs, t.bsonEncodable = true) ∧ ∀ t ∈ toTs, t.bsonEncodable = true) ∧
        ∀ unit ∈ interval, ∀ d ∈ c.docs, inRange fromTs toTs d.event.timestamp = true →
          unit.Begins d.event.timestamp := by
  constructor
  · rintro ⟨rows, types, hrows, -, -⟩
    exact (aggregateCountsCall_eq_ok_iff.mp hrows).2
  · rintro ⟨hbounds, hbegins⟩
    exact ⟨_, _, aggregateCountsCall_eq_ok_iff.mpr ⟨rfl, hbounds, hbegins⟩,
      aggregateCountsCall_eq_ok_iff.mpr ⟨rfl, hbounds, by simp⟩,
      bucketsPartition_aggregateCounts a a'⟩

theorem zeroDate_mem : minWall ≤ minWall ∧ minWall < wallEnd := by decide

theorem naive_mem : ∀ m ∈ (none : Option ℤ), -1440 < m ∧ m < 1440 := by simp

/-- An event at 0001-01-01T00:00:00, the smallest timestamp there is. -/
def zeroDateEvents : Events :=
  (bulkWrite .empty [{ makeEvent "e1" with timestamp := ⟨minWall, none, zeroDate_mem, naive_mem⟩ }]
    (.answered fun _ ↦ false)).1

/-- Its week begins in the year 0, and the counts by week cannot be read. -/
theorem zeroDate_raises :
    ¬ ∀ (c : Events) (fromTs toTs : Option DateTime) (interval : Option TimeUnit)
      (a : Ordering (StatRow.sortKey interval) (statRows c fromTs toTs interval))
      (a' : Ordering (StatRow.sortKey none) (statRows c fromTs toTs none)),
      ∃ rows types, aggregateCountsCall c fromTs toTs interval a = .ok rows ∧
        aggregateCountsCall c fromTs toTs none a' = .ok types ∧
          BucketsPartition c fromTs toTs interval rows types := by
  intro h
  obtain ⟨rows, -, hrows, -⟩ := h zeroDateEvents none none (some .week) (.sort _ _) (.sort _ _)
  obtain ⟨-, -, hbegins⟩ := aggregateCountsCall_eq_ok_iff.mp hrows
  have hweek := hbegins .week rfl _ List.mem_cons_self (by decide)
  exact absurd hweek.1 (by decide)

end Acheron
