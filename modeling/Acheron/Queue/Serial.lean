import Acheron.Lib.Flushing
import Acheron.Queue.DeadLetter
import Acheron.Storage.Mongo

/-!
# The dead-letter queue, one call at a time

With calls that do not overlap, the buffer of `push_many` is a buffer handed over until it is
accepted, and its sink is `persist_dead_letters`. `queue_exact` says what is in both after any
calls: the buffer holds the entries pushed since the last successful persist, and the successful
persists together with the buffer are the entries pushed, each once and in order.

What the collection holds depends on the persists that fail as well, since they may store some of
what they are handed. As long as a call inserts in order and nothing but a duplicate is refused,
this is the beginning of what is buffered, so the record of an event is made from its first entry
whichever persist stores it.
-/

open Flushing Keyed Runs

namespace Acheron

/-- A call of `push_many`: its arguments, the clock, and what its persist meets. -/
structure PushManyCall where
  events : List EventDocument
  reason : String
  now : ℕ → DateTime
  outcome : InsertOutcome

/-- The entries of the call. -/
def PushManyCall.entries (c : PushManyCall) : List DLQEntry := pushEntries c.events c.reason c.now

/-- The queue and the collection behind it. -/
structure SerialQueue where
  queue : DeadLetterQueue
  deadLetters : DeadLetters
  /-- History: the entries of each call, and whether the sink took them. -/
  attempts : List (Attempt DLQEntry)
  /-- History: what each successful persist was handed. -/
  persists : List (List DLQEntry)

/-- One `push_many`, from its call to its return. -/
def pushSerial (s : SerialQueue) (c : PushManyCall) : SerialQueue :=
  match s.queue.pushMany c.events c.reason c.now with
  | (queue, none) =>
    { s with queue := queue, attempts := s.attempts ++ [⟨c.entries, false⟩] }
  | (queue, some pending) =>
    match persistDeadLetters s.deadLetters (pending.map entryToDoc) c.outcome with
    | (deadLetters, .ok ()) =>
      { queue := queue.resume pending true
        deadLetters := deadLetters
        attempts := s.attempts ++ [⟨c.entries, true⟩]
        persists := s.persists ++ [pending] }
    | (deadLetters, .error _) =>
      { s with
        queue := queue.resume pending false
        deadLetters := deadLetters
        attempts := s.attempts ++ [⟨c.entries, false⟩] }

/-- Calls of `push_many`, one after the other. -/
def pushSerially (s : SerialQueue) (calls : List PushManyCall) : SerialQueue :=
  calls.foldl pushSerial s

/-- A queue nothing has been pushed to. -/
def SerialQueue.start (hasSink : Bool) (deadLetters : DeadLetters) : SerialQueue :=
  ⟨.new hasSink, deadLetters, [], []⟩

/-- What the successful persists were handed. -/
def SerialQueue.persisted (s : SerialQueue) : List DLQEntry := s.persists.flatten

/-- The record of the first entry for the id. -/
def firstRecord (entries : List DLQEntry) (k : String) : Option (DeadLetterDoc BsonDate) :=
  (entries.map fun e ↦ (entryToDoc e).encode).find? fun d ↦ d.id = k

/-- Documents are inserted in order, and only for a duplicate key is one refused. -/
def InsertOutcome.InOrder : InsertOutcome → Prop
  | .answered refused => ∀ i, refused i = false
  | .raised _ sent => ∀ i j, i ≤ j → sent j = true → sent i = true

/-- A call that raises has inserted nothing. -/
def InsertOutcome.AllOrNothing : InsertOutcome → Prop
  | .answered refused => ∀ i, refused i = false
  | .raised _ sent => ∀ i, sent i = false

/-! ## One call -/

section Call

variable (s : SerialQueue) (c : PushManyCall)

/-- What a call buffers or hands over. -/
def SerialQueue.offered : List DLQEntry := s.queue.unpersisted ++ c.entries

/-- The queue after a call that leaves `buffer` behind. -/
def SerialQueue.left (buffer : List DLQEntry) : DeadLetterQueue where
  hasSink := s.queue.hasSink
  unpersisted := buffer
  recorded := s.queue.recorded + c.events.length

/-- The collection after a persist. -/
def SerialQueue.landed : DeadLetters :=
  (s.deadLetters.insertMany ((s.offered c).map fun e ↦ (entryToDoc e).encode) c.outcome.blocked).1

theorem length_entries : c.entries.length = c.events.length := length_pushEntries _ _ _

theorem length_flatMap_entries (calls : List PushManyCall) :
    (calls.flatMap PushManyCall.entries).length = (calls.flatMap PushManyCall.events).length := by
  induction calls with
  | nil => rfl
  | cons c calls ih =>
    rw [List.flatMap_cons, List.flatMap_cons, List.length_append, List.length_append,
      length_entries, ih]

/-- A persist is handed the buffer with the new entries. -/
theorem DeadLetterQueue.eq_of_pushMany_eq_some {q : DeadLetterQueue} {c : PushManyCall}
    {handed : List DLQEntry} (h : (q.pushMany c.events c.reason c.now).2 = some handed) :
    handed = q.unpersisted ++ c.entries := by
  unfold pushMany at h
  by_cases hnil : c.events.isEmpty
  · rw [if_pos hnil] at h
    exact absurd h (by simp)
  · rw [if_neg hnil] at h
    by_cases hsink : q.hasSink = true
    · rw [if_pos hsink] at h
      exact (Option.some.inj h).symm
    · rw [if_neg hsink] at h
      exact absurd h (by simp)

/-- What a call can do: buffer its entries, hand everything over, or raise and buffer. -/
theorem pushSerial_cases :
    (c.events = [] ∨ s.queue.hasSink = false) ∧
        pushSerial s c = ⟨s.left c (s.offered c), s.deadLetters,
          s.attempts ++ [⟨c.entries, false⟩], s.persists⟩ ∨
      c.outcome.result = .ok () ∧
        pushSerial s c = ⟨s.left c [], s.landed c, s.attempts ++ [⟨c.entries, true⟩],
          s.persists ++ [s.offered c]⟩ ∨
      c.outcome.result ≠ .ok () ∧
        pushSerial s c = ⟨s.left c (s.offered c), s.landed c,
          s.attempts ++ [⟨c.entries, false⟩], s.persists⟩ := by
  by_cases hnil : c.events = []
  · refine Or.inl ⟨Or.inl hnil, ?_⟩
    have hentries : c.entries = [] := List.length_eq_zero_iff.mp (by rw [length_entries, hnil]; rfl)
    simp [pushSerial, DeadLetterQueue.pushMany, SerialQueue.left, SerialQueue.offered, hnil,
      hentries]
  · by_cases hsink : s.queue.hasSink = true
    · have hcall : s.queue.pushMany c.events c.reason c.now
          = (s.left c s.queue.unpersisted, some (s.offered c)) := by
        simp [DeadLetterQueue.pushMany, hnil, hsink, SerialQueue.left, SerialQueue.offered,
          PushManyCall.entries]
      have hne : (s.offered c).map entryToDoc ≠ [] := by
        have hpos := List.length_pos_iff.mpr hnil
        refine List.ne_nil_of_length_pos ?_
        rw [List.length_map, SerialQueue.offered, List.length_append, length_entries]
        omega
      have hpersist : persistDeadLetters s.deadLetters ((s.offered c).map entryToDoc) c.outcome
          = (s.landed c, c.outcome.result) := by
        rw [persistDeadLetters_of_ne_nil hne, List.map_map]
        rfl
      refine Or.inr ?_
      rcases hresult : c.outcome.result with e | u
      · refine Or.inr ⟨by simp, ?_⟩
        simp only [pushSerial, hcall, hpersist, hresult]
        rfl
      · refine Or.inl ⟨rfl, ?_⟩
        simp only [pushSerial, hcall, hpersist, hresult]
        rfl
    · refine Or.inl ⟨Or.inr (by simpa using hsink), ?_⟩
      simp [pushSerial, DeadLetterQueue.pushMany, hnil, hsink, SerialQueue.left,
        SerialQueue.offered, PushManyCall.entries]

end Call

/-! ## The buffer -/

namespace SerialQueue

variable {s : SerialQueue}

/-- The buffer is what the attempts leave pending, and nothing pushed is lost or doubled. -/
structure Exact (s : SerialQueue) : Prop where
  buffer : s.queue.unpersisted = pending s.attempts
  handed : s.persisted ++ s.queue.unpersisted = added s.attempts
  recorded : s.queue.recorded = (added s.attempts).length

theorem exact_start (hasSink : Bool) (c : DeadLetters) : (start hasSink c).Exact := ⟨rfl, rfl, rfl⟩

theorem Exact.handed_concat (hs : s.Exact) (c : PushManyCall) (taken : Bool) :
    s.persisted ++ s.offered c = added (s.attempts ++ [⟨c.entries, taken⟩]) := by
  rw [offered, ← List.append_assoc, hs.handed, added_concat]

theorem Exact.recorded_concat (hs : s.Exact) (c : PushManyCall) (taken : Bool) :
    s.queue.recorded + c.events.length
      = (added (s.attempts ++ [⟨c.entries, taken⟩])).length := by
  rw [added_concat, List.length_append, length_entries, hs.recorded]

/-- A call that persists nothing. -/
theorem Exact.refused (hs : s.Exact) (c : PushManyCall) (deadLetters : DeadLetters) :
    (SerialQueue.mk (s.left c (s.offered c)) deadLetters (s.attempts ++ [⟨c.entries, false⟩])
      s.persists).Exact := by
  refine ⟨?_, hs.handed_concat c false, hs.recorded_concat c false⟩
  rw [pending_concat_refused, ← hs.buffer]
  rfl

/-- A call that persists everything. -/
theorem Exact.accepted (hs : s.Exact) (c : PushManyCall) :
    (SerialQueue.mk (s.left c []) (s.landed c) (s.attempts ++ [⟨c.entries, true⟩])
      (s.persists ++ [s.offered c])).Exact := by
  refine ⟨(pending_concat_accepted _ _).symm, ?_, hs.recorded_concat c true⟩
  rw [persisted, List.flatten_concat]
  exact (List.append_nil _).trans (hs.handed_concat c true)

theorem exact_pushSerial (hs : s.Exact) (c : PushManyCall) : (pushSerial s c).Exact := by
  rcases pushSerial_cases s c with ⟨-, h⟩ | ⟨-, h⟩ | ⟨-, h⟩
  · exact h ▸ hs.refused c _
  · exact h ▸ hs.accepted c
  · exact h ▸ hs.refused c _

theorem exact_pushSerially (hs : s.Exact) (calls : List PushManyCall) :
    (pushSerially s calls).Exact := by
  induction calls generalizing s with
  | nil => exact hs
  | cons c calls ih => exact ih (exact_pushSerial hs c)

/-- The attempts are the calls. -/
theorem added_pushSerially (s : SerialQueue) (calls : List PushManyCall) :
    (pushSerially s calls).attempts.map Attempt.added
      = s.attempts.map Attempt.added ++ calls.map PushManyCall.entries := by
  induction calls generalizing s with
  | nil => exact (List.append_nil _).symm
  | cons c calls ih =>
    have hone : (pushSerial s c).attempts.map Attempt.added
        = s.attempts.map Attempt.added ++ [c.entries] := by
      rcases pushSerial_cases s c with ⟨-, h⟩ | ⟨-, h⟩ | ⟨-, h⟩
      all_goals rw [h, List.map_append, List.map_singleton]
    have hstep : pushSerially s (c :: calls) = pushSerially (pushSerial s c) calls := rfl
    rw [hstep, ih, hone, List.append_assoc, List.map_cons, List.singleton_append]

/-! ## The collection -/

theorem firstRecord_eq (entries : List DLQEntry) (k : String) :
    firstRecord entries k = (entries.find? fun e ↦ e.event.eventId = k).map
      fun e ↦ (entryToDoc e).encode := by
  rw [firstRecord, List.find?_map]
  rfl

theorem firstRecord_append (xs ys : List DLQEntry) (k : String) :
    firstRecord (xs ++ ys) k = (firstRecord xs k).or (firstRecord ys k) := by
  rw [firstRecord, List.map_append, List.find?_append, firstRecord, firstRecord]

theorem firstRecord_or {xs ys zs : List DLQEntry}
    (h : ∀ p, (xs.find? p).or (ys.find? p) = zs.find? p) (k : String) :
    (firstRecord xs k).or (firstRecord ys k) = firstRecord zs k := by
  rw [firstRecord_eq, firstRecord_eq, firstRecord_eq, ← h, Option.map_or]

/-- Of what was pushed, the collection has been made from what was persisted and then from
`reached`, the beginning of the buffer. -/
structure Landed (c₀ : DeadLetters) (reached : List DLQEntry) (s : SerialQueue) : Prop where
  isPrefix : reached <+: s.queue.unpersisted
  find? : ∀ k, s.deadLetters.find? k
    = (c₀.find? k).or (firstRecord (s.persisted ++ reached) k)

theorem landed_start (hasSink : Bool) (c₀ : DeadLetters) :
    (start hasSink c₀).Landed c₀ [] :=
  ⟨List.nil_prefix, fun _ ↦ (Option.or_none).symm⟩

/-- A persist in order stores a beginning of what it is handed. -/
theorem exists_landed {c : PushManyCall} (hc : c.outcome.InOrder) (s : SerialQueue) :
    ∃ head, head <+: s.offered c ∧ (c.outcome.result = .ok () → head = s.offered c) ∧
      (c.outcome.AllOrNothing → c.outcome.result ≠ .ok () → head = []) ∧
      ∀ k, (s.landed c).find? k = (s.deadLetters.find? k).or (firstRecord head k) := by
  unfold landed
  rcases hout : c.outcome with refused | ⟨e, sent⟩
  · rw [hout] at hc
    obtain rfl : refused = fun _ ↦ false := funext hc
    refine ⟨s.offered c, List.prefix_refl _, fun _ ↦ rfl, fun _ h ↦ absurd rfl h, fun k ↦ ?_⟩
    exact Collection.find?_insertMany
  · rw [hout] at hc
    obtain ⟨n, hn, hzero⟩ := @Collection.exists_insertMany_take _ _ _ _ s.deadLetters
      ((s.offered c).map fun e ↦ (entryToDoc e).encode) (fun i ↦ !sent i)
      fun i j hij hi ↦ by simpa using mt (hc i j hij) (by simpa using hi)
    refine ⟨(s.offered c).take n, List.take_prefix n _,
      fun h ↦ absurd h (by simp [InsertOutcome.result]), fun hnone _ ↦ ?_, fun k ↦ ?_⟩
    · rw [hzero fun i ↦ by simp [hnone i], List.take_zero]
    · change (Collection.insertMany _ _ fun i ↦ !sent i).1.find? k = _
      rw [hn, Collection.find?_insertMany, firstRecord, List.map_take]

theorem landed_pushSerial {c₀ : DeadLetters} {reached : List DLQEntry} (hs : s.Landed c₀ reached)
    {c : PushManyCall} (hc : c.outcome.InOrder) :
    ∃ reached', (pushSerial s c).Landed c₀ reached' ∧
      (c.outcome.AllOrNothing → reached = [] → reached' = []) := by
  have hreached : reached <+: s.offered c := hs.isPrefix.trans (List.prefix_append _ _)
  obtain ⟨head, hhead, hall, hnothing, hfind⟩ := exists_landed hc s
  rcases pushSerial_cases s c with ⟨-, h⟩ | ⟨hresult, h⟩ | ⟨hresult, h⟩
  · rw [h]
    exact ⟨reached, ⟨hreached, hs.find?⟩, fun _ hnil ↦ hnil⟩
  · -- What a failed persist has stored of the batch is the beginning of what now stores all of it.
    rw [h]
    refine ⟨[], ⟨List.nil_prefix, fun k ↦ ?_⟩, fun _ _ ↦ rfl⟩
    have hsame : (firstRecord reached k).or (firstRecord (s.offered c) k)
        = firstRecord (s.offered c) k := firstRecord_or (find?_or_of_initial hreached) k
    change (s.landed c).find? k = _
    rw [hfind, hall hresult, hs.find?, firstRecord_append, Option.or_assoc, Option.or_assoc, hsame,
      ← firstRecord_append, persisted, persisted, List.flatten_concat, List.append_nil]
  · rw [h]
    obtain ⟨longer, hlonger, hinitial, hor⟩ := exists_find?_or hreached hhead
    refine ⟨longer, ⟨hinitial, fun k ↦ ?_⟩, fun hnone hnil ↦ ?_⟩
    · change (s.landed c).find? k = _
      rw [hfind, hs.find?, firstRecord_append, Option.or_assoc, Option.or_assoc,
        firstRecord_or hor, ← firstRecord_append]
      rfl
    · rcases hlonger with rfl | rfl
      · exact hnil
      · exact hnothing hnone hresult

theorem landed_pushSerially {c₀ : DeadLetters} {reached : List DLQEntry}
    (hs : s.Landed c₀ reached) {calls : List PushManyCall}
    (hcalls : ∀ c ∈ calls, c.outcome.InOrder) :
    ∃ reached', (pushSerially s calls).Landed c₀ reached' ∧
      ((∀ c ∈ calls, c.outcome.AllOrNothing) → reached = [] → reached' = []) := by
  induction calls generalizing s reached with
  | nil => exact ⟨reached, hs, fun _ hnil ↦ hnil⟩
  | cons c calls ih =>
    obtain ⟨next, hnext, hnil⟩ := landed_pushSerial hs (hcalls c List.mem_cons_self)
    obtain ⟨last, hlast, hnil'⟩ := ih hnext fun c' hc' ↦ hcalls c' (List.mem_cons_of_mem c hc')
    refine ⟨last, hlast, fun hnone h ↦ ?_⟩
    exact hnil' (fun c' hc' ↦ hnone c' (List.mem_cons_of_mem c hc'))
      (hnil (hnone c List.mem_cons_self) h)

theorem firstRecord_append_of_mem {xs : List DLQEntry} {e : DLQEntry} (he : e ∈ xs)
    (ys : List DLQEntry) :
    firstRecord (xs ++ ys) e.event.eventId = firstRecord xs e.event.eventId := by
  have hsome : (firstRecord xs e.event.eventId).isSome := by
    rw [firstRecord_eq, Option.isSome_map, List.find?_isSome]
    exact ⟨e, he, decide_eq_true rfl⟩
  rw [firstRecord_append, Option.or_of_isSome hsome]

end SerialQueue

/-! ## Whole runs -/

/-- **What the queue and the collection hold.** After any calls, one at a time: the buffer is what
has been pushed since the last successful persist, and a persist is handed the buffer and the new
entries; the successful persists and the buffer together are everything pushed, each entry once; and
the collection has, for each event persisted, the record of its first entry. -/
theorem queue_exact (hasSink : Bool) (c₀ : DeadLetters) (calls : List PushManyCall) :
    ∃ t, pushSerially (.start hasSink c₀) calls = t ∧
      t.attempts.map Attempt.added = calls.map PushManyCall.entries ∧
      t.queue.unpersisted = pending t.attempts ∧
      (∀ (c : PushManyCall) handed, (t.queue.pushMany c.events c.reason c.now).2 = some handed →
        handed = pending t.attempts ++ c.entries) ∧
      t.persists.flatten ++ t.queue.unpersisted = calls.flatMap PushManyCall.entries ∧
      t.queue.recorded = (calls.flatMap PushManyCall.events).length ∧
      ((∀ c ∈ calls, c.outcome.InOrder) →
        (∀ e ∈ t.persists.flatten, t.deadLetters.find? e.event.eventId
          = (c₀.find? e.event.eventId).or (firstRecord t.persists.flatten e.event.eventId)) ∧
        ∃ reached, reached <+: t.queue.unpersisted ∧
          ((∀ c ∈ calls, c.outcome.AllOrNothing) → reached = []) ∧
          ∀ k, t.deadLetters.find? k
            = (c₀.find? k).or (firstRecord (t.persists.flatten ++ reached) k)) := by
  have hexact := SerialQueue.exact_pushSerially (SerialQueue.exact_start hasSink c₀) calls
  have hcalls := SerialQueue.added_pushSerially (.start hasSink c₀) calls
  have hadded : added (pushSerially (.start hasSink c₀) calls).attempts
      = calls.flatMap PushManyCall.entries := by
    rw [added, List.flatMap_def, hcalls, List.flatMap_def]
    rfl
  refine ⟨_, rfl, hcalls, hexact.buffer, fun c handed hhanded ↦ ?_, hexact.handed.trans hadded, ?_,
    fun horder ↦ ?_⟩
  · rw [DeadLetterQueue.eq_of_pushMany_eq_some hhanded, hexact.buffer]
  · rw [hexact.recorded, hadded, length_flatMap_entries]
  · obtain ⟨reached, hlanded, hnil⟩ :=
      SerialQueue.landed_pushSerially (SerialQueue.landed_start hasSink c₀) horder
    refine ⟨fun e he ↦ ?_, reached, hlanded.isPrefix, fun h ↦ hnil h rfl, hlanded.find?⟩
    have hfirst := SerialQueue.firstRecord_append_of_mem he reached
    exact (hlanded.find? _).trans (congrArg (Option.or _) hfirst)

/-- The first persist fails when its first document is stored; the second goes through. -/
def partialThenFlushed : List PushManyCall :=
  [⟨[makeEvent "e1", makeEvent "e2"], "down", fun _ ↦ .epoch, .raised .pyMongo fun i ↦ i == 0⟩,
    ⟨[makeEvent "e1"], "again", fun _ ↦ .epoch, .answered fun _ ↦ false⟩]

theorem queue_exact_partialThenFlushed :
    ∃ t, pushSerially (.start true .empty) partialThenFlushed = t ∧ t.queue.recorded = 3 ∧
      t.queue.unpersisted = [] ∧ ∃ d, t.deadLetters.find? "e1" = some d ∧ d.reason = "down" := by
  obtain ⟨t, rfl, -, -, -, -, hrecorded, hrecords⟩ := queue_exact true .empty partialThenFlushed
  refine ⟨_, rfl, hrecorded, rfl, ?_⟩
  have horder : ∀ c ∈ partialThenFlushed, c.outcome.InOrder := by
    intro c hc
    rcases List.mem_cons.mp hc with rfl | hc
    · intro i j hij hj
      have hzero : j = 0 := by simpa using hj
      simp only [beq_iff_eq]
      omega
    · rcases List.mem_singleton.mp hc with rfl
      exact fun _ ↦ rfl
  have hstored := (hrecords horder).1 ⟨makeEvent "e1", "down", .epoch⟩ List.mem_cons_self
  exact ⟨_, hstored, rfl⟩

/-! ## The call and its await -/

/-- **A call by itself is a run of the queue's system**: to its await, to the sink's answer, and to
its return. -/
theorem pushSerial_is_run {ι : Type} [DecidableEq ι] (i : ι) (s : SerialQueue) (c : PushManyCall)
    (sink : List (DeadLetterDoc DateTime)) (log : List EventDocument) :
    ∃ as t, (pushMachine ι).exec ⟨s.queue, sink, fun _ ↦ none, log⟩ as = some t ∧
      t.queue = (pushSerial s c).queue ∧ (∀ j, t.calls j = none) ∧ t.log = log ++ c.events := by
  have hcall : (pushMachine ι).step ⟨s.queue, sink, fun _ ↦ none, log⟩
      (.call i c.events c.reason c.now)
        = some ⟨(s.queue.pushMany c.events c.reason c.now).1, sink,
          Function.update (fun _ ↦ none) i ((s.queue.pushMany c.events c.reason c.now).2.map
            fun pending ↦ ⟨pending, none⟩), log ++ c.events⟩ := rfl
  rcases hpush : s.queue.pushMany c.events c.reason c.now with ⟨queue, _ | pending⟩
  · rw [hpush] at hcall
    refine ⟨[.call i c.events c.reason c.now], _,
      (Machine.exec_cons_eq_some _).mpr ⟨_, hcall, rfl⟩, ?_, fun j ↦ ?_, rfl⟩
    · simp only [pushSerial, hpush]
    · rw [Option.map_none, Function.update_eq_self_iff.mpr rfl]
  · rw [hpush] at hcall
    obtain ⟨stored, hstored⟩ : ∃ stored, (pushSerial s c).queue = queue.resume pending stored := by
      rcases hpersist : persistDeadLetters s.deadLetters (pending.map entryToDoc) c.outcome
        with ⟨deadLetters, _ | _⟩
      · exact ⟨false, by simp only [pushSerial, hpush, hpersist]⟩
      · exact ⟨true, by simp only [pushSerial, hpush, hpersist]⟩
    have hanswer : (pushMachine ι).step ⟨queue, sink,
        Function.update (fun _ ↦ none) i (some ⟨pending, none⟩), log ++ c.events⟩ (.answer i stored)
          = some ⟨queue, if stored then sink ++ pending.map entryToDoc else sink,
            Function.update (fun _ ↦ none) i (some ⟨pending, some stored⟩), log ++ c.events⟩ := by
      simp [pushMachine]
    have hresume (sink' : List (DeadLetterDoc DateTime)) : (pushMachine ι).step ⟨queue, sink',
        Function.update (fun _ ↦ none) i (some ⟨pending, some stored⟩), log ++ c.events⟩ (.resume i)
          = some ⟨queue.resume pending stored, sink', fun _ ↦ none, log ++ c.events⟩ := by
      simp [pushMachine]
    refine ⟨[.call i c.events c.reason c.now, .answer i stored, .resume i],
      ⟨_, if stored then sink ++ pending.map entryToDoc else sink, _, _⟩, ?_,
      hstored.symm, fun _ ↦ rfl, rfl⟩
    refine (Machine.exec_cons_eq_some _).mpr ⟨_, hcall, ?_⟩
    refine (Machine.exec_cons_eq_some _).mpr ⟨_, hanswer, ?_⟩
    exact (Machine.exec_cons_eq_some _).mpr ⟨_, hresume _, rfl⟩

end Acheron
