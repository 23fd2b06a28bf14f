import Acheron.Event.Canonical
import Acheron.Cache.Idempotency

/-!
# Redis keys

The three kinds of keys the service writes. An identifier is an IP address and may contain colons;
the bucket is a number and does not, so a counter's key is read from its end.
-/

namespace Acheron

/-- `f"ratelimit:{identifier}:{bucket}"`. -/
def rateLimitKey (identifier : String) (bucket : ℤ) : String :=
  "ratelimit:" ++ identifier ++ ":" ++ String.ofList (intText bucket)

/-- The key of the cached summary. -/
def summaryKey : String := "events:stats:realtime"

/-- A character of a decimal number. -/
def isDecimalChar (c : Char) : Bool := c.isDigit || c == '-'

theorem isDecimalChar_of_mem {n : ℤ} {c : Char} (h : c ∈ (intText n).reverse) :
    isDecimalChar c = true := by
  rcases intText_chars (List.mem_reverse.mp h) with hdigit | hminus
  · rw [isDecimalChar, hdigit, Bool.true_or]
  · rw [hminus]
    decide

theorem toList_rateLimitKey (identifier : String) (bucket : ℤ) :
    (rateLimitKey identifier bucket).toList
      = "ratelimit:".toList ++ (identifier.toList ++ ':' :: intText bucket) := by
  simp [rateLimitKey]

/-- **A counter belongs to one identifier and one window**, whatever colons an identifier has. -/
theorem rateLimitKey_inj {i j : String} {m n : ℤ} (h : rateLimitKey i m = rateLimitKey j n) :
    i = j ∧ m = n := by
  have hlist := congrArg String.toList h
  rw [toList_rateLimitKey, toList_rateLimitKey] at hlist
  have htail := congrArg List.reverse (List.append_cancel_left hlist)
  simp only [List.reverse_append, List.reverse_cons, List.append_assoc] at htail
  -- Read from its end, the bucket is a token that the colon stops.
  have hstop : ∀ xs : List Char, Text.Stops isDecimalChar ([':'] ++ xs) := by
    intro xs c hc
    obtain rfl : ':' = c := by simpa using hc
    decide
  obtain ⟨hbucket, hrest⟩ := Text.token_append (fun _ ↦ isDecimalChar_of_mem)
    (fun _ ↦ isDecimalChar_of_mem) (hstop _) (hstop _) htail
  have hname : i.toList = j.toList := List.reverse_inj.mp (List.append_cancel_left hrest)
  exact ⟨String.toList_inj.mp hname, intText_injective (List.reverse_inj.mp hbucket)⟩

theorem head?_redisKey (key : String) : (redisKey key).toList.head? = some 'i' := by
  simp [redisKey]

theorem redisKey_ne_rateLimitKey (key identifier : String) (bucket : ℤ) :
    redisKey key ≠ rateLimitKey identifier bucket := by
  intro h
  have hhead := head?_redisKey key
  rw [h, toList_rateLimitKey] at hhead
  exact absurd (Option.some.inj hhead) (by decide)

theorem redisKey_ne_summaryKey (key : String) : redisKey key ≠ summaryKey := by
  intro h
  have hhead := head?_redisKey key
  rw [h] at hhead
  exact absurd (Option.some.inj hhead) (by decide)

end Acheron
