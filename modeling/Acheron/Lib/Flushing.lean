import Mathlib.Data.List.DropRight

/-!
# A buffer handed over until it is accepted

Each attempt adds some items to a buffer and offers all of it; an accepted offer empties the buffer,
a refused one leaves it. `pending` is what the buffer should hold, said without the buffer: what has
been added since the last attempt that was accepted.

A refused offer may still have taken effect for its first items, and these are offered again. To a
receiver that looks for the first item with a property the repetition does not show:
`exists_find?_or`.
-/

namespace Flushing

variable {α : Type*}

/-- One attempt to hand the buffer over. -/
structure Attempt (α : Type*) where
  added : List α
  accepted : Bool

/-- All items added, in order. -/
def added (as : List (Attempt α)) : List α := as.flatMap Attempt.added

/-- The items added since the last attempt that was accepted. -/
def pending (as : List (Attempt α)) : List α := added (as.rtakeWhile fun a ↦ !a.accepted)

theorem added_concat (as : List (Attempt α)) (a : Attempt α) :
    added (as ++ [a]) = added as ++ a.added := by
  rw [added, List.flatMap_append, List.flatMap_singleton, added]

theorem pending_concat_accepted (as : List (Attempt α)) (xs : List α) :
    pending (as ++ [⟨xs, true⟩]) = [] := by
  rw [pending, List.rtakeWhile_concat_neg _ _ _ (by simp)]
  rfl

theorem pending_concat_refused (as : List (Attempt α)) (xs : List α) :
    pending (as ++ [⟨xs, false⟩]) = pending as ++ xs := by
  rw [pending, List.rtakeWhile_concat_pos _ _ _ (by simp), added_concat, pending]

theorem find?_or_of_initial {xs ys : List α} (h : xs <+: ys) (p : α → Bool) :
    (xs.find? p).or (ys.find? p) = ys.find? p := by
  obtain ⟨rest, rfl⟩ := h
  rw [List.find?_append, ← Option.or_assoc, Option.or_self]

/-- Two beginnings of one list, looked up one after the other, are the longer of the two. -/
theorem exists_find?_or {xs ys zs : List α} (hx : xs <+: zs) (hy : ys <+: zs) :
    ∃ ws, (ws = xs ∨ ws = ys) ∧ ws <+: zs ∧
      ∀ p, (xs.find? p).or (ys.find? p) = ws.find? p := by
  rcases List.prefix_or_prefix_of_prefix hx hy with hle | ⟨rest, rfl⟩
  · exact ⟨ys, Or.inr rfl, hy, find?_or_of_initial hle⟩
  · refine ⟨ys ++ rest, Or.inl rfl, hx, fun p ↦ ?_⟩
    rw [List.find?_append]
    rcases ys.find? p with _ | y
    · rw [Option.none_or, Option.or_none]
    · rw [Option.some_or, Option.some_or]

end Flushing
