import Acheron.Lib.Paging

/-!
# Draining a backlog in batches

A pass takes the first items of a backlog, up to the size of a batch, in an order that the sort keys
allow; ties may fall differently in every pass. Passes go on as long as the batch was full. However
the ties fall, this empties the backlog in one more pass than there are full batches, and takes each
item once, in the order of the keys.
-/

namespace Draining

open Paging

variable {α κ : Type*} [LinearOrder κ] {key : α → κ} {size : ℕ} {xs ys batch rest : List α}
  {batches : List (List α)}

/-- One pass over the backlog `xs`: the batch it takes and what it leaves. -/
structure Pass (key : α → κ) (size : ℕ) (xs batch rest : List α) : Prop where
  perm : (batch ++ rest).Perm xs
  length_eq : batch.length = min size xs.length
  sorted : batch.Pairwise fun a b ↦ key a ≤ key b
  below : ∀ a ∈ batch, ∀ b ∈ rest, key a ≤ key b

/-- The head of any ordering is a pass. -/
theorem pass_of_ordering (o : Ordering key xs) (size : ℕ) :
    Pass key size xs (o.items.take size) (o.items.drop size) := by
  have hsplit : (o.items.take size ++ o.items.drop size).Pairwise fun a b ↦ key a ≤ key b := by
    rw [List.take_append_drop]
    exact o.sorted
  obtain ⟨hbatch, -, hbelow⟩ := List.pairwise_append.mp hsplit
  refine ⟨?_, ?_, hbatch, hbelow⟩
  · rw [List.take_append_drop]
    exact o.perm
  · rw [List.length_take, o.length_items]

/-- Passes until one is not full. -/
inductive Drain (key : α → κ) (size : ℕ) : List α → List (List α) → List α → Prop
  | last {xs batch rest : List α} (hpass : Pass key size xs batch rest)
      (hshort : batch.length ≠ size) : Drain key size xs [batch] rest
  | more {xs batch rest ys : List α} {batches : List (List α)} (hpass : Pass key size xs batch rest)
      (hfull : batch.length = size) (hrest : Drain key size rest batches ys) :
      Drain key size xs (batch :: batches) ys

theorem Pass.length_rest (h : Pass key size xs batch rest) :
    batch.length + rest.length = xs.length := by
  rw [← List.length_append, h.perm.length_eq]

/-- A pass that is not full takes everything. -/
theorem Pass.rest_eq_nil (h : Pass key size xs batch rest) (hshort : batch.length ≠ size) :
    rest = [] := by
  have hlen := h.length_rest
  have hmin := h.length_eq
  exact List.length_eq_zero_iff.mp (by omega)

namespace Drain

theorem rest_eq_nil (h : Drain key size xs batches ys) : ys = [] := by
  induction h with
  | last hpass hshort => exact hpass.rest_eq_nil hshort
  | more _ _ _ ih => exact ih

/-- **The number of passes.** -/
theorem length_batches (hsize : 0 < size) (h : Drain key size xs batches ys) :
    batches.length = xs.length / size + 1 := by
  induction h with
  | last hpass hshort =>
    have hmin := hpass.length_eq
    rw [List.length_singleton, Nat.div_eq_of_lt (by omega)]
  | more hpass hfull _ ih =>
    rw [List.length_cons, ih, ← hpass.length_rest, hfull, Nat.add_div_left _ hsize]

/-- **Each item is taken once.** -/
theorem perm (h : Drain key size xs batches ys) : batches.flatten.Perm xs := by
  induction h with
  | @last xs batch rest hpass hshort =>
    have hperm := hpass.perm
    rw [hpass.rest_eq_nil hshort] at hperm
    simpa using hperm
  | @more xs batch rest ys batches hpass _ _ ih =>
    rw [List.flatten_cons]
    exact (ih.append_left batch).trans hpass.perm

/-- **The items are taken in the order of the keys.** -/
theorem sorted (h : Drain key size xs batches ys) :
    batches.flatten.Pairwise fun a b ↦ key a ≤ key b := by
  induction h with
  | last hpass _ => simpa using hpass.sorted
  | more hpass _ hrest ih =>
    rw [List.flatten_cons, List.pairwise_append]
    exact ⟨hpass.sorted, ih, fun a ha b hb ↦ hpass.below a ha b (hrest.perm.mem_iff.mp hb)⟩

end Drain

end Draining
