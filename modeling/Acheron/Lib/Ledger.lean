import Mathlib.Algebra.BigOperators.Group.Finset.Basic
import Mathlib.Algebra.BigOperators.Group.List.Basic
import Mathlib.Algebra.GroupWithZero.Nat
import Mathlib.Algebra.Order.Group.Nat

/-!
# Ledgers of concurrent calls

What each of several concurrent calls has done so far, and what each ended call did. A counter the
calls share is a weight on the entries: it stands at the total weight of the ledger, which an entry
raises by its own weight and which the end of a call leaves alone. When no call is open the total is
that of the ended calls, and so is an equation between counters that each ended call satisfies.
-/

namespace Ledgers

/-- The entries of the open calls, by slot, and the ended calls with theirs, in order. -/
structure Ledger (ι κ ε : Type*) where
  opened : ι → List ε
  closed : List (κ × List ε)

variable {ι κ ε : Type*}

/-- The total weight of some entries. -/
def weigh (w : ε → ℕ) (xs : List ε) : ℕ := (xs.map w).sum

@[simp] theorem weigh_nil (w : ε → ℕ) : weigh w [] = 0 := rfl

@[simp] theorem weigh_cons (w : ε → ℕ) (x : ε) (xs : List ε) :
    weigh w (x :: xs) = w x + weigh w xs := List.sum_cons

@[simp] theorem weigh_append (w : ε → ℕ) (xs ys : List ε) :
    weigh w (xs ++ ys) = weigh w xs + weigh w ys := by
  rw [weigh, List.map_append, List.sum_append, weigh, weigh]

/-- A count is a sum of indicators. -/
theorem sum_map_toNat {α : Type*} (p : α → Bool) (xs : List α) :
    (xs.map fun x ↦ (p x).toNat).sum = xs.countP p := by
  induction xs with
  | nil => rfl
  | cons x xs ih => cases h : p x <;> simp [h, ih, Nat.add_comm]

/-- What is filtered out adds nothing. -/
theorem sum_map_filter {α : Type*} (p : α → Bool) (f : α → ℕ) (xs : List α) :
    ((xs.filter p).map f).sum = (xs.map fun x ↦ if p x then f x else 0).sum := by
  induction xs with
  | nil => rfl
  | cons x xs ih => cases h : p x <;> simp [h, ih]

/-- A count over the calls of a list, when one of them moves. -/
theorem countP_update {ι κ : Type*} [DecidableEq ι] {xs : List ι} {i : ι} (hxs : xs.Nodup)
    (hi : i ∈ xs) (p : κ → Bool) (f : ι → κ) (k : κ) :
    xs.countP (fun j ↦ p (Function.update f i k j)) + (p (f i)).toNat
      = xs.countP (fun j ↦ p (f j)) + (p k).toNat := by
  induction xs with
  | nil => exact absurd hi List.not_mem_nil
  | cons x xs ih =>
    obtain ⟨hx, hnodup⟩ := List.nodup_cons.mp hxs
    rw [List.countP_cons, List.countP_cons]
    rcases eq_or_ne i x with rfl | hne
    · have hrest : xs.countP (fun j ↦ p (Function.update f i k j)) = xs.countP fun j ↦ p (f j) :=
        List.countP_congr fun j hj ↦ by rw [Function.update_of_ne (ne_of_mem_of_not_mem hj hx)]
      rw [hrest, Function.update_self]
      cases p (f i) <;> cases p k <;> simp
    · have hrest := ih hnodup (List.mem_of_ne_of_mem hne hi)
      rw [Function.update_of_ne hne.symm]
      omega

namespace Ledger

/-- No call yet. -/
def empty : Ledger ι κ ε := ⟨fun _ ↦ [], []⟩

/-- The total weight over the calls ended so far. -/
def settled (w : ε → ℕ) (L : Ledger ι κ ε) : ℕ := (L.closed.map fun r ↦ weigh w r.2).sum

/-- An equation that holds call by call holds of the sums. -/
theorem settled_add {w : ε → ℕ} {L : Ledger ι κ ε} {f g : κ × List ε → ℕ}
    (h : ∀ r ∈ L.closed, weigh w r.2 + f r = g r) :
    L.settled w + (L.closed.map f).sum = (L.closed.map g).sum := by
  rw [settled, ← List.sum_map_add]
  exact congrArg List.sum (List.map_congr_left h)

/-- A counter that counts the calls with a property. -/
theorem settled_eq_countP {w : ε → ℕ} {L : Ledger ι κ ε} {p : κ × List ε → Bool}
    (h : ∀ r ∈ L.closed, weigh w r.2 = (p r).toNat) : L.settled w = L.closed.countP p := by
  rw [settled, ← sum_map_toNat]
  exact congrArg List.sum (List.map_congr_left h)

/-- The total weight over all calls. -/
def total [Fintype ι] (w : ε → ℕ) (L : Ledger ι κ ε) : ℕ :=
  L.settled w + ∑ i, weigh w (L.opened i)

@[simp] theorem total_empty [Fintype ι] (w : ε → ℕ) : (empty : Ledger ι κ ε).total w = 0 := by
  simp [total, settled, empty]

/-- With no call open, the total is that of the ended calls. -/
theorem total_eq_settled [Fintype ι] {L : Ledger ι κ ε} (h : ∀ i, L.opened i = []) (w : ε → ℕ) :
    L.total w = L.settled w := by
  simp [total, h]

variable [DecidableEq ι]

/-- The open call of slot `i` does `xs`. -/
def note (L : Ledger ι κ ε) (i : ι) (xs : List ε) : Ledger ι κ ε :=
  { L with opened := Function.update L.opened i (L.opened i ++ xs) }

/-- The open call of slot `i` ends. -/
def close (L : Ledger ι κ ε) (i : ι) (k : κ) : Ledger ι κ ε :=
  { L with opened := Function.update L.opened i [], closed := L.closed ++ [(k, L.opened i)] }

variable {L : Ledger ι κ ε} {w : ε → ℕ} {i j : ι} {k : κ} {xs : List ε}

@[simp] theorem opened_note_self : (L.note i xs).opened i = L.opened i ++ xs :=
  Function.update_self ..

@[simp] theorem opened_note_of_ne (h : j ≠ i) : (L.note i xs).opened j = L.opened j :=
  Function.update_of_ne h ..

@[simp] theorem closed_note : (L.note i xs).closed = L.closed := rfl

@[simp] theorem opened_close_self : (L.close i k).opened i = [] := Function.update_self ..

@[simp] theorem opened_close_of_ne (h : j ≠ i) : (L.close i k).opened j = L.opened j :=
  Function.update_of_ne h ..

@[simp] theorem closed_close : (L.close i k).closed = L.closed ++ [(k, L.opened i)] := rfl

section Total

variable [Fintype ι]

/-- Replacing one slot replaces its share of the sum. -/
theorem sum_update_add (f : ι → List ε) (ys : List ε) :
    ∑ j, weigh w (Function.update f i ys j) + weigh w (f i)
      = ∑ j, weigh w (f j) + weigh w ys := by
  have hupdate := Finset.add_sum_erase Finset.univ (fun j ↦ weigh w (Function.update f i ys j))
    (Finset.mem_univ i)
  have hbefore := Finset.add_sum_erase Finset.univ (fun j ↦ weigh w (f j)) (Finset.mem_univ i)
  have hsame : ∑ j ∈ Finset.univ.erase i, weigh w (Function.update f i ys j)
      = ∑ j ∈ Finset.univ.erase i, weigh w (f j) :=
    Finset.sum_congr rfl fun j hj ↦ by rw [Function.update_of_ne (Finset.ne_of_mem_erase hj)]
  rw [Function.update_self, hsame] at hupdate
  omega

/-- An entry raises the total by its weight. -/
@[simp] theorem total_note : (L.note i xs).total w = L.total w + weigh w xs := by
  have hsum := sum_update_add (w := w) (i := i) L.opened (L.opened i ++ xs)
  rw [weigh_append] at hsum
  have hsettled : (L.note i xs).settled w = L.settled w := rfl
  rw [total, total, hsettled, note]
  dsimp only
  omega

/-- The end of a call leaves it alone. -/
@[simp] theorem total_close : (L.close i k).total w = L.total w := by
  have hsum := sum_update_add (w := w) (i := i) L.opened []
  rw [weigh_nil] at hsum
  have hsettled : (L.close i k).settled w = L.settled w + weigh w (L.opened i) := by
    simp [settled]
  rw [total, total, hsettled, close]
  dsimp only
  omega

end Total

end Ledger

end Ledgers
