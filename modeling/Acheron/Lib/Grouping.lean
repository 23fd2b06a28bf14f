import Mathlib.Algebra.BigOperators.Group.List.Lemmas
import Mathlib.Algebra.GroupWithZero.Nat
import Mathlib.Data.List.Dedup
import Mathlib.Data.List.Perm.Subperm

/-!
# Grouping and counting

The members of a list counted by a key, with one group for each key that occurs. A group is
determined by its key, and counts grow with the list.

The groups partition the list, so their counts add up to its length, and those of the keys with a
property to the number of members whose key has it: `sum_groups_filter`. Counting by a finer key and
adding up is counting by the coarser one.
-/

namespace Grouping

variable {α κ : Type*} [DecidableEq κ] {f : α → κ} {xs ys : List α} {k : κ} {n : ℕ}

/-- The keys that occur, each with the number of its members. -/
def groups (f : α → κ) (xs : List α) : List (κ × ℕ) :=
  (xs.map f).dedup.map fun k ↦ (k, xs.countP (f · = k))

theorem mem_groups :
    (k, n) ∈ groups f xs ↔ (∃ x ∈ xs, f x = k) ∧ n = xs.countP (f · = k) := by
  rw [groups, List.mem_map]
  constructor
  · rintro ⟨k', hk', heq⟩
    obtain ⟨rfl, rfl⟩ := Prod.mk.inj heq
    exact ⟨List.mem_map.mp (List.mem_dedup.mp hk'), rfl⟩
  · rintro ⟨hk, rfl⟩
    exact ⟨k, List.mem_dedup.mpr (List.mem_map.mpr hk), rfl⟩

/-- A key has one group. -/
theorem groups_unique {m : ℕ} (hn : (k, n) ∈ groups f xs) (hm : (k, m) ∈ groups f xs) : n = m :=
  (mem_groups.mp hn).2.trans (mem_groups.mp hm).2.symm

/-- A longer list has all groups of the shorter one, none of them smaller. -/
theorem groups_mono (h : xs.Subperm ys) (hn : (k, n) ∈ groups f xs) :
    ∃ m, (k, m) ∈ groups f ys ∧ n ≤ m := by
  obtain ⟨⟨x, hx, hk⟩, rfl⟩ := mem_groups.mp hn
  exact ⟨_, mem_groups.mpr ⟨⟨x, h.subset hx, hk⟩, rfl⟩, h.countP_le _⟩

/-! ## Adding up -/

theorem map_fst_groups (f : α → κ) (xs : List α) :
    (groups f xs).map Prod.fst = (xs.map f).dedup := by
  rw [groups, List.map_map]
  exact List.map_id _

/-- No key has two groups. -/
theorem nodup_fst_groups (f : α → κ) (xs : List α) : ((groups f xs).map Prod.fst).Nodup := by
  rw [map_fst_groups]
  exact List.nodup_dedup _

/-- No group is empty. -/
theorem pos_of_mem_groups (h : (k, n) ∈ groups f xs) : 0 < n := by
  obtain ⟨⟨x, hx, hk⟩, rfl⟩ := mem_groups.mp h
  exact List.countP_pos_iff.mpr ⟨x, hx, decide_eq_true hk⟩

/-- The groups of the keys with a property, added up. -/
theorem sum_groups_filter (f : α → κ) (xs : List α) (p : κ → Bool) :
    (((groups f xs).filter fun g ↦ p g.1).map Prod.snd).sum = xs.countP fun x ↦ p (f x) := by
  have hcount (k : κ) : (xs.map f).count k = xs.countP (f · = k) := by
    rw [List.count, List.countP_map]
    exact List.countP_congr fun x _ ↦ by simp
  have hmap := List.sum_map_count_dedup_filter_eq_countP p (xs.map f)
  rw [List.countP_map] at hmap
  rw [groups, List.filter_map, List.map_map]
  simp only [hcount] at hmap
  exact hmap

/-- All groups added up. -/
theorem sum_groups (f : α → κ) (xs : List α) : ((groups f xs).map Prod.snd).sum = xs.length := by
  have hall := sum_groups_filter f xs fun _ ↦ true
  rwa [List.filter_true, List.countP_true] at hall

/-- **A finer grouping adds up to a coarser one.** -/
theorem sum_groups_of_finer {ι : Type*} [DecidableEq ι] (f : α → κ) (g : κ → ι) (xs : List α)
    {i : ι} (h : (i, n) ∈ groups (fun x ↦ g (f x)) xs) :
    (((groups f xs).filter fun p ↦ g p.1 = i).map Prod.snd).sum = n := by
  obtain ⟨-, rfl⟩ := mem_groups.mp h
  exact sum_groups_filter f xs fun k ↦ g k = i

end Grouping
