import Mathlib.Algebra.BigOperators.Group.Finset.Basic
import Mathlib.Data.Fintype.Basic
import Acheron.Lib.Runs

/-!
# Rankings

A ranking says how much work a machine still has before it. Some of its actions are work; under an
invariant each of them lowers the rank, and no other action raises it. So a run contains no more
work than its first state has rank, however the rest is interleaved with it, and a machine that goes
on working comes to rest: to a state in which no work is enabled.
-/

namespace Runs

/-- A rank that the work of a machine uses up. -/
structure Ranking {σ α : Type*} (M : Machine σ α) (work : α → Bool) where
  /-- The states that are ranked. -/
  ranked : σ → Prop
  rank : σ → ℕ
  keeps : ∀ s a t, ranked s → M.step s a = some t → ranked t
  work_lt : ∀ s a t, ranked s → work a = true → M.step s a = some t → rank t < rank s
  idle_le : ∀ s a t, ranked s → work a = false → M.step s a = some t → rank t ≤ rank s

namespace Machine

/-- No work is enabled. -/
def AtRest {σ α : Type*} (M : Machine σ α) (work : α → Bool) (s : σ) : Prop :=
  ∀ a, work a = true → M.step s a = none

end Machine

namespace Ranking

variable {σ α : Type*} {M : Machine σ α} {work : α → Bool} (R : Ranking M work) {s t : σ}

/-- **The ranking rule.** What a run has done and what is left after it is no more than there was
before it. -/
theorem count_add_rank_le {as : List α} (hs : R.ranked s) (h : M.exec s as = some t) :
    M.count (fun _ a _ ↦ work a) s as + R.rank t ≤ R.rank s := by
  induction as generalizing s with
  | nil =>
    obtain rfl := Option.some.inj h
    exact (Nat.zero_add _).le
  | cons a as ih =>
    obtain ⟨u, hu, hrest⟩ := M.exec_cons_eq_some.mp h
    have hlater := ih (R.keeps s a u hs hu) hrest
    rw [Machine.count_cons_of_step hu]
    cases hwork : work a with
    | true =>
      have hlt := R.work_lt s a u hs hwork hu
      rw [Bool.toNat_true]
      omega
    | false =>
      have hle := R.idle_le s a u hs hwork hu
      rw [Bool.toNat_false]
      omega

/-- **The rest rule.** Work alone leads to a state of rest, in no more steps than the rank. -/
theorem exists_atRest (hs : R.ranked s) :
    ∃ as t, (∀ a ∈ as, work a = true) ∧ as.length ≤ R.rank s ∧ M.exec s as = some t ∧
      M.AtRest work t := by
  induction hrank : R.rank s using Nat.strongRecOn generalizing s with
  | ind n ih =>
    subst hrank
    by_cases hrest : M.AtRest work s
    · exact ⟨[], s, by simp, Nat.zero_le _, rfl, hrest⟩
    · simp only [Machine.AtRest, not_forall] at hrest
      obtain ⟨a, hwork, hstep⟩ := hrest
      obtain ⟨u, hu⟩ := Option.ne_none_iff_exists'.mp hstep
      have hlt := R.work_lt s a u hs hwork hu
      obtain ⟨as, t, has, hlength, hrun, ht⟩ := ih _ hlt (R.keeps s a u hs hu) rfl
      refine ⟨a :: as, t, List.forall_mem_cons.mpr ⟨hwork, has⟩, ?_,
        M.exec_cons_eq_some.mpr ⟨u, hu, hrun⟩, ht⟩
      rw [List.length_cons]
      omega

end Ranking

/-! ## A rank summed over parties -/

/-- Where one party has moved, the sum moves with it. -/
theorem sum_add_of_eq_off {ι : Type*} [Fintype ι] [DecidableEq ι] {f g : ι → ℕ} {i : ι}
    (h : ∀ j, j ≠ i → g j = f j) : ∑ j, g j + f i = ∑ j, f j + g i := by
  have hrest : ∑ j ∈ Finset.univ.erase i, g j = ∑ j ∈ Finset.univ.erase i, f j :=
    Finset.sum_congr rfl fun j hj ↦ h j (Finset.ne_of_mem_erase hj)
  rw [← Finset.add_sum_erase _ g (Finset.mem_univ i), ← Finset.add_sum_erase _ f (Finset.mem_univ i),
    hrest]
  omega

end Runs
