import Mathlib.Data.Finset.Card
import Acheron.Lib.Runs

/-!
# Catching up with a backlog

Items come into a backlog at any time, and none leaves it but by being settled. A worker takes a
batch, as large as the backlog allows, works on it, and settles it; or it gives up, and settles some
items perhaps. It may give up as often as it likes, and it sees nothing of what comes in meanwhile.

A pass that is completed settles a full batch, unless it took all there was; and then whatever
was there before it is settled. So a backlog is behind the worker as soon as the completed passes
could have settled everything that is there by now: `catches_up`. A pass that was under way when
one began to look counts for nothing, as it took its batch before.
-/

namespace CatchUp

open Runs

variable {α : Type*} [DecidableEq α]

/-- The items that wait, those that are settled, and the batch that is worked on. -/
structure Backlog (α : Type*) where
  pending : Finset α
  settled : Finset α
  taken : Option (Finset α)

/-- The steps of a backlog with batches of up to `size`, and whether they complete a pass. -/
inductive Step (size : ℕ) (s : Backlog α) : Bool → Backlog α → Prop
  | stay : Step size s false s
  | add {items : Finset α} (hnew : Disjoint items s.settled) :
      Step size s false { s with pending := s.pending ∪ items }
  | take {batch : Finset α} (hsub : batch ⊆ s.pending)
      (hcard : batch.card = min size s.pending.card) :
      Step size s false { s with taken := some batch }
  | giveUp {items : Finset α} :
      Step size s false ⟨s.pending \ items, s.settled ∪ items ∩ s.pending, none⟩
  | complete {batch : Finset α} (htaken : s.taken = some batch) :
      Step size s true ⟨s.pending \ batch, s.settled ∪ batch ∩ s.pending, none⟩

/-- Nothing both waits and is settled, and what is worked on waits. -/
structure Backlog.Sound (s : Backlog α) : Prop where
  disjoint : Disjoint s.pending s.settled
  taken : ∀ batch, s.taken = some batch → batch ⊆ s.pending

/-- The passes under way. -/
def Backlog.underWay (s : Backlog α) : ℕ := s.taken.isSome.toNat

/-- **How far `n` completed passes have come.** The backlog they found is settled; or all of them
but the one that was under way have settled full batches, and so will the one under way now, or else
all that is left. -/
structure Progress (size : ℕ) (s : Backlog α) (n : ℕ) (t : Backlog α) : Prop where
  sound : t.Sound
  kept : s.settled ⊆ t.settled
  covered : s.pending ⊆ t.pending ∪ t.settled
  far : Disjoint s.pending t.pending ∨
    s.settled.card + (n - s.underWay) * size ≤ t.settled.card ∧ ∀ batch, t.taken = some batch →
      n < s.underWay ∨ batch.card = size ∨ s.pending ∩ t.pending ⊆ batch

variable {size : ℕ} {s t u : Backlog α} {n : ℕ} {items batch : Finset α}

/-! ## One step -/

/-- Settling keeps what waits apart from what is settled. -/
theorem Backlog.Sound.settle (ht : t.Sound) (items : Finset α) :
    Backlog.Sound ⟨t.pending \ items, t.settled ∪ items ∩ t.pending, none⟩ := by
  refine ⟨Finset.disjoint_union_right.mpr ⟨ht.disjoint.mono_left Finset.sdiff_subset, ?_⟩,
    fun _ hnone ↦ absurd hnone (by simp)⟩
  exact Finset.sdiff_disjoint.mono_right Finset.inter_subset_left

namespace Progress

/-- Before any pass. -/
theorem refl (hs : s.Sound) : Progress size s 0 s :=
  ⟨hs, Finset.Subset.refl _, Finset.subset_union_left, Or.inr ⟨by simp, fun batch hbatch ↦
    Or.inl (by simp [Backlog.underWay, hbatch])⟩⟩

/-- What comes in is no part of the backlog that the passes found. -/
theorem inter_union (h : Progress size s n t) (hnew : Disjoint items t.settled) :
    s.pending ∩ (t.pending ∪ items) = s.pending ∩ t.pending := by
  refine Finset.Subset.antisymm (fun x hx ↦ ?_)
    (Finset.inter_subset_inter_left Finset.subset_union_left)
  obtain ⟨hfound, hx⟩ := Finset.mem_inter.mp hx
  refine Finset.mem_inter.mpr ⟨hfound, ?_⟩
  rcases Finset.mem_union.mp (h.covered hfound) with hpending | hsettled
  · exact hpending
  · exact (Finset.mem_union.mp hx).resolve_right (Finset.disjoint_right.mp hnew hsettled)

/-- What the passes found is still there when items are settled. -/
theorem covered_settle (h : Progress size s n t) (items : Finset α) :
    s.pending ⊆ (t.pending \ items) ∪ (t.settled ∪ items ∩ t.pending) := by
  intro x hx
  rcases Finset.mem_union.mp (h.covered hx) with hpending | hsettled
  · by_cases hitem : x ∈ items
    · simp [hitem, hpending]
    · simp [hitem, hpending]
  · simp [hsettled]

theorem add (h : Progress size s n t) (hnew : Disjoint items t.settled) :
    Progress size s n { t with pending := t.pending ∪ items } where
  sound := ⟨Finset.disjoint_union_left.mpr ⟨h.sound.disjoint, hnew⟩, fun batch hbatch ↦
    (h.sound.taken batch hbatch).trans Finset.subset_union_left⟩
  kept := h.kept
  covered := h.covered.trans (Finset.union_subset_union_left Finset.subset_union_left)
  far := by
    rw [Finset.disjoint_iff_inter_eq_empty, h.inter_union hnew,
      ← Finset.disjoint_iff_inter_eq_empty]
    exact h.far

theorem take (h : Progress size s n t) (hsub : batch ⊆ t.pending)
    (hcard : batch.card = min size t.pending.card) :
    Progress size s n { t with taken := some batch } where
  sound := ⟨h.sound.disjoint, fun _ hbatch ↦ Option.some.inj hbatch ▸ hsub⟩
  kept := h.kept
  covered := h.covered
  far := by
    refine h.far.imp_right fun hright ↦ ⟨hright.1, fun batch' hbatch ↦ Or.inr ?_⟩
    obtain rfl := Option.some.inj hbatch
    by_cases hfull : size ≤ t.pending.card
    · exact Or.inl (by rw [hcard, Nat.min_eq_left hfull])
    · -- A batch that is not full is all there is.
      have hall : batch = t.pending := Finset.eq_of_subset_of_card_le hsub (by omega)
      exact Or.inr (hall ▸ Finset.inter_subset_right)

theorem giveUp (h : Progress size s n t) (items : Finset α) :
    Progress size s n ⟨t.pending \ items, t.settled ∪ items ∩ t.pending, none⟩ where
  sound := h.sound.settle items
  kept := h.kept.trans Finset.subset_union_left
  covered := h.covered_settle items
  far := by
    refine h.far.imp (fun hleft ↦ hleft.mono_right Finset.sdiff_subset) fun hright ↦ ⟨?_, ?_⟩
    · exact hright.1.trans (Finset.card_le_card Finset.subset_union_left)
    · exact fun _ hnone ↦ absurd hnone (by simp)

/-- A completed pass has settled a full batch, or has come to the end of the backlog. -/
theorem complete (h : Progress size s n t) (htaken : t.taken = some batch) :
    Progress size s (n + 1) ⟨t.pending \ batch, t.settled ∪ batch ∩ t.pending, none⟩ where
  sound := h.sound.settle batch
  kept := h.kept.trans Finset.subset_union_left
  covered := h.covered_settle batch
  far := by
    have hsub := h.sound.taken batch htaken
    have hcard : (t.settled ∪ batch ∩ t.pending).card = t.settled.card + batch.card := by
      rw [Finset.inter_eq_left.mpr hsub]
      exact Finset.card_union_of_disjoint (h.sound.disjoint.symm.mono_right hsub)
    rcases h.far with hleft | ⟨hle, hbatch⟩
    · exact Or.inl (hleft.mono_right Finset.sdiff_subset)
    rcases hbatch batch htaken with hfirst | hfull | hrest
    · refine Or.inr ⟨?_, fun _ hnone ↦ absurd hnone (by simp)⟩
      have hnone : n + 1 - s.underWay = 0 := Nat.sub_eq_zero_of_le hfirst
      simp only [hcard, hnone]
      omega
    · refine Or.inr ⟨?_, fun _ hnone ↦ absurd hnone (by simp)⟩
      have hpasses : (n + 1 - s.underWay) * size ≤ (n - s.underWay) * size + size := by
        rw [← Nat.succ_mul]
        exact Nat.mul_le_mul_right size (by omega)
      simp only [hcard, hfull]
      omega
    · refine Or.inl (Finset.disjoint_left.mpr fun x hfound hx ↦ ?_)
      obtain ⟨hpending, hnot⟩ := Finset.mem_sdiff.mp hx
      exact hnot (hrest (Finset.mem_inter.mpr ⟨hfound, hpending⟩))

/-- **The step rule.** -/
theorem step (h : Progress size s n t) {c : Bool} (hstep : Step size t c u) :
    Progress size s (n + c.toNat) u := by
  cases hstep with
  | stay => exact h
  | add hnew => exact h.add hnew
  | take hsub hcard => exact h.take hsub hcard
  | giveUp => exact h.giveUp _
  | complete htaken => exact h.complete htaken

/-- **The bound.** Once the passes could have settled all that is there, the backlog they found is
settled. -/
theorem settled (h : Progress size s n t)
    (henough : (t.pending ∪ t.settled).card ≤ s.settled.card + (n - s.underWay) * size) :
    s.pending ⊆ t.settled := by
  intro x hx
  refine (Finset.mem_union.mp (h.covered hx)).resolve_left fun hpending ↦ ?_
  rcases h.far with hleft | ⟨hle, -⟩
  · exact Finset.disjoint_left.mp hleft hx hpending
  · rw [Finset.card_union_of_disjoint h.sound.disjoint] at henough
    have hpos : 0 < t.pending.card := Finset.card_pos.mpr ⟨x, hpending⟩
    omega

end Progress

/-! ## Runs -/

section Runs

variable {σ β : Type*} {M : Machine σ β} (f : σ → Backlog α) {p : σ → β → σ → Bool}
  (hstep : ∀ s a t, M.step s a = some t → Step size (f s) (p s a t) (f t)) {s t : σ} {as : List β}

include hstep

/-- **The run rule.** If each step of a machine is one of a backlog, seen through `f`, and `p` tells
the steps that complete a pass, then a run comes as far as the passes it completes. -/
theorem progress_exec (hs : (f s).Sound) (h : M.exec s as = some t) :
    Progress size (f s) (M.count p s as) (f t) := by
  have hrun : ∀ (bs : List β) (u : σ) (n : ℕ), M.exec u bs = some t →
      Progress size (f s) n (f u) → Progress size (f s) (n + M.count p u bs) (f t) := by
    intro bs
    induction bs with
    | nil =>
      intro u n hu hprogress
      obtain rfl := Option.some.inj hu
      exact hprogress
    | cons b bs ih =>
      intro u n hu hprogress
      obtain ⟨v, hv, hrest⟩ := M.exec_cons_eq_some.mp hu
      rw [Machine.count_cons_of_step hv, ← Nat.add_assoc]
      exact ih v _ hrest (hprogress.step (hstep u b v hv))
  have hprogress := hrun as s 0 h (.refl hs)
  rwa [Nat.zero_add] at hprogress

/-- **The catching-up rule.** Once the passes of a run could have settled all that is in the backlog
by its end, everything that waited at its beginning is settled. -/
theorem catches_up (hs : (f s).Sound) (h : M.exec s as = some t)
    (henough : ((f t).pending ∪ (f t).settled).card
      ≤ (f s).settled.card + (M.count p s as - (f s).underWay) * size) :
    (f s).pending ⊆ (f t).settled :=
  (progress_exec f hstep hs h).settled henough

end Runs

end CatchUp
