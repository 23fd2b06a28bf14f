import Mathlib.Data.List.Basic
import Mathlib.Order.WellFounded

/-!
# Walks through a tree

A tree is a value of any type that gives each value a list of children, provided that the children
of children come to an end. A node is named by its path, the indices to take from the root. A *walk*
collects what `f` reads off the nodes, a node before its children and the children in order;
`exists_enumerates` says that it leaves no node out, reads none twice, and goes by the order of the
paths.
-/

namespace Trees

variable {τ β : Type*} (children : τ → List τ)

/-- The node at a path. -/
def nodeAt (t : τ) : List ℕ → Option τ
  | [] => some t
  | i :: path => (children t)[i]?.bind fun c ↦ nodeAt c path

variable (f : τ → Option β)

/-- The list has what `f` reads off the nodes of the tree, each with its path, by the order of the
paths. -/
structure Enumerates (t : τ) (ls : List (List ℕ × β)) : Prop where
  mem_iff : ∀ path b, (path, b) ∈ ls ↔ ∃ u, nodeAt children t path = some u ∧ f u = some b
  sorted : ls.Pairwise fun x y ↦ x.1 < y.1

variable {children f}

theorem nodeAt_cons_eq_some {t u : τ} {i : ℕ} {path : List ℕ} :
    nodeAt children t (i :: path) = some u ↔
      ∃ c, (children t)[i]? = some c ∧ nodeAt children c path = some u := by
  rw [nodeAt, Option.bind_eq_some_iff]

/-- The lists of the children, put one after the other, the children numbered from `i`. -/
theorem exists_below {walk : τ → List β} {cs : List τ}
    (h : ∀ c ∈ cs, ∃ ls, Enumerates children f c ls ∧ ls.map Prod.snd = walk c) (i : ℕ) :
    ∃ ls : List (List ℕ × β),
      (∀ path b, (path, b) ∈ ls ↔ ∃ j c p, path = (i + j) :: p ∧ cs[j]? = some c ∧
        ∃ u, nodeAt children c p = some u ∧ f u = some b) ∧
      ls.Pairwise (fun x y ↦ x.1 < y.1) ∧ ls.map Prod.snd = cs.flatMap walk := by
  induction cs generalizing i with
  | nil => exact ⟨[], by simp, .nil, rfl⟩
  | cons c cs ih =>
    obtain ⟨ls, hls, hwalk⟩ := h c List.mem_cons_self
    obtain ⟨rest, hrest, hsorted, hrestWalk⟩ :=
      ih (fun d hd ↦ h d (List.mem_cons_of_mem _ hd)) (i + 1)
    refine ⟨ls.map (fun x ↦ (i :: x.1, x.2)) ++ rest, fun path b ↦ ?_, ?_, ?_⟩
    · rw [List.mem_append, hrest]
      constructor
      · rintro (hmem | ⟨j, d, p, rfl, hd, hu⟩)
        · obtain ⟨⟨p, b'⟩, hp, heq⟩ := List.mem_map.mp hmem
          obtain ⟨rfl, rfl⟩ := Prod.mk.inj heq
          exact ⟨0, c, p, rfl, rfl, (hls.mem_iff p b').mp hp⟩
        · exact ⟨j + 1, d, p, by rw [Nat.add_right_comm, Nat.add_assoc], hd, hu⟩
      · rintro ⟨j, d, p, rfl, hd, hu⟩
        rcases j with _ | j
        · obtain rfl := Option.some.inj hd
          exact Or.inl (List.mem_map.mpr ⟨(p, b), (hls.mem_iff p b).mpr hu, rfl⟩)
        · exact Or.inr ⟨j, d, p, by rw [Nat.add_right_comm, Nat.add_assoc], hd, hu⟩
    · refine List.pairwise_append.mpr ⟨?_, hsorted, ?_⟩
      · exact List.pairwise_map.mpr (hls.sorted.imp fun hlt ↦ List.cons_lt_cons_self.mpr hlt)
      · -- Whatever comes later is under a later child.
        rintro x hx ⟨path, b⟩ hy
        obtain ⟨y, -, rfl⟩ := List.mem_map.mp hx
        obtain ⟨j, d, p, rfl, -⟩ := (hrest path b).mp hy
        exact List.cons_lt_cons_iff.mpr (Or.inl (by omega))
    · rw [List.map_append, List.map_map, hrestWalk, List.flatMap_cons, ← hwalk]
      rfl

/-- **A walk is complete.** -/
theorem exists_enumerates (hwf : WellFounded fun c t ↦ c ∈ children t) {walk : τ → List β}
    (hwalk : ∀ t, walk t = (f t).toList ++ (children t).flatMap walk) (t : τ) :
    ∃ ls, Enumerates children f t ls ∧ ls.map Prod.snd = walk t := by
  induction t using hwf.induction with
  | _ t ih =>
    obtain ⟨ls, hmem, hsorted, hls⟩ := exists_below (i := 0) ih
    refine ⟨(f t).toList.map (fun b ↦ ([], b)) ++ ls, ⟨fun path b ↦ ?_, ?_⟩, ?_⟩
    · rw [List.mem_append, hmem]
      cases path with
      | nil => simp [nodeAt]
      | cons i path =>
        simp only [List.mem_map, Prod.mk.injEq, List.nil_eq, reduceCtorEq, false_and, and_false,
          exists_false, false_or, nodeAt_cons_eq_some]
        constructor
        · rintro ⟨j, c, p, heq, hc, u, hu, hb⟩
          obtain ⟨rfl, rfl⟩ := List.cons.inj heq
          exact ⟨u, ⟨c, by simpa using hc, hu⟩, hb⟩
        · rintro ⟨u, ⟨c, hc, hu⟩, hb⟩
          exact ⟨i, c, path, by rw [Nat.zero_add], hc, u, hu, hb⟩
    · refine List.pairwise_append.mpr ⟨?_, hsorted, ?_⟩
      · cases f t <;> simp
      · rintro x hx ⟨path, b⟩ hy
        obtain ⟨-, -, rfl⟩ := List.mem_map.mp hx
        obtain ⟨j, d, p, rfl, -⟩ := (hmem path b).mp hy
        exact List.nil_lt_cons _ _
    · rw [List.map_append, List.map_map, hls, hwalk t]
      exact congrArg (· ++ _) (List.map_id _)

end Trees
