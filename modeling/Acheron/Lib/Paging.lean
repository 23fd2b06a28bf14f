import Mathlib.Data.List.Nodup
import Mathlib.Data.List.Perm.Basic
import Mathlib.Data.List.Sort

/-!
# Reading an ordered result in pages

A client that asks for one page after another sends one query a page, and each query is answered on
its own. An `Ordering` is the answer to one of them before it is cut: all the items, ordered by a
sort key. Where two items have the same key, two answers may order them differently.

`covers_iff` says when the pages of different answers fit together: exactly when no page boundary
lies between two items of the same key. `readWhile` is the client.
-/

namespace Paging

variable {α κ : Type*} [LinearOrder κ]

/-- The items in an order their keys allow. -/
structure Ordering (key : α → κ) (xs : List α) where
  items : List α
  perm : items.Perm xs
  sorted : items.Pairwise fun a b ↦ key a ≤ key b

/-- The page `n` of a list, with pages of `limit` items. -/
def page (items : List α) (limit n : ℕ) : List α := (items.drop (n * limit)).take limit

/-- The keys of the items, in order. -/
def sortedKeys (key : α → κ) (xs : List α) : List κ := (xs.map key).insertionSort (· ≤ ·)

/-- **The condition on the boundaries.** The last key of a page and the first key of the next page
differ. -/
def Separated (key : α → κ) (xs : List α) (limit : ℕ) : Prop :=
  ∀ n, 0 < n → n * limit < xs.length →
    (sortedKeys key xs)[n * limit - 1]? ≠ (sortedKeys key xs)[n * limit]?

/-! ## Orderings -/

namespace Ordering

variable {key : α → κ} {xs : List α}

theorem length_items (o : Ordering key xs) : o.items.length = xs.length := o.perm.length_eq

/-- All orderings agree on the keys. -/
theorem keys_eq (o : Ordering key xs) : o.items.map key = sortedKeys key xs := by
  have hsorted : (o.items.map key).Pairwise (· ≤ ·) := List.pairwise_map.mpr o.sorted
  have hperm : (o.items.map key).Perm (sortedKeys key xs) :=
    (o.perm.map key).trans (List.perm_insertionSort _ _).symm
  exact hperm.eq_of_pairwise' hsorted (List.pairwise_insertionSort _ _)

/-- Where the keys tell the items apart, there is one ordering. -/
theorem items_eq (hinj : ∀ a ∈ xs, ∀ b ∈ xs, key a = key b → a = b) (o o' : Ordering key xs) :
    o.items = o'.items := by
  refine List.Perm.eq_of_pairwise (fun a b ha hb hab hba ↦ ?_) o.sorted o'.sorted
    (o.perm.trans o'.perm.symm)
  exact hinj a (o.perm.mem_iff.mp ha) b (o'.perm.mem_iff.mp hb) (le_antisymm hab hba)

theorem key_getElem? (o : Ordering key xs) (p : ℕ) :
    (o.items[p]?).map key = (sortedKeys key xs)[p]? := by
  rw [← o.keys_eq, List.getElem?_map]

/-- There is one. -/
def sort (key : α → κ) (xs : List α) : Ordering key xs where
  items := xs.insertionSort fun a b ↦ key a ≤ key b
  perm := List.perm_insertionSort _ _
  sorted := by
    have : Std.Total fun a b : α ↦ key a ≤ key b := ⟨fun a b ↦ le_total (key a) (key b)⟩
    have : IsTrans α fun a b ↦ key a ≤ key b := ⟨fun _ _ _ ↦ le_trans⟩
    exact List.pairwise_insertionSort _ _

/-- Exchange two neighbours of one key. -/
def swap (o : Ordering key xs) {l r : List α} {a b : α} (hitems : o.items = l ++ a :: b :: r)
    (hkey : key a = key b) : Ordering key xs where
  items := l ++ b :: a :: r
  perm := ((List.Perm.swap a b r).append_left l).trans (hitems ▸ o.perm)
  sorted := by
    have hkeys : (l ++ b :: a :: r).map key = o.items.map key := by simp [hitems, hkey]
    have hsorted : (o.items.map key).Pairwise (· ≤ ·) := List.pairwise_map.mpr o.sorted
    exact List.pairwise_map.mp (hkeys ▸ hsorted)

end Ordering

/-! ## Boundaries -/

/-- A split of a list by a predicate is a split by filtering. -/
theorem take_eq_filter {items : List α} {P : α → Bool} {p : ℕ} (htake : ∀ a ∈ items.take p, P a)
    (hdrop : ∀ a ∈ items.drop p, P a = false) : items.take p = items.filter P := by
  have hsplit : items.filter P = (items.take p).filter P ++ (items.drop p).filter P := by
    rw [← List.filter_append, List.take_append_drop]
  have hleft : (items.take p).filter P = items.take p := List.filter_eq_self.mpr htake
  have hright : (items.drop p).filter P = [] :=
    List.filter_eq_nil_iff.mpr fun a ha ↦ by simp [hdrop a ha]
  rw [hsplit, hleft, hright, List.append_nil]

/-- Before a boundary that separates two keys, all orderings have the same items. -/
theorem take_perm {key : α → κ} {xs : List α} {p : ℕ}
    (hsep : 0 < p → p < xs.length → (sortedKeys key xs)[p - 1]? ≠ (sortedKeys key xs)[p]?)
    (o o' : Ordering key xs) : (o.items.take p).Perm (o'.items.take p) := by
  rcases Nat.eq_zero_or_pos p with rfl | hpos
  · exact List.Perm.refl _
  rcases Nat.lt_or_ge p xs.length with hlt | hge
  swap
  · rw [List.take_of_length_le (by rw [o.length_items]; exact hge),
      List.take_of_length_le (by rw [o'.length_items]; exact hge)]
    exact o.perm.trans o'.perm.symm
  have hlen : (sortedKeys key xs).length = xs.length := by
    rw [← (Ordering.sort key xs).keys_eq, List.length_map, Ordering.length_items]
  -- The items before the boundary are those whose key is at most the last key before it.
  obtain ⟨k, hk⟩ : ∃ k, (sortedKeys key xs)[p - 1]? = some k :=
    ⟨_, List.getElem?_eq_getElem (by omega)⟩
  have hfilter (u : Ordering key xs) : u.items.take p = u.items.filter fun a ↦ key a ≤ k := by
    have hu : u.items.length = xs.length := u.length_items
    have hp : p < u.items.length := by omega
    have hp' : p - 1 < u.items.length := by omega
    have hlast : key u.items[p - 1] = k := by
      have h := u.key_getElem? (p - 1)
      rw [hk, List.getElem?_eq_getElem (by omega)] at h
      exact Option.some.inj h
    have hnext : k < key u.items[p] := by
      have h := u.key_getElem? p
      rw [List.getElem?_eq_getElem (by omega)] at h
      have hle : key u.items[p - 1] ≤ key u.items[p] :=
        List.pairwise_iff_getElem.mp u.sorted _ _ _ _ (by omega)
      refine lt_of_le_of_ne (hlast ▸ hle) fun heq ↦ hsep hpos hlt ?_
      rw [hk, ← h, Option.map_some, heq]
    refine take_eq_filter (fun a ha ↦ ?_) fun a ha ↦ ?_
    · obtain ⟨i, hi, rfl⟩ := List.mem_take_iff_getElem.mp ha
      have hi' : i < u.items.length := by omega
      have hle : key u.items[i] ≤ k := by
        rcases Nat.lt_or_ge i (p - 1) with hlt' | hge'
        · exact hlast ▸ List.pairwise_iff_getElem.mp u.sorted _ _ _ _ hlt'
        · obtain rfl : i = p - 1 := by omega
          exact hlast.le
      exact decide_eq_true hle
    · obtain ⟨i, hi, rfl⟩ := List.mem_drop_iff_getElem.mp ha
      have hi' : p + i < u.items.length := by omega
      have hle : key u.items[p] ≤ key u.items[p + i] := by
        rcases Nat.eq_zero_or_pos i with rfl | hpos'
        · exact le_rfl
        · exact List.pairwise_iff_getElem.mp u.sorted _ _ _ _ (by omega)
      exact decide_eq_false (not_le.mpr (hnext.trans_le hle))
  rw [hfilter o, hfilter o']
  exact (o.perm.trans o'.perm.symm).filter _

/-! ## Pages -/

theorem page_append (items : List α) (limit n : ℕ) :
    items.take (n * limit) ++ page items limit n = items.take ((n + 1) * limit) := by
  rw [page, Nat.succ_mul, List.take_add]

theorem flatMap_page (items : List α) (limit m : ℕ) :
    (List.range m).flatMap (page items limit) = items.take (m * limit) := by
  induction m with
  | zero => simp
  | succ m ih => rw [List.range_succ, List.flatMap_append, ih, List.flatMap_singleton, page_append]

variable {key : α → κ} {xs : List α} {limit : ℕ}

/-- Between boundaries that separate keys, all orderings have the same page. -/
theorem page_perm (hsep : Separated key xs limit) (o o' : Ordering key xs) (n : ℕ) :
    (page o.items limit n).Perm (page o'.items limit n) := by
  have hboundary (n : ℕ) : (o.items.take (n * limit)).Perm (o'.items.take (n * limit)) :=
    take_perm (fun hpos ↦ hsep n (Nat.pos_of_mul_pos_right hpos)) o o'
  have hnext := hboundary (n + 1)
  rw [← page_append, ← page_append] at hnext
  exact (List.perm_append_left_iff _).mp (((hboundary n).symm.append_right _).trans hnext)

/-- Where no boundary splits a key, the pages of any answers cover the items. -/
theorem covers_of_separated (hsep : Separated key xs limit) (answers : ℕ → Ordering key xs) {m : ℕ}
    (hm : xs.length ≤ m * limit) :
    ((List.range m).flatMap fun n ↦ page (answers n).items limit n).Perm xs := by
  have hfixed : ((List.range m).flatMap fun n ↦ page (answers n).items limit n).Perm
      ((List.range m).flatMap (page (answers 0).items limit)) :=
    List.Perm.flatMap_left _ fun n _ ↦ page_perm hsep (answers n) (answers 0) n
  rw [flatMap_page, List.take_of_length_le (by rw [Ordering.length_items]; exact hm)] at hfixed
  exact hfixed.trans (answers 0).perm

/-- Where a boundary splits a key, there are answers whose pages repeat an item. -/
theorem exists_not_covers (hxs : xs.Nodup) (hlimit : 0 < limit) (hsep : ¬ Separated key xs limit) :
    ∃ answers : ℕ → Ordering key xs, ∀ m, xs.length ≤ m * limit →
      ¬ ((List.range m).flatMap fun n ↦ page (answers n).items limit n).Perm xs := by
  unfold Separated at hsep
  push Not at hsep
  obtain ⟨n, hpos, hlt, hkeys⟩ := hsep
  have hnpos : 0 < n * limit := Nat.mul_pos hpos hlimit
  set o := Ordering.sort key xs with ho
  have hlen : o.items.length = xs.length := o.length_items
  have hprev : n * limit - 1 < o.items.length := by omega
  have hnext : n * limit < o.items.length := by omega
  set a := o.items[n * limit - 1] with ha
  set b := o.items[n * limit] with hb
  have hkey : key a = key b := by
    rw [← o.key_getElem?, ← o.key_getElem?, List.getElem?_eq_getElem (by omega),
      List.getElem?_eq_getElem (by omega)] at hkeys
    exact Option.some.inj hkeys
  have hitems : o.items
      = o.items.take (n * limit - 1) ++ a :: b :: o.items.drop (n * limit + 1) := by
    have hdrop : o.items.drop (n * limit - 1) = a :: b :: o.items.drop (n * limit + 1) := by
      rw [List.drop_eq_getElem_cons (by omega), ← ha]
      have hsucc : n * limit - 1 + 1 = n * limit := by omega
      rw [hsucc, List.drop_eq_getElem_cons (by omega), ← hb]
    rw [← hdrop, List.take_append_drop]
  -- The pages before the boundary come from one ordering, those after it from the other.
  refine ⟨fun i ↦ if i < n then o else o.swap hitems hkey, fun m hm hperm ↦ ?_⟩
  have hnodup := hperm.nodup_iff.mpr hxs
  rw [List.nodup_flatMap] at hnodup
  have hnm : n < m := by
    by_contra hnot
    have := Nat.mul_le_mul_right limit (not_lt.mp hnot)
    omega
  have hdisjoint : List.Disjoint (page o.items limit (n - 1))
      (page (o.swap hitems hkey).items limit n) := by
    have h := List.pairwise_iff_getElem.mp hnodup.2 (n - 1) n (by simp; omega) (by simpa)
      (by omega)
    simpa [Function.onFun, Nat.sub_lt hpos] using h
  have hpred : (n - 1) * limit + limit = n * limit := by
    rw [← Nat.succ_mul, Nat.succ_eq_add_one, Nat.sub_add_cancel hpos]
  refine hdisjoint (a := a) ?_ ?_
  · rw [page, List.mem_take_iff_getElem]
    exact ⟨limit - 1, by rw [List.length_drop]; omega, by
      rw [List.getElem_drop, ha]
      congr 1
      omega⟩
  · have hdrop : (o.swap hitems hkey).items.drop (n * limit)
        = a :: o.items.drop (n * limit + 1) := by
      have htake : (o.items.take (n * limit - 1)).length = n * limit - 1 := by
        rw [List.length_take]
        omega
      have hafter : (n * limit - (o.items.take (n * limit - 1)).length) = 1 := by omega
      rw [Ordering.swap]
      dsimp only
      rw [List.drop_append, List.drop_of_length_le (by omega), hafter]
      rfl
    rw [page, hdrop, ← Nat.sub_add_cancel hlimit, List.take_succ_cons]
    exact List.mem_cons_self

/-! ## The client -/

/-- Fetch pages while there are more; `none` is out of fuel. -/
def readWhile (fetch : ℕ → List α × Bool) : ℕ → ℕ → Option (List α)
  | 0, _ => none
  | fuel + 1, n =>
    let r := fetch n
    if r.2 then (readWhile fetch fuel (n + 1)).map (r.1 ++ ·) else some r.1

theorem readWhile_mono {fetch : ℕ → List α × Bool} {fuel fuel' n : ℕ} {ys : List α}
    (h : readWhile fetch fuel n = some ys) (hle : fuel ≤ fuel') :
    readWhile fetch fuel' n = some ys := by
  induction fuel generalizing fuel' n ys with
  | zero => exact absurd h (by simp [readWhile])
  | succ fuel ih =>
    obtain ⟨fuel', rfl⟩ : ∃ k, fuel' = k + 1 := ⟨fuel' - 1, by omega⟩
    unfold readWhile at h ⊢
    dsimp only at h ⊢
    by_cases hmore : (fetch n).2 = true
    · rw [if_pos hmore] at h ⊢
      obtain ⟨zs, hzs, rfl⟩ := Option.map_eq_some_iff.mp h
      rw [ih hzs (by omega), Option.map_some]
    · rw [if_neg hmore] at h ⊢
      exact h

/-- A client that stops at the end of `length` items reads every page up to there. -/
theorem exists_readWhile {fetch : ℕ → List α × Bool} {length : ℕ} (hlimit : 0 < limit)
    (hmore : ∀ n, (fetch n).2 = decide ((n + 1) * limit < length)) :
    ∃ m, length ≤ m * limit ∧ ∃ fuel, readWhile fetch fuel 0
      = some ((List.range m).flatMap fun n ↦ (fetch n).1) := by
  have hfrom : ∀ left n, length ≤ (n + left) * limit → ∃ m, length ≤ (n + m) * limit ∧
      ∃ fuel, readWhile fetch fuel n
        = some ((List.range m).flatMap fun i ↦ (fetch (n + i)).1) := by
    intro left
    induction left with
    | zero =>
      intro n hn
      rw [Nat.add_zero] at hn
      have hstop : length ≤ (n + 1) * limit := hn.trans (Nat.mul_le_mul_right limit (by omega))
      refine ⟨1, hstop, 1, ?_⟩
      rw [readWhile, hmore, if_neg (by simpa using hstop)]
      simp
    | succ left ih =>
      intro n hn
      by_cases hgo : (n + 1) * limit < length
      · obtain ⟨m, hm, fuel, hread⟩ :=
          ih (n + 1) (by rwa [show n + 1 + left = n + (left + 1) by omega])
        refine ⟨m + 1, by rwa [show n + (m + 1) = n + 1 + m by omega], fuel + 1, ?_⟩
        rw [readWhile, hmore, if_pos (by simpa using hgo), hread, Option.map_some,
          List.range_succ_eq_map, List.flatMap_cons, List.flatMap_map]
        simp [Nat.add_assoc, Nat.add_comm 1]
      · refine ⟨1, not_lt.mp hgo, 1, ?_⟩
        rw [readWhile, hmore, if_neg (by simpa using hgo)]
        simp
  obtain ⟨m, hm, hread⟩ := hfrom length 0 (by
    rw [Nat.zero_add]
    exact Nat.le_mul_of_pos_right length hlimit)
  simp only [Nat.zero_add] at hm hread
  exact ⟨m, hm, hread⟩

/-- **Paging covers every item exactly once, whatever the answers, exactly when no page boundary
splits a key.** -/
theorem covers_iff (hxs : xs.Nodup) (hlimit : 0 < limit)
    {fetch : (ℕ → Ordering key xs) → ℕ → List α × Bool}
    (hpage : ∀ answers n, (fetch answers n).1 = page (answers n).items limit n)
    (hmore : ∀ answers n, (fetch answers n).2 = decide ((n + 1) * limit < xs.length)) :
    (∀ answers, ∃ fuel ys, readWhile (fetch answers) fuel 0 = some ys ∧ ys.Perm xs)
      ↔ Separated key xs limit := by
  have hread (answers : ℕ → Ordering key xs) : ∃ m, xs.length ≤ m * limit ∧
      ∃ fuel, readWhile (fetch answers) fuel 0
        = some ((List.range m).flatMap fun n ↦ page (answers n).items limit n) := by
    obtain ⟨m, hm, fuel, hread⟩ := exists_readWhile hlimit (hmore answers)
    simp only [hpage] at hread
    exact ⟨m, hm, fuel, hread⟩
  constructor
  · intro hcovers
    by_contra hsep
    obtain ⟨answers, hnot⟩ := exists_not_covers hxs hlimit hsep
    obtain ⟨m, hm, fuel, hread⟩ := hread answers
    obtain ⟨fuel', ys, hread', hperm⟩ := hcovers answers
    have heq := (readWhile_mono hread (Nat.le_max_left fuel fuel')).symm.trans
      (readWhile_mono hread' (Nat.le_max_right fuel fuel'))
    obtain rfl := Option.some.inj heq
    exact hnot m hm hperm
  · intro hsep answers
    obtain ⟨m, hm, fuel, hread⟩ := hread answers
    exact ⟨fuel, _, hread, covers_of_separated hsep answers hm⟩

/-- Whatever the answers, the client comes to an end. -/
theorem exists_read (hlimit : 0 < limit) {fetch : ℕ → List α × Bool} {length : ℕ}
    (hmore : ∀ n, (fetch n).2 = decide ((n + 1) * limit < length)) :
    ∃ fuel ys, readWhile fetch fuel 0 = some ys := by
  obtain ⟨m, -, fuel, hread⟩ := exists_readWhile hlimit hmore
  exact ⟨fuel, _, hread⟩

end Paging
