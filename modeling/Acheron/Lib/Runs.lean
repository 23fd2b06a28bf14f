import Mathlib.Algebra.GroupWithZero.Nat
import Mathlib.Data.List.Basic
import Mathlib.Data.List.Induction
import Mathlib.Logic.Function.Basic

/-!
# Guarded machines and their runs

A machine is a set of initial states together with a *guarded* step function: `step s a` is
`some t` when the action `a` is enabled in `s`, and `none` when it is not. Everything the
environment may choose — which task is scheduled, what a remote call answers, when a timer
fires — sits inside the action, so a run is nothing but a list of actions, and the same
definition replays a concrete schedule and supports induction over every schedule.

## Invariants and step conditions

Two ways to speak of a whole run are kept apart. `Always P s as` says that `P` holds in every
state the run passes through; `Along C s as` says that every step of the run meets `C`, where `C`
sees the state *before* the step and the action taken. An unconditional invariant is a statement
about `Reachable`. An invariant that some steps break is a statement of the form
`Always P ↔ Along C`, and `always_iff_along` reduces it to a single step.

## What a run has behind it

Some properties of a state are facts about its past: that a step of one kind was taken and none of
another kind since. `Since B C s as` says this of a run, and `since_iff` reduces it to a single step
as well. `count` tells how often a kind of step was taken.

## Simulation

`trace` lists what is observed of the steps of a run. If it is a run of another machine, what is
known of the runs of that one can be read back into this one, step for step.

`Simulation` maps the runs of one machine onto the runs of a coarser one. It is what lets an
invariant be proved once, for the smallest machine that shows it, and used for every machine that
refines it.
-/

namespace Runs

/-- A machine: initial states and a guarded step function. -/
structure Machine (σ α : Type*) where
  /-- The states a run may start from. -/
  init : σ → Prop
  /-- One step; `none` when the action is not enabled. -/
  step : σ → α → Option σ

namespace Machine

variable {σ α : Type*} (M : Machine σ α)

/-- The state a schedule leads to, or `none` if it takes an action that is not enabled. -/
def exec (s : σ) : List α → Option σ
  | [] => some s
  | a :: as => (M.step s a).bind fun t ↦ exec t as

/-- The states some run from an initial state leads to. -/
def Reachable (t : σ) : Prop := ∃ s as, M.init s ∧ M.exec s as = some t

/-- `P` holds in every state the run `as` from `s` passes through, both ends included. -/
def Always (P : σ → Prop) (s : σ) (as : List α) : Prop :=
  ∀ bs cs t, as = bs ++ cs → M.exec s bs = some t → P t

/-- Every step of the run `as` from `s` meets `C`. -/
def Along (C : σ → α → Prop) (s : σ) (as : List α) : Prop :=
  ∀ bs a cs t, as = bs ++ a :: cs → M.exec s bs = some t → C t a

/-! ## Running -/

@[simp] theorem exec_nil (s : σ) : M.exec s [] = some s := rfl

theorem exec_cons (s : σ) (a : α) (as : List α) :
    M.exec s (a :: as) = (M.step s a).bind fun t ↦ M.exec t as := rfl

theorem exec_cons_eq_some {s t : σ} {a : α} {as : List α} :
    M.exec s (a :: as) = some t ↔ ∃ u, M.step s a = some u ∧ M.exec u as = some t := by
  rw [exec_cons, Option.bind_eq_some_iff]

theorem exec_append (s : σ) (as bs : List α) :
    M.exec s (as ++ bs) = (M.exec s as).bind fun t ↦ M.exec t bs := by
  induction as generalizing s with
  | nil => rfl
  | cons a as ih =>
    rw [List.cons_append, exec_cons, exec_cons, Option.bind_assoc]
    exact congrArg _ (funext fun t ↦ ih t)

theorem exec_append_eq_some {s t : σ} {as bs : List α} :
    M.exec s (as ++ bs) = some t ↔ ∃ u, M.exec s as = some u ∧ M.exec u bs = some t := by
  rw [exec_append, Option.bind_eq_some_iff]

theorem exec_concat_eq_some {s t : σ} {as : List α} {a : α} :
    M.exec s (as ++ [a]) = some t ↔ ∃ u, M.exec s as = some u ∧ M.step u a = some t := by
  rw [exec_append_eq_some]
  simp [exec_cons]

/-- A run from one of its states on. -/
theorem exec_from {s t u : σ} {as bs : List α} (h : M.exec s (as ++ bs) = some t)
    (hu : M.exec s as = some u) : M.exec u bs = some t := by
  rwa [exec_append, hu, Option.bind_some] at h

/-- A run after one of its steps. -/
theorem exec_after {s t u v : σ} {as bs : List α} {a : α} (h : M.exec s (as ++ a :: bs) = some t)
    (hu : M.exec s as = some u) (hv : M.step u a = some v) : M.exec v bs = some t := by
  have hrest := M.exec_from h hu
  rwa [exec_cons, hv, Option.bind_some] at hrest

/-- Where a machine starts does not show in its runs. -/
theorem exec_congr {N : Machine σ α} (h : M.step = N.step) (s : σ) (as : List α) :
    M.exec s as = N.exec s as := by
  induction as generalizing s with
  | nil => rfl
  | cons a as ih =>
    rw [exec_cons, exec_cons, h]
    exact congrArg _ (funext fun t ↦ ih t)

/-! ## Invariants -/

variable {M}

/-- **The run rule.** What every enabled step preserves, every run preserves. -/
theorem exec_preserves {P : σ → Prop} (hstep : ∀ s a t, P s → M.step s a = some t → P t)
    {s t : σ} {as : List α} (hs : P s) (h : M.exec s as = some t) : P t := by
  induction as generalizing s with
  | nil => exact Option.some.inj h ▸ hs
  | cons a as ih =>
    obtain ⟨u, hu, hrest⟩ := M.exec_cons_eq_some.mp h
    exact ih (hstep s a u hs hu) hrest

/-- **The invariant rule.** -/
theorem Reachable.invariant {P : σ → Prop} (hinit : ∀ s, M.init s → P s)
    (hstep : ∀ s a t, P s → M.step s a = some t → P t) {t : σ} (h : M.Reachable t) : P t := by
  obtain ⟨s, as, hs, hrun⟩ := h
  exact exec_preserves hstep (hinit s hs) hrun

theorem Reachable.of_init {s : σ} (h : M.init s) : M.Reachable s := ⟨s, [], h, rfl⟩

theorem Reachable.exec {s t : σ} {as : List α} (h : M.Reachable s)
    (hrun : M.exec s as = some t) : M.Reachable t := by
  obtain ⟨r, bs, hr, hbs⟩ := h
  exact ⟨r, bs ++ as, hr, M.exec_append_eq_some.mpr ⟨s, hbs, hrun⟩⟩

theorem Reachable.step {s t : σ} {a : α} (h : M.Reachable s) (hstep : M.step s a = some t) :
    M.Reachable t :=
  h.exec (show M.exec s [a] = some t from M.exec_cons_eq_some.mpr ⟨t, hstep, rfl⟩)

/-! ## Along a run -/

variable {P : σ → Prop} {C : σ → α → Prop}

theorem Always.head {s : σ} {as : List α} (h : M.Always P s as) : P s := h [] as s rfl rfl

theorem Always.last {s t : σ} {as : List α} (h : M.Always P s as) (hrun : M.exec s as = some t) :
    P t := h as [] t (List.append_nil as).symm hrun

theorem Always.tail {s t : σ} {a : α} {as : List α} (h : M.Always P s (a :: as))
    (hstep : M.step s a = some t) : M.Always P t as := by
  rintro bs cs u rfl hu
  exact h (a :: bs) cs u rfl (M.exec_cons_eq_some.mpr ⟨t, hstep, hu⟩)

theorem Always.cons {s : σ} {a : α} {as : List α} (hs : P s)
    (h : ∀ t, M.step s a = some t → M.Always P t as) : M.Always P s (a :: as) := by
  intro bs cs u heq hu
  cases bs with
  | nil => exact Option.some.inj hu ▸ hs
  | cons b bs =>
    obtain ⟨rfl, rfl⟩ := List.cons.inj heq
    obtain ⟨t, ht, hrest⟩ := M.exec_cons_eq_some.mp hu
    exact h t ht bs cs u rfl hrest

theorem always_nil {s : σ} : M.Always P s [] ↔ P s := by
  refine ⟨Always.head, fun hs bs cs u heq hu ↦ ?_⟩
  obtain ⟨rfl, rfl⟩ := List.append_eq_nil_iff.mp heq.symm
  exact Option.some.inj hu ▸ hs

theorem Along.head {s : σ} {a : α} {as : List α} (h : M.Along C s (a :: as)) : C s a :=
  h [] a as s rfl rfl

theorem Along.tail {s t : σ} {a : α} {as : List α} (h : M.Along C s (a :: as))
    (hstep : M.step s a = some t) : M.Along C t as := by
  rintro bs b cs u rfl hu
  exact h (a :: bs) b cs u rfl (M.exec_cons_eq_some.mpr ⟨t, hstep, hu⟩)

theorem Along.cons {s : σ} {a : α} {as : List α} (hs : C s a)
    (h : ∀ t, M.step s a = some t → M.Along C t as) : M.Along C s (a :: as) := by
  intro bs b cs u heq hu
  cases bs with
  | nil =>
    obtain ⟨rfl, rfl⟩ := List.cons.inj heq
    exact Option.some.inj hu ▸ hs
  | cons c bs =>
    obtain ⟨rfl, rfl⟩ := List.cons.inj heq
    obtain ⟨t, ht, hrest⟩ := M.exec_cons_eq_some.mp hu
    exact h t ht bs b cs u rfl hrest

/-- Along a run on fixed inputs, one step at a time. -/
theorem Along.step {s t : σ} {a : α} {as : List α} (ha : C s a) (hstep : M.step s a = some t)
    (h : M.Along C t as) : M.Along C s (a :: as) := by
  refine .cons ha fun u hu ↦ ?_
  obtain rfl : t = u := Option.some.inj (hstep.symm.trans hu)
  exact h

theorem along_of_forall {D : α → Prop} {s : σ} {as : List α} (h : ∀ a ∈ as, D a) :
    M.Along (fun _ a ↦ D a) s as := by
  rintro bs a cs t rfl -
  exact h a (by simp)

theorem Along.left {s : σ} {as bs : List α} (h : M.Along C s (as ++ bs)) : M.Along C s as := by
  rintro cs a ds t rfl ht
  exact h cs a (ds ++ bs) t (by simp) ht

theorem Along.right {s t : σ} {as bs : List α} (h : M.Along C s (as ++ bs))
    (hrun : M.exec s as = some t) : M.Along C t bs := by
  rintro cs a ds u rfl hu
  exact h (as ++ cs) a ds u (by simp) (M.exec_append_eq_some.mpr ⟨t, hrun, hu⟩)

theorem Along.and {D : σ → α → Prop} {s : σ} {as : List α} (hC : M.Along C s as)
    (hD : M.Along D s as) : M.Along (fun t a ↦ C t a ∧ D t a) s as :=
  fun bs a cs t heq ht ↦ ⟨hC bs a cs t heq ht, hD bs a cs t heq ht⟩

theorem along_nil {s : σ} : M.Along C s [] := by
  intro bs a cs u heq
  exact absurd heq.symm (by simp)

/-- The steps of a run are enabled. -/
theorem along_enabled_iff {s t : σ} {as : List α} (h : M.exec s as = some t) :
    M.Along (fun u a ↦ ∀ v, M.step u a = some v → C u a) s as ↔ M.Along C s as := by
  refine ⟨?_, fun hall bs a cs u heq hu v _ ↦ hall bs a cs u heq hu⟩
  rintro hall bs a cs u rfl hu
  obtain ⟨v, hv, -⟩ := M.exec_cons_eq_some.mp (M.exec_from h hu)
  exact hall bs a cs u rfl hu v hv

/-- A run whose steps all meet `C` keeps every property that such steps keep. -/
theorem exec_preserves_along (hstep : ∀ s a t, P s → C s a → M.step s a = some t → P t)
    {s t : σ} {as : List α} (hs : P s) (halong : M.Along C s as) (h : M.exec s as = some t) :
    P t := by
  induction as generalizing s with
  | nil => exact Option.some.inj h ▸ hs
  | cons a as ih =>
    obtain ⟨u, hu, hrest⟩ := M.exec_cons_eq_some.mp h
    exact ih (hstep s a u hs halong.head hu) (halong.tail hu) hrest

/-- A condition met along a run gives another, where an invariant kept under the first does. -/
theorem Along.imp_of_invariant {D : σ → α → Prop}
    (hstep : ∀ s a t, P s → C s a → M.step s a = some t → P t)
    (himp : ∀ s a, P s → C s a → D s a) {s : σ} {as : List α} (hs : P s)
    (halong : M.Along C s as) : M.Along D s as := by
  rintro bs a cs t rfl ht
  exact himp t a (exec_preserves_along hstep hs halong.left ht) (halong bs a cs t rfl ht)

/-- **The cause rule.** What does not hold where a run starts and holds where it ends, some step of
the run has brought about. -/
theorem exists_cause {s t : σ} {as : List α} (hs : ¬ P s) (ht : P t) (h : M.exec s as = some t) :
    ∃ bs a cs u v, as = bs ++ a :: cs ∧ M.exec s bs = some u ∧ ¬ P u ∧ M.step u a = some v ∧
      P v := by
  induction as generalizing s with
  | nil => exact absurd (Option.some.inj h ▸ ht) hs
  | cons a as ih =>
    obtain ⟨u, hu, hrest⟩ := M.exec_cons_eq_some.mp h
    by_cases hPu : P u
    · exact ⟨[], a, as, s, u, rfl, rfl, hs, hu, hPu⟩
    · obtain ⟨bs, b, cs, w, v, rfl, hw, hPw, hstep, hPv⟩ := ih hPu hrest
      exact ⟨a :: bs, b, cs, w, v, rfl, M.exec_cons_eq_some.mpr ⟨u, hu, hw⟩, hPw, hstep, hPv⟩

/-- **The erasure rule.** Let `f` forget part of the state. If the actions to keep do not see that
part, and each action of the run to drop changes nothing but it, then dropping these actions from
the run changes nothing but that part. -/
theorem exec_filter (f : σ → σ) (keep : α → Bool)
    (hkeep : ∀ s a t, keep a = true → M.step s a = some t → M.step (f s) a = some (f t))
    {s t : σ} {as : List α}
    (hdrop : M.Along (fun u a ↦ keep a = false → ∀ v, M.step u a = some v → f v = f u) s as)
    (h : M.exec s as = some t) : M.exec (f s) (as.filter keep) = some (f t) := by
  induction as generalizing s with
  | nil => exact congrArg (some ∘ f) (Option.some.inj h)
  | cons a as ih =>
    obtain ⟨u, hu, hrest⟩ := M.exec_cons_eq_some.mp h
    have htail := ih (hdrop.tail hu) hrest
    cases hka : keep a with
    | true =>
      rw [List.filter_cons_of_pos hka]
      exact M.exec_cons_eq_some.mpr ⟨f u, hkeep s a u hka hu, htail⟩
    | false =>
      rw [List.filter_cons_of_neg (by simp [hka]), ← hdrop.head hka u hu]
      exact htail

/-- **The exactness rule.** Let the steps of the run meet the assumption `E`, and let `I` be an
invariant under it. If, from a state where `I` and `P` hold, such a step leads to a `P`-state
exactly when it meets `C`, then `P` holds all along the run exactly when all its steps meet `C`. -/
theorem always_iff_along_of {I : σ → Prop} {E : σ → α → Prop}
    (hinv : ∀ s a t, I s → E s a → M.step s a = some t → I t)
    (hexact : ∀ s a t, I s → P s → E s a → M.step s a = some t → (P t ↔ C s a))
    {s t : σ} {as : List α} (hI : I s) (hP : P s) (hE : M.Along E s as)
    (h : M.exec s as = some t) : M.Always P s as ↔ M.Along C s as := by
  induction as generalizing s with
  | nil => exact iff_of_true (always_nil.mpr hP) along_nil
  | cons a as ih =>
    obtain ⟨u, hu, hrest⟩ := M.exec_cons_eq_some.mp h
    have hiff := hexact s a u hI hP hE.head hu
    have hIu := hinv s a u hI hE.head hu
    constructor
    · intro hall
      have hPu : P u := (hall.tail hu).head
      refine Along.cons (hiff.mp hPu) fun v hv ↦ ?_
      obtain rfl : u = v := Option.some.inj (hu.symm.trans hv)
      exact (ih hIu hPu (hE.tail hu) hrest).mp (hall.tail hu)
    · intro hall
      have hPu : P u := hiff.mpr hall.head
      refine Always.cons hP fun v hv ↦ ?_
      obtain rfl : u = v := Option.some.inj (hu.symm.trans hv)
      exact (ih hIu hPu (hE.tail hu) hrest).mpr (hall.tail hu)

/-- The exactness rule with nothing assumed of the run. -/
theorem always_iff_along {I : σ → Prop} (hinv : ∀ s a t, I s → M.step s a = some t → I t)
    (hexact : ∀ s a t, I s → P s → M.step s a = some t → (P t ↔ C s a))
    {s t : σ} {as : List α} (hI : I s) (hP : P s) (h : M.exec s as = some t) :
    M.Always P s as ↔ M.Along C s as :=
  always_iff_along_of (E := fun _ _ ↦ True) (fun s a t hI _ ↦ hinv s a t hI)
    (fun s a t hI hP _ ↦ hexact s a t hI hP) hI hP (fun _ _ _ _ _ _ ↦ trivial) h

/-! ## Counting steps -/

section Count

variable (M) (p : σ → α → σ → Bool)

/-- The number of steps of a run that `p` holds of. -/
def count (s : σ) : List α → ℕ
  | [] => 0
  | a :: as =>
    match M.step s a with
    | none => 0
    | some t => (p s a t).toNat + count t as

variable {M p}

theorem count_cons_of_step {s t : σ} {a : α} (h : M.step s a = some t) (as : List α) :
    M.count p s (a :: as) = (p s a t).toNat + M.count p t as := by
  rw [count, h]

/-- Nothing is counted exactly when `p` holds of no step. -/
theorem count_eq_zero_iff {s t : σ} {as : List α} (h : M.exec s as = some t) :
    M.count p s as = 0 ↔ M.Along (fun u a ↦ ∀ v, M.step u a = some v → p u a v = false) s as := by
  induction as generalizing s with
  | nil => exact iff_of_true rfl along_nil
  | cons a as ih =>
    obtain ⟨u, hu, hrest⟩ := M.exec_cons_eq_some.mp h
    rw [count_cons_of_step hu, Nat.add_eq_zero_iff, ih hrest]
    constructor
    · rintro ⟨hzero, hall⟩
      refine Along.cons (fun v hv ↦ ?_) fun v hv ↦ ?_
      · obtain rfl : u = v := Option.some.inj (hu.symm.trans hv)
        simpa using hzero
      · obtain rfl : u = v := Option.some.inj (hu.symm.trans hv)
        exact hall
    · intro hall
      exact ⟨by rw [hall.head u hu, Bool.toNat_false], hall.tail hu⟩

end Count

/-! ## Since -/

section Since

variable (M) in
/-- Some step of the run meets `B`, and every step after it meets `C`. -/
def Since (B C : σ → α → Prop) (s : σ) (as : List α) : Prop :=
  ∃ bs b cs u v, as = bs ++ b :: cs ∧ M.exec s bs = some u ∧ M.step u b = some v ∧ B u b ∧
    M.Along C v cs

variable {B : σ → α → Prop}

theorem along_concat_iff {s t : σ} {as : List α} {a : α} (h : M.exec s as = some t) :
    M.Along C s (as ++ [a]) ↔ M.Along C s as ∧ C t a := by
  refine ⟨fun hall ↦ ⟨hall.left, (hall.right h).head⟩, ?_⟩
  rintro ⟨hall, ha⟩ bs b cs u heq hu
  rcases List.eq_nil_or_concat' cs with rfl | ⟨cs, c, rfl⟩
  · obtain ⟨rfl, hab⟩ := List.append_inj' heq rfl
    obtain rfl : a = b := by simpa using hab
    obtain rfl : t = u := Option.some.inj (h.symm.trans hu)
    exact ha
  · rw [← List.cons_append, ← List.append_assoc] at heq
    exact hall bs b cs u (List.append_inj' heq rfl).1 hu

theorem not_since_nil {s : σ} : ¬ M.Since B C s [] := by
  rintro ⟨bs, b, cs, u, v, heq, -⟩
  exact absurd heq.symm (by simp)

/-- The last step brings it about, or leaves it. -/
theorem since_concat_iff {s t v : σ} {as : List α} {a : α} (h : M.exec s as = some t)
    (hstep : M.step t a = some v) :
    M.Since B C s (as ++ [a]) ↔ B t a ∨ M.Since B C s as ∧ C t a := by
  constructor
  · rintro ⟨bs, b, cs, u, w, heq, hu, hw, hb, hall⟩
    rcases List.eq_nil_or_concat' cs with rfl | ⟨cs, c, rfl⟩
    · obtain ⟨rfl, hab⟩ := List.append_inj' heq rfl
      obtain rfl : a = b := by simpa using hab
      obtain rfl : t = u := Option.some.inj (h.symm.trans hu)
      exact Or.inl hb
    · rw [← List.cons_append, ← List.append_assoc] at heq
      obtain ⟨rfl, hac⟩ := List.append_inj' heq rfl
      obtain rfl : a = c := by simpa using hac
      obtain ⟨hleft, ha⟩ := (along_concat_iff (M.exec_after h hu hw)).mp hall
      exact Or.inr ⟨⟨bs, b, cs, u, w, rfl, hu, hw, hb, hleft⟩, ha⟩
  · rintro (hb | ⟨⟨bs, b, cs, u, w, rfl, hu, hw, hb, hall⟩, ha⟩)
    · exact ⟨as, a, [], t, v, rfl, h, hstep, hb, along_nil⟩
    · refine ⟨bs, b, cs ++ [a], u, w, by simp, hu, hw, hb, ?_⟩
      exact (along_concat_iff (M.exec_after h hu hw)).mpr ⟨hall, ha⟩

/-- **The since rule.** If, under an invariant `I`, the steps that meet `B` bring `P` about and
those that meet `C` leave it, and no others do either, then `P` holds at the end of a run exactly
when `B` was met in it and `C` ever since. -/
theorem since_iff {I : σ → Prop} (hinv : ∀ s a t, I s → M.step s a = some t → I t)
    (hexact : ∀ s a t, I s → M.step s a = some t → (P t ↔ B s a ∨ P s ∧ C s a))
    {s t : σ} {as : List α} (hI : I s) (hP : ¬ P s) (h : M.exec s as = some t) :
    P t ↔ M.Since B C s as := by
  induction as using List.reverseRecOn generalizing t with
  | nil =>
    obtain rfl := Option.some.inj h
    exact iff_of_false hP not_since_nil
  | append_singleton as a ih =>
    obtain ⟨u, hu, hstep⟩ := M.exec_concat_eq_some.mp h
    rw [hexact u a t (exec_preserves hinv hI hu) hstep, since_concat_iff hu hstep, ih hu]

end Since

/-! ## Traces -/

section Trace

variable {β : Type*} (M) (observe : σ → α → Option β)

/-- What is observed of the steps of a run. -/
def trace (s : σ) : List α → List β
  | [] => []
  | a :: as =>
    match M.step s a with
    | none => []
    | some t => (observe s a).toList ++ trace t as

variable {M observe}

theorem trace_cons_of_step {s t : σ} {a : α} (h : M.step s a = some t) (as : List α) :
    M.trace observe s (a :: as) = (observe s a).toList ++ M.trace observe t as := by
  rw [trace, h]

/-- **The trace rule.** If what is observed of each step is a run of `N`, seen through `f`, so is
the trace of each run. -/
theorem exec_trace {τ : Type*} {N : Machine τ β} (f : σ → τ)
    (hstep : ∀ s a t, M.step s a = some t → N.exec (f s) (observe s a).toList = some (f t))
    {s t : σ} {as : List α} (h : M.exec s as = some t) :
    N.exec (f s) (M.trace observe s as) = some (f t) := by
  induction as generalizing s with
  | nil => exact congrArg (some ∘ f) (Option.some.inj h)
  | cons a as ih =>
    obtain ⟨u, hu, hrest⟩ := M.exec_cons_eq_some.mp h
    rw [trace_cons_of_step hu]
    exact N.exec_append_eq_some.mpr ⟨f u, hstep s a u hu, ih hrest⟩

/-- Each observation is one of a step, and parts the run as it parts the trace. -/
theorem exists_step_of_trace {s t : σ} {as : List α} {xs ys : List β} {b : β}
    (h : M.exec s as = some t) (htrace : M.trace observe s as = xs ++ b :: ys) :
    ∃ bs a cs u v, as = bs ++ a :: cs ∧ M.exec s bs = some u ∧ M.step u a = some v ∧
      observe u a = some b ∧ M.trace observe s bs = xs ∧ M.trace observe v cs = ys := by
  induction as generalizing s xs with
  | nil => exact absurd htrace (by simp [trace])
  | cons a as ih =>
    obtain ⟨u, hu, hrest⟩ := M.exec_cons_eq_some.mp h
    rw [trace_cons_of_step hu] at htrace
    have hlater {zs : List β} (hzs : M.trace observe u as = zs ++ b :: ys)
        (hxs : xs = (observe s a).toList ++ zs) :
        ∃ bs c cs w v, a :: as = bs ++ c :: cs ∧ M.exec s bs = some w ∧ M.step w c = some v ∧
          observe w c = some b ∧ M.trace observe s bs = xs ∧ M.trace observe v cs = ys := by
      obtain ⟨bs, c, cs, w, v, rfl, hw, hv, hb, hbs, hcs⟩ := ih hrest hzs
      refine ⟨a :: bs, c, cs, w, v, rfl, M.exec_cons_eq_some.mpr ⟨u, hu, hw⟩, hv, hb, ?_, hcs⟩
      rw [trace_cons_of_step hu, hbs, hxs]
    cases hobserve : observe s a with
    | none =>
      rw [hobserve] at htrace hlater
      exact hlater htrace rfl
    | some b' =>
      rw [hobserve] at htrace hlater
      rcases xs with _ | ⟨x, xs⟩
      · obtain ⟨rfl, rfl⟩ := List.cons.inj htrace
        exact ⟨[], a, as, s, u, rfl, rfl, hu, hobserve, rfl, rfl⟩
      · obtain ⟨rfl, htail⟩ := List.cons.inj htrace
        exact hlater htail rfl

end Trace

/-! ## History -/

section History

variable {η : Type*} (M) (note : σ → α → σ → η → η) (start : η)

/-- The machine with a record kept beside it. `note s a t` is what the step from `s` to `t` by `a`
adds to the record, and nothing in the machine depends on it. -/
def withHistory : Machine (σ × η) α where
  init p := M.init p.1 ∧ p.2 = start
  step p a := (M.step p.1 a).map fun t ↦ (t, note p.1 a t p.2)

variable {M note start}

theorem withHistory_step_eq_some {p q : σ × η} {a : α} :
    (M.withHistory note start).step p a = some q ↔
      M.step p.1 a = some q.1 ∧ q.2 = note p.1 a q.1 p.2 := by
  simp only [withHistory, Option.map_eq_some_iff]
  constructor
  · rintro ⟨t, ht, rfl⟩
    exact ⟨ht, rfl⟩
  · rintro ⟨ht, hq⟩
    exact ⟨q.1, ht, Prod.ext rfl hq.symm⟩

/-- Every run has its record. -/
theorem exists_exec_withHistory {s t : σ} {as : List α} (h : M.exec s as = some t) (r : η) :
    ∃ r', (M.withHistory note start).exec (s, r) as = some (t, r') := by
  induction as generalizing s r with
  | nil => exact ⟨r, Option.some.inj h ▸ rfl⟩
  | cons a as ih =>
    obtain ⟨u, hu, hrest⟩ := M.exec_cons_eq_some.mp h
    obtain ⟨r', hr'⟩ := ih hrest (note s a u r)
    exact ⟨r', exec_cons_eq_some _ |>.mpr ⟨_, withHistory_step_eq_some.mpr ⟨hu, rfl⟩, hr'⟩⟩

/-- A record belongs to a run. -/
theorem exec_of_withHistory {p q : σ × η} {as : List α}
    (h : (M.withHistory note start).exec p as = some q) : M.exec p.1 as = some q.1 := by
  induction as generalizing p with
  | nil => exact congrArg (some ∘ Prod.fst) (Option.some.inj h)
  | cons a as ih =>
    obtain ⟨r, hr, hrest⟩ := (exec_cons_eq_some _).mp h
    exact M.exec_cons_eq_some.mpr ⟨r.1, (withHistory_step_eq_some.mp hr).1, ih hrest⟩

end History

end Machine

/-! ## Simulation -/

/-- `f` maps the runs of `M` onto runs of `N`: initial states to initial states, and each step to
a finite run, possibly empty. -/
structure Simulation {σ α τ β : Type*} (M : Machine σ α) (N : Machine τ β) (f : σ → τ) :
    Prop where
  init : ∀ s, M.init s → N.init (f s)
  step : ∀ s a t, M.step s a = some t → ∃ bs, N.exec (f s) bs = some (f t)

theorem Simulation.reachable {σ α τ β : Type*} {M : Machine σ α} {N : Machine τ β} {f : σ → τ}
    (h : Simulation M N f) {s : σ} (hs : M.Reachable s) : N.Reachable (f s) :=
  hs.invariant (P := fun s ↦ N.Reachable (f s)) (fun s hinit ↦ .of_init (h.init s hinit))
    fun s a t hreach hstep ↦ by
      obtain ⟨bs, hbs⟩ := h.step s a t hstep
      exact hreach.exec hbs

/-- **The projection rule.** If each step that meets `C` is a run of `N`, seen through `f`, so is
each run whose steps all meet `C`. -/
theorem exec_projects {σ α τ β : Type*} {M : Machine σ α} {N : Machine τ β} (f : σ → τ)
    {C : σ → α → Prop}
    (hstep : ∀ s a t, C s a → M.step s a = some t → ∃ bs, N.exec (f s) bs = some (f t))
    {s t : σ} {as : List α} (halong : M.Along C s as) (h : M.exec s as = some t) :
    ∃ bs, N.exec (f s) bs = some (f t) := by
  induction as generalizing s with
  | nil => exact ⟨[], congrArg (some ∘ f) (Option.some.inj h)⟩
  | cons a as ih =>
    obtain ⟨u, hu, hrest⟩ := M.exec_cons_eq_some.mp h
    obtain ⟨bs, hbs⟩ := hstep s a u halong.head hu
    obtain ⟨cs, hcs⟩ := ih (halong.tail hu) hrest
    exact ⟨bs ++ cs, N.exec_append_eq_some.mpr ⟨f u, hbs, hcs⟩⟩

/-! ## Part of a store

The `f` of the erasure rule is often a store cut down to the keys of one party. -/

section Restrict

variable {α β : Type*} [DecidableEq α] {p : α → Prop} [DecidablePred p] {f : α → β} {d b : β}
  {a : α}

/-- An update where the restriction looks shows in it. -/
theorem ite_update_of_pos (ha : p a) :
    (fun x ↦ if p x then Function.update f a b x else d)
      = Function.update (fun x ↦ if p x then f x else d) a b := by
  funext x
  rcases eq_or_ne x a with rfl | hne
  · simp [ha]
  · simp [hne]

/-- An update elsewhere does not. -/
theorem ite_update_of_neg (ha : ¬ p a) :
    (fun x ↦ if p x then Function.update f a b x else d) = fun x ↦ if p x then f x else d := by
  funext x
  rcases eq_or_ne x a with rfl | hne
  · simp [ha]
  · simp [hne]

end Restrict

/-! ## One party moves -/

section Update

variable {α β : Type*} [DecidableEq α] {f : α → β} {a x : α} {b c : β}

/-- What is found after an update, and is not what the update wrote, was there before. -/
theorem eq_of_update_eq (h : Function.update f a b x = c) (hbc : b ≠ c) : f x = c := by
  rcases eq_or_ne x a with rfl | hne
  · exact absurd ((Function.update_self _ _ _).symm.trans h) hbc
  · rwa [Function.update_of_ne hne] at h

/-- What is not found where an update writes is still there after it. -/
theorem update_eq_of_eq (h : f x = c) (ha : f a ≠ c) : Function.update f a b x = c := by
  rw [Function.update_of_ne, h]
  rintro rfl
  exact ha h

end Update

/-! ## Parties

The parties of a run on fixed inputs are the numerals of `Fin 1`, `Fin 2` or `Fin 3`. With these
instances such a run carries no proof of its own that there is a party. -/

instance (priority := 1100) neZero_one : NeZero 1 := ⟨Nat.one_ne_zero⟩

instance (priority := 1100) neZero_two : NeZero 2 := ⟨Nat.succ_ne_zero 1⟩

instance (priority := 1100) neZero_three : NeZero 3 := ⟨Nat.succ_ne_zero 2⟩

end Runs
