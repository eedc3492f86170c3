import Mathlib.Order.Basic
import Mathlib.Data.List.Basic
import Mathlib.Tactic.Common

/-! Partial transition systems: runs, invariants of the runs whose steps meet a
condition, progress arguments, and the runs of one system seen as runs of another. -/
namespace Transition

variable {S A : Type*}

/-- A transition system. Each action has at most one outcome in each state;
the choice of the action is the choice of the scheduler. -/
structure System (S A : Type*) where
  init : S → Prop
  step : S → A → Option S

/-- A step condition that excludes nothing. -/
def anyStep (_ : S) (_ : A) : Prop := True

/-- The states that runs reach when every one of their steps meets `C`. -/
inductive Reach (M : System S A) (C : S → A → Prop) : S → Prop
  | init {s : S} (h : M.init s) : Reach M C s
  | step {s t : S} {a : A} (hs : Reach M C s) (hc : C s a) (ht : M.step s a = some t) : Reach M C t

theorem Reach.mono {M : System S A} {C D : S → A → Prop} (h : ∀ s a, C s a → D s a) {s : S}
    (hs : Reach M C s) : Reach M D s := by
  induction hs with
  | init hi => exact .init hi
  | step _ hc ht ih => exact .step ih (h _ _ hc) ht

/-- The invariant rule: what holds at the start and is kept by every
admissible step holds in every state reached. -/
theorem Reach.invariant {M : System S A} {C : S → A → Prop} (I : S → Prop)
    (hinit : ∀ s, M.init s → I s)
    (hstep : ∀ s a t, Reach M C s → I s → C s a → M.step s a = some t → I t)
    {s : S} (hs : Reach M C s) : I s := by
  induction hs with
  | init hi => exact hinit _ hi
  | step hr hc ht ih => exact hstep _ _ _ hr ih hc ht

/-- Run a list of actions from a state. -/
def exec (M : System S A) : S → List A → Option S
  | s, [] => some s
  | s, a :: as => (M.step s a).bind fun t => exec M t as

/-- The last step of a run. -/
theorem exec_concat {M : System S A} {s u : S} {as : List A} {a : A}
    (h : exec M s (as ++ [a]) = some u) : ∃ t, exec M s as = some t ∧ M.step t a = some u := by
  induction as generalizing s with
  | nil =>
    obtain ⟨t, ht, rfl⟩ : ∃ t, M.step s a = some t ∧ t = u := by simpa [exec] using h
    exact ⟨s, rfl, ht⟩
  | cons b as ih =>
    obtain ⟨v, hv, h⟩ := Option.bind_eq_some_iff.mp h
    obtain ⟨t, ht, htu⟩ := ih h
    exact ⟨t, by simp [exec, hv, ht], htu⟩

/-- All the steps of a list of actions meet a decidable condition. -/
def meets (M : System S A) (C : S → A → Bool) : S → List A → Bool
  | _, [] => true
  | s, a :: as => C s a && ((M.step s a).map fun t => meets M C t as).getD true

theorem Reach.of_exec {M : System S A} {C : S → A → Prop} (B : S → A → Bool)
    (hB : ∀ s a, B s a = true → C s a) {s t : S} {as : List A}
    (hs : Reach M C s) (hm : meets M B s as = true) (he : exec M s as = some t) : Reach M C t := by
  induction as generalizing s with
  | nil =>
    obtain rfl : s = t := Option.some.inj he
    exact hs
  | cons a as ih =>
    obtain ⟨u, hu, he⟩ := Option.bind_eq_some_iff.mp he
    simp only [meets, hu, Option.map_some, Option.getD_some, Bool.and_eq_true] at hm
    exact ih (.step hs (hB _ _ hm.1) hu) hm.2 he

/-- A concrete run whose actions meet a condition that looks at no state. -/
theorem reach_of_actions {M : System S A} {C : A → Prop} {s t : S} (as : List A)
    (hC : ∀ a ∈ as, C a) (hs : M.init s) (he : exec M s as = some t) :
    Reach M (fun _ a => C a) t := by
  suffices h : ∀ u, Reach M (fun _ a => C a) u → exec M u as = some t →
      Reach M (fun _ a => C a) t from h s (.init hs) he
  clear hs he
  induction as with
  | nil =>
    intro u hu he
    obtain rfl : u = t := Option.some.inj he
    exact hu
  | cons a as ih =>
    intro u hu he
    obtain ⟨v, hv, he⟩ := Option.bind_eq_some_iff.mp he
    exact ih (fun b hb => hC b (List.mem_cons_of_mem _ hb)) v
      (.step hu (hC a List.mem_cons_self) hv) he

/-- A concrete run from an initial state, with no condition on its steps. -/
theorem reach_of_exec {M : System S A} {s t : S} (as : List A) (hs : M.init s)
    (he : exec M s as = some t) : Reach M anyStep t :=
  reach_of_actions as (fun _ _ => trivial) hs he

/-- `Path M C s t`: some run whose steps all meet `C` leads from `s` to `t`. -/
inductive Path (M : System S A) (C : S → A → Prop) : S → S → Prop
  | refl (s : S) : Path M C s s
  | head {s t u : S} {a : A} (hc : C s a) (ht : M.step s a = some t) (hp : Path M C t u) :
      Path M C s u

namespace Path

variable {M : System S A} {C D : S → A → Prop}

theorem single {s t : S} {a : A} (hc : C s a) (ht : M.step s a = some t) : Path M C s t :=
  .head hc ht (.refl t)

theorem trans {s t u : S} (h : Path M C s t) (h' : Path M C t u) : Path M C s u := by
  induction h with
  | refl => exact h'
  | head hc ht _ ih => exact .head hc ht (ih h')

theorem tail {s t u : S} {a : A} (h : Path M C s t) (hc : C t a) (hu : M.step t a = some u) :
    Path M C s u :=
  h.trans (single hc hu)

theorem mono (h : ∀ s a, C s a → D s a) {s t : S} (hp : Path M C s t) : Path M D s t := by
  induction hp with
  | refl s => exact .refl s
  | head hc ht _ ih => exact .head (h _ _ hc) ht ih

/-- Paths do not depend on the initial states. -/
theorem transfer {N : System S A} (h : ∀ s a, M.step s a = N.step s a) {s t : S}
    (hp : Path M C s t) : Path N C s t := by
  induction hp with
  | refl s => exact .refl s
  | head hc ht _ ih => exact .head hc ((h _ _).symm.trans ht) ih

/-- A property kept by every admissible step is kept along a path. -/
theorem invariant (I : S → Prop) (hstep : ∀ s a t, I s → C s a → M.step s a = some t → I t)
    {s t : S} (hp : Path M C s t) (hs : I s) : I t := by
  induction hp with
  | refl => exact hs
  | head hc ht _ ih => exact ih (hstep _ _ _ hs hc ht)

theorem reach (hD : ∀ s a, C s a → D s a) {s t : S} (hp : Path M C s t) (hs : Reach M D s) :
    Reach M D t := by
  induction hp with
  | refl => exact hs
  | head hc ht _ ih => exact ih (.step hs (hD _ _ hc) ht)

/-- The progress rule: where the goal is not yet met, some path lowers the
measure and keeps the invariant; then some path meets the goal. -/
theorem progress (I goal : S → Prop) (μ : S → ℕ)
    (h : ∀ s, I s → ¬ goal s → ∃ t, Path M C s t ∧ I t ∧ μ t < μ s) (s : S) (hs : I s) :
    ∃ t, Path M C s t ∧ I t ∧ goal t := by
  induction hn : μ s using Nat.strongRecOn generalizing s with
  | ind n ih =>
    by_cases hg : goal s
    · exact ⟨s, .refl s, hs, hg⟩
    · obtain ⟨t, hp, ht, hlt⟩ := h s hs hg
      obtain ⟨u, hq, hu, hgu⟩ := ih (μ t) (hn ▸ hlt) t ht rfl
      exact ⟨u, hp.trans hq, hu, hgu⟩

end Path

/-- An infinite run whose steps all meet `C`. -/
structure Run (M : System S A) (C : S → A → Prop) where
  state : ℕ → S
  act : ℕ → A
  meets : ∀ n, C (state n) (act n)
  next : ∀ n, M.step (state n) (act n) = some (state (n + 1))

namespace Run

variable {M : System S A} {C : S → A → Prop} {F : A → Prop} {r : Run M C}

theorem path (r : Run M C) (n : ℕ) : Path M C (r.state 0) (r.state n) := by
  induction n with
  | zero => exact .refl _
  | succ n ih => exact ih.tail (r.meets n) (r.next n)

/-- Each of the actions is again and again taken, or not enabled. -/
def Fair (r : Run M C) (F : A → Prop) : Prop :=
  ∀ a, F a → ∀ n, ∃ m, n ≤ m ∧ (r.act m = a ∨ M.step (r.state m) a = none)

/-- The fairness rule: before the goal a step lowers the measure, or leaves it and the helper as they
are, and the helper, a fair action, is enabled and lowers it. -/
theorem Fair.reaches (hr : r.Fair F) (goal : S → Prop) (μ : S → ℕ) (helper : S → A)
    (hF : ∀ s, F (helper s))
    (hkeep : ∀ n, ¬ goal (r.state n) → μ (r.state (n + 1)) < μ (r.state n) ∨
      μ (r.state (n + 1)) = μ (r.state n) ∧ helper (r.state (n + 1)) = helper (r.state n))
    (hhelp : ∀ n, ¬ goal (r.state n) →
      ∃ t, M.step (r.state n) (helper (r.state n)) = some t ∧ μ t < μ (r.state n)) (n : ℕ) :
    ∃ m, n ≤ m ∧ goal (r.state m) := by
  induction hk : μ (r.state n) using Nat.strongRecOn generalizing n with
  | ind k ih =>
    by_contra hno
    have hnot (m : ℕ) (hm : n ≤ m) : ¬ goal (r.state m) := fun hg => hno ⟨m, hm, hg⟩
    have hge (m : ℕ) (hm : n ≤ m) : k ≤ μ (r.state m) := by
      by_contra hlt
      obtain ⟨j, hj, hg⟩ := ih _ (Nat.lt_of_not_le hlt) m rfl
      exact hnot j (Nat.le_trans hm hj) hg
    -- the measure is level from `n` on, so that the helper stays the same until its turn
    have hlevel (m : ℕ) (hm : n ≤ m) :
        μ (r.state m) = k ∧ helper (r.state m) = helper (r.state n) := by
      induction hm with
      | refl => exact ⟨hk, rfl⟩
      | @step m hm ihm =>
        rcases hkeep m (hnot m hm) with hlt | ⟨hsame, hhelper⟩
        · rw [ihm.1] at hlt
          exact absurd hlt (Nat.not_lt.mpr (hge (m + 1) (Nat.le_succ_of_le hm)))
        · exact ⟨hsame.trans ihm.1, hhelper.trans ihm.2⟩
    obtain ⟨m, hm, hturn⟩ := hr (helper (r.state n)) (hF _) n
    obtain ⟨t, ht, hlt⟩ := hhelp m (hnot m hm)
    rw [(hlevel m hm).1] at hlt
    rw [(hlevel m hm).2] at ht
    rcases hturn with hact | hnone
    · have hnext := r.next m
      rw [hact, ht, Option.some.injEq] at hnext
      subst hnext
      exact absurd hlt (Nat.not_lt.mpr (hge (m + 1) (Nat.le_succ_of_le hm)))
    · simp [hnone] at ht

end Run

section Refinement

variable {S T A B : Type*}

/-- Seen through `f`, each step of `M` that meets `C` is a step of `N` that meets `G`, or `N` stands
still. -/
structure Refines (M : System S A) (C : S → A → Prop) (N : System T B) (G : T → B → Prop) (f : S → T) :
    Prop where
  init : ∀ s, M.init s → N.init (f s)
  step : ∀ s a t, Reach M C s → C s a → M.step s a = some t →
    f t = f s ∨ ∃ b, G (f s) b ∧ N.step (f s) b = some (f t)

/-- What `M` reaches, `N` reaches as seen through `f`. -/
theorem Refines.reach {M : System S A} {N : System T B} {C : S → A → Prop} {G : T → B → Prop}
    {f : S → T} {s : S} (h : Refines M C N G f) (hs : Reach M C s) : Reach N G (f s) := by
  induction hs with
  | init hi => exact .init (h.init _ hi)
  | step hr hc ht ih =>
    rcases h.step _ _ _ hr hc ht with hsame | ⟨b, hb, hstep⟩
    · exact hsame ▸ ih
    · exact .step ih hb hstep

end Refinement

end Transition
