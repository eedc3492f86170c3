import CogServer.GlobalBarrier
import CogServer.ShellHistory

/-! All the sockets of a server: each with its shell, and an eval thread that may
call `global_barrier` in the middle of an evaluation. -/
namespace CogServer

open Transition

/-- The shells and the barrier. The last two fields only record what happened. -/
structure SocketManager (σ ι : Type*) where
  shell : ι → Shell σ
  barrier : GlobalBarrier ι
  /-- How many expressions each shell had pushed when a socket last called
  `global_barrier`. -/
  before : ι → ι → ℕ
  /-- Which sockets the last scan of a caller skipped, being in a barrier themselves. -/
  skipped : ι → ι → Bool

/-- Which thread runs: one of the threads of a shell, or an eval thread that calls
`global_barrier` or is in it. -/
inductive SocketAct (ι : Type*)
  | shell (i : ι) (a : Shell.Act) | call (i : ι) | run (i : ι)

namespace SocketManager

variable {σ ι : Type*}

def attached (w : SocketManager σ ι) (i : ι) : Bool := (w.shell i).attached

def busy (w : SocketManager σ ι) (i : ι) : Bool := (w.shell i).busyShell

/-- Whether the barrier lets a thread of a shell run: an eval thread in
`global_barrier` does nothing else, and `block_on_bar` returns only when the
barrier is not set. -/
def lets (w : SocketManager σ ι) (i : ι) : Shell.Act → Bool
  | .ret | .work => (w.barrier.pc i).isNone
  | .unbar => !w.barrier.active
  | _ => true

/-- An exception nobody catches, or a failed assertion, ends the process. -/
def dead (w : SocketManager σ ι) : Prop :=
  w.barrier.outOfBand = true ∨ ∃ i, (w.shell i).escaped = true

variable [Fintype ι] [DecidableEq ι]

instance (w : SocketManager σ ι) : Decidable w.dead := inferInstanceAs (Decidable (_ ∨ _))

def step (E : ι → GenericEval σ) (cfg : ι → ShellConfig) (w : SocketManager σ ι) (a : SocketAct ι) :
    Option (SocketManager σ ι) :=
  if w.dead then none
  else match a with
  | .shell i a =>
    if w.lets i a then
      ((w.shell i).step (E i) (cfg i) a).map fun s => { w with shell := Function.update w.shell i s }
    else none
  | .call i =>
    if (w.shell i).evl.current = [] then none
    else (w.barrier.step (.call i)).map fun b =>
      { w with
        barrier := b
        before := Function.update w.before i fun j => (expressions (w.shell j).pushed).length }
  | .run i =>
    (w.barrier.step (.run i w.attached w.busy)).map fun b =>
      { w with
        barrier := b
        skipped := if w.barrier.pc i = some .scan then
          Function.update w.skipped i w.barrier.inBarrier else w.skipped }

end SocketManager

/-- Any number of sockets with fresh shells. -/
def socketSystem {σ ι : Type*} [Fintype ι] [DecidableEq ι] (E : ι → GenericEval σ)
    (cfg : ι → ShellConfig) (ready : σ → Prop) : System (SocketManager σ ι) (SocketAct ι) where
  init w := (∀ i, ∃ v, ready v ∧ w.shell i = Shell.fresh v) ∧ w.barrier = .start
  step := SocketManager.step E cfg

namespace SocketManager

variable {σ ι : Type*} [Fintype ι] [DecidableEq ι] {E : ι → GenericEval σ} {cfg : ι → ShellConfig}
  {ready : σ → Prop} {C : SocketManager σ ι → SocketAct ι → Prop} {w u : SocketManager σ ι}

/-- What a step can be. -/
theorem step_cases {a : SocketAct ι} (h : step E cfg w a = some u) : ¬ w.dead ∧
    ((∃ i b s, a = .shell i b ∧ w.lets i b = true ∧ (w.shell i).step (E i) (cfg i) b = some s ∧
      u = { w with shell := Function.update w.shell i s }) ∨
    (∃ i b, a = .call i ∧ (w.shell i).evl.current ≠ [] ∧ w.barrier.step (.call i) = some b ∧
      u = { w with
        barrier := b
        before := Function.update w.before i fun j => (expressions (w.shell j).pushed).length }) ∨
    ∃ i b, a = .run i ∧ w.barrier.step (.run i w.attached w.busy) = some b ∧
      u = { w with
        barrier := b
        skipped := if w.barrier.pc i = some .scan then
          Function.update w.skipped i w.barrier.inBarrier else w.skipped }) := by
  unfold step at h
  split at h
  · cases h
  · rename_i hd
    refine ⟨hd, ?_⟩
    cases a with
    | shell i b =>
      simp only at h
      split at h
      · rename_i hl
        obtain ⟨s, hs, rfl⟩ := Option.map_eq_some_iff.mp h
        exact .inl ⟨i, b, s, rfl, hl, hs, rfl⟩
      · cases h
    | call i =>
      simp only at h
      split at h
      · cases h
      · rename_i hc
        obtain ⟨b, hb, rfl⟩ := Option.map_eq_some_iff.mp h
        exact .inr (.inl ⟨i, b, rfl, hc, hb, rfl⟩)
    | run i =>
      obtain ⟨b, hb, rfl⟩ := Option.map_eq_some_iff.mp h
      exact .inr (.inr ⟨i, b, rfl, hb, rfl⟩)

/-- Each shell of a server behaves like a shell alone. -/
theorem shell_reach (h : Reach (socketSystem E cfg ready) C w) (j : ι) :
    Reach (shellSystem (E j) (cfg j) ready) anyStep (w.shell j) := by
  refine h.invariant (fun w => Reach (shellSystem (E j) (cfg j) ready) anyStep (w.shell j)) ?_ ?_
  · rintro w ⟨hw, -⟩
    exact .init (hw j)
  · intro w a u _ hr _ ht
    obtain ⟨-, ⟨i, b, s, -, -, hs, rfl⟩ | ⟨i, b, -, -, -, rfl⟩ | ⟨i, b, -, -, rfl⟩⟩ := step_cases ht
    · by_cases hj : j = i
      · subst hj
        simp only [Function.update_self]
        exact .step hr trivial hs
      · simpa [hj] using hr
    · exact hr
    · exact hr

/-- The callers of the barrier behave like callers that meet shells of any kind. -/
theorem barrier_reach {D : GlobalBarrier ι → BarrierAct ι → Prop}
    (hC : ∀ w i, C w (.run i) → D w.barrier (.run i w.attached w.busy)) (hD : ∀ b i, D b (.call i))
    (h : Reach (socketSystem E cfg ready) C w) : Reach globalBarrierSystem D w.barrier := by
  refine h.invariant (fun w => Reach globalBarrierSystem D w.barrier) ?_ ?_
  · rintro w ⟨-, hw⟩
    exact .init hw
  · intro w a u _ hr hc ht
    obtain ⟨-, ⟨i, b, s, -, -, -, rfl⟩ | ⟨i, b, -, -, hb, rfl⟩ | ⟨i, b, rfl, hb, rfl⟩⟩ :=
      step_cases ht
    · exact hr
    · exact .step hr (hD _ i) hb
    · exact .step hr (hC w i hc) hb

/-- An eval thread is in `global_barrier` only in the middle of an evaluation. -/
theorem caller_running (h : Reach (socketSystem E cfg ready) C w) (i : ι)
    (hi : w.barrier.pc i ≠ none) : (w.shell i).evl.current ≠ [] := by
  refine h.invariant (fun w => ∀ i, w.barrier.pc i ≠ none → (w.shell i).evl.current ≠ []) ?_ ?_ i hi
  · rintro w ⟨-, hw⟩ i hi
    simp [hw, GlobalBarrier.start] at hi
  · intro w a u hr ih _ ht j hj
    obtain ⟨-, ⟨i, b, s, -, hl, hs, rfl⟩ | ⟨i, b, -, hc, hb, rfl⟩ | ⟨i, b, -, hb, rfl⟩⟩ :=
      step_cases ht
    · by_cases hji : j = i
      · subst hji
        have hret : b ≠ .ret := by
          rintro rfl
          simp only [lets, Option.isNone_iff_eq_none] at hl
          exact hj hl
        simp only [Function.update_self]
        rw [Shell.step_current (.of_reach (shell_reach hr j)) hret (ih j hj) hs]
        exact ih j hj
      · simpa [hji] using ih j hj
    · by_cases hji : j = i
      · exact hji ▸ hc
      · refine ih j ?_
        simp only [GlobalBarrier.step] at hb
        split at hb <;> cases hb
        simpa [hji] using hj
    · obtain ⟨p, hp, hb⟩ := Option.bind_eq_some_iff.mp hb
      by_cases hji : j = i
      · exact ih j (by simp [hji, hp])
      · exact ih j ((GlobalBarrier.next_frame hb hji).1 ▸ hj)

/-- The assertion of `global_barrier` holds: a socket points to its shell as long as
an evaluation runs. -/
theorem never_outOfBand (h : Reach (socketSystem E cfg ready) C w) :
    w.barrier.outOfBand = false := by
  refine h.invariant (fun w => w.barrier.outOfBand = false) ?_ ?_
  · rintro w ⟨-, hw⟩
    rw [hw]
    rfl
  · intro w a u hr ih _ ht
    obtain ⟨-, ⟨i, b, s, -, -, -, rfl⟩ | ⟨i, b, -, -, hb, rfl⟩ | ⟨i, b, -, hb, rfl⟩⟩ :=
      step_cases ht
    · exact ih
    · simp only [GlobalBarrier.step] at hb
      split at hb <;> cases hb
      exact ih
    · obtain ⟨p, hp, hb⟩ := Option.bind_eq_some_iff.mp hb
      have hat : w.attached i = true := by
        have hrun := caller_running hr i (by simp [hp])
        have hc := (Shell.Control.of_reach (shell_reach hr i)).attached
        rcases hc with hc | hc | hc
        · exact hc
        all_goals simp [hc, EvalPc.current] at hrun
      cases p <;> simp only [GlobalBarrier.next, hat, ↓reduceIte] at hb
      case find | scan | exitScan =>
        split at hb
        · cases hb
        first
        | (cases hb; exact ih)
        | (split at hb <;> cases hb <;> exact ih)
      all_goals
        cases hb
        exact ih

end SocketManager

end CogServer
