import CogServer.SocketManager
import CogServer.ShellProgress

/-! No new work during a global barrier, and no blocked work after it. -/
namespace CogServer

open Transition

namespace SocketManager

variable {σ ι : Type*} [Fintype ι] [DecidableEq ι] {E : ι → GenericEval σ} {cfg : ι → ShellConfig}
  {ready : σ → Prop} {C : SocketManager σ ι → SocketAct ι → Prop} {w u : SocketManager σ ι}

/-- A caller sets the barrier while no other shell is past `block_on_bar`, and
while no other caller is about to release the barrier. -/
def fenced (w : SocketManager σ ι) : SocketAct ι → Prop
  | .run i => w.barrier.pc i = some .setActive →
      (∀ j, j ≠ i → (w.shell j).net.pushing = false) ∧ ∀ j, w.barrier.pc j ≠ some .release
  | _ => True

/-- While a caller keeps the barrier set, nobody else is about to push. -/
def Fence (w : SocketManager σ ι) : Prop :=
  ∀ i j, w.barrier.isAt BarrierPc.closing i = true → j ≠ i → (w.shell j).net.pushing = false

theorem closed_of_reach (h : Reach (socketSystem E cfg ready) fenced w) : w.barrier.Closed := by
  refine .of_reach (barrier_reach ?_ (fun _ _ => trivial) h)
  intro w i hc hp
  exact (hc hp).2

theorem fence_step {a : SocketAct ι} (hcl : w.barrier.Closed) (hf : Fence w) (hc : fenced w a)
    (h : step E cfg w a = some u) : Fence u := by
  obtain ⟨-, ⟨i, b, s, -, hl, hs, rfl⟩ | ⟨i, b, -, -, hb, rfl⟩ | ⟨i, b, rfl, hb, rfl⟩⟩ :=
    step_cases h
  · intro k j hk hj
    by_cases hji : j = i
    · subst hji
      have hactive : w.barrier.active = true := hcl.active k hk
      have hunbar : b ≠ .unbar := by
        rintro rfl
        simp [lets, hactive] at hl
      simp only [Function.update_self]
      exact (Shell.step_pushing hs (hf k j hk hj)).2 hunbar
    · simpa [hji] using hf k j hk hj
  · simp only [GlobalBarrier.step] at hb
    split at hb <;> cases hb
    intro k j hk hj
    by_cases hki : k = i
    · subst hki
      simp [GlobalBarrier.isAt, BarrierPc.closing] at hk
    · exact hf k j (by simpa [GlobalBarrier.isAt, hki] using hk) hj
  · obtain ⟨p, hp, hb⟩ := Option.bind_eq_some_iff.mp hb
    intro k j hk hj
    dsimp only at hk ⊢
    by_cases hki : k = i
    · subst hki
      cases p <;> simp only [GlobalBarrier.next] at hb
      case setActive => exact (hc hp).1 j hj
      case scan => exact hf k j (GlobalBarrier.isAt_eq hp) hj
      case clearIn =>
        cases hb
        simp [GlobalBarrier.isAt, BarrierPc.closing] at hk
      case setIn | release =>
        cases hb
        simp [GlobalBarrier.isAt, BarrierPc.closing] at hk
      case find | exitScan =>
        split at hb
        · cases hb
        split at hb <;> cases hb <;> simp [GlobalBarrier.isAt, BarrierPc.closing, hp] at hk
    · rw [GlobalBarrier.isAt_congr (GlobalBarrier.next_frame hb hki).1] at hk
      exact hf k j hk hj

theorem Fence.of_reach (h : Reach (socketSystem E cfg ready) fenced w) : Fence w := by
  refine h.invariant Fence ?_ fun _ _ _ hr hf hc ht => fence_step (closed_of_reach hr) hf hc ht
  rintro w ⟨-, hw⟩ i j hi
  simp [hw, GlobalBarrier.start, GlobalBarrier.isAt] at hi

/-- What a step may push, for a shell that is not past `block_on_bar`. -/
theorem pushed_kept {a : SocketAct ι} {j : ι} (hj : (w.shell j).net.pushing = false)
    (h : step E cfg w a = some u) : (u.shell j).pushed = (w.shell j).pushed := by
  obtain ⟨-, ⟨i, b, s, -, -, hs, rfl⟩ | ⟨i, b, -, -, -, rfl⟩ | ⟨i, b, -, -, rfl⟩⟩ := step_cases h
  · by_cases hji : j = i
    · subst hji
      simp only [Function.update_self]
      exact (Shell.step_pushing hs hj).1
    · simp [hji]
  · rfl
  · rfl

/-- While a caller keeps the barrier set, the flag is up and no other shell pushes. With
nobody in `global_barrier` the flag is down, so that `block_on_bar` returns. -/
theorem barrier_fences (h : Reach (socketSystem E cfg ready) fenced w) :
    (∀ i, w.barrier.isAt BarrierPc.closing i = true → w.barrier.active = true ∧
      ∀ j, j ≠ i → ∀ a u, step E cfg w a = some u → (u.shell j).pushed = (w.shell j).pushed) ∧
    ((∀ i, w.barrier.pc i = none) → w.barrier.active = false ∧
      ∀ j e, (w.shell j).net = .block e → ¬ w.dead →
        ∃ u, step E cfg w (.shell j .unbar) = some u ∧ (u.shell j).net = .push e) := by
  have hflags : w.barrier.Flags :=
    .of_reach (barrier_reach (D := anyStep) (fun _ _ _ => trivial) (fun _ _ => trivial) h)
  refine ⟨fun i hi => ⟨(closed_of_reach h).active i hi, fun j hj a u hu => ?_⟩, fun hnone => ?_⟩
  · exact pushed_kept (Fence.of_reach h i j hi hj) hu
  · have hactive := hflags.released hnone
    refine ⟨hactive, fun j e hj hd => ?_⟩
    have hesc : (w.shell j).escaped = false := by
      by_contra he
      exact hd (.inr ⟨j, by simpa using he⟩)
    refine ⟨{ w with shell := Function.update w.shell j { w.shell j with net := .push e } }, ?_, by simp⟩
    simp [step, hd, lets, hactive, Shell.step, hesc, Shell.unbar, hj]

instance (w : SocketManager σ ι) : (a : SocketAct ι) → Decidable (fenced w a)
  | .run _ => inferInstanceAs (Decidable (_ → _ ∧ _))
  | .shell _ _ | .call _ => isTrue trivial

/-- Two fresh shells that echo. -/
def twoSockets : SocketManager Bytes Bool where
  shell _ := Shell.fresh []
  barrier := .start
  before _ _ := 0
  skipped _ _ := false

abbrev echoSockets : System (SocketManager Bytes Bool) (SocketAct Bool) :=
  socketSystem (fun _ => Shell.echoEval) (fun _ => Shell.plainConfig) fun _ => True

theorem twoSockets_init : echoSockets.init twoSockets := ⟨fun _ => ⟨[], trivial, rfl⟩, rfl⟩

/-- A shell gets its first line, up to `block_on_bar`. -/
def toBlock (i : Bool) : List (SocketAct Bool) :=
  List.flatten [[.shell i (.line (ascii "x"))], List.replicate 3 (.shell i .eval), [.shell i .poll],
    List.replicate 3 (.shell i .net)]

/-- And up to the pop, with the eval thread about to start it. -/
def toPop (i : Bool) : List (SocketAct Bool) :=
  List.flatten [toBlock i, [.shell i .unbar], List.replicate 2 (.shell i .net), [.shell i .eval]]

/-- And up to the middle of the evaluation. -/
def toRunning (i : Bool) : List (SocketAct Bool) :=
  toPop i ++ List.replicate 4 (.shell i .eval)

theorem barrier_fences_blocked : ∃ w, w.barrier.isAt BarrierPc.closing false = true ∧
    (w.shell true).net = .block (ascii "x\n") ∧ w.barrier.active = true ∧
    step (fun _ => Shell.echoEval) (fun _ => Shell.plainConfig) w (.shell true .unbar) = none := by
  have hx : (exec echoSockets twoSockets (List.flatten [toRunning false, toBlock true, [.call false],
      List.replicate 3 (.run false)])).map
      (fun w => (w.barrier.isAt BarrierPc.closing false, (w.shell true).net)) =
      some (true, .block (ascii "x\n")) := by decide +kernel
  obtain ⟨w, hw, h⟩ := Option.map_eq_some_iff.mp hx
  obtain ⟨hclosing, hblock⟩ := Prod.mk.inj h
  have hr : Reach echoSockets fenced w :=
    Reach.of_exec (fun w a => decide (fenced w a)) (fun _ _ h => of_decide_eq_true h)
      (.init twoSockets_init) (by decide +kernel) hw
  have hactive := ((barrier_fences hr).1 false hclosing).1
  refine ⟨w, hclosing, hblock, hactive, ?_⟩
  simp [step, lets, hactive]

/-- A shell that is past `block_on_bar` when the barrier is set pushes under it. And a
barrier that is set while its last user releases it is released at once. -/
theorem barrier_fences_fails :
    (∃ w, Reach echoSockets anyStep w ∧ w.barrier.isAt BarrierPc.closing false = true ∧
      ∃ u, echoSockets.step w (.shell true .net) = some u ∧
        (w.shell true).pushed = [] ∧ (u.shell true).pushed = [ascii "x\n"]) ∧
    ∃ w, Reach echoSockets anyStep w ∧ w.barrier.isAt BarrierPc.closing true = true ∧
      w.barrier.active = false := by
  constructor
  · have hx : (exec echoSockets twoSockets (List.flatten [toRunning false, toBlock true,
        [.shell true .unbar, .call false], List.replicate 3 (.run false)])).map (fun w =>
        (w.barrier.isAt BarrierPc.closing false, (w.shell true).pushed,
          (echoSockets.step w (.shell true .net)).map fun u => (u.shell true).pushed)) =
        some (true, [], some [ascii "x\n"]) := by decide +kernel
    obtain ⟨w, hw, h⟩ := Option.map_eq_some_iff.mp hx
    obtain ⟨h1, h2, h3⟩ : _ ∧ _ ∧ _ := by simpa only [Prod.mk.injEq] using h
    obtain ⟨u, hu, h3⟩ := Option.map_eq_some_iff.mp h3
    exact ⟨w, reach_of_exec _ twoSockets_init hw, h1, u, hu, h2, h3⟩
  · have hx : (exec echoSockets twoSockets (List.flatten [toRunning false, toPop true, [.call false],
        List.replicate 5 (.run false), List.replicate 4 (.shell true .eval), [.call true, .run true,
        .run false, .run true, .run true, .run false]])).map
        (fun w => (w.barrier.isAt BarrierPc.closing true, w.barrier.active)) = some (true, false) := by
      decide +kernel
    obtain ⟨w, hw, h⟩ := Option.map_eq_some_iff.mp hx
    obtain ⟨h1, h2⟩ := Prod.mk.inj h
    exact ⟨w, reach_of_exec _ twoSockets_init hw, h1, h2⟩

end SocketManager

end CogServer
