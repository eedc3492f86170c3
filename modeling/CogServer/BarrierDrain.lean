import CogServer.BarrierFence

/-! A global barrier waits for all the work that was there before it. -/
namespace CogServer

open Transition

/-- Positions behind the scan that found all shells idle. -/
def BarrierPc.passed : BarrierPc → Bool
  | .clearIn | .exitScan | .release => true
  | _ => false

namespace Shell

variable {σ : Type*} {s t : Shell σ} {m n : ℕ}

/-- The eval thread has an expression in hand that it popped and has not finished. -/
def holding (s : Shell σ) : Bool := s.evl.held ≠ [] ∨ s.evl.current ≠ []

/-- The first `n` expressions that were pushed have left the queue, and those of them
that no interrupt discarded have been completely evaluated. -/
def Settled (n : ℕ) (s : Shell σ) : Prop :=
  n ≤ s.removed.length ∧ ((s.removed.take n).filter Prod.snd).map Prod.fst <+: s.ended

instance : Decidable (Settled n s) := inferInstanceAs (Decidable (_ ∧ _))

theorem Settled.mono (h : Settled n s) (hm : m ≤ n) : Settled m s := by
  refine ⟨Nat.le_trans hm h.1, List.IsPrefix.trans ?_ h.2⟩
  have htake : s.removed.take m <+: s.removed.take n := List.take_prefix_take_left hm
  exact (htake.filter _).map _

theorem Settled.grows (h : Settled n s) (hg : Grows s t) : Settled n t := by
  obtain ⟨r, hr⟩ := hg.removed
  refine ⟨Nat.le_trans h.1 hg.removed.length_le, ?_⟩
  rw [← hr, List.take_append_of_le_length h.1]
  exact h.2.trans hg.ended

/-- A shell that looks idle and has nothing in hand is done with all that was pushed. -/
theorem settled_of_idle (hc : Control s) (hl : Ledger s) (hesc : s.escaped = false)
    (hbusy : s.busyShell = false) (hholds : s.holding = false) :
    Settled (expressions s.pushed).length s := by
  have hitems : expressions s.evalque.items = [] := by
    rcases hc.attached with ha | he | he
    · have hq : s.queued = 0 := by
        simp only [busyShell, ha, Bool.true_and, Bool.or_eq_false_iff,
          decide_eq_false_iff_not] at hbusy
        exact Nat.eq_zero_of_not_pos hbusy.1
      rw [(CancelQueue.size_eq_zero _).mp hq, expressions_nil]
    all_goals exact hc.drained (by rw [he]; rfl)
  obtain ⟨hheld, hcurrent⟩ : s.evl.held = [] ∧ s.evl.current = [] := by
    simpa [holding, not_or] using hholds
  have htaken := hl.taken
  have hpopped := hl.popped
  have hended := hl.ended hesc
  rw [hitems, List.append_nil] at htaken
  rw [hheld, List.append_nil] at hpopped
  rw [hcurrent, List.append_nil] at hended
  have hlen : (expressions s.pushed).length = s.removed.length := by rw [htaken, List.length_map]
  refine ⟨Nat.le_of_eq hlen, ?_⟩
  have hends : (s.removed.filter Prod.snd).map Prod.fst = s.ended := hpopped.trans hended
  rw [hlen, List.take_length]
  exact hends ▸ List.prefix_rfl

end Shell

namespace GlobalBarrier

variable {ι : Type*} [Fintype ι] [DecidableEq ι]

/-- A caller returns only from a position behind its scan. -/
theorem passed_of_return {b c : GlobalBarrier ι} {attached busy : ι → Bool} {i : ι}
    (h : b.step (.run i attached busy) = some c) (hi : c.pc i = none) :
    b.isAt BarrierPc.passed i = true ∧ b.pc i ≠ some .scan := by
  obtain ⟨p, hp, h⟩ := Option.bind_eq_some_iff.mp h
  cases p <;> simp only [GlobalBarrier.next] at h
  case find | scan =>
    split at h
    · cases h
    split at h <;> cases h <;> simp [hp] at hi
  case setIn | setActive | clearIn =>
    cases h
    simp at hi
  case exitScan | release => exact ⟨isAt_eq hp, by simp [hp]⟩

end GlobalBarrier

namespace SocketManager

variable {σ ι : Type*} [Fintype ι] [DecidableEq ι] {E : ι → GenericEval σ} {cfg : ι → ShellConfig}
  {ready : σ → Prop} {C : SocketManager σ ι → SocketAct ι → Prop} {w u : SocketManager σ ι}

/-- A scan that lets its caller go on takes no shell for idle whose eval thread has
an expression in hand. -/
def undeceived (w : SocketManager σ ι) : SocketAct ι → Prop
  | .run i => w.barrier.pc i = some .scan → w.barrier.allIdle w.busy i →
      ∀ j, j ≠ i → w.barrier.inBarrier j = false → (w.shell j).holding = false
  | _ => True

instance (w : SocketManager σ ι) : (a : SocketAct ι) → Decidable (undeceived w a)
  | .run _ => inferInstanceAs (Decidable (_ → _ → _))
  | .shell _ _ | .call _ => isTrue trivial

/-- What a caller waits for had been pushed when it called. -/
theorem before_le (h : Reach (socketSystem E cfg ready) C w) (i j : ι)
    (hi : w.barrier.pc i ≠ none) : w.before i j ≤ (expressions (w.shell j).pushed).length := by
  refine h.invariant (fun w => ∀ i j, w.barrier.pc i ≠ none →
    w.before i j ≤ (expressions (w.shell j).pushed).length) ?_ ?_ i j hi
  · rintro w ⟨-, hw⟩ i j hi
    simp [hw, GlobalBarrier.start] at hi
  · intro w a u _ ih _ ht i j hi
    obtain ⟨-, ⟨k, b, s, -, -, hs, rfl⟩ | ⟨k, b, -, -, hb, rfl⟩ | ⟨k, b, -, hb, rfl⟩⟩ :=
      step_cases ht
    · have hle := ih i j hi
      by_cases hjk : j = k
      · subst hjk
        simp only [Function.update_self]
        exact Nat.le_trans hle ((Shell.step_grows hs).pushed.filter _).length_le
      · simpa [hjk] using hle
    · by_cases hik : i = k
      · simp [hik]
      · simp only [GlobalBarrier.step] at hb
        split at hb <;> cases hb
        simpa [hik] using ih i j (by simpa [hik] using hi)
    · obtain ⟨p, hp, hb⟩ := Option.bind_eq_some_iff.mp hb
      by_cases hik : i = k
      · exact ih i j (by simp [hik, hp])
      · exact ih i j ((GlobalBarrier.next_frame hb hik).1 ▸ hi)

/-- A caller behind its scan has waited for all that was there. -/
def Drained (w : SocketManager σ ι) : Prop :=
  ∀ i j, w.barrier.isAt BarrierPc.passed i = true → j ≠ i → w.skipped i j = false →
    Shell.Settled (w.before i j) (w.shell j)

/-- The step of a scan that lets its caller go on. -/
theorem drained_scan {i j : ι} (hr : Reach (socketSystem E cfg ready) C w) (hd : ¬ w.dead)
    (hc : undeceived w (.run i)) (hp : w.barrier.pc i = some .scan)
    (hidle : w.barrier.allIdle w.busy i) (hj : j ≠ i) (hin : w.barrier.inBarrier j = false) :
    Shell.Settled (w.before i j) (w.shell j) := by
  have hs := shell_reach hr j
  have hesc : (w.shell j).escaped = false := by
    by_contra he
    exact hd (.inr ⟨j, by simpa using he⟩)
  exact (Shell.settled_of_idle (.of_reach hs) (.of_reach hs) hesc (hidle j hj hin)
    (hc hp hidle j hj hin)).mono (before_le hr i j (by simp [hp]))

theorem drained_step {a : SocketAct ι} (hr : Reach (socketSystem E cfg ready) C w) (hdr : Drained w)
    (hc : undeceived w a) (h : step E cfg w a = some u) : Drained u := by
  obtain ⟨hd, ⟨k, b, s, -, -, hs, rfl⟩ | ⟨k, b, -, -, hb, rfl⟩ | ⟨k, b, rfl, hb, rfl⟩⟩ :=
    step_cases h
  · intro i j hi hj hsk
    by_cases hjk : j = k
    · subst hjk
      simp only [Function.update_self]
      exact (hdr i j hi hj hsk).grows (Shell.step_grows hs)
    · simpa [hjk] using hdr i j hi hj hsk
  · simp only [GlobalBarrier.step] at hb
    split at hb <;> cases hb
    intro i j hi hj hsk
    by_cases hik : i = k
    · simp [hik, GlobalBarrier.isAt, BarrierPc.passed] at hi
    · simpa [hik] using hdr i j (by simpa [GlobalBarrier.isAt, hik] using hi) hj hsk
  · obtain ⟨p, hp, hb⟩ := Option.bind_eq_some_iff.mp hb
    intro i j hi hj hsk
    dsimp only at hi hsk ⊢
    by_cases hik : i = k
    · subst hik
      cases p <;> simp only [GlobalBarrier.next] at hb
      case scan =>
        split at hb
        · cases hb
        split at hb <;> cases hb
        · rename_i hidle
          simp only [hp, ↓reduceIte, Function.update_self] at hsk
          exact drained_scan hr hd hc hp hidle hj hsk
        · simp [GlobalBarrier.isAt, BarrierPc.passed, hp] at hi
      case clearIn | release =>
        simp only [hp, Option.some.injEq, reduceCtorEq, ↓reduceIte] at hsk
        exact hdr i j (GlobalBarrier.isAt_eq hp) hj hsk
      case exitScan =>
        simp only [hp, Option.some.injEq, reduceCtorEq, ↓reduceIte] at hsk
        exact hdr i j (GlobalBarrier.isAt_eq hp) hj hsk
      case find =>
        split at hb
        · cases hb
        split at hb <;> cases hb <;> simp [GlobalBarrier.isAt, BarrierPc.passed, hp] at hi
      case setIn | setActive =>
        cases hb
        simp [GlobalBarrier.isAt, BarrierPc.passed] at hi
    · rw [GlobalBarrier.isAt_congr (GlobalBarrier.next_frame hb hik).1] at hi
      refine hdr i j hi hj ?_
      split at hsk
      · simpa [hik] using hsk
      · exact hsk

theorem Drained.of_reach (h : Reach (socketSystem E cfg ready) undeceived w) : Drained w := by
  refine h.invariant Drained ?_ fun _ _ _ hr hdr hc ht => drained_step hr hdr hc ht
  rintro w ⟨-, hw⟩ i j hi
  simp [hw, GlobalBarrier.start, GlobalBarrier.isAt] at hi

/-- When `global_barrier` returns, all that any other shell outside of it had pushed
before the call, and that no interrupt discarded, has been evaluated. -/
theorem barrier_drains (h : Reach (socketSystem E cfg ready) undeceived w) {i : ι}
    (hu : step E cfg w (.run i) = some u) (hi : u.barrier.pc i = none) (j : ι) (hj : j ≠ i)
    (hskipped : u.skipped i j = false) : Shell.Settled (u.before i j) (u.shell j) := by
  obtain ⟨-, ⟨k, b, s, ha, -, -, rfl⟩ | ⟨k, b, ha, -, -, rfl⟩ | ⟨k, b, ha, hb, rfl⟩⟩ :=
    step_cases hu
  · cases ha
  · cases ha
  · cases ha
    obtain ⟨hpassed, hscan⟩ := GlobalBarrier.passed_of_return hb hi
    simp only [hscan, ↓reduceIte] at hskipped
    exact Drained.of_reach h i j hpassed hj hskipped

/-- The whole of `global_barrier`, when nothing holds it up. -/
def throughBarrier (i : Bool) : List (SocketAct Bool) := .call i :: List.replicate 6 (.run i)

theorem barrier_drains_done : ∃ w u, echoSockets.step w (.run false) = some u ∧
    u.before false true = 1 ∧ (u.shell true).ended = [ascii "x\n"] ∧
      Shell.Settled (u.before false true) (u.shell true) := by
  have hx : (exec echoSockets twoSockets (List.flatten [toRunning false, toRunning true,
      [.shell true .ret], List.replicate 10 (.shell true .poll), throughBarrier false] ++
      [.run false])).map (fun u => (u.barrier.pc false, u.skipped false true, u.before false true,
      (u.shell true).ended)) = some (none, false, 1, [ascii "x\n"]) := by decide +kernel
  obtain ⟨u, hu, h⟩ := Option.map_eq_some_iff.mp hx
  obtain ⟨w, hw, hu⟩ := exec_concat hu
  obtain ⟨h1, h2, h3, h4⟩ : _ ∧ _ ∧ _ ∧ _ := by simpa only [Prod.mk.injEq] using h
  have hr : Reach echoSockets undeceived w :=
    Reach.of_exec (fun w a => decide (undeceived w a)) (fun _ _ h => of_decide_eq_true h)
      (.init twoSockets_init) (by decide +kernel) hw
  exact ⟨w, u, hu, h3, h4, barrier_drains hr hu h1 true (by simp) h2⟩

/-- The barrier returns while an expression of another shell is popped and not started,
and while one is running that the poll thread took for finished. -/
theorem barrier_drains_fails :
    (∃ w u, Reach echoSockets anyStep w ∧ echoSockets.step w (.run false) = some u ∧
      u.barrier.pc false = none ∧ u.skipped false true = false ∧
      (u.shell true).evl = .wakeStart (ascii "x\n") ∧
      ¬ Shell.Settled (u.before false true) (u.shell true)) ∧
    ∃ w u, Reach echoSockets anyStep w ∧ echoSockets.step w (.run false) = some u ∧
      u.barrier.pc false = none ∧ u.skipped false true = false ∧
      (u.shell true).evl = .running .serving (ascii "x\n") ∧
      ¬ Shell.Settled (u.before false true) (u.shell true) := by
  constructor
  · have hx : (exec echoSockets twoSockets (List.flatten [toRunning false, toPop true,
        throughBarrier false] ++ [.run false])).map (fun u => (u.barrier.pc false,
          u.skipped false true, (u.shell true).evl,
          decide (Shell.Settled (u.before false true) (u.shell true)))) =
        some (none, false, .wakeStart (ascii "x\n"), false) := by decide +kernel
    obtain ⟨u, hu, h⟩ := Option.map_eq_some_iff.mp hx
    obtain ⟨w, hw, hu⟩ := exec_concat hu
    obtain ⟨h1, h2, h3, h4⟩ : _ ∧ _ ∧ _ ∧ _ := by simpa only [Prod.mk.injEq] using h
    exact ⟨w, u, reach_of_exec _ twoSockets_init hw, hu, h1, h2, h3, of_decide_eq_false h4⟩
  · have hx : (exec echoSockets twoSockets (List.flatten [toRunning false, toRunning true,
        List.replicate 6 (.shell true .poll), throughBarrier false] ++ [.run false])).map (fun u =>
          (u.barrier.pc false, u.skipped false true, (u.shell true).evl,
          decide (Shell.Settled (u.before false true) (u.shell true)))) =
        some (none, false, .running .serving (ascii "x\n"), false) := by decide +kernel
    obtain ⟨u, hu, h⟩ := Option.map_eq_some_iff.mp hx
    obtain ⟨w, hw, hu⟩ := exec_concat hu
    obtain ⟨h1, h2, h3, h4⟩ : _ ∧ _ ∧ _ ∧ _ := by simpa only [Prod.mk.injEq] using h
    exact ⟨w, u, reach_of_exec _ twoSockets_init hw, hu, h1, h2, h3, of_decide_eq_false h4⟩

end SocketManager

end CogServer
