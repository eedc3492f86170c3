import CogServer.ShellLedger

/-! What the steps of a shell do to the record of its expressions, and when its
network thread comes to push one. -/
namespace CogServer

open Transition

/-- The network thread is past `block_on_bar` and has not pushed yet. -/
def NetPc.pushing : NetPc → Bool
  | .push _ => true
  | _ => false

namespace Shell

variable {σ : Type*} {E : GenericEval σ} {cfg : ShellConfig} {s t : Shell σ}

/-- Nothing is taken off the record. -/
structure Grows (s t : Shell σ) : Prop where
  pushed : s.pushed <+: t.pushed
  removed : s.removed <+: t.removed
  ended : s.ended <+: t.ended

theorem Grows.of_eq (h1 : t.pushed = s.pushed) (h2 : t.removed = s.removed)
    (h3 : t.ended = s.ended) : Grows s t :=
  ⟨h1 ▸ List.prefix_rfl, h2 ▸ List.prefix_rfl, h3 ▸ List.prefix_rfl⟩

theorem Grows.refl (s : Shell σ) : Grows s s := .of_eq rfl rfl rfl

theorem noteRemoved_grows (s : Shell σ) (e : Bytes) (b : Bool) :
    s.removed <+: (s.noteRemoved e b).removed := by
  unfold noteRemoved
  split
  · exact List.prefix_rfl
  · exact List.prefix_append _ _

theorem netStep_grows (h : s.netStep E cfg = some t) : Grows s t := by
  cases hn : s.net with
  | idle | block e | gone => simp [netStep, hn] at h
  | push e =>
    simp only [netStep, hn, Option.some.injEq] at h
    subst h
    refine ⟨?_, List.prefix_rfl, List.prefix_rfl⟩
    dsimp only
    split
    · exact List.prefix_rfl
    · exact List.prefix_append _ _
  | junk =>
    simp only [netStep, hn] at h
    split at h <;> cases h
    · exact .of_eq rfl rfl rfl
    · rename_i e rest hq
      refine ⟨?_, noteRemoved_grows s e false, ?_⟩
      all_goals exact (noteRemoved_eq s e false).symm ▸ List.prefix_rfl
  | spin l | stall | join =>
    simp only [netStep, hn] at h
    split at h <;> cases h
    exact .of_eq rfl rfl rfl
  | act d =>
    cases d <;> simp only [netStep, hn, Option.some.injEq] at h <;> subst h <;> exact .of_eq rfl rfl rfl
  | goodbye =>
    simp only [netStep, hn, Option.some.injEq] at h
    subst h
    rw [send_eq]
    exact .of_eq rfl rfl rfl
  | discipline l | afterLine | cancel | exitMsg | checkEval | interrupt | clearPending | putAbort
  | finishEval | dtor | sentinel =>
    simp only [netStep, hn, Option.some.injEq] at h
    subst h
    exact .of_eq rfl rfl rfl

theorem evalLoop_grows (h : s.evalLoop E cfg = some t) : Grows s t := by
  have hpushed := (evalLoop_frame h).pushed
  cases he : s.evl with
  | off | running | exited => simp [evalLoop, he] at h
  | pop | drainPop =>
    simp only [evalLoop, he] at h
    split at h <;> cases h
    · rename_i e q hq
      refine ⟨hpushed ▸ List.prefix_rfl, noteRemoved_grows s e true, ?_⟩
      exact (noteRemoved_eq s e true).symm ▸ List.prefix_rfl
    · exact .of_eq rfl rfl rfl
  | drainPoll p | lastPoll p =>
    simp only [evalLoop, he, Option.map_eq_some_iff] at h
    obtain ⟨⟨u, q⟩, hu, rfl⟩ := h
    obtain ⟨hf, -⟩ := pollAndSend_frame hu
    exact .of_eq hf.pushed hf.removed hf.ended
  | startEval d e | wakePop | wakeStart e | wakeEnd | whileNotDone | joinPoll =>
    simp only [evalLoop, he, wakePoll] at h
    split at h <;> cases h <;> exact .of_eq rfl rfl rfl
  | enter | beginEval d e | call d e | caught | unlockPoll | loopTest | cancelReset | drainSize
  | drainTest | drainReset | lastTest | setShell | dropEval =>
    simp only [evalLoop, he, Option.some.injEq] at h
    subst h
    exact .of_eq rfl rfl rfl

theorem evalReturn_grows (h : s.evalReturn E = some t) : Grows s t := by
  cases he : s.evl <;> simp only [evalReturn, he, reduceCtorEq] at h
  case running d e =>
    have hended : s.ended <+: s.ended ++ [e] := List.prefix_append _ _
    split at h <;> cases d <;> cases h <;> exact ⟨List.prefix_rfl, List.prefix_rfl, hended⟩

/-- No step of a shell takes anything off its record. -/
theorem step_grows {a : Act} (h : step E cfg s a = some t) : Grows s t := by
  unfold step at h
  split at h
  · cases h
  · cases a with
    | net => exact netStep_grows h
    | eval => exact evalLoop_grows h
    | ret => exact evalReturn_grows h
    | poll =>
      obtain ⟨hf, -⟩ := pollLoop_frame h
      exact .of_eq hf.pushed hf.removed hf.ended
    | work =>
      simp only [evalWork] at h
      split at h <;> cases h
      exact .of_eq rfl rfl rfl
    | close =>
      simp only [close] at h
      split at h <;> cases h
      exact .of_eq rfl rfl rfl
    | unbar =>
      simp only [unbar] at h
      split at h <;> cases h
      exact .of_eq rfl rfl rfl
    | line l =>
      simp only [evalLine] at h
      split at h
      · cases h
      · split at h <;> cases h <;> exact .of_eq rfl rfl rfl

/-- A running evaluation goes on until it returns. -/
theorem step_current {a : Act} (hc : Control s) (ha : a ≠ .ret) (hs : s.evl.current ≠ [])
    (h : step E cfg s a = some t) : t.evl = s.evl := by
  obtain ⟨d, e, he⟩ : ∃ d e, s.evl = .running d e := by
    cases he : s.evl <;> simp_all [EvalPc.current]
  unfold step at h
  split at h
  · cases h
  · cases a with
    | ret => exact absurd rfl ha
    | net => exact (netStep_frame h).evl
    | eval => simp [evalLoop, he] at h
    | poll => exact (pollLoop_frame h).2
    | work =>
      simp only [evalWork, he, Option.some.injEq] at h
      exact h ▸ he.symm
    | close =>
      simp only [close] at h
      split at h <;> cases h
      rfl
    | unbar =>
      simp only [unbar] at h
      split at h <;> cases h
      rfl
    | line l =>
      have hh : s.hasEvaluator = true := by
        rw [hc.hasEvaluator, he]
        rfl
      simp only [evalLine, hh, ↓reduceIte] at h
      split at h <;> cases h
      rfl

theorem netStep_pushing (h : s.netStep E cfg = some t) : t.net.pushing = false ∧
    (s.net.pushing = false → t.pushed = s.pushed) := by
  cases hn : s.net with
  | idle | block e | gone => simp [netStep, hn] at h
  | push e =>
    simp only [netStep, hn, Option.some.injEq] at h
    subst h
    exact ⟨rfl, fun hx => by cases hx⟩
  | junk =>
    simp only [netStep, hn] at h
    split at h <;> cases h
    · exact ⟨rfl, fun _ => rfl⟩
    · rw [noteRemoved_eq]
      exact ⟨by rw [hn]; rfl, fun _ => rfl⟩
  | spin l | stall | join =>
    simp only [netStep, hn] at h
    split at h <;> cases h
    exact ⟨rfl, fun _ => rfl⟩
  | act d =>
    cases d <;> simp only [netStep, hn, Option.some.injEq] at h <;> subst h <;>
      exact ⟨rfl, fun _ => rfl⟩
  | goodbye =>
    simp only [netStep, hn, Option.some.injEq] at h
    subst h
    rw [send_eq]
    exact ⟨rfl, fun _ => rfl⟩
  | discipline l | cancel | exitMsg | clearPending | putAbort | finishEval | dtor | sentinel
  | interrupt =>
    simp only [netStep, hn, Option.some.injEq] at h
    subst h
    exact ⟨rfl, fun _ => rfl⟩
  | afterLine | checkEval =>
    simp only [netStep, hn, Option.some.injEq] at h
    subst h
    refine ⟨?_, fun _ => rfl⟩
    dsimp only
    split <;> rfl

/-- Only the return of `block_on_bar` brings the network thread to push, and only
then it pushes. -/
theorem step_pushing {a : Act} (h : step E cfg s a = some t) (hs : s.net.pushing = false) :
    t.pushed = s.pushed ∧ (a ≠ .unbar → t.net.pushing = false) := by
  unfold step at h
  split at h
  · cases h
  · cases a with
    | net =>
      obtain ⟨h1, h2⟩ := netStep_pushing h
      exact ⟨h2 hs, fun _ => h1⟩
    | eval =>
      have hf := evalLoop_frame h
      exact ⟨hf.pushed, fun _ => by rw [hf.net, hs]⟩
    | poll =>
      obtain ⟨hf, -⟩ := pollLoop_frame h
      exact ⟨hf.pushed, fun _ => by rw [hf.net, hs]⟩
    | ret =>
      cases he : s.evl <;> simp only [evalReturn, he, reduceCtorEq] at h
      case running d e => split at h <;> cases d <;> cases h <;> exact ⟨rfl, fun _ => hs⟩
    | work =>
      simp only [evalWork] at h
      split at h <;> cases h
      exact ⟨rfl, fun _ => hs⟩
    | close =>
      simp only [close] at h
      split at h <;> cases h
      exact ⟨rfl, fun _ => rfl⟩
    | unbar =>
      simp only [unbar] at h
      split at h <;> cases h
      exact ⟨rfl, fun ha => absurd rfl ha⟩
    | line l =>
      simp only [evalLine] at h
      split at h
      · cases h
      · split at h <;> cases h <;> exact ⟨rfl, fun _ => rfl⟩

end Shell

end CogServer
