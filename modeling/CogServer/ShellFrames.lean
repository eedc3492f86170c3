import CogServer.Shell

/-! What a step of each thread of a shell leaves alone. -/
namespace CogServer

open Transition

namespace Shell

variable {σ : Type*} {E : GenericEval σ} {cfg : ShellConfig} {s t : Shell σ}

/-- What a step of the poll thread, or a poll by the eval thread, leaves alone. -/
structure PollFrame (s t : Shell σ) : Prop where
  evalque : t.evalque = s.evalque
  selfDestruct : t.selfDestruct = s.selfDestruct
  hasEvaluator : t.hasEvaluator = s.hasEvaluator
  attached : t.attached = s.attached
  net : t.net = s.net
  escaped : t.escaped = s.escaped
  pushed : t.pushed = s.pushed
  removed : t.removed = s.removed
  passed : t.passed = s.passed
  ended : t.ended = s.ended
  acks : t.acks + s.evalDone.toNat = s.acks + t.evalDone.toNat
  evalDone : s.evalDone = true → t.evalDone = true

theorem finishEval_acks (s : Shell σ) :
    s.finishEval.acks + s.evalDone.toNat = s.acks + s.finishEval.evalDone.toNat := by
  unfold finishEval
  cases s.evalDone <;> simp

theorem send_eq (s : Shell σ) (o r : Bytes) : s.send o r = { s with sent := (s.send o r).sent } := by
  unfold send
  split <;> rfl

theorem noteRemoved_eq (s : Shell σ) (e : Bytes) (b : Bool) :
    s.noteRemoved e b = { s with removed := (s.noteRemoved e b).removed } := by
  unfold noteRemoved
  split <;> rfl

/-- One step of `poll_and_send` touches the output, the evaluator and
`_eval_done`; the last only in `finish_eval`. -/
theorem pollAndSend_frame {p : PollPc} {q : Option PollPc}
    (h : pollAndSend E cfg s p = some (t, q)) : PollFrame s t ∧ t.evl = s.evl ∧ t.pol = s.pol ∧
    t.initDone = s.initDone ∧ t.pollLocked = s.pollLocked ∧ t.strayUnlock = s.strayUnlock ∧
    (p ≠ .finishEval → t.evalDone = s.evalDone) := by
  cases p with
  | getOutput =>
    simp only [pollAndSend] at h
    split at h <;> cases h <;> exact ⟨by constructor <;> simp, by simp⟩
  | pollResult =>
    simp only [pollAndSend] at h
    split at h
    · cases h
    · cases h
      exact ⟨by constructor <;> simp, by simp⟩
  | getMore r =>
    cases h
    exact ⟨by constructor <;> simp, by simp⟩
  | check =>
    simp only [pollAndSend] at h
    split at h
    · split at h <;> cases h <;> exact ⟨by constructor <;> simp, by simp⟩
    · cases h
      exact ⟨by constructor <;> simp, by simp⟩
  | finishEval =>
    cases h
    exact ⟨by constructor <;> first | exact finishEval_acks s | simp [Shell.finishEval],
      by simp [Shell.finishEval]⟩
  | prompt =>
    cases h
    exact ⟨by constructor <;> simp, by simp⟩
  | send o r =>
    cases h
    rw [send_eq]
    exact ⟨by constructor <;> simp, by simp⟩

/-- The poll thread moves nobody else and leaves the queue and the history alone. -/
theorem pollLoop_frame (h : s.pollLoop E cfg = some t) : PollFrame s t ∧ t.evl = s.evl := by
  cases hp : s.pol with
  | off | exited => simp [pollLoop, hp] at h
  | enter | test | wait | unlock | lastTest =>
    simp only [pollLoop, hp, Option.some.injEq] at h
    subst h
    exact ⟨by constructor <;> simp, rfl⟩
  | lock =>
    simp only [pollLoop, hp] at h
    split at h
    · cases h
    · cases h
      exact ⟨by constructor <;> simp, rfl⟩
  | first p | second p | last p =>
    simp only [pollLoop, hp, Option.map_eq_some_iff] at h
    obtain ⟨⟨u, q⟩, hu, rfl⟩ := h
    obtain ⟨hf, he, -⟩ := pollAndSend_frame hu
    exact ⟨⟨hf.1, hf.2, hf.3, hf.4, hf.5, hf.6, hf.7, hf.8, hf.9, hf.10, hf.11, hf.12⟩, he⟩

theorem pollLoop_started (h : s.pollLoop E cfg = some t) : s.pol ≠ .off ∧ t.pol ≠ .off := by
  cases hp : s.pol with
  | off | exited => simp [pollLoop, hp] at h
  | enter | test | wait | unlock | lastTest =>
    simp only [pollLoop, hp, Option.some.injEq] at h
    subst h
    refine ⟨by simp, ?_⟩
    try (dsimp only; split)
    all_goals simp
  | lock =>
    simp only [pollLoop, hp] at h
    split at h <;> cases h
    exact ⟨by simp, by simp⟩
  | first p | second p | last p =>
    simp only [pollLoop, hp, Option.map_eq_some_iff] at h
    obtain ⟨⟨u, q⟩, -, rfl⟩ := h
    refine ⟨by simp, ?_⟩
    dsimp only
    split <;> simp

/-- What a step of the network thread leaves alone. -/
structure NetFrame (s t : Shell σ) : Prop where
  initDone : t.initDone = s.initDone
  pollLocked : t.pollLocked = s.pollLocked
  strayUnlock : t.strayUnlock = s.strayUnlock
  hasEvaluator : t.hasEvaluator = s.hasEvaluator
  attached : t.attached = s.attached
  evl : t.evl = s.evl
  pol : t.pol = s.pol
  escaped : t.escaped = s.escaped
  passed : t.passed = s.passed
  ended : t.ended = s.ended
  selfDestruct : s.selfDestruct = true → t.selfDestruct = true
  evalDone : s.evalDone = true → t.evalDone = true

theorem netStep_frame (h : s.netStep E cfg = some t) : NetFrame s t := by
  cases hn : s.net with
  | idle | block e | gone => simp [netStep, hn] at h
  | spin l | stall | join =>
    simp only [netStep, hn] at h
    split at h <;> cases h
    constructor <;> simp
  | act d =>
    cases d <;> simp only [netStep, hn, Option.some.injEq] at h <;> subst h <;>
      constructor <;> simp [putOutput]
  | junk =>
    simp only [netStep, hn] at h
    split at h <;> cases h
    · constructor <;> simp
    · rw [noteRemoved_eq]
      constructor <;> simp
  | goodbye =>
    simp only [netStep, hn, Option.some.injEq] at h
    subst h
    rw [send_eq]
    constructor <;> simp
  | discipline l | push e | afterLine | cancel | exitMsg | checkEval | interrupt | clearPending
  | putAbort | finishEval | dtor | sentinel =>
    simp only [netStep, hn, Option.some.injEq] at h
    subst h
    constructor <;> simp [putOutput, Shell.finishEval]

/-- What a step of the eval thread leaves alone. -/
structure EvalFrame (s t : Shell σ) : Prop where
  initDone : t.initDone = s.initDone
  selfDestruct : t.selfDestruct = s.selfDestruct
  net : t.net = s.net
  pushed : t.pushed = s.pushed
  pol : t.pol = if s.evl = .enter then .enter else s.pol
  pollLocked : s.evl ≠ .unlockPoll → t.pollLocked = s.pollLocked ∧ t.strayUnlock = s.strayUnlock

theorem evalLoop_frame (h : s.evalLoop E cfg = some t) : EvalFrame s t := by
  cases he : s.evl with
  | off | running | exited => simp [evalLoop, he] at h
  | pop | drainPop =>
    simp only [evalLoop, he] at h
    split at h <;> cases h
    · rw [noteRemoved_eq]
      constructor <;> simp [he]
    · constructor <;> simp [he]
  | drainPoll p | lastPoll p =>
    simp only [evalLoop, he, Option.map_eq_some_iff] at h
    obtain ⟨⟨u, q⟩, hu, rfl⟩ := h
    obtain ⟨hf, -, hp, hi, hl, hk, -⟩ := pollAndSend_frame hu
    constructor <;> simp [he, hf.selfDestruct, hf.net, hf.pushed, hp, hi, hl, hk]
  | startEval d e | wakePop | wakeStart e | wakeEnd | whileNotDone | joinPoll =>
    simp only [evalLoop, he, wakePoll] at h
    split at h <;> cases h <;> constructor <;> simp [he]
  | enter | beginEval d e | call d e | caught | unlockPoll | loopTest | cancelReset | drainSize
  | drainTest | drainReset | lastTest | setShell | dropEval =>
    simp only [evalLoop, he, Option.some.injEq] at h
    subst h
    constructor <;> simp [he, Shell.finishEval]

end Shell

end CogServer
