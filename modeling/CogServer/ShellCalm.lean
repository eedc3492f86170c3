import CogServer.ShellMutex

/-! Runs without user interrupts, over an evaluator whose evaluations end. -/
namespace CogServer

open Transition

/-- How an evaluator behaves whose evaluations end without exceptions. `idle`
says that no evaluation is under way; then `poll_result` does not block and
hands out at most `backlog` more results before it returns the empty string. -/
structure Terminating {σ : Type*} (E : GenericEval σ) (idle : σ → Prop) (backlog : σ → ℕ) : Prop where
  throws : ∀ e v, E.throws e v = false
  evalExpr : ∀ e v, idle (E.evalExpr e v)
  clearPending : ∀ v, idle v → idle (E.clearPending v)
  pollResult : ∀ v, idle v → ∃ r w, E.pollResult v = some (r, w) ∧ idle w ∧
    backlog w ≤ backlog v ∧ (r ≠ [] → backlog w < backlog v)

/-- Positions of the network thread in `user_interrupt`. -/
def NetPc.interrupting : NetPc → Bool
  | .act (.interrupt _) | .junk | .checkEval | .interrupt | .clearPending | .putAbort
  | .finishEval => true
  | _ => false

/-- Positions of the eval thread in `eval_expr`, or about to call it. -/
def EvalPc.evaluating : EvalPc → Bool
  | .call _ _ | .running _ _ => true
  | _ => false

namespace Shell

variable {σ : Type*} {E : GenericEval σ} {cfg : ShellConfig} {idle : σ → Prop} {backlog : σ → ℕ}
  {R : σ → Prop} {s t : Shell σ}

/-- The line discipline does not take this line for a user interrupt. -/
def uninterrupting (cfg : ShellConfig) (l : Bytes) : Prop :=
  cfg.applyDiscipline = true → ∀ prompt pending ok, lineDiscipline prompt pending l ≠ .interrupt ok

/-- No line that arrives is a user interrupt. -/
def calm (cfg : ShellConfig) (_ : Shell σ) (a : Act) : Prop :=
  ∀ l, a = .line l → uninterrupting cfg l

/-- What holds without user interrupts. -/
structure Quiet (cfg : ShellConfig) (s : Shell σ) : Prop where
  net : s.net.interrupting = false
  line : ∀ l, s.net = .spin l ∨ s.net = .discipline l → uninterrupting cfg l
  removed : ∀ x ∈ s.removed, x.2 = true

theorem quiet_fresh (v : σ) : Quiet cfg (fresh v) := by
  constructor <;> simp [fresh, NetPc.interrupting]

theorem netStep_quiet (hq : Quiet cfg s) (h : s.netStep E cfg = some t) :
    Quiet cfg t ∧ t.evaluator = s.evaluator := by
  have h1 := hq.net
  have h2 := hq.line
  cases hn : s.net <;> simp only [hn, NetPc.interrupting, Bool.true_eq_false] at h1
  case idle | block | gone => simp [netStep, hn] at h
  case spin l =>
    simp only [netStep, hn] at h
    split at h <;> cases h
    refine ⟨⟨rfl, ?_, hq.removed⟩, rfl⟩
    rintro l' (hl | hl) <;> cases hl
    exact h2 l (.inl hn)
  case discipline l =>
    simp only [netStep, hn, Option.some.injEq] at h
    subst h
    refine ⟨⟨?_, by simp, hq.removed⟩, rfl⟩
    dsimp only
    split
    · rename_i hd
      have := h2 l (.inr hn) hd (s.getPrompt E cfg) (E.inputPending s.evaluator)
      cases hx : lineDiscipline (s.getPrompt E cfg) (E.inputPending s.evaluator) l <;>
        simp_all [NetPc.interrupting]
    · rfl
  case act d =>
    cases d <;> simp only [Bool.true_eq_false] at h1 <;>
      simp only [netStep, hn, putOutput, Option.some.injEq] at h <;> subst h <;>
      exact ⟨⟨rfl, by simp, hq.removed⟩, rfl⟩
  case goodbye =>
    simp only [netStep, hn, Option.some.injEq] at h
    subst h
    rw [send_eq]
    exact ⟨⟨rfl, by simp, hq.removed⟩, rfl⟩
  case afterLine =>
    simp only [netStep, hn, Option.some.injEq] at h
    subst h
    refine ⟨⟨?_, ?_, hq.removed⟩, rfl⟩ <;> dsimp only <;> split <;> simp [NetPc.interrupting]
  case stall | join =>
    simp only [netStep, hn] at h
    split at h <;> cases h
    exact ⟨⟨rfl, by simp, hq.removed⟩, rfl⟩
  case push | cancel | exitMsg | dtor | sentinel =>
    simp only [netStep, hn, putOutput, Option.some.injEq] at h
    subst h
    exact ⟨⟨rfl, by simp, hq.removed⟩, rfl⟩

/-- Outside `user_interrupt` only the eval thread takes from the queue. -/
theorem evalLoop_removed (hr : ∀ x ∈ s.removed, x.2 = true) (h : s.evalLoop E cfg = some t) :
    ∀ x ∈ t.removed, x.2 = true := by
  cases he : s.evl with
  | off | running | exited => simp [evalLoop, he] at h
  | pop | drainPop =>
    simp only [evalLoop, he] at h
    split at h <;> cases h
    · intro x hx
      dsimp only [noteRemoved] at hx
      split at hx
      · exact hr x hx
      · rcases List.mem_append.mp hx with hx | hx
        · exact hr x hx
        · rw [List.mem_singleton.mp hx]
    · exact hr
  | drainPoll p | lastPoll p =>
    simp only [evalLoop, he, Option.map_eq_some_iff] at h
    obtain ⟨⟨u, q⟩, hu, rfl⟩ := h
    dsimp only
    rw [(pollAndSend_frame hu).1.removed]
    exact hr
  | startEval d e | wakePop | wakeStart e | wakeEnd | whileNotDone | joinPoll =>
    simp only [evalLoop, he, wakePoll] at h
    split at h <;> cases h <;> exact hr
  | enter | beginEval d e | call d e | caught | unlockPoll | loopTest | cancelReset | drainSize
  | drainTest | drainReset | lastTest | setShell | dropEval =>
    simp only [evalLoop, he, Option.some.injEq] at h
    subst h
    exact hr

theorem quiet_step {a : Act} (hq : Quiet cfg s) (hc : calm cfg s a) (h : step E cfg s a = some t) :
    Quiet cfg t := by
  unfold step at h
  split at h
  · cases h
  · cases a with
    | net => exact (netStep_quiet hq h).1
    | poll =>
      obtain ⟨hf, -⟩ := pollLoop_frame h
      exact ⟨by rw [hf.net]; exact hq.net, by rw [hf.net]; exact hq.line,
        by rw [hf.removed]; exact hq.removed⟩
    | eval =>
      have hf := evalLoop_frame h
      exact ⟨by rw [hf.net]; exact hq.net, by rw [hf.net]; exact hq.line,
        evalLoop_removed hq.removed h⟩
    | ret =>
      cases he : s.evl <;> simp only [evalReturn, he, reduceCtorEq] at h
      case running d e =>
        split at h <;> cases d <;> cases h <;> exact ⟨hq.net, hq.line, hq.removed⟩
    | work =>
      simp only [evalWork] at h
      split at h <;> cases h
      exact ⟨hq.net, hq.line, hq.removed⟩
    | close =>
      simp only [close] at h
      split at h <;> cases h
      exact ⟨rfl, by simp, hq.removed⟩
    | unbar =>
      simp only [unbar] at h
      split at h <;> cases h
      exact ⟨rfl, by simp, hq.removed⟩
    | line l =>
      have hl := hc l rfl
      simp only [evalLine] at h
      split at h
      · cases h
      · split at h <;> cases h <;> refine ⟨rfl, ?_, hq.removed⟩ <;> rintro l' (hl' | hl') <;>
          cases hl' <;> exact hl

theorem Quiet.of_reach (h : Reach (shellSystem E cfg R) (calm cfg) s) : Quiet cfg s := by
  refine h.invariant (Quiet cfg) ?_ (fun _ _ _ _ hq hc ht => quiet_step hq hc ht)
  rintro _ ⟨v, -, rfl⟩
  exact quiet_fresh v

/-- Without user interrupts the expressions pass through the queue in order. -/
theorem pushed_split (hl : Ledger s) (hq : Quiet cfg s) :
    expressions s.pushed = s.passed ++ s.evl.held ++ expressions s.evalque.items := by
  have h1 := hl.taken
  have h2 := hl.popped
  rw [List.filter_eq_self.mpr hq.removed] at h2
  rw [h1, h2]

/-- A session that is over leaves no expression queued or under way. -/
theorem Control.nothing_left (hc : Control s) (hg : s.net = .gone) : s.evl.held = [] ∧
    s.evl.current = [] ∧ expressions s.evalque.items = [] ∧ s.escaped = false := by
  have hx := hc.escaped
  rcases hc.gone hg with he | he
  · have := (hc.unused he).2.2
    simp_all [EvalPc.held, EvalPc.current]
  · have := hc.drained (by simp [he, EvalPc.drained])
    simp_all [EvalPc.held, EvalPc.current]

/-- At the end of a session everything has been passed to `eval_expr`. -/
theorem passed_gone (hc : Control s) (hl : Ledger s) (hq : Quiet cfg s) (hg : s.net = .gone) :
    s.passed = expressions s.pushed ∧ s.ended = expressions s.pushed := by
  have h1 := pushed_split hl hq
  have he := hc.nothing_left hg
  have h2 := hl.ended he.2.2.2
  rw [he.1, he.2.2.1, List.append_nil, List.append_nil] at h1
  rw [he.2.1, List.append_nil] at h2
  exact ⟨h1.symm, h2 ▸ h1.symm⟩

/-- While no evaluation is under way, the evaluator is idle. -/
def Idle (idle : σ → Prop) (s : Shell σ) : Prop := s.evl.evaluating = false → idle s.evaluator

theorem pollAndSend_idle {p : PollPc} {q : Option PollPc} (hT : Terminating E idle backlog)
    (hi : idle s.evaluator) (h : pollAndSend E cfg s p = some (t, q)) : idle t.evaluator := by
  cases p with
  | getOutput | check =>
    simp only [pollAndSend] at h
    split at h <;> (try split at h) <;> cases h <;> first | exact hi | exact hT.clearPending _ hi
  | pollResult =>
    obtain ⟨r, w, hr, hw, -⟩ := hT.pollResult _ hi
    simp only [pollAndSend, hr, Option.some.injEq, Prod.mk.injEq] at h
    rw [← h.1]
    exact hw
  | getMore r | finishEval | prompt =>
    cases h
    exact hi
  | send o r =>
    cases h
    rw [send_eq]
    exact hi

theorem pollLoop_idle (hT : Terminating E idle backlog) (hi : idle s.evaluator)
    (h : s.pollLoop E cfg = some t) : idle t.evaluator := by
  cases hp : s.pol with
  | off | exited => simp [pollLoop, hp] at h
  | enter | wait | unlock | lastTest | test =>
    simp only [pollLoop, hp, Option.some.injEq] at h
    subst h
    exact hi
  | lock =>
    simp only [pollLoop, hp] at h
    split at h <;> cases h
    exact hi
  | first p | second p | last p =>
    simp only [pollLoop, hp, Option.map_eq_some_iff] at h
    obtain ⟨⟨u, q⟩, hu, rfl⟩ := h
    have hu := pollAndSend_idle hT hi hu
    exact hu

theorem evalLoop_idle (hT : Terminating E idle backlog) (hi : Idle idle s)
    (h : s.evalLoop E cfg = some t) : Idle idle t := by
  have hi' := hi
  unfold Idle at hi' ⊢
  cases he : s.evl <;> rw [he] at hi' <;>
    simp only [EvalPc.evaluating, true_implies, Bool.true_eq_false, false_implies] at hi'
  case off | running | exited => simp [evalLoop, he] at h
  case call d e =>
    simp only [evalLoop, he, Option.some.injEq] at h
    subst h
    simp [EvalPc.evaluating]
  case enter =>
    simp only [evalLoop, he, Option.some.injEq] at h
    subst h
    exact fun _ => hT.clearPending _ hi'
  case beginEval d e =>
    simp only [evalLoop, he, Option.some.injEq] at h
    subst h
    simp [EvalPc.evaluating]
  case pop | drainPop =>
    simp only [evalLoop, he] at h
    split at h <;> cases h
    · rw [noteRemoved_eq]
      exact fun _ => hi'
    · exact fun _ => hi'
  case drainPoll p | lastPoll p =>
    simp only [evalLoop, he, Option.map_eq_some_iff] at h
    obtain ⟨⟨u, q⟩, hu, rfl⟩ := h
    have hu := pollAndSend_idle hT hi' hu
    exact fun _ => hu
  case startEval | wakePop | wakeStart | wakeEnd | whileNotDone | joinPoll =>
    simp only [evalLoop, he, wakePoll] at h
    split at h <;> cases h <;> exact fun _ => hi'
  case caught | unlockPoll | loopTest | cancelReset | drainSize | drainTest | drainReset | lastTest
    | setShell | dropEval =>
    simp only [evalLoop, he, Option.some.injEq] at h
    subst h
    exact fun _ => hi'

theorem idle_step {a : Act} (hT : Terminating E idle backlog) (hc : Control s) (hq : Quiet cfg s)
    (hi : Idle idle s) (h : step E cfg s a = some t) : Idle idle t := by
  unfold step at h
  split at h
  · cases h
  · cases a with
    | net =>
      unfold Idle
      rw [(netStep_frame h).evl, (netStep_quiet hq h).2]
      exact hi
    | poll =>
      intro he
      rw [(pollLoop_frame h).2] at he
      exact pollLoop_idle hT (hi he) h
    | eval => exact evalLoop_idle hT hi h
    | ret =>
      cases he : s.evl <;> simp only [evalReturn, he, reduceCtorEq] at h
      case running d e =>
        split at h <;> cases d <;> cases h <;> exact fun _ => hT.evalExpr _ _
    | work =>
      simp only [evalWork] at h
      split at h <;> cases h
      rename_i he
      simp [Idle, he, EvalPc.evaluating]
    | close =>
      simp only [close] at h
      split at h <;> cases h
      exact hi
    | unbar =>
      simp only [unbar] at h
      split at h <;> cases h
      exact hi
    | line l =>
      simp only [evalLine] at h
      split at h
      · cases h
      · split at h <;> cases h
        · exact hi
        · rename_i he
          have he := hc.hasEvaluator.symm.trans (by simpa using he)
          refine fun _ => hi ?_
          cases hp : s.evl <;> simp_all [EvalPc.hasEvaluator, EvalPc.evaluating]

theorem Idle.of_reach (hT : Terminating E idle backlog)
    (h : Reach (shellSystem E cfg idle) (calm cfg) s) : Idle idle s := by
  refine h.invariant (Idle idle) ?_ (fun _ _ _ hr hi _ ht => idle_step hT (.of_reach hr) (.of_reach hr) hi ht)
  rintro _ ⟨v, hv, rfl⟩
  exact fun _ => hv

end Shell

end CogServer
