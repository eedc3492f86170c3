import CogServer.ShellCalm

/-! A session that is left to itself finishes its work: no thread of the shell
waits for another one for ever. -/
namespace CogServer

open Transition

/-- How far a call of `poll_and_send` is from its return. -/
def PollPc.callRank : PollPc → ℕ
  | .getOutput => 6
  | .pollResult => 5
  | .check | .getMore _ => 4
  | .finishEval => 3
  | .prompt => 2
  | .send _ _ => 1

/-- How far calls of `poll_and_send` are from the next look at the output. -/
def PollPc.workRank : PollPc → ℕ
  | .getMore _ => 15
  | .prompt => 14
  | .send _ _ => 13
  | .getOutput => 7
  | .pollResult => 6
  | .check => 5
  | .finishEval => 4

/-- How far the poll thread is from the end of its round, or from its exit when
`self_destruct` is set. -/
def PollerPc.roundRank (sd : Bool) : PollerPc → ℕ
  | .test => if sd then 48 else 100
  | .first p => 80 + p.callRank
  | .second p => 70 + p.callRank
  | .wait => 60
  | .enter => 50
  | .lock => 49
  | .unlock => 30
  | .last p => 10 + p.callRank
  | .lastTest => 9
  | .off | .exited => 0

def PollerPc.workRank : PollerPc → ℕ
  | .enter | .wait | .lastTest => 11
  | .lock => 10
  | .test => 9
  | .unlock => 8
  | .first p | .second p | .last p => p.workRank
  | .off | .exited => 0

/-- The two loops in which the eval thread polls for itself. -/
def EvalPc.ownPoll : Phase → PollPc → EvalPc
  | .serving, p => .lastPoll p
  | .draining, p => .drainPoll p

def EvalPc.ownTest : Phase → EvalPc
  | .serving => .lastTest
  | .draining => .drainTest

def EvalPc.ownNext : Phase → EvalPc
  | .serving => .setShell
  | .draining => .drainPop

def EvalPc.ownRank (done : Bool) : EvalPc → ℕ
  | .drainPoll p | .lastPoll p => if done then 1 + p.callRank else p.workRank
  | .drainTest | .lastTest => if done then 1 else 12
  | _ => 0

@[simp] theorem EvalPc.ownRank_poll (d : Phase) (p : PollPc) (b : Bool) :
    (EvalPc.ownPoll d p).ownRank b = if b then 1 + p.callRank else p.workRank := by
  cases d <;> rfl

@[simp] theorem EvalPc.ownRank_test (d : Phase) (b : Bool) :
    (EvalPc.ownTest d).ownRank b = if b then 1 else 12 := by
  cases d <;> rfl

theorem PollPc.callRank_pos (p : PollPc) : 0 < p.callRank ∧ p.callRank ≤ 6 := by
  cases p <;> simp [PollPc.callRank]

/-- How far the eval thread is from its next pop, or from its exit. -/
def EvalPc.rank : EvalPc → ℕ
  | .wakeStart _ => 79
  | .startEval _ _ => 78
  | .beginEval _ _ => 77
  | .call _ _ => 76
  | .running _ _ => 75
  | .wakeEnd => 74
  | .caught => 73
  | .unlockPoll => 72
  | .loopTest => 71
  | .enter => 60
  | .whileNotDone => 50
  | .wakePop => 49
  | .pop => 48
  | .cancelReset => 30
  | .joinPoll | .drainReset => 29
  | .drainSize => 28
  | .drainPoll _ | .drainTest => 27
  | .drainPop => 26
  | .lastPoll _ | .lastTest => 20
  | .setShell => 19
  | .dropEval => 18
  | .off | .exited => 0

/-- How far the network thread is from the end of a line, or of the shell. -/
def NetPc.rank : NetPc → ℕ
  | .spin _ => 20
  | .discipline _ => 19
  | .act _ => 18
  | .block _ => 17
  | .push _ | .cancel => 16
  | .exitMsg => 15
  | .afterLine => 14
  | .goodbye => 13
  | .stall => 12
  | .dtor => 11
  | .sentinel => 10
  | .join => 9
  | _ => 0

namespace Shell

variable {σ : Type*} {E : GenericEval σ} {cfg : ShellConfig} {idle : σ → Prop} {backlog : σ → ℕ}
  {s t : Shell σ}

/-- What is still to be sent before `poll_result` returns the empty string. -/
def load (backlog : σ → ℕ) (s : Shell σ) : ℕ :=
  32 * (2 * backlog s.evaluator + if s.pendingOutput = [] then 0 else 1)

theorem pollAndSend_total (cfg : ShellConfig) (hT : Terminating E idle backlog)
    (hi : idle s.evaluator) (p : PollPc) :
    ∃ t q, pollAndSend E cfg s p = some (t, q) ∧ ∀ p', q = some p' → p'.callRank < p.callRank := by
  cases p with
  | getOutput =>
    by_cases h : s.pendingOutput = []
    · exact ⟨_, _, if_pos h, by simp [PollPc.callRank]⟩
    · exact ⟨_, _, if_neg h, by simp [PollPc.callRank]⟩
  | pollResult =>
    obtain ⟨r, w, hr, -⟩ := hT.pollResult _ hi
    refine ⟨_, _, by simp only [pollAndSend, hr]; rfl, ?_⟩
    split <;> simp [PollPc.callRank]
  | check =>
    by_cases h : s.evalDone = true
    · by_cases he : E.evalError s.evaluator = true
      · exact ⟨_, _, (if_pos h).trans (if_pos he), by simp [PollPc.callRank]⟩
      · exact ⟨_, _, (if_pos h).trans (if_neg he), by simp [PollPc.callRank]⟩
    · exact ⟨_, _, if_neg h, by simp [PollPc.callRank]⟩
  | getMore r | finishEval | prompt | send o r => exact ⟨_, _, rfl, by simp [PollPc.callRank]⟩

/-- Before `_eval_done` is set, every step of a poll brings that nearer. -/
theorem pollAndSend_work {p : PollPc} {q : Option PollPc} (hT : Terminating E idle backlog)
    (hi : idle s.evaluator) (hd : s.evalDone = false) (h : pollAndSend E cfg s p = some (t, q)) :
    t.evalDone = true ∨
    load backlog t + q.elim 12 PollPc.workRank < load backlog s + p.workRank := by
  cases p with
  | getOutput =>
    simp only [pollAndSend] at h
    split at h <;> cases h <;> refine .inr ?_
    · simp [PollPc.workRank]
    · rename_i hp
      simp only [load, hp, ↓reduceIte, Option.elim_some, PollPc.workRank]
      omega
  | pollResult =>
    obtain ⟨r, w, hr, -, hle, hlt⟩ := hT.pollResult _ hi
    simp only [pollAndSend, hr, Option.some.injEq, Prod.mk.injEq] at h
    obtain ⟨rfl, rfl⟩ := h
    refine .inr ?_
    by_cases hn : r = []
    · simp only [load, hn, ↓reduceIte, Option.elim_some, PollPc.workRank]
      omega
    · have := hlt hn
      simp only [load, hn, ↓reduceIte, Option.elim_some, PollPc.workRank]
      omega
  | getMore r =>
    cases h
    refine .inr ?_
    simp only [load, ↓reduceIte, Option.elim_some, PollPc.workRank]
    omega
  | check =>
    simp only [pollAndSend, hd, Bool.false_eq_true, ↓reduceIte, Option.some.injEq,
      Prod.mk.injEq] at h
    obtain ⟨rfl, rfl⟩ := h
    exact .inr (by simp [PollPc.workRank])
  | finishEval =>
    cases h
    exact .inl rfl
  | prompt =>
    cases h
    exact .inr (by simp [PollPc.workRank])
  | send o r =>
    cases h
    rw [send_eq]
    exact .inr (by simp [load, PollPc.workRank])

/-- While it holds the mutex, the poll thread gets nearer to giving it up; once
everything is done and `self_destruct` is set, it gets nearer to its exit. -/
theorem pollLoop_round (hT : Terminating E idle backlog) (hm : Mutex s) (hi : idle s.evaluator)
    (hp : s.pol.locked = true ∨
      s.selfDestruct = true ∧ s.evalDone = true ∧ s.pol ≠ .off ∧ s.pol ≠ .exited) :
    ∃ t, s.pollLoop E cfg = some t ∧
      t.pol.roundRank t.selfDestruct < s.pol.roundRank s.selfDestruct := by
  have hl := hm.locked
  cases hs : s.pol with
  | off | exited => simp [hs, PollerPc.locked] at hp
  | enter | wait | unlock =>
    refine ⟨_, by simp only [pollLoop, hs]; rfl, ?_⟩
    simp [PollerPc.roundRank, PollPc.callRank]
  | lock =>
    have hl : s.pollLocked = false := by simpa [hs, PollerPc.locked] using hl
    have hsd : s.selfDestruct = true := by
      simp only [hs, PollerPc.locked] at hp
      simpa using And.left (hp.resolve_left (by simp))
    refine ⟨_, by simp only [pollLoop, hs, hl]; rfl, ?_⟩
    simp [PollerPc.roundRank, hsd]
  | test =>
    refine ⟨_, by simp only [pollLoop, hs]; rfl, ?_⟩
    cases hsd : s.selfDestruct <;> simp [PollerPc.roundRank, PollPc.callRank]
  | lastTest =>
    have hd : s.evalDone = true := by
      simp only [hs, PollerPc.locked] at hp
      exact (hp.resolve_left (by simp)).2.1
    refine ⟨_, by simp only [pollLoop, hs]; rfl, ?_⟩
    simp [PollerPc.roundRank, hd]
  | first p | second p | last p =>
    obtain ⟨t, q, ht, hq⟩ := pollAndSend_total cfg hT hi p
    refine ⟨_, by simp only [pollLoop, hs, ht]; rfl, ?_⟩
    cases q with
    | none => cases p <;> simp [PollerPc.roundRank, PollPc.callRank]
    | some p' =>
      have := hq p' rfl
      simpa [PollerPc.roundRank] using this

theorem pollLoop_work (hT : Terminating E idle backlog) (hm : Mutex s) (hi : idle s.evaluator)
    (hd : s.evalDone = false) (hp : s.pol ≠ .off ∧ s.pol ≠ .exited) :
    ∃ t, s.pollLoop E cfg = some t ∧ (t.pol ≠ .off ∧ t.pol ≠ .exited) ∧
      (t.evalDone = true ∨ load backlog t + t.pol.workRank < load backlog s + s.pol.workRank) := by
  have hl := hm.locked
  cases hs : s.pol with
  | off | exited => simp [hs] at hp
  | enter | wait | unlock =>
    refine ⟨_, by simp only [pollLoop, hs]; rfl, by simp, .inr ?_⟩
    simp [load, PollerPc.workRank, PollPc.workRank]
  | lock =>
    have hl : s.pollLocked = false := by simpa [hs, PollerPc.locked] using hl
    refine ⟨_, by simp only [pollLoop, hs, hl]; rfl, by simp, .inr ?_⟩
    simp [load, PollerPc.workRank]
  | test =>
    refine ⟨_, by simp only [pollLoop, hs]; rfl, ?_, .inr ?_⟩ <;> cases s.selfDestruct <;>
      simp [load, PollerPc.workRank, PollPc.workRank]
  | lastTest =>
    refine ⟨_, by simp only [pollLoop, hs]; rfl, by simp [hd], .inr ?_⟩
    simp [load, hd, PollerPc.workRank, PollPc.workRank]
  | first p | second p | last p =>
    obtain ⟨t, q, ht, -⟩ := pollAndSend_total cfg hT hi p
    refine ⟨_, by simp only [pollLoop, hs, ht]; rfl, by cases q <;> simp, ?_⟩
    refine (pollAndSend_work hT hi hd ht).imp_right fun h => ?_
    cases q with
    | none =>
      simp only [load, Option.elim_none, PollerPc.workRank, PollPc.workRank] at h ⊢
      omega
    | some p' => exact h

/-- Only one kind of action. -/
def only (a : Act) (_ : Shell σ) (b : Act) : Prop := b = a

/-- The eval thread and the poll thread, and no other. -/
def inner (_ : Shell σ) (a : Act) : Prop := a = .eval ∨ a = .ret ∨ a = .poll

/-- The threads of the shell, and nothing that the client does. -/
def server (_ : Shell σ) (a : Act) : Prop :=
  a = .net ∨ a = .unbar ∨ a = .eval ∨ a = .ret ∨ a = .poll

theorem server_calm {a : Act} (h : server s a) : calm cfg s a := by
  rintro l rfl
  simp [server] at h

theorem inner_server {a : Act} (h : inner s a) : server s a := by
  unfold inner at h
  unfold server
  tauto

theorem step_poll (hm : Mutex s) : step E cfg s .poll = s.pollLoop E cfg := by
  simp [step, hm.escaped]

theorem step_eval (hm : Mutex s) : step E cfg s .eval = s.evalLoop E cfg := by
  simp [step, hm.escaped]

theorem step_net (hm : Mutex s) : step E cfg s .net = s.netStep E cfg := by
  simp [step, hm.escaped]

section Paths

variable (hT : Terminating E idle backlog)

include hT

theorem reach_mutex (hr : Reach (shellSystem E cfg idle) (calm cfg) s) : Mutex s :=
  Mutex.of_reach (fun _ _ _ _ _ _ _ => hT.throws _ _) hr

theorem poll_step (hr : Reach (shellSystem E cfg idle) (calm cfg) s)
    (h : s.pollLoop E cfg = some t) : Path (shellSystem E cfg idle) (only .poll) s t ∧
    Reach (shellSystem E cfg idle) (calm cfg) t := by
  have ht : (shellSystem E cfg idle).step s .poll = some t :=
    (step_poll (reach_mutex hT hr)).trans h
  exact ⟨.single rfl ht, .step hr (by simp [calm]) ht⟩

/-- The poll thread alone changes neither the queue nor the other positions. -/
theorem poll_path (h : Path (shellSystem E cfg idle) (only .poll) s t)
    (hr : Reach (shellSystem E cfg idle) (calm cfg) s) :
    Reach (shellSystem E cfg idle) (calm cfg) t ∧ t.evl = s.evl ∧ t.evalque = s.evalque ∧
    t.net = s.net ∧ t.selfDestruct = s.selfDestruct := by
  refine h.invariant (fun u => Reach (shellSystem E cfg idle) (calm cfg) u ∧ u.evl = s.evl ∧
    u.evalque = s.evalque ∧ u.net = s.net ∧ u.selfDestruct = s.selfDestruct) ?_ ⟨hr, rfl, rfl, rfl, rfl⟩
  rintro u a v ⟨hu, h1, h2, h3, h4⟩ rfl hv
  have hp : u.pollLoop E cfg = some v := (step_poll (reach_mutex hT hu)).symm.trans hv
  obtain ⟨hf, he⟩ := pollLoop_frame hp
  exact ⟨.step hu (by simp [calm]) hv, he.trans h1, hf.evalque.trans h2, hf.net.trans h3,
    hf.selfDestruct.trans h4⟩

/-- The mutex comes free. -/
theorem poll_release (hr : Reach (shellSystem E cfg idle) (calm cfg) s)
    (he : s.evl.evaluating = false) :
    ∃ t, Path (shellSystem E cfg idle) (only .poll) s t ∧ t.pollLocked = false := by
  refine (Path.progress (fun u => Reach (shellSystem E cfg idle) (calm cfg) u ∧ u.evl.evaluating = false)
    (fun u => u.pollLocked = false) (fun u => u.pol.roundRank u.selfDestruct) ?_ s ⟨hr, he⟩).imp
    fun t ht => ⟨ht.1, ht.2.2⟩
  rintro u ⟨hu, hue⟩ hg
  have hm := reach_mutex hT hu
  have hl : u.pol.locked = true := by simpa [hm.locked] using hg
  obtain ⟨v, hv, hlt⟩ := pollLoop_round hT hm (Idle.of_reach hT hu hue) (.inl hl)
  obtain ⟨hpath, hreach⟩ := poll_step hT hu hv
  refine ⟨v, hpath, ⟨hreach, ?_⟩, hlt⟩
  rw [(pollLoop_frame hv).2]
  exact hue

/-- The poll thread sets `_eval_done`. -/
theorem poll_done (hr : Reach (shellSystem E cfg idle) (calm cfg) s) (he : s.evl.evaluating = false)
    (hp : s.evalDone = true ∨ s.pol ≠ .off ∧ s.pol ≠ .exited) :
    ∃ t, Path (shellSystem E cfg idle) (only .poll) s t ∧ t.evalDone = true := by
  refine (Path.progress (fun u => Reach (shellSystem E cfg idle) (calm cfg) u ∧
      u.evl.evaluating = false ∧ (u.evalDone = true ∨ u.pol ≠ .off ∧ u.pol ≠ .exited))
    (fun u => u.evalDone = true)
    (fun u => if u.evalDone then 0 else 1 + load backlog u + u.pol.workRank) ?_ s ⟨hr, he, hp⟩).imp
    fun t ht => ⟨ht.1, ht.2.2⟩
  rintro u ⟨hu, hue, hup⟩ hg
  have hm := reach_mutex hT hu
  have hd : u.evalDone = false := by simpa using hg
  obtain ⟨v, hv, hvp, hw⟩ := pollLoop_work hT hm (Idle.of_reach hT hu hue) hd (hup.resolve_left hg)
  obtain ⟨hpath, hreach⟩ := poll_step hT hu hv
  refine ⟨v, hpath, ⟨hreach, ?_, .inr hvp⟩, ?_⟩
  · rw [(pollLoop_frame hv).2]
    exact hue
  · simp only [hd, Bool.false_eq_true, ↓reduceIte]
    split
    · omega
    · have := hw.resolve_left ‹_›
      omega

/-- When the shell is being left, the poll thread exits. -/
theorem poll_exit (hr : Reach (shellSystem E cfg idle) (calm cfg) s) (he : s.evl = .joinPoll) :
    ∃ t, Path (shellSystem E cfg idle) (only .poll) s t ∧ t.pol = .exited := by
  have hoff (u : Shell σ) (hu : Reach (shellSystem E cfg idle) (calm cfg) u) (hj : u.evl = .joinPoll) :
      u.pol ≠ .off := by
    intro hp
    rcases (Control.of_reach hu).polling hp with h | h <;> simp [hj] at h
  by_cases hex : s.pol = .exited
  · exact ⟨s, .refl s, hex⟩
  obtain ⟨u, hsu, hud⟩ :=
    poll_done hT hr (by simp [he, EvalPc.evaluating]) (.inr ⟨hoff s hr he, hex⟩)
  obtain ⟨hu, hue, -⟩ := poll_path hT hsu hr
  refine (Path.progress
    (fun u => Reach (shellSystem E cfg idle) (calm cfg) u ∧ u.evl = .joinPoll ∧ u.evalDone = true)
    (fun u => u.pol = .exited) (fun u => u.pol.roundRank u.selfDestruct) ?_ u
    ⟨hu, hue.trans he, hud⟩).imp fun t ht => ⟨hsu.trans ht.1, ht.2.2⟩
  rintro u ⟨hu, hue, hud⟩ hg
  have hm := reach_mutex hT hu
  have hsd := (Control.of_reach hu).leftLoop (by simp [hue, EvalPc.leftLoop])
  obtain ⟨v, hv, hlt⟩ := pollLoop_round hT hm
    (Idle.of_reach hT hu (by simp [hue, EvalPc.evaluating])) (.inr ⟨hsd, hud, hoff u hu hue, hg⟩)
  obtain ⟨hpath, hreach⟩ := poll_step hT hu hv
  obtain ⟨hf, hve⟩ := pollLoop_frame hv
  exact ⟨v, hpath, ⟨hreach, hve.trans hue, hf.evalDone hud⟩, hlt⟩

theorem eval_step (hr : Reach (shellSystem E cfg idle) (calm cfg) s)
    (h : s.evalLoop E cfg = some t) :
    Path (shellSystem E cfg idle) inner s t ∧ Reach (shellSystem E cfg idle) (calm cfg) t := by
  have ht : (shellSystem E cfg idle).step s .eval = some t :=
    (step_eval (reach_mutex hT hr)).trans h
  exact ⟨.single (.inl rfl) ht, .step hr (by simp [calm]) ht⟩

omit hT in
theorem evalLoop_ownPoll {d : Phase} {p : PollPc} (h : s.evl = .ownPoll d p) :
    s.evalLoop E cfg = (pollAndSend E cfg s p).map fun r =>
      { r.1 with evl := match r.2 with | some q => .ownPoll d q | none => .ownTest d } := by
  cases d <;> simp only [evalLoop, h, EvalPc.ownPoll] <;> rfl

omit hT in
theorem evalLoop_ownTest (cfg : ShellConfig) {d : Phase} (h : s.evl = .ownTest d) :
    s.evalLoop E cfg =
      some { s with evl := if s.evalDone then .ownNext d else .ownPoll d .getOutput } := by
  cases d <;> simp only [evalLoop, h, EvalPc.ownTest, EvalPc.ownNext, EvalPc.ownPoll]

/-- The eval thread polls for itself until `_eval_done` is set. -/
theorem own_loop {d : Phase} (hr : Reach (shellSystem E cfg idle) (calm cfg) s)
    (hs : s.evl = .ownTest d ∨ ∃ p, s.evl = .ownPoll d p) :
    ∃ t, Path (shellSystem E cfg idle) inner s t ∧ t.evl = .ownNext d ∧ t.evalque = s.evalque := by
  have hI : (s.evl = .ownNext d ∨ s.evl = .ownTest d ∨ ∃ p, s.evl = .ownPoll d p) ∧
      s.evalque = s.evalque := ⟨.inr hs, rfl⟩
  refine (Path.progress (fun u => Reach (shellSystem E cfg idle) (calm cfg) u ∧
      (u.evl = .ownNext d ∨ u.evl = .ownTest d ∨ ∃ p, u.evl = .ownPoll d p) ∧ u.evalque = s.evalque)
    (fun u => u.evl = .ownNext d)
    (fun u => if u.evalDone then u.evl.ownRank true else 100 + load backlog u + u.evl.ownRank false)
    ?_ s ⟨hr, hI⟩).imp fun t ht => ⟨ht.1, ht.2.2, ht.2.1.2.2⟩
  rintro u ⟨hu, hue, huq⟩ hg
  rcases hue.resolve_left hg with hue | ⟨p, hue⟩
  · have hv := evalLoop_ownTest (E := E) cfg hue
    obtain ⟨hpath, hreach⟩ := eval_step hT hu hv
    refine ⟨_, hpath, ⟨hreach, ?_, huq⟩, ?_⟩
    · dsimp only
      split <;> simp
    · cases hd : u.evalDone <;> cases d <;>
        simp [hue, load, EvalPc.ownTest, EvalPc.ownNext, EvalPc.ownPoll, EvalPc.ownRank,
          PollPc.workRank]
  · have hi : idle u.evaluator := Idle.of_reach hT hu (by cases d <;> simp [hue, EvalPc.ownPoll, EvalPc.evaluating])
    obtain ⟨v, q, hv, hq⟩ := pollAndSend_total cfg hT hi p
    have hf := (pollAndSend_frame hv).1
    obtain ⟨hpath, hreach⟩ := eval_step hT hu ((evalLoop_ownPoll hue).trans (by rw [hv]; rfl))
    refine ⟨_, hpath, ⟨hreach, by cases q <;> simp, hf.evalque.trans huq⟩, ?_⟩
    rw [hue]
    cases hd : u.evalDone
    · by_cases hvd : v.evalDone = true
      · simp only [hvd, ↓reduceIte, Bool.false_eq_true]
        cases q with
        | none => simp only [EvalPc.ownRank_test, ↓reduceIte]; omega
        | some p' =>
          have := p'.callRank_pos
          simp only [EvalPc.ownRank_poll, ↓reduceIte]
          omega
      · have hlt := (pollAndSend_work hT hi hd hv).resolve_left hvd
        simp only [hvd, ↓reduceIte, Bool.false_eq_true]
        cases q with
        | none =>
          simp only [load, Option.elim_none, EvalPc.ownRank_test, EvalPc.ownRank_poll,
            Bool.false_eq_true, ↓reduceIte] at hlt ⊢
          omega
        | some p' =>
          simp only [load, Option.elim_some, EvalPc.ownRank_poll, Bool.false_eq_true,
            ↓reduceIte] at hlt ⊢
          omega
    · simp only [hf.evalDone hd, ↓reduceIte]
      cases q with
      | none => simpa using p.callRank_pos.1
      | some p' => simpa using hq p' rfl

/-- The eval thread has nothing to do until something is pushed. -/
def Rest (s : Shell σ) : Prop :=
  s.evl = .off ∨ s.evl = .exited ∨
    s.evl = .pop ∧ s.evalque.items = [] ∧ s.evalque.cancelled = false

/-- What is left to do for the eval thread. -/
def evalRank (s : Shell σ) : ℕ :=
  200 * s.evalque.items.length + (if s.evalque.cancelled then 100 else 0) + s.evl.rank

/-- The poll thread prepares a step of the eval thread. -/
theorem after_poll {u : Shell σ} (hr : Reach (shellSystem E cfg idle) (calm cfg) s)
    (hp : Path (shellSystem E cfg idle) (only .poll) s u) (hu : u.evalLoop E cfg = some t) :
    Path (shellSystem E cfg idle) inner s t :=
  (hp.mono fun _ _ h => .inr (.inr h)).trans (eval_step hT (poll_path hT hp hr).1 hu).1

/-- An expression that is taken from the queue is worth more than all that follows from it. -/
theorem item_advance (hr : Reach (shellSystem E cfg idle) (calm cfg) s) {e : Bytes}
    {rest : List Bytes} (next : EvalPc) (hq : s.evalque.cancelled = false)
    (hi : s.evalque.items = e :: rest)
    (hv : ∀ q, s.evalque.pop = .item e q →
      s.evalLoop E cfg = some { s.noteRemoved e true with evalque := q, evl := next })
    (hn : next.rank < 200 + s.evl.rank) :
    ∃ t, Path (shellSystem E cfg idle) inner s t ∧ evalRank t < evalRank s := by
  have hpop : s.evalque.pop = .item e { s.evalque with items := rest } := by
    simp [CancelQueue.pop, hq, hi]
  refine ⟨_, (eval_step hT hr (hv _ hpop)).1, ?_⟩
  simp only [evalRank, hi, hq, List.length_cons]
  omega

/-- Unless it has nothing to do, the eval thread gets on, the poll thread helping. -/
theorem eval_advance (hr : Reach (shellSystem E cfg idle) (calm cfg) s) (hs : ¬ Rest s) :
    ∃ t, Path (shellSystem E cfg idle) inner s t ∧ evalRank t < evalRank s := by
  have hm := reach_mutex hT hr
  have hc := Control.of_reach hr
  have hj := Joins.of_reach hr
  have hw (next : EvalPc) (he : s.evl.evaluating = false) (hn : next.rank < s.evl.rank)
      (hw : ∀ u : Shell σ, u.evl = s.evl → u.evalLoop E cfg = u.wakePoll next) :
      ∃ t, Path (shellSystem E cfg idle) inner s t ∧ evalRank t < evalRank s := by
    obtain ⟨u, hp, hu⟩ := poll_release hT hr he
    obtain ⟨-, hue, huq, -⟩ := poll_path hT hp hr
    refine ⟨_, after_poll hT hr hp ((hw u hue).trans (by rw [wakePoll, hu]; rfl)), ?_⟩
    simp only [evalRank, huq]
    omega
  cases he : s.evl with
  | off => exact absurd (.inl he) hs
  | exited => exact absurd (.inr (.inl he)) hs
  | wakePop | wakeStart e | wakeEnd =>
    refine hw _ (by simp [he, EvalPc.evaluating]) ?_ (fun u hu => by simp only [evalLoop, hu, he]; rfl)
    simp [he, EvalPc.rank]
  | whileNotDone =>
    have hp : s.evalDone = true ∨ s.pol ≠ .off ∧ s.pol ≠ .exited := by
      by_cases hex : s.pol = .exited
      · exact .inl (hj.waiting hex he)
      · refine .inr ⟨fun hoff => ?_, hex⟩
        rcases hc.polling hoff with h | h <;> simp [he] at h
    obtain ⟨u, hp, hu⟩ := poll_done hT hr (by simp [he, EvalPc.evaluating]) hp
    obtain ⟨-, hue, huq, -⟩ := poll_path hT hp hr
    refine ⟨_, after_poll hT hr hp (by simp only [evalLoop, hue, he, hu]; rfl), ?_⟩
    simp [evalRank, huq, he, EvalPc.rank]
  | joinPoll =>
    obtain ⟨u, hp, hu⟩ := poll_exit hT hr he
    obtain ⟨-, hue, huq, -⟩ := poll_path hT hp hr
    refine ⟨_, after_poll hT hr hp (by simp only [evalLoop, hue, he, hu]; rfl), ?_⟩
    simp [evalRank, huq, he, EvalPc.rank]
  | drainPoll p | drainTest =>
    obtain ⟨t, hp, hte, htq⟩ := own_loop (d := .draining) hT hr
      (by simp [he, EvalPc.ownTest, EvalPc.ownPoll])
    refine ⟨t, hp, ?_⟩
    simp [evalRank, hte, htq, he, EvalPc.ownNext, EvalPc.rank]
  | lastPoll p | lastTest =>
    obtain ⟨t, hp, hte, htq⟩ := own_loop (d := .serving) hT hr
      (by simp [he, EvalPc.ownTest, EvalPc.ownPoll])
    refine ⟨t, hp, ?_⟩
    simp [evalRank, hte, htq, he, EvalPc.ownNext, EvalPc.rank]
  | running d e =>
    have ht := hT.throws e s.evaluator
    obtain ⟨t, hv, hlt⟩ : ∃ t, s.evalReturn E = some t ∧ evalRank t < evalRank s := by
      cases d <;> refine ⟨_, by simp only [evalReturn, he, ht]; rfl, ?_⟩ <;>
        simp [evalRank, he, EvalPc.rank]
    have hv' : (shellSystem E cfg idle).step s .ret = some t := by
      simpa [shellSystem, step, hm.escaped] using hv
    exact ⟨t, .single (.inr (.inl rfl)) hv', hlt⟩
  | pop =>
    cases hq : s.evalque.cancelled
    · cases hi : s.evalque.items with
      | nil => exact absurd (.inr (.inr ⟨he, hi, hq⟩)) hs
      | cons e rest =>
        refine item_advance hT hr (if e = [] then .loopTest else .wakeStart e) hq hi
          (fun q hv => by simp only [evalLoop, he, hv]) ?_
        rw [he]
        split <;> simp [EvalPc.rank]
    · have hv := CancelQueue.pop_eq_cancelled.mpr hq
      refine ⟨_, (eval_step hT hr (by simp only [evalLoop, he, hv]; rfl)).1, ?_⟩
      simp [evalRank, he, EvalPc.rank]
  | drainPop =>
    cases hq : s.evalque.cancelled
    · cases hi : s.evalque.items with
      | nil => exact absurd hi (hj.drainable (by simp [he, EvalPc.drains]))
      | cons e rest =>
        refine item_advance hT hr (if e = [] then .drainSize else .startEval .draining e) hq hi
          (fun q hv => by simp only [evalLoop, he, hv]) ?_
        rw [he]
        split <;> simp [EvalPc.rank]
    · have hv := CancelQueue.pop_eq_cancelled.mpr hq
      obtain ⟨hp, hu⟩ := eval_step hT hr (s := s) (t := { s with evl := .drainReset })
        (by simp only [evalLoop, he, hv])
      refine ⟨_, hp.trans (eval_step hT hu (by simp only [evalLoop]; rfl)).1, ?_⟩
      simp [evalRank, he, hq, CancelQueue.cancelReset, EvalPc.rank]
  | startEval d e =>
    have hd := hc.sawDone (by simp [he, EvalPc.sawDone])
    refine ⟨_, (eval_step hT hr (by simp only [evalLoop, he, hd]; rfl)).1, ?_⟩
    simp [evalRank, he, EvalPc.rank]
  | caught => exact absurd he hm.caught.1
  | unlockPoll => exact absurd he hm.caught.2
  | enter | beginEval d e | call d e | setShell | dropEval =>
    refine ⟨_, (eval_step hT hr (by simp only [evalLoop, he]; rfl)).1, ?_⟩
    simp [evalRank, he, EvalPc.rank]
  | cancelReset | drainReset =>
    refine ⟨_, (eval_step hT hr (by simp only [evalLoop, he]; rfl)).1, ?_⟩
    simp only [evalRank, he, EvalPc.rank, CancelQueue.items_cancelReset,
      CancelQueue.cancelled_cancelReset, Bool.false_eq_true, ↓reduceIte]
    omega
  | loopTest =>
    refine ⟨_, (eval_step hT hr (by simp only [evalLoop, he]; rfl)).1, ?_⟩
    cases s.selfDestruct <;> simp [evalRank, he, EvalPc.rank]
  | drainSize =>
    refine ⟨_, (eval_step hT hr (by simp only [evalLoop, he]; rfl)).1, ?_⟩
    by_cases hz : 0 < s.evalque.size <;> simp [evalRank, he, hz, EvalPc.rank]

theorem inner_path (h : Path (shellSystem E cfg idle) inner s t)
    (hr : Reach (shellSystem E cfg idle) (calm cfg) s) :
    Reach (shellSystem E cfg idle) (calm cfg) t ∧ t.net = s.net := by
  refine ⟨h.reach (fun _ _ h => server_calm (inner_server h)) hr, ?_⟩
  refine (h.invariant (fun u => Reach (shellSystem E cfg idle) (calm cfg) u ∧ u.net = s.net) ?_
    ⟨hr, rfl⟩).2
  rintro u a v ⟨hu, hn⟩ ha hv
  have hm := reach_mutex hT hu
  refine ⟨.step hu (server_calm (inner_server ha)) hv, ?_⟩
  rcases ha with rfl | rfl | rfl
  · exact (evalLoop_frame ((step_eval hm).symm.trans hv)).net.trans hn
  · have hv : u.evalReturn E = some v := by simpa [shellSystem, step, hm.escaped] using hv
    cases he : u.evl <;> simp only [evalReturn, he, reduceCtorEq] at hv
    case running d e => split at hv <;> cases d <;> cases hv <;> exact hn
  · exact (pollLoop_frame ((step_poll hm).symm.trans hv)).1.net.trans hn

theorem eval_rest (hr : Reach (shellSystem E cfg idle) (calm cfg) s) :
    ∃ t, Path (shellSystem E cfg idle) inner s t ∧ Rest t := by
  refine (Path.progress (Reach (shellSystem E cfg idle) (calm cfg)) Rest evalRank ?_ s hr).imp
    fun t ht => ⟨ht.1, ht.2.2⟩
  intro u hu hg
  obtain ⟨t, hp, hlt⟩ := eval_advance hT hu hg
  exact ⟨t, hp, (inner_path hT hp hu).1, hlt⟩

theorem net_step (hr : Reach (shellSystem E cfg idle) (calm cfg) s) (h : s.netStep E cfg = some t) :
    Path (shellSystem E cfg idle) server s t :=
  .single (.inl rfl) ((step_net (reach_mutex hT hr)).trans h)

omit hT in
/-- At rest `_eval_done` is set and everything pushed has been evaluated. -/
theorem rest_done (hr : Reach (shellSystem E cfg idle) (calm cfg) s) (hs : Rest s) :
    s.evalDone = true ∧ s.passed = expressions s.pushed := by
  have hc := Control.of_reach hr
  have hq := pushed_split (Ledger.of_reach hr) (.of_reach hr)
  rcases hs with he | he | ⟨he, hi, -⟩
  · obtain ⟨-, hp, hi⟩ := hc.unused he
    rw [hp, he, hi] at hq
    have hpa : s.passed = [] := by simpa [EvalPc.held] using hq
    have ha := hc.acks
    refine ⟨?_, by rw [hpa, hp]; rfl⟩
    cases hd : s.evalDone
    · simp [hpa, he, EvalPc.started, hd] at ha
    · rfl
  · rw [he, hc.drained (by simp [he, EvalPc.drained])] at hq
    exact ⟨hc.sawDone (by simp [he, EvalPc.sawDone]), by simpa [EvalPc.held] using hq.symm⟩
  · rw [he, hi] at hq
    exact ⟨hc.sawDone (by simp [he, EvalPc.sawDone]), by simpa [EvalPc.held] using hq.symm⟩

/-- Between two lines, or when the shell is gone, the network thread stops;
anywhere else it gets on once the eval thread is at rest. -/
theorem net_advance (hr : Reach (shellSystem E cfg idle) (calm cfg) s) (hs : Rest s)
    (hn : ¬ (s.net = .idle ∨ s.net = .gone)) :
    ∃ t, Path (shellSystem E cfg idle) server s t ∧ t.net.rank < s.net.rank := by
  have hm := reach_mutex hT hr
  have hc := Control.of_reach hr
  have hj := Joins.of_reach hr
  have hq := Quiet.of_reach hr
  have hi := hq.net
  cases he : s.net <;> simp only [he, NetPc.interrupting, Bool.true_eq_false] at hi
  case idle => exact absurd (.inl he) hn
  case gone => exact absurd (.inr he) hn
  case spin l =>
    by_cases hid : s.initDone = true
    · refine ⟨_, net_step hT hr (by simp only [netStep, he, hid]; rfl), ?_⟩
      simp [NetPc.rank]
    · have hp : s.pol = .enter := by
        rcases hj.init with h | h | h | h
        · exact absurd h hid
        · exact absurd he (hj.spinning h l)
        · rcases hs with hs | hs | ⟨hs, -⟩ <;> simp [hs] at h
        · exact h
      obtain ⟨hpath, hreach⟩ := poll_step hT hr (s := s)
        (t := { s with initDone := true, pol := .lock }) (by simp only [pollLoop, hp])
      refine ⟨_, (hpath.mono fun _ _ h => by simp_all [only, server]).trans
        (net_step hT hreach (by simp only [netStep, he]; rfl)), ?_⟩
      simp [NetPc.rank]
  case discipline l =>
    refine ⟨_, net_step hT hr (by simp only [netStep, he]; rfl), ?_⟩
    simp [NetPc.rank]
  case act d =>
    cases d <;> simp only [Bool.true_eq_false] at hi <;>
      refine ⟨_, net_step hT hr (by simp only [netStep, he]; rfl), ?_⟩ <;> simp [NetPc.rank]
  case block e =>
    have hv : (shellSystem E cfg idle).step s .unbar = some { s with net := .push e } := by
      simp [shellSystem, step, hm.escaped, unbar, he]
    exact ⟨_, .single (.inr (.inl rfl)) hv, by simp [NetPc.rank]⟩
  case afterLine =>
    refine ⟨_, net_step hT hr (by simp only [netStep, he]; rfl), ?_⟩
    cases s.selfDestruct <;> simp [NetPc.rank]
  case stall =>
    have hd := (rest_done hr hs).1
    refine ⟨_, net_step hT hr (by simp only [netStep, he, hd]; simp; rfl), ?_⟩
    simp [NetPc.rank]
  case join =>
    have hx : s.evl = .off ∨ s.evl = .exited := by
      rcases hs with h | h | ⟨h, h1, h2⟩
      · exact .inl h
      · exact .inr h
      · rcases hj.sentinel he (by simp [h, EvalPc.popsNext]) with hx | hx
        · exact absurd h1 hx
        · simp [h2] at hx
    refine ⟨_, net_step hT hr (by simp only [netStep, he, if_pos hx]; rfl), ?_⟩
    simp [NetPc.rank]
  case goodbye =>
    refine ⟨_, net_step hT hr (by simp only [netStep, he]; rfl), ?_⟩
    simp [NetPc.rank]
  case push | cancel | exitMsg | dtor | sentinel =>
    refine ⟨_, net_step hT hr (by simp only [netStep, he]; rfl), ?_⟩
    simp [NetPc.rank]

omit hT in
theorem server_path (h : Path (shellSystem E cfg idle) server s t)
    (hr : Reach (shellSystem E cfg idle) (calm cfg) s) :
    Reach (shellSystem E cfg idle) (calm cfg) t :=
  h.reach (fun _ _ h => server_calm h) hr

/-- Left alone, the shell finishes the line, evaluates all that was pushed, and
is back between two lines or gone. -/
theorem shell_settles (hr : Reach (shellSystem E cfg idle) (calm cfg) s) :
    ∃ t, Path (shellSystem E cfg idle) server s t ∧ (t.net = .idle ∨ t.net = .gone) ∧
      t.passed = expressions t.pushed := by
  obtain ⟨u, hsu, hru, hu⟩ := Path.progress (Reach (shellSystem E cfg idle) (calm cfg))
    (fun u => u.net = .idle ∨ u.net = .gone) (fun u => u.net.rank)
    (M := shellSystem E cfg idle) (C := server) (by
      intro u hu hg
      obtain ⟨v, huv, hv⟩ := eval_rest hT hu
      obtain ⟨hrv, hn⟩ := inner_path hT huv hu
      obtain ⟨w, hvw, hlt⟩ := net_advance hT hrv hv (by rw [hn]; exact hg)
      have hp := (huv.mono fun _ _ h => inner_server h).trans hvw
      exact ⟨w, hp, server_path hp hu, hn ▸ hlt⟩) s hr
  obtain ⟨t, hut, ht⟩ := eval_rest hT hru
  obtain ⟨hrt, hn⟩ := inner_path hT hut hru
  exact ⟨t, hsu.trans (hut.mono fun _ _ h => inner_server h), by rw [hn]; exact hu,
    (rest_done hrt ht).2⟩

end Paths

/-- The session is over: the user left the shell, or the connection is gone. -/
def Closing (s : Shell σ) : Prop :=
  s.selfDestruct = true ∨
    s.net = .stall ∨ s.net = .dtor ∨ s.net = .sentinel ∨ s.net = .join ∨ s.net = .gone

theorem closing_step {a : Act} (hs : Closing s) (h : step E cfg s a = some t) : Closing t := by
  have hsame (hsd : t.selfDestruct = s.selfDestruct) (hn : t.net = s.net) : Closing t := by
    unfold Closing
    rw [hsd, hn]
    exact hs
  unfold step at h
  split at h
  · cases h
  cases a with
  | net =>
    rcases hs with hs | hs | hs | hs | hs | hs
    · exact .inl ((netStep_frame h).selfDestruct hs)
    all_goals simp only [netStep, hs] at h
    case inr.inr.inr.inr.inr => cases h
    case inr.inl | inr.inr.inr.inr.inl =>
      split at h <;> cases h
      simp [Closing]
    all_goals
      cases h
      simp [Closing]
  | eval => exact hsame (evalLoop_frame h).selfDestruct (evalLoop_frame h).net
  | poll => exact hsame (pollLoop_frame h).1.selfDestruct (pollLoop_frame h).1.net
  | ret =>
    cases he : s.evl <;> simp only [evalReturn, he, reduceCtorEq] at h
    case running d e => split at h <;> cases d <;> cases h <;> exact hsame rfl rfl
  | work =>
    simp only [evalWork] at h
    split at h <;> cases h
    exact hsame rfl rfl
  | close =>
    simp only [close] at h
    split at h <;> cases h
    simp [Closing]
  | unbar =>
    simp only [unbar] at h
    split at h <;> cases h
    simp_all [Closing]
  | line l =>
    simp only [evalLine] at h
    split at h
    · cases h
    · split at h <;> cases h <;> simp_all [Closing]

/-- The queue of a shell loses nothing: expressions are passed to `eval_expr` in
the order of their pushes, each after `_eval_done` was set again, all of them
before the destructor returns; and it does return once the session is over. -/
theorem shell_queue_lossless (hT : Terminating E idle backlog)
    (hr : Reach (shellSystem E cfg idle) (calm cfg) s) :
    s.passed <+: expressions s.pushed ∧
    (∀ d e, s.evl = .startEval d e → s.evalDone = true ∧ s.acks = s.passed.length) ∧
    (∀ d e, s.evl = .call d e → s.passed.length ≤ s.acks) ∧
    (s.net = .gone → s.passed = expressions s.pushed ∧ s.ended = expressions s.pushed) ∧
    (∃ t, Path (shellSystem E cfg idle) server s t ∧ (t.net = .idle ∨ t.net = .gone) ∧
      t.passed = expressions t.pushed) ∧
    (Closing s → ∃ t, Path (shellSystem E cfg idle) server s t ∧ t.net = .gone) := by
  have hc := Control.of_reach hr
  have hl := Ledger.of_reach hr
  have hq := Quiet.of_reach hr
  have ha := hc.acks
  obtain ⟨t, hp, hn, ht⟩ := shell_settles hT hr
  refine ⟨?_, ?_, ?_, passed_gone hc hl hq, ⟨t, hp, hn, ht⟩, fun hcl => ⟨t, hp, ?_⟩⟩
  · rw [pushed_split hl hq, List.append_assoc]
    exact List.prefix_append _ _
  · intro d e he
    have hd := hc.sawDone (by simp [he, EvalPc.sawDone])
    rw [he, hd] at ha
    exact ⟨hd, by simpa [EvalPc.started] using ha⟩
  · intro d e he
    rw [he] at ha
    simp only [EvalPc.started] at ha
    omega
  · have hct : Closing t := hp.invariant Closing (fun _ _ _ h _ hv => closing_step h hv) hcl
    refine hn.resolve_left fun hi => ?_
    have hlv := (Control.of_reach (server_path hp hr)).leaving
    simp [Closing, hi] at hct
    simp [hct, hi, NetPc.leaving] at hlv

/-- An evaluator that answers with the expression itself. -/
def echoEval : GenericEval Bytes where
  beginEval v := v
  work _ v := v
  evalExpr e v := v ++ e
  throws _ _ := false
  pollResult v := some (v, [])
  interrupt v := v
  clearPending _ := []
  inputPending _ := false
  evalError _ := false
  errorString _ := []

/-- A shell without a prompt. -/
def plainConfig : ShellConfig where
  abortPrompt := []
  normalPrompt := []
  pendingPrompt := []
  showOutput := true
  showPrompt := false
  applyDiscipline := true
  stalls := false

/-- The client sends an expression and leaves before it is evaluated. -/
def leaveAtOnce : List Act :=
  List.flatten [[.line (ascii "x")], List.replicate 3 .eval, [.poll], List.replicate 3 .net, [.unbar],
    List.replicate 2 .net, [.line (ascii ".")], List.replicate 9 .net, List.replicate 2 .eval,
    List.replicate 8 .poll, List.replicate 11 .eval, [.ret], List.replicate 15 .eval, [.net]]

theorem echo_terminating : Terminating echoEval (fun _ => True) List.length where
  throws _ _ := rfl
  evalExpr _ _ := trivial
  clearPending _ _ := trivial
  pollResult v _ := ⟨v, [], rfl, trivial, by simp, fun h => by simpa [List.length_pos_iff] using h⟩

theorem shell_queue_lossless_echo :
    ∃ t, exec (shellSystem echoEval plainConfig fun _ => True) (fresh []) leaveAtOnce = some t ∧
      t.net = .gone ∧ t.passed = [ascii "x\n"] := by
  have hx : (exec (shellSystem echoEval plainConfig fun _ => True) (fresh []) leaveAtOnce).map
      (fun t => (t.net, t.pushed)) = some (.gone, [ascii "x\n"]) := by decide +kernel
  obtain ⟨t, ht, hnp⟩ := Option.map_eq_some_iff.mp hx
  obtain ⟨hn, hp⟩ := Prod.mk.inj hnp
  refine ⟨t, ht, hn, ?_⟩
  have hr : Reach (shellSystem echoEval plainConfig fun _ => True) (calm plainConfig) t := by
    refine reach_of_actions leaveAtOnce (fun a ha l hl => ?_) ⟨[], trivial, rfl⟩ ht
    subst hl
    have hl : l = ascii "x" ∨ l = ascii "." := by simpa [leaveAtOnce] using ha
    rcases hl with rfl | rfl <;> intro _ prompt pending ok <;> cases pending <;> exact nofun
  rw [((shell_queue_lossless echo_terminating hr).2.2.2.1 hn).1, hp]
  decide

end Shell

end CogServer
