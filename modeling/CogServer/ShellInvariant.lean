import CogServer.ShellFrames

/-! What every run of a shell keeps: the bookkeeping of the queue, of the flags
and of the positions of the three threads. -/
namespace CogServer

open Transition

/-- The expression that the eval thread took off the queue and has not yet
passed to `eval_expr`. -/
def EvalPc.held : EvalPc → List Bytes
  | .wakeStart e | .startEval _ e | .beginEval _ e | .call _ e => [e]
  | _ => []

/-- Started, but not yet passed to `eval_expr`. -/
def EvalPc.started : EvalPc → ℕ
  | .beginEval _ _ | .call _ _ => 1
  | _ => 0

/-- Positions that the eval thread reaches only after it saw `_eval_done`. -/
def EvalPc.sawDone : EvalPc → Bool
  | .wakePop | .pop | .wakeStart _ | .startEval _ _ | .drainPop
  | .setShell | .dropEval | .exited => true
  | _ => false

/-- Positions behind the first loop. -/
def EvalPc.leftLoop : EvalPc → Bool
  | .cancelReset | .joinPoll | .drainSize | .drainPoll _ | .drainTest | .drainPop | .drainReset
  | .startEval .draining _ | .beginEval .draining _ | .call .draining _ | .running .draining _
  | .lastPoll _ | .lastTest | .setShell | .dropEval | .exited => true
  | _ => false

/-- Positions behind the second loop. -/
def EvalPc.drained : EvalPc → Bool
  | .lastPoll _ | .lastTest | .setShell | .dropEval | .exited => true
  | _ => false

/-- Positions at which `_evaluator` is set. -/
def EvalPc.hasEvaluator : EvalPc → Bool
  | .off | .enter | .exited => false
  | _ => true

/-- Positions of the network thread once the session is ending. -/
def NetPc.leaving : NetPc → Bool
  | .cancel | .exitMsg | .afterLine | .goodbye | .stall | .dtor | .sentinel | .join | .gone => true
  | _ => false

/-- Positions that the network thread reaches only after it set `self_destruct`. -/
def NetPc.ending : NetPc → Bool
  | .cancel | .exitMsg | .goodbye | .sentinel | .join | .gone => true
  | _ => false

/-- Positions of the network thread of a shell that never had a line. -/
def NetPc.unused : NetPc → Bool
  | .idle | .stall | .dtor | .sentinel | .join | .gone => true
  | _ => false

/-- Positions of the poll thread under `_poll_mtx`. -/
def PollerPc.locked : PollerPc → Bool
  | .test | .first _ | .second _ | .wait | .unlock => true
  | _ => false

/-- The expressions of a list: the empty string is a mere wake-up signal. -/
def expressions (l : List Bytes) : List Bytes := l.filter (· ≠ [])

@[simp] theorem expressions_nil : expressions [] = [] := rfl

@[simp] theorem expressions_append (l m : List Bytes) :
    expressions (l ++ m) = expressions l ++ expressions m := List.filter_append ..

theorem expressions_cons (e : Bytes) (l : List Bytes) :
    expressions (e :: l) = if e = [] then expressions l else e :: expressions l := by
  by_cases h : e = [] <;> simp [expressions, h]

namespace Shell

variable {σ : Type*} {E : GenericEval σ} {cfg : ShellConfig} {s t : Shell σ}

/-- What holds of the positions and the flags in every run. -/
structure Control (s : Shell σ) : Prop where
  leaving : s.selfDestruct = true → s.net.leaving = true
  ending : s.net.ending = true → s.selfDestruct = true
  leftLoop : s.evl.leftLoop = true → s.selfDestruct = true
  cancelled : s.evalque.cancelled = true → s.selfDestruct = true
  sawDone : s.evl.sawDone = true → s.evalDone = true
  drained : s.evl.drained = true → expressions s.evalque.items = []
  acks : s.acks + 1 = s.passed.length + s.evl.started + s.evalDone.toNat
  hasEvaluator : s.hasEvaluator = s.evl.hasEvaluator
  started : s.initDone = true → s.evl ≠ .off ∧ s.evl ≠ .enter
  entered : s.evl = .enter → ∃ l, s.net = .spin l
  poller : s.pol ≠ .off → s.evl ≠ .off ∧ s.evl ≠ .enter
  polling : s.pol = .off → s.evl = .off ∨ s.evl = .enter
  unused : s.evl = .off → s.net.unused = true ∧ s.pushed = [] ∧ expressions s.evalque.items = []
  gone : s.net = .gone → s.evl = .off ∨ s.evl = .exited
  attached : s.attached = true ∨ s.evl = .dropEval ∨ s.evl = .exited
  escaped : s.escaped = false ∨ ∃ e, s.evl = .running .draining e

theorem control_fresh (v : σ) : Control (fresh v) := by
  constructor <;> simp [fresh, NetPc.ending, CancelQueue.empty, EvalPc.leftLoop, EvalPc.sawDone,
    EvalPc.drained, EvalPc.started, EvalPc.hasEvaluator, NetPc.unused]

theorem control_poll (hc : Control s) (h : s.pollLoop E cfg = some t) : Control t := by
  obtain ⟨hf, he⟩ := pollLoop_frame h
  obtain ⟨hp, hp'⟩ := pollLoop_started h
  have hne := hc.poller hp
  constructor
  case leaving => rw [hf.selfDestruct, hf.net]; exact hc.leaving
  case ending => rw [hf.selfDestruct, hf.net]; exact hc.ending
  case leftLoop => rw [he, hf.selfDestruct]; exact hc.leftLoop
  case cancelled => rw [hf.evalque, hf.selfDestruct]; exact hc.cancelled
  case sawDone => rw [he]; exact fun hd => hf.evalDone (hc.sawDone hd)
  case drained => rw [he, hf.evalque]; exact hc.drained
  case acks =>
    have h1 := hc.acks
    have h2 := hf.acks
    rw [he, hf.passed]
    omega
  case hasEvaluator => rw [he, hf.hasEvaluator]; exact hc.hasEvaluator
  case started => rw [he]; exact fun _ => hne
  case entered => rw [he, hf.net]; exact hc.entered
  case poller => rw [he]; exact fun _ => hne
  case polling => exact fun hd => absurd hd hp'
  case unused => rw [he, hf.net, hf.pushed, hf.evalque]; exact hc.unused
  case gone => rw [he, hf.net]; exact hc.gone
  case attached => rw [he, hf.attached]; exact hc.attached
  case escaped => rw [he, hf.escaped]; exact hc.escaped

/-- What a step of a running eval thread has to check: the rest of `Control`
is about fields that it leaves alone. -/
structure EvalStep (s t : Shell σ) : Prop where
  net : t.net = s.net
  selfDestruct : t.selfDestruct = s.selfDestruct
  initDone : t.initDone = s.initDone
  pol : t.pol = s.pol
  source : s.evl ≠ .off ∧ s.evl ≠ .enter ∧ s.evl ≠ .exited
  target : t.evl ≠ .off ∧ t.evl ≠ .enter
  leftLoop : t.evl.leftLoop = true → s.selfDestruct = true
  cancelled : t.evalque.cancelled = true → s.evalque.cancelled = true
  sawDone : t.evl.sawDone = true → t.evalDone = true
  drained : t.evl.drained = true → expressions t.evalque.items = []
  acks : t.acks + 1 = t.passed.length + t.evl.started + t.evalDone.toNat
  hasEvaluator : t.hasEvaluator = t.evl.hasEvaluator
  attached : t.attached = true ∨ t.evl = .dropEval ∨ t.evl = .exited
  escaped : t.escaped = false ∨ ∃ e, t.evl = .running .draining e

theorem EvalStep.control (h : EvalStep s t) (hc : Control s) : Control t where
  leaving := by rw [h.selfDestruct, h.net]; exact hc.leaving
  ending := by rw [h.selfDestruct, h.net]; exact hc.ending
  leftLoop := by rw [h.selfDestruct]; exact h.leftLoop
  cancelled := by rw [h.selfDestruct]; exact fun hq => hc.cancelled (h.cancelled hq)
  sawDone := h.sawDone
  drained := h.drained
  acks := h.acks
  hasEvaluator := h.hasEvaluator
  started := fun _ => h.target
  entered := fun he => absurd he h.target.2
  poller := fun _ => h.target
  polling := by
    intro hp
    rw [h.pol] at hp
    rcases hc.polling hp with he | he
    · exact absurd he h.source.1
    · exact absurd he h.source.2.1
  unused := fun he => absurd he h.target.1
  gone := by
    rw [h.net]
    intro hg
    rcases hc.gone hg with he | he
    · exact absurd he h.source.1
    · exact absurd he h.source.2.2
  attached := h.attached
  escaped := h.escaped

attribute [local simp] EvalPc.leftLoop EvalPc.sawDone EvalPc.drained EvalPc.started
  EvalPc.hasEvaluator

theorem control_enter (hc : Control s) (hs : s.escaped = false) (he : s.evl = .enter)
    (h : s.evalLoop E cfg = some t) : Control t := by
  obtain ⟨l, hl⟩ := hc.entered he
  have hi : s.initDone = false := by
    by_contra hi
    exact (hc.started (by simpa using hi)).2 he
  have hd := hc.leaving
  have hen := hc.ending
  have hq := hc.cancelled
  have ha := hc.acks
  have hat := hc.attached
  simp only [evalLoop, he, Option.some.injEq] at h
  subst h
  constructor <;> simp_all

/-- A poll by the eval thread itself, which then goes on at `e`. -/
theorem evalStep_poll {p : PollPc} {q : Option PollPc} {u : Shell σ} {e : EvalPc} (hc : Control s)
    (hs : s.escaped = false) (hu : pollAndSend E cfg s p = some (u, q))
    (h1 : s.evl.leftLoop = true ∧ s.evl.started = 0 ∧ s.evl.hasEvaluator = true ∧
      s.evl ≠ .dropEval)
    (h2 : e.sawDone = false ∧ e.started = 0 ∧ e.hasEvaluator = true)
    (h3 : e.drained = true → s.evl.drained = true) : EvalStep s { u with evl := e } := by
  obtain ⟨hf, hv, hp, hi, -⟩ := pollAndSend_frame hu
  have hsd := hc.leftLoop h1.1
  have hoff (x : EvalPc) (hx : x.hasEvaluator = true) : x ≠ .off ∧ x ≠ .enter ∧ x ≠ .exited := by
    refine ⟨?_, ?_, ?_⟩ <;> rintro rfl <;> simp at hx
  constructor
  case net => exact hf.net
  case selfDestruct => exact hf.selfDestruct
  case initDone => exact hi
  case pol => exact hp
  case source => exact hoff _ h1.2.2.1
  case target => exact ⟨(hoff e h2.2.2).1, (hoff e h2.2.2).2.1⟩
  case leftLoop => exact fun _ => hsd
  case cancelled => exact fun hq => hf.evalque ▸ hq
  case sawDone => exact fun hd => absurd (h2.1.symm.trans hd) (by simp)
  case drained => exact fun hd => hf.evalque ▸ hc.drained (h3 hd)
  case acks =>
    have ha := hc.acks
    have hb := hf.acks
    dsimp only
    rw [hf.passed, h2.2.1]
    rw [h1.2.1] at ha
    omega
  case hasEvaluator =>
    dsimp only
    rw [hf.hasEvaluator, hc.hasEvaluator, h1.2.2.1, h2.2.2]
  case attached =>
    refine Or.inl ?_
    dsimp only
    rw [hf.attached]
    rcases hc.attached with ha | ha | ha
    · exact ha
    · exact absurd ha h1.2.2.2
    · exact absurd ha (hoff _ h1.2.2.1).2.2
  case escaped => exact Or.inl (hf.escaped.trans hs)

/-- The eval thread moves on and writes nothing but evaluator, locks, queue and what it records of
them. -/
theorem control_goto {e : EvalPc} {v : σ} {locked stray : Bool} {q : CancelQueue Bytes}
    {removed : List (Bytes × Bool)} {ended : List Bytes} (hc : Control s) (hs : s.escaped = false)
    (hfrom : s.evl ≠ .off ∧ s.evl ≠ .enter ∧ s.evl ≠ .exited ∧ s.evl ≠ .dropEval)
    (hto : e ≠ .off ∧ e ≠ .enter) (hleft : e.leftLoop = true → s.selfDestruct = true)
    (hq : q.cancelled = true → s.evalque.cancelled = true)
    (hsaw : e.sawDone = true → s.evalDone = true)
    (hdrained : e.drained = true → expressions q.items = [])
    (hstarted : e.started = s.evl.started) (hevaluator : e.hasEvaluator = s.evl.hasEvaluator) :
    Control { s with
      evl := e, evaluator := v, pollLocked := locked, strayUnlock := stray, evalque := q,
      removed := removed, ended := ended } := by
  have hattached : s.attached = true := by
    rcases hc.attached with ha | ha | ha
    · exact ha
    · exact absurd ha hfrom.2.2.2
    · exact absurd ha hfrom.2.2.1
  refine EvalStep.control (s := s) ?_ hc
  exact ⟨rfl, rfl, rfl, rfl, ⟨hfrom.1, hfrom.2.1, hfrom.2.2.1⟩, hto, hleft, hq, hsaw, hdrained,
    hstarted ▸ hc.acks, hevaluator ▸ hc.hasEvaluator, .inl hattached, .inl hs⟩

theorem control_eval (hc : Control s) (hs : s.escaped = false) (h : s.evalLoop E cfg = some t) :
    Control t := by
  obtain ⟨-, -, h2, h3, h4, h5, h6, h7, -, -, -, -, -, -, h14, h15⟩ := id hc
  cases he : s.evl <;> simp only [he, EvalPc.leftLoop, EvalPc.sawDone, EvalPc.drained,
    EvalPc.started, EvalPc.hasEvaluator, reduceCtorEq, or_false] at h2 h4 h5 h6 h7 h14
  case off | running | exited => simp [evalLoop, he] at h
  case enter => exact control_enter hc hs he h
  case pop =>
    simp only [evalLoop, he] at h
    split at h <;> cases h
    · rename_i e q hq
      obtain ⟨hq1, hq2, hq3⟩ := CancelQueue.pop_eq_item.mp hq
      rw [noteRemoved_eq]
      split <;> refine control_goto (s := s) hc hs ?_ ?_ ?_ ?_ ?_ ?_ ?_ ?_ <;> simp_all
    · rename_i hq
      have hcancelled := CancelQueue.pop_eq_cancelled.mp hq
      refine control_goto hc hs ?_ ?_ ?_ ?_ ?_ ?_ ?_ ?_ <;> simp [he, h3, hcancelled]
  case drainPop =>
    simp only [evalLoop, he] at h
    split at h <;> cases h
    · rename_i e q hq
      obtain ⟨hq1, hq2, hq3⟩ := CancelQueue.pop_eq_item.mp hq
      rw [noteRemoved_eq]
      split <;> refine control_goto (s := s) hc hs ?_ ?_ ?_ ?_ ?_ ?_ ?_ ?_ <;> simp_all
    · refine control_goto hc hs ?_ ?_ ?_ ?_ ?_ ?_ ?_ ?_ <;> simp [he, h2]
  case startEval d e =>
    simp only [evalLoop, he] at h
    split at h <;> cases h
    · cases d <;> refine EvalStep.control ?_ hc <;> constructor <;> simp_all
    · simp_all
  case drainPoll p =>
    simp only [evalLoop, he, Option.map_eq_some_iff] at h
    obtain ⟨⟨u, q⟩, hu, rfl⟩ := h
    refine (evalStep_poll hc hs hu (by simp [he]) ?_ ?_).control hc <;> cases q <;> simp
  case lastPoll p =>
    simp only [evalLoop, he, Option.map_eq_some_iff] at h
    obtain ⟨⟨u, q⟩, hu, rfl⟩ := h
    refine (evalStep_poll hc hs hu (by simp [he]) ?_ ?_).control hc <;> cases q <;> simp [he]
  case beginEval d e =>
    simp only [evalLoop, he, Option.some.injEq] at h
    subst h
    cases d <;> refine control_goto hc hs ?_ ?_ ?_ ?_ ?_ ?_ ?_ ?_ <;> simp_all
  case call d e =>
    simp only [evalLoop, he, Option.some.injEq] at h
    subst h
    cases d <;> refine EvalStep.control ?_ hc <;> constructor <;> simp_all
  case drainSize =>
    have hz := CancelQueue.size_eq_zero s.evalque
    simp only [evalLoop, he, Option.some.injEq] at h
    subst h
    refine control_goto hc hs ?_ ?_ ?_ ?_ ?_ ?_ ?_ ?_ <;> (try split) <;> simp_all
  case caught =>
    have ha := finishEval_acks s
    simp only [evalLoop, he, Option.some.injEq] at h
    subst h
    refine EvalStep.control ?_ hc
    constructor <;> simp_all [finishEval]
  case wakePop | wakeStart e | wakeEnd | whileNotDone | joinPoll =>
    simp only [evalLoop, he, wakePoll] at h
    split at h <;> cases h
    refine control_goto hc hs ?_ ?_ ?_ ?_ ?_ ?_ ?_ ?_ <;> simp_all
  case loopTest | drainTest | lastTest =>
    simp only [evalLoop, he, Option.some.injEq] at h
    subst h
    refine control_goto hc hs ?_ ?_ ?_ ?_ ?_ ?_ ?_ ?_ <;> (try split) <;> simp_all
  case unlockPoll =>
    simp only [evalLoop, he, Option.some.injEq] at h
    subst h
    refine control_goto hc hs ?_ ?_ ?_ ?_ ?_ ?_ ?_ ?_ <;> simp [he]
  case cancelReset | drainReset =>
    simp only [evalLoop, he, Option.some.injEq] at h
    subst h
    refine control_goto hc hs ?_ ?_ ?_ ?_ ?_ ?_ ?_ ?_ <;> simp [he, h2]
  case setShell | dropEval =>
    simp only [evalLoop, he, Option.some.injEq] at h
    subst h
    refine EvalStep.control ?_ hc
    constructor <;> simp_all

/-- An exception that nobody catches. -/
theorem control_throw {e : Bytes} {v : σ} {ended : List Bytes} (hc : Control s)
    (he : s.evl = .running .draining e) :
    Control { s with evaluator := v, ended := ended, escaped := true } :=
  ⟨hc.1, hc.2, hc.3, hc.4, hc.5, hc.6, hc.7, hc.8, hc.9, hc.10, hc.11, hc.12, hc.13, hc.14,
    hc.15, .inr ⟨e, he⟩⟩

theorem control_return (hc : Control s) (hs : s.escaped = false) (h : s.evalReturn E = some t) :
    Control t := by
  cases he : s.evl <;> simp only [evalReturn, he, reduceCtorEq] at h
  case running d e =>
    cases d with
    | serving =>
      split at h <;> cases h
      all_goals refine control_goto hc hs ?_ ?_ ?_ ?_ ?_ ?_ ?_ ?_ <;> simp [he]
    | draining =>
      have hleft : s.selfDestruct = true := hc.leftLoop (he ▸ rfl)
      split at h <;> cases h
      · rw [← he]
        exact control_throw hc he
      · refine control_goto hc hs ?_ ?_ ?_ ?_ ?_ ?_ ?_ ?_ <;> simp [he, hleft]

theorem control_work (hc : Control s) (h : s.evalWork E = some t) : Control t := by
  unfold evalWork at h
  split at h <;> cases h
  exact ⟨hc.1, hc.2, hc.3, hc.4, hc.5, hc.6, hc.7, hc.8, hc.9, hc.10, hc.11, hc.12, hc.13, hc.14,
    hc.15, hc.16⟩

/-- What a step of the network thread has to check. -/
structure NetStep (s t : Shell σ) : Prop where
  evl : t.evl = s.evl
  pol : t.pol = s.pol
  initDone : t.initDone = s.initDone
  hasEvaluator : t.hasEvaluator = s.hasEvaluator
  attached : t.attached = s.attached
  escaped : t.escaped = s.escaped
  passed : t.passed = s.passed
  source : s.evl ≠ .enter
  leaving : t.selfDestruct = true → t.net.leaving = true
  ending : t.net.ending = true → t.selfDestruct = true
  selfDestruct : s.selfDestruct = true → t.selfDestruct = true
  cancelled : t.evalque.cancelled = true → t.selfDestruct = true
  evalDone : s.evalDone = true → t.evalDone = true
  acks : t.acks + s.evalDone.toNat = s.acks + t.evalDone.toNat
  drained : s.evl.drained = true → expressions t.evalque.items = []
  unused : s.evl = .off → t.net.unused = true ∧ t.pushed = [] ∧ expressions t.evalque.items = []
  gone : t.net = .gone → s.evl = .off ∨ s.evl = .exited

theorem NetStep.control (h : NetStep s t) (hc : Control s) : Control t where
  leaving := h.leaving
  ending := h.ending
  leftLoop := by rw [h.evl]; exact fun hl => h.selfDestruct (hc.leftLoop hl)
  cancelled := h.cancelled
  sawDone := by rw [h.evl]; exact fun hd => h.evalDone (hc.sawDone hd)
  drained := by rw [h.evl]; exact h.drained
  acks := by
    have h1 := hc.acks
    have h2 := h.acks
    rw [h.evl, h.passed]
    omega
  hasEvaluator := by rw [h.evl, h.hasEvaluator]; exact hc.hasEvaluator
  started := by rw [h.evl, h.initDone]; exact hc.started
  entered := by rw [h.evl]; exact fun he => absurd he h.source
  poller := by rw [h.evl, h.pol]; exact hc.poller
  polling := by rw [h.evl, h.pol]; exact hc.polling
  unused := by rw [h.evl]; exact h.unused
  gone := by rw [h.evl]; exact h.gone
  attached := by rw [h.evl, h.attached]; exact hc.attached
  escaped := by rw [h.evl, h.escaped]; exact hc.escaped

theorem control_line {l : Bytes} (hc : Control s) (h : s.evalLine l = some t) : Control t := by
  have hnet : s.net = .idle := by
    by_contra hn
    simp [evalLine, hn] at h
  have hsd : s.selfDestruct = false := by
    have := hc.leaving
    cases hsd : s.selfDestruct
    · rfl
    · simp [hsd, hnet, NetPc.leaving] at this
  have hev : s.evl.leftLoop = false := by
    cases hl : s.evl.leftLoop
    · rfl
    · exact absurd (hc.leftLoop hl) (by simp [hsd])
  simp only [evalLine, hnet, ne_eq, not_true_eq_false, ↓reduceIte] at h
  split at h
  · rename_i hh
    cases h
    have hne : s.evl ≠ .off ∧ s.evl ≠ .enter := by
      rw [hc.hasEvaluator] at hh
      constructor <;> intro he <;> simp [he] at hh
    refine NetStep.control (s := s) ?_ hc
    exact ⟨rfl, rfl, rfl, rfl, rfl, rfl, rfl, hne.2, by simp [hsd], by simp [NetPc.ending], id,
      hc.cancelled, id, rfl, hc.drained, fun he => absurd he hne.1, by simp⟩
  · rename_i hh
    cases h
    -- No evaluator and not behind the first loop: there is no eval thread yet.
    have hoff : s.evl = .off := by
      have h1 := hc.hasEvaluator
      have h2 := hc.entered
      cases he : s.evl <;> simp_all
    obtain ⟨-, hpush, hitems⟩ := hc.unused hoff
    have ha := hc.acks
    have hpol : s.pol = .off := by
      by_contra hp
      exact (hc.poller hp).1 hoff
    have hat := hc.attached
    have hes := hc.escaped
    have hq := hc.cancelled
    constructor <;> simp_all [NetPc.ending]

/-- The network thread moves on and writes nothing but output and evaluator. -/
theorem control_move {n : NetPc} {o : Bytes} {v : σ} {l : List (Bytes × Bytes)} (hc : Control s)
    (hs : s.evl ≠ .enter) (hl : s.selfDestruct = true → n.leaving = true)
    (he : n.ending = true → s.selfDestruct = true) (hu : s.evl = .off → n.unused = true)
    (hg : n = .gone → s.evl = .off ∨ s.evl = .exited) :
    Control { s with net := n, pendingOutput := o, evaluator := v, sent := l } :=
  NetStep.control (s := s) ⟨rfl, rfl, rfl, rfl, rfl, rfl, rfl, hs, hl, he, id, hc.cancelled, id, rfl,
    hc.drained, fun h => ⟨hu h, (hc.unused h).2⟩, hg⟩ hc

/-- The same from a position at which the session is not ending. -/
theorem control_serve {n : NetPc} {o : Bytes} {v : σ} {l : List (Bytes × Bytes)} (hc : Control s)
    (hn : s.net.leaving = false ∧ s.net.unused = false ∧ ∀ l, s.net ≠ .spin l)
    (he : n.ending = false) : Control { s with net := n, pendingOutput := o, evaluator := v, sent := l } := by
  refine control_move hc ?_ ?_ (by simp [he]) ?_ ?_
  · intro he
    obtain ⟨l, hl⟩ := hc.entered he
    exact hn.2.2 l hl
  · intro hsd
    simp [hc.leaving hsd] at hn
  · intro he
    simp [(hc.unused he).1] at hn
  · rintro rfl
    simp [NetPc.ending] at he

/-- The same from a position at which it is. -/
theorem control_leave {n : NetPc} {o : Bytes} {v : σ} {l : List (Bytes × Bytes)} (hc : Control s)
    (hn : s.net.leaving = true) (hl : s.selfDestruct = true → n.leaving = true)
    (he : n.ending = true → s.selfDestruct = true) (hu : s.net.unused = true → n.unused = true)
    (hg : n ≠ .gone) : Control { s with net := n, pendingOutput := o, evaluator := v, sent := l } := by
  refine control_move hc ?_ hl he (fun he => hu (hc.unused he).1) (fun h => absurd h hg)
  intro he
  obtain ⟨l, hl⟩ := hc.entered he
  simp [hl, NetPc.leaving] at hn

theorem control_net (hc : Control s) (h : s.netStep E cfg = some t) : Control t := by
  have hent (hn : ∀ l, s.net ≠ .spin l) : s.evl ≠ .enter := by
    intro he
    obtain ⟨l, hl⟩ := hc.entered he
    exact hn l hl
  have hoff (hn : s.net.unused = false) : s.evl ≠ .off := by
    intro he
    simp [(hc.unused he).1] at hn
  have hstay (hn : s.net.leaving = false) : s.selfDestruct = false := by
    cases hsd : s.selfDestruct
    · rfl
    · simp [hc.leaving hsd] at hn
  cases hn : s.net with
  | idle | block e | gone => simp [netStep, hn] at h
  | spin l =>
    simp only [netStep, hn] at h
    split at h <;> cases h
    rename_i hi
    have he := hc.started hi
    exact control_move hc he.2 (by simp [hstay (by simp [hn, NetPc.leaving])])
      (by simp [NetPc.ending]) (fun h => absurd h he.1) (by simp)
  | discipline l | interrupt | clearPending | putAbort =>
    simp only [netStep, hn, putOutput, Option.some.injEq] at h
    subst h
    exact control_serve hc (by simp [hn, NetPc.leaving, NetPc.unused]) rfl
  | checkEval =>
    simp only [netStep, hn, Option.some.injEq] at h
    subst h
    refine control_serve hc (by simp [hn, NetPc.leaving, NetPc.unused]) ?_
    split <;> rfl
  | act d =>
    cases d with
    | leave =>
      simp only [netStep, hn, Option.some.injEq] at h
      subst h
      refine NetStep.control (s := s) ?_ hc
      exact ⟨rfl, rfl, rfl, rfl, rfl, rfl, rfl, hent (by simp [hn]), fun _ => rfl, fun _ => rfl,
        fun _ => rfl, fun _ => rfl, id, rfl, hc.drained,
        fun he => absurd he (hoff (by simp [hn, NetPc.unused])), by simp⟩
    | enqueue ok e | interrupt ok | reply o =>
      simp only [netStep, hn, putOutput, Option.some.injEq] at h
      subst h
      exact control_serve hc (by simp [hn, NetPc.leaving, NetPc.unused]) rfl
  | push e =>
    have hsd := hstay (by simp [hn, NetPc.leaving])
    have hdr : s.evl.drained = true → s.evl.leftLoop = true := by cases s.evl <;> simp
    simp only [netStep, hn, Option.some.injEq] at h
    subst h
    refine NetStep.control (s := s) ?_ hc
    exact ⟨rfl, rfl, rfl, rfl, rfl, rfl, rfl, hent (by simp [hn]), fun _ => rfl,
      by simp [NetPc.ending], id, by simpa using hc.cancelled, id, rfl,
      fun hd => by simp [hc.leftLoop (hdr hd)] at hsd,
      fun he => absurd he (hoff (by simp [hn, NetPc.unused])), by simp⟩
  | junk =>
    simp only [netStep, hn] at h
    split at h <;> cases h
    · exact control_serve hc (by simp [hn, NetPc.leaving, NetPc.unused]) rfl
    · rename_i e rest hq
      have hdr := hc.drained
      rw [hq, expressions_cons] at hdr
      rw [noteRemoved_eq]
      refine NetStep.control (s := s) ?_ hc
      exact ⟨rfl, rfl, rfl, rfl, rfl, rfl, rfl, hent (by simp [hn]), hc.leaving, hc.ending, id,
        hc.cancelled, id, rfl, fun hd => by grind,
        fun he => absurd he (hoff (by simp [hn, NetPc.unused])), hc.gone⟩
  | afterLine =>
    simp only [netStep, hn, Option.some.injEq] at h
    subst h
    refine control_leave hc (by simp [hn, NetPc.leaving]) ?_ ?_ (by simp [hn, NetPc.unused]) ?_
    · intro hsd
      simp [hsd, NetPc.leaving]
    · cases s.selfDestruct <;> simp [NetPc.ending]
    · split <;> simp
  | exitMsg =>
    simp only [netStep, hn, putOutput, Option.some.injEq] at h
    subst h
    exact control_leave hc (by simp [hn, NetPc.leaving]) (fun _ => rfl) (by simp [NetPc.ending])
      (by simp [hn, NetPc.unused]) (by simp)
  | goodbye =>
    simp only [netStep, hn, Option.some.injEq] at h
    subst h
    rw [send_eq]
    exact control_leave (s := s) hc (by simp [hn, NetPc.leaving]) (fun _ => rfl)
      (by simp [NetPc.ending]) (fun _ => rfl) (by simp)
  | stall =>
    simp only [netStep, hn] at h
    split at h <;> cases h
    exact control_leave hc (by simp [hn, NetPc.leaving]) (fun _ => rfl) (by simp [NetPc.ending])
      (fun _ => rfl) (by simp)
  | cancel =>
    have hsd := hc.ending (by simp [hn, NetPc.ending])
    simp only [netStep, hn, Option.some.injEq] at h
    subst h
    refine NetStep.control (s := s) ?_ hc
    exact ⟨rfl, rfl, rfl, rfl, rfl, rfl, rfl, hent (by simp [hn]), fun _ => rfl, fun _ => hsd, id,
      fun _ => hsd, id, rfl, hc.drained, fun he => absurd he (hoff (by simp [hn, NetPc.unused])),
      by simp⟩
  | dtor =>
    simp only [netStep, hn, Option.some.injEq] at h
    subst h
    refine NetStep.control (s := s) ?_ hc
    exact ⟨rfl, rfl, rfl, rfl, rfl, rfl, rfl, hent (by simp [hn]), fun _ => rfl, fun _ => rfl,
      fun _ => rfl, fun _ => rfl, id, rfl, hc.drained, fun he => ⟨rfl, (hc.unused he).2⟩, by simp⟩
  | finishEval =>
    simp only [netStep, hn, Option.some.injEq] at h
    subst h
    refine NetStep.control (s := s) ?_ hc
    exact ⟨rfl, rfl, rfl, rfl, rfl, rfl, rfl, hent (by simp [hn]), fun _ => rfl,
      by simp [NetPc.ending], id, hc.cancelled, fun _ => rfl, finishEval_acks s, hc.drained,
      fun he => absurd he (hoff (by simp [hn, NetPc.unused])), by simp⟩
  | sentinel =>
    have hsd := hc.ending (by simp [hn, NetPc.ending])
    have hx : expressions (s.evalque.pushOrDrop []).items = expressions s.evalque.items := by
      rw [CancelQueue.pushOrDrop_eq]
      split <;> simp [expressions_cons]
    simp only [netStep, hn, Option.some.injEq] at h
    subst h
    refine NetStep.control (s := s) ?_ hc
    exact ⟨rfl, rfl, rfl, rfl, rfl, rfl, rfl, hent (by simp [hn]), fun _ => rfl, fun _ => hsd, id,
      fun _ => hsd, id, rfl, fun hd => hx.trans (hc.drained hd),
      fun he => ⟨rfl, (hc.unused he).2.1, hx.trans (hc.unused he).2.2⟩, by simp⟩
  | join =>
    have hsd := hc.ending (by simp [hn, NetPc.ending])
    simp only [netStep, hn] at h
    split at h <;> cases h
    rename_i hj
    exact control_move hc (hent (by simp [hn])) (fun _ => rfl) (fun _ => hsd) (fun _ => rfl)
      (fun _ => hj)

theorem control_step {a : Act} (hc : Control s) (h : step E cfg s a = some t) : Control t := by
  unfold step at h
  split at h
  · cases h
  · rename_i hs
    have hs : s.escaped = false := by simpa using hs
    cases a with
    | line l => exact control_line hc h
    | net => exact control_net hc h
    | eval => exact control_eval hc hs h
    | work => exact control_work hc h
    | ret => exact control_return hc hs h
    | poll => exact control_poll hc h
    | close =>
      simp only [close] at h
      split at h <;> cases h
      rename_i hn
      have hn : s.net = .idle := by simpa using hn
      have hsd : s.selfDestruct = false := by
        by_contra hsd
        simpa [hn, NetPc.leaving] using hc.leaving (by simpa using hsd)
      refine control_move hc ?_ (fun _ => rfl) (by simp [NetPc.ending]) (fun _ => rfl) (by simp)
      intro he
      obtain ⟨l, hl⟩ := hc.entered he
      simp [hn] at hl
    | unbar =>
      simp only [unbar] at h
      split at h <;> cases h
      rename_i hn
      exact control_serve hc (by simp [hn, NetPc.leaving, NetPc.unused]) rfl

theorem Control.of_reach {R : σ → Prop} {C : Shell σ → Act → Prop}
    (h : Reach (shellSystem E cfg R) C s) : Control s := by
  refine h.invariant Control ?_ (fun _ _ _ _ hc _ ht => control_step hc ht)
  rintro _ ⟨v, -, rfl⟩
  exact control_fresh v

end Shell

end CogServer
