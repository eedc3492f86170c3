import CogServer.SerialServer
import CogServer.ShellCalm
import CogServer.ShellKinds

/-! A shell evaluates serially: whatever its three threads do, it is a server that does one
expression after the other. -/
namespace CogServer

open Transition

/-- The expression that the eval thread has popped and is not done with. -/
def EvalPc.job : EvalPc → Option Bytes
  | .wakeStart e | .startEval _ e | .beginEval _ e | .call _ e | .running _ e => some e
  | _ => none

namespace Shell

variable {σ : Type*} {E : GenericEval σ} {cfg : ShellConfig} {s t : Shell σ}

/-- A shell as a server whose jobs are its expressions. An exception that nobody catches ends the
evaluation too. -/
def serial (s : Shell σ) : SerialServer Bytes where
  accepted := expressions s.pushed
  removed := s.removed
  waiting := expressions s.evalque.items
  current := if s.escaped then none else s.evl.job
  finished := s.ended

/-- One step of the server, or none. -/
def Serially (s t : Shell σ) : Prop :=
  t.serial = s.serial ∨ ∃ b, s.serial.step b = some t.serial

/-- What the eval thread can rely on, in a shell of any kind. -/
structure Duty (s : Shell σ) : Prop where
  hasEvaluator : s.hasEvaluator = s.evl.hasEvaluator
  sawDone : s.evl.sawDone = true → s.evalDone = true

theorem duty_fresh (v : σ) : Duty (fresh v) := ⟨rfl, nofun⟩

theorem serial_eq (h1 : t.pushed = s.pushed) (h2 : t.removed = s.removed)
    (h3 : expressions t.evalque.items = expressions s.evalque.items) (h4 : t.escaped = s.escaped)
    (h5 : t.evl.job = s.evl.job) (h6 : t.ended = s.ended) : t.serial = s.serial := by
  simp only [serial, h1, h2, h3, h4, h5, h6]

theorem pollLoop_serial (h : s.pollLoop E cfg = some t) : t.serial = s.serial := by
  obtain ⟨hf, he⟩ := pollLoop_frame h
  exact serial_eq hf.pushed hf.removed (by rw [hf.evalque]) hf.escaped (by rw [he]) hf.ended

theorem pollLoop_duty (hs : Duty s) (h : s.pollLoop E cfg = some t) : Duty t := by
  obtain ⟨hf, he⟩ := pollLoop_frame h
  refine ⟨?_, ?_⟩
  · rw [hf.hasEvaluator, he, hs.hasEvaluator]
  · rw [he]
    exact fun hd => hf.evalDone (hs.sawDone hd)

/-- The eval thread pops from the queue. -/
theorem pop_serially {e : Bytes} {q : CancelQueue Bytes} {p r : EvalPc} (hesc : s.escaped = false)
    (hq : s.evalque.items = e :: q.items) (hs : s.evl.job = none) (hp : p.job = none)
    (hr : r.job = some e) :
    Serially s { s.noteRemoved e true with evalque := q, evl := if e = [] then p else r } := by
  by_cases he : e = []
  · subst he
    left
    simp only [noteRemoved, ↓reduceIte]
    exact serial_eq rfl rfl (by simp [hq, expressions_cons]) rfl (hp.trans hs.symm) rfl
  · right
    refine ⟨.start, ?_⟩
    simp [SerialServer.step, serial, noteRemoved, he, hesc, hs, hr, hq, expressions_cons]

/-- A poll by the eval thread. -/
theorem ownPoll_serial {p : PollPc} {q : Option PollPc} {u : Shell σ} {e : EvalPc}
    (hu : pollAndSend E cfg s p = some (u, q)) (he : e.job = s.evl.job) :
    Shell.serial { u with evl := e } = s.serial := by
  obtain ⟨hf, -⟩ := pollAndSend_frame hu
  exact serial_eq hf.pushed hf.removed (by rw [hf.evalque]) hf.escaped he hf.ended

theorem evalLoop_serially (hs : Duty s) (hesc : s.escaped = false) (h : s.evalLoop E cfg = some t) :
    Serially s t := by
  cases he : s.evl with
  | off | running | exited => simp [evalLoop, he] at h
  | pop | drainPop =>
    simp only [evalLoop, he] at h
    split at h <;> cases h
    · rename_i e q hq
      exact pop_serially hesc (CancelQueue.pop_eq_item.mp hq).2.1 (by rw [he]; rfl) rfl rfl
    · exact .inl (serial_eq rfl rfl rfl rfl (by rw [he]; rfl) rfl)
  | drainPoll p | lastPoll p =>
    simp only [evalLoop, he, Option.map_eq_some_iff] at h
    obtain ⟨⟨u, q⟩, hu, rfl⟩ := h
    refine .inl (ownPoll_serial hu ?_)
    rw [he]
    cases q <;> rfl
  | startEval d e =>
    -- `eval_done` was seen true, so the assertion of `start_eval` holds
    have hdone := hs.sawDone (by rw [he]; rfl)
    simp only [evalLoop, he, hdone, ↓reduceIte, Option.some.injEq] at h
    subst h
    exact .inl (serial_eq rfl rfl rfl rfl (by rw [he]; rfl) rfl)
  | whileNotDone | wakePop | wakeStart e | wakeEnd | joinPoll =>
    simp only [evalLoop, he, wakePoll] at h
    split at h <;> cases h
    exact .inl (serial_eq rfl rfl rfl rfl (by rw [he]; rfl) rfl)
  | loopTest | drainSize | drainTest | lastTest =>
    simp only [evalLoop, he, Option.some.injEq] at h
    subst h
    refine .inl (serial_eq rfl rfl rfl rfl ?_ rfl)
    rw [he]
    dsimp only
    split <;> rfl
  | enter | beginEval d e | call d e | caught | unlockPoll | cancelReset | drainReset | setShell
  | dropEval =>
    simp only [evalLoop, he, Option.some.injEq] at h
    subst h
    exact .inl (serial_eq rfl rfl rfl rfl (by rw [he]; rfl) rfl)

theorem evalLoop_duty (hs : Duty s) (h : s.evalLoop E cfg = some t) : Duty t := by
  obtain ⟨h1, h2⟩ := id hs
  cases he : s.evl <;> simp only [he, EvalPc.hasEvaluator, EvalPc.sawDone, true_implies] at h1 h2
  case off | running | exited => simp [evalLoop, he] at h
  case pop | drainPop =>
    simp only [evalLoop, he] at h
    split at h <;> cases h
    · rw [noteRemoved_eq]
      dsimp only
      split <;> exact ⟨h1, fun _ => h2⟩
    · exact ⟨h1, fun h => absurd h Bool.false_ne_true⟩
  case drainPoll p | lastPoll p =>
    simp only [evalLoop, he, Option.map_eq_some_iff] at h
    obtain ⟨⟨u, q⟩, hu, rfl⟩ := h
    have hev := (pollAndSend_frame hu).1.hasEvaluator.trans h1
    cases q <;> exact ⟨hev, fun h => absurd h Bool.false_ne_true⟩
  case startEval d e =>
    simp only [evalLoop, he, h2, ↓reduceIte, Option.some.injEq] at h
    subst h
    exact ⟨h1, fun h => absurd h Bool.false_ne_true⟩
  case whileNotDone =>
    simp only [evalLoop, he] at h
    split at h <;> cases h
    rename_i hd
    exact ⟨h1, fun _ => hd⟩
  case wakePop | wakeStart e =>
    simp only [evalLoop, he, wakePoll] at h
    split at h <;> cases h
    exact ⟨h1, fun _ => h2⟩
  case wakeEnd | joinPoll =>
    simp only [evalLoop, he, wakePoll] at h
    split at h <;> cases h
    exact ⟨h1, fun h => absurd h Bool.false_ne_true⟩
  case loopTest | drainSize =>
    simp only [evalLoop, he, Option.some.injEq] at h
    subst h
    constructor
    · dsimp only
      split <;> exact h1
    · dsimp only
      split <;> simp [EvalPc.sawDone]
  case drainTest | lastTest =>
    simp only [evalLoop, he, Option.some.injEq] at h
    subst h
    constructor
    · dsimp only
      split <;> exact h1
    · dsimp only
      split
      · exact fun _ => ‹_›
      · simp [EvalPc.sawDone]
  case setShell | dropEval =>
    simp only [evalLoop, he, Option.some.injEq] at h
    subst h
    first | exact ⟨h1, fun _ => h2⟩ | exact ⟨rfl, fun _ => h2⟩
  case enter | beginEval d e | call d e | caught | unlockPoll | cancelReset | drainReset =>
    simp only [evalLoop, he, Option.some.injEq] at h
    subst h
    first | exact ⟨h1, fun h => absurd h Bool.false_ne_true⟩ | exact ⟨rfl, fun h => absurd h Bool.false_ne_true⟩

theorem evalReturn_serially (hesc : s.escaped = false) (h : s.evalReturn E = some t) : Serially s t := by
  cases he : s.evl <;> simp only [evalReturn, he, reduceCtorEq] at h
  case running d e =>
    right
    refine ⟨.finish, ?_⟩
    split at h <;> cases d <;> cases h <;> simp [SerialServer.step, serial, hesc, he, EvalPc.job]

theorem evalReturn_duty (hs : Duty s) (h : s.evalReturn E = some t) : Duty t := by
  obtain ⟨h1, h2⟩ := id hs
  cases he : s.evl <;> simp only [evalReturn, he, reduceCtorEq] at h
  case running d e =>
    rw [he] at h1
    split at h <;> cases d <;> cases h <;> exact ⟨h1, fun h => absurd h Bool.false_ne_true⟩

theorem evalWork_serial (h : s.evalWork E = some t) : t.serial = s.serial := by
  simp only [evalWork] at h
  split at h <;> cases h
  rfl

theorem evalWork_duty (hs : Duty s) (h : s.evalWork E = some t) : Duty t := by
  simp only [evalWork] at h
  split at h <;> cases h
  exact ⟨hs.1, hs.2⟩

/-- What goes into the queue and onto the record together. -/
theorem push_serially {e : Bytes} {n : NetPc} {p : List Bytes}
    (hp : expressions p = if s.evalque.cancelled then expressions s.pushed else expressions (s.pushed ++ [e])) :
    Serially s { s with evalque := s.evalque.pushOrDrop e, pushed := p, net := n } := by
  have hitems : expressions (s.evalque.pushOrDrop e).items = if s.evalque.cancelled then
      expressions s.evalque.items else expressions (s.evalque.items ++ [e]) := by
    rw [CancelQueue.pushOrDrop_eq]
    split <;> rfl
  -- a cancelled queue drops the expression, and an empty one is only a wake-up call
  by_cases hc : s.evalque.cancelled = true ∨ e = []
  · left
    simp only [serial, hp, hitems]
    rcases hc with hc | rfl
    · simp only [hc, ↓reduceIte]
    · simp [expressions_cons]
  · right
    -- the job is accepted where it enters the queue, not where the line came in
    obtain ⟨hc, he⟩ := not_or.mp hc
    refine ⟨.accept e, ?_⟩
    simp [SerialServer.step, serial, hp, hitems, hc, expressions_cons, he]

theorem netStep_serially (h : s.netStep E cfg = some t) : Serially s t := by
  cases hn : s.net with
  | idle | block e | gone => simp [netStep, hn] at h
  | push e =>
    simp only [netStep, hn, Option.some.injEq] at h
    subst h
    refine push_serially ?_
    split <;> rfl
  | sentinel =>
    simp only [netStep, hn, Option.some.injEq] at h
    subst h
    refine push_serially (e := []) (p := s.pushed) ?_
    simp [expressions_cons]
  | junk =>
    simp only [netStep, hn] at h
    split at h <;> cases h
    · exact .inl rfl
    · rename_i e rest hq
      by_cases he : e = []
      · subst he
        left
        simp only [noteRemoved, ↓reduceIte]
        exact serial_eq rfl rfl (by simp [hq, expressions_cons]) rfl rfl rfl
      -- an interrupt throws away what waits in the queue
      · right
        refine ⟨.discard, ?_⟩
        simp [SerialServer.step, serial, noteRemoved, he, hq, expressions_cons]
  | goodbye =>
    simp only [netStep, hn, Option.some.injEq] at h
    subst h
    rw [send_eq]
    exact .inl rfl
  | act d =>
    cases d <;> simp only [netStep, hn, Option.some.injEq] at h <;> subst h <;> exact .inl rfl
  | spin l | stall | join =>
    simp only [netStep, hn] at h
    split at h <;> cases h
    exact .inl rfl
  | discipline l | afterLine | cancel | exitMsg | checkEval | interrupt | clearPending | putAbort
  | finishEval | dtor =>
    simp only [netStep, hn, Option.some.injEq] at h
    subst h
    exact .inl rfl

theorem netStep_duty (hs : Duty s) (h : s.netStep E cfg = some t) : Duty t := by
  have hf := netStep_frame h
  refine ⟨?_, ?_⟩
  · rw [hf.hasEvaluator, hf.evl, hs.hasEvaluator]
  · rw [hf.evl]
    exact fun hd => hf.evalDone (hs.sawDone hd)

theorem evalLine_serial {l : Bytes} (hs : Duty s) (h : s.evalLine l = some t) : t.serial = s.serial := by
  simp only [evalLine] at h
  split at h
  · cases h
  · split at h <;> cases h
    · rfl
    · rename_i hno
      refine serial_eq rfl rfl rfl rfl ?_ rfl
      have hoff := hs.hasEvaluator
      simp only [Bool.not_eq_true] at hno
      rw [hno] at hoff
      revert hoff
      cases s.evl <;> simp [EvalPc.hasEvaluator, EvalPc.job]

theorem evalLine_duty {l : Bytes} (hs : Duty s) (h : s.evalLine l = some t) : Duty t := by
  simp only [evalLine] at h
  split at h
  · cases h
  · split at h <;> cases h
    · exact ⟨hs.1, hs.2⟩
    · rename_i hno
      exact ⟨Bool.eq_false_iff.mpr hno, fun h => absurd h Bool.false_ne_true⟩

/-- A step of the generic shell. -/
theorem step_serially {a : Act} (hs : Duty s) (h : s.step E cfg a = some t) : Serially s t ∧ Duty t := by
  unfold step at h
  split at h
  · cases h
  · rename_i hesc
    have hesc : s.escaped = false := by simpa using hesc
    cases a with
    | line l => exact ⟨.inl (evalLine_serial hs h), evalLine_duty hs h⟩
    | close =>
      simp only [close] at h
      split at h <;> cases h
      exact ⟨.inl rfl, hs.1, hs.2⟩
    | unbar =>
      simp only [unbar] at h
      split at h <;> cases h
      exact ⟨.inl rfl, hs.1, hs.2⟩
    | net => exact ⟨netStep_serially h, netStep_duty hs h⟩
    | eval => exact ⟨evalLoop_serially hs hesc h, evalLoop_duty hs h⟩
    | work => exact ⟨.inl (evalWork_serial h), evalWork_duty hs h⟩
    | ret => exact ⟨evalReturn_serially hesc h, evalReturn_duty hs h⟩
    | poll => exact ⟨.inl (pollLoop_serial h), pollLoop_duty hs h⟩

/-- Without user interrupts nothing is discarded. -/
theorem serial_keeping (E : GenericEval σ) (cfg : ShellConfig) (R : σ → Prop) :
    Refines (shellSystem E cfg R) (calm cfg) (serialSystem Bytes) SerialServer.keeping serial where
  init := by
    rintro _ ⟨v, -, rfl⟩
    rfl
  step s a t hs hca ht := by
    have hc := Control.of_reach hs
    refine (step_serially ⟨hc.hasEvaluator, hc.sawDone⟩ ht).1.imp_right ?_
    rintro ⟨b, hb⟩
    refine ⟨b, ?_, hb⟩
    rintro rfl
    -- a discarded job would be on the record as one that was not started
    have hkept := (quiet_step (.of_reach hs) hca ht).removed
    simp only [SerialServer.step] at hb
    split at hb
    · cases hb
    · have hremoved : s.removed ++ [(_, false)] = t.removed := congrArg SerialServer.removed (Option.some.inj hb)
      exact absurd (hkept _ (hremoved ▸ List.mem_concat_self)) (by simp)

end Shell

namespace KindShell

open Shell

variable {σ : Type*} {E : GenericEval σ} {cmd : σ → σ} {cfg : ShellConfig} {k : ShellKind}
  {s t : KindShell σ}

/-- What the top shell does on top of the generic step concerns neither queue nor eval thread. -/
theorem callStep_serially {b c : Shell σ} (hb : Duty b) (h : callStep E cmd cfg k b = some c) :
    Serially b c ∧ Duty c := by
  unfold callStep at h
  split at h
  · have hd : Duty { b with evaluator := cmd b.evaluator } := ⟨hb.1, hb.2⟩
    exact ⟨netStep_serially (s := { b with evaluator := cmd b.evaluator }) h, netStep_duty hd h⟩
  · obtain ⟨u, hu, rfl⟩ := Option.map_eq_some_iff.mp h
    have hd := netStep_duty hb hu
    have hserial : Serially b u := netStep_serially hu
    exact ⟨hserial, hd.1, hd.2⟩
  · exact ⟨netStep_serially h, netStep_duty hb h⟩

theorem eval_base {l : Bytes} (h : s.eval k l = some t) :
    ∃ d, t.base = { s.base with selfDestruct := d } := by
  unfold eval at h
  split at h
  · cases h
  · cases k with
    | python =>
      dsimp only at h
      split at h <;> cases h
      · exact ⟨false, rfl⟩
      · exact ⟨false, rfl⟩
    | _ =>
      cases h
      exact ⟨s.base.selfDestruct, rfl⟩

theorem kind_serially {a : Act} (hs : Duty s.base) (h : s.step E cmd cfg k a = some t) :
    Serially s.base t.base ∧ Duty t.base := by
  unfold step at h
  split at h
  · cases h
  · rename_i hesc
    cases a with
    | line l =>
      obtain ⟨d, hd⟩ := eval_base h
      rw [hd]
      exact ⟨.inl rfl, hs.1, hs.2⟩
    | close =>
      dsimp only at h
      split at h
      · cases h
      · obtain ⟨b, hb, rfl⟩ := Option.map_eq_some_iff.mp h
        unfold close at hb
        split at hb <;> cases hb
        exact ⟨.inl rfl, hs.1, hs.2⟩
    | net =>
      dsimp only [netStep] at h
      split at h
      · unfold hand at h
        split at h
        · obtain ⟨b, hb, rfl⟩ := Option.map_eq_some_iff.mp h
          exact ⟨.inl (evalLine_serial hs hb), evalLine_duty hs hb⟩
        · split at h <;> cases h
          exact ⟨.inl rfl, hs.1, hs.2⟩
      · obtain ⟨b, hb, rfl⟩ := Option.map_eq_some_iff.mp h
        exact callStep_serially hs hb
    | unbar | eval | work | ret | poll =>
      obtain ⟨b, hb, rfl⟩ := Option.map_eq_some_iff.mp h
      exact step_serially hs hb

theorem Duty.of_reach {ready : σ → Prop} {C : KindShell σ → Act → Prop}
    (h : Reach (kindSystem E cmd cfg k ready) C s) : Duty s.base := by
  refine h.invariant (fun s => Duty s.base) ?_ fun _ _ _ _ hs _ ht => (kind_serially hs ht).2
  rintro _ ⟨v, -, rfl⟩
  exact duty_fresh v

end KindShell

end CogServer
