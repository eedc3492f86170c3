import CogServer.ShellLedger

/-! Who holds `_poll_mtx`, and who waits for whom when a session ends. -/
namespace CogServer

open Transition

/-- Positions of the poll thread behind its loop. -/
def PollerPc.leftLoop : PollerPc → Bool
  | .unlock | .last _ | .lastTest | .exited => true
  | _ => false

/-- Positions of the eval thread once it has joined the poll thread. -/
def EvalPc.joined : EvalPc → Bool
  | .cancelReset | .joinPoll => false
  | p => p.leftLoop

/-- Positions from which the eval thread goes on to a blocking pop. -/
def EvalPc.popsNext : EvalPc → Bool
  | .whileNotDone | .wakePop | .pop => true
  | _ => false

/-- Positions on the way to the pop of the second loop. -/
def EvalPc.drains : EvalPc → Bool
  | .drainPoll _ | .drainTest | .drainPop => true
  | _ => false

namespace Shell

variable {σ : Type*} {E : GenericEval σ} {cfg : ShellConfig} {R : σ → Prop} {s t : Shell σ}

/-- An `eval_expr` that ends now ends without an exception. -/
def endsWell (E : GenericEval σ) (s : Shell σ) (a : Act) : Prop :=
  a = .ret → ∀ d e, s.evl = .running d e → E.throws e s.evaluator = false

/-- Only the poll thread holds the mutex, and nobody unlocks it for it. -/
structure Mutex (s : Shell σ) : Prop where
  locked : s.pollLocked = s.pol.locked
  strayUnlock : s.strayUnlock = false
  escaped : s.escaped = false
  caught : s.evl ≠ .caught ∧ s.evl ≠ .unlockPoll

theorem mutex_fresh (v : σ) : Mutex (fresh v) := by
  constructor <;> simp [fresh, PollerPc.locked]

theorem pollLoop_mutex (hm : s.pollLocked = s.pol.locked) (h : s.pollLoop E cfg = some t) :
    t.pollLocked = t.pol.locked ∧ t.strayUnlock = s.strayUnlock := by
  cases hp : s.pol with
  | off | exited => simp [pollLoop, hp] at h
  | enter | wait | unlock | lastTest | test =>
    rw [hp] at hm
    simp only [pollLoop, hp, Option.some.injEq] at h
    subst h
    refine ⟨?_, ?_⟩ <;> (try dsimp only) <;> (try split) <;> simp_all [PollerPc.locked]
  | lock =>
    simp only [pollLoop, hp] at h
    split at h <;> cases h
    exact ⟨rfl, rfl⟩
  | first p | second p | last p =>
    rw [hp] at hm
    simp only [pollLoop, hp, Option.map_eq_some_iff] at h
    obtain ⟨⟨u, q⟩, hu, rfl⟩ := h
    obtain ⟨-, -, -, -, hl, hk, -⟩ := pollAndSend_frame hu
    refine ⟨?_, hk⟩
    rw [hl, hm]
    cases q <;> rfl

/-- The eval thread only gets to the handler through a throwing `eval_expr`. -/
theorem evalLoop_caught (h : s.evalLoop E cfg = some t)
    (hc : s.evl ≠ .caught ∧ s.evl ≠ .unlockPoll) : t.evl ≠ .caught ∧ t.evl ≠ .unlockPoll := by
  cases he : s.evl with
  | off | running | exited => simp [evalLoop, he] at h
  | caught | unlockPoll => simp [he] at hc
  | pop | drainPop =>
    simp only [evalLoop, he] at h
    split at h <;> cases h
    · dsimp only
      split <;> simp
    · simp
  | drainPoll p | lastPoll p =>
    simp only [evalLoop, he, Option.map_eq_some_iff] at h
    obtain ⟨⟨u, q⟩, hu, rfl⟩ := h
    cases q <;> simp
  | startEval d e | wakePop | wakeStart e | wakeEnd | whileNotDone | joinPoll =>
    simp only [evalLoop, he, wakePoll] at h
    split at h <;> cases h <;> simp_all
  | enter | beginEval d e | call d e | cancelReset | drainReset | setShell | dropEval =>
    simp only [evalLoop, he, Option.some.injEq] at h
    subst h
    simp
  | loopTest | drainSize | drainTest | lastTest =>
    simp only [evalLoop, he, Option.some.injEq] at h
    subst h
    dsimp only
    split <;> simp

theorem evalLoop_escaped (hc : Control s) (h : s.evalLoop E cfg = some t) :
    t.escaped = s.escaped := by
  cases he : s.evl with
  | off | running | exited => simp [evalLoop, he] at h
  | startEval d e =>
    have hd := hc.sawDone
    simp only [he, EvalPc.sawDone, true_implies] at hd
    simp only [evalLoop, he, hd, ↓reduceIte, Option.some.injEq] at h
    subst h
    rfl
  | pop | drainPop =>
    simp only [evalLoop, he] at h
    split at h <;> cases h
    · rw [noteRemoved_eq]
    · rfl
  | drainPoll p | lastPoll p =>
    simp only [evalLoop, he, Option.map_eq_some_iff] at h
    obtain ⟨⟨u, q⟩, hu, rfl⟩ := h
    exact (pollAndSend_frame hu).1.escaped
  | wakePop | wakeStart e | wakeEnd | whileNotDone | joinPoll =>
    simp only [evalLoop, he, wakePoll] at h
    split at h <;> cases h
    rfl
  | enter | beginEval d e | call d e | caught | unlockPoll | loopTest | cancelReset | drainSize
  | drainTest | drainReset | lastTest | setShell | dropEval =>
    simp only [evalLoop, he, Option.some.injEq] at h
    subst h
    rfl

theorem mutex_step {a : Act} (hc : Control s) (hm : Mutex s) (hw : endsWell E s a)
    (h : step E cfg s a = some t) : Mutex t := by
  unfold step at h
  rw [if_neg (by simp [hm.escaped])] at h
  cases a with
  | net =>
    have hf := netStep_frame h
    exact ⟨by rw [hf.pollLocked, hf.pol]; exact hm.locked, hf.strayUnlock.trans hm.strayUnlock,
      hf.escaped.trans hm.escaped, by rw [hf.evl]; exact hm.caught⟩
  | poll =>
    obtain ⟨hf, he⟩ := pollLoop_frame h
    obtain ⟨hl, hk⟩ := pollLoop_mutex hm.locked h
    exact ⟨hl, hk.trans hm.strayUnlock, hf.escaped.trans hm.escaped, by rw [he]; exact hm.caught⟩
  | eval =>
    have hf := evalLoop_frame h
    obtain ⟨hl, hk⟩ := hf.pollLocked hm.caught.2
    refine ⟨?_, hk.trans hm.strayUnlock, (evalLoop_escaped hc h).trans hm.escaped,
      evalLoop_caught h hm.caught⟩
    rw [hl, hf.pol, hm.locked]
    split
    · rename_i he
      have hp : s.pol = .off := by
        by_contra hp
        exact (hc.poller hp).2 he
      simp [hp, PollerPc.locked]
    · rfl
  | ret =>
    cases he : s.evl <;> simp only [evalReturn, he, reduceCtorEq] at h
    case running d e =>
      simp only [hw rfl d e he, Bool.false_eq_true, ↓reduceIte] at h
      cases d <;> cases h <;> exact ⟨hm.locked, hm.strayUnlock, hm.escaped, by simp⟩
  | line l =>
    simp only [evalLine] at h
    split at h
    · cases h
    · split at h <;> cases h
      · exact ⟨hm.locked, hm.strayUnlock, hm.escaped, hm.caught⟩
      · exact ⟨hm.locked, hm.strayUnlock, hm.escaped, by simp⟩
  | work =>
    simp only [evalWork] at h
    split at h <;> cases h
    exact ⟨hm.locked, hm.strayUnlock, hm.escaped, hm.caught⟩
  | close =>
    simp only [close] at h
    split at h <;> cases h
    exact ⟨hm.locked, hm.strayUnlock, hm.escaped, hm.caught⟩
  | unbar =>
    simp only [unbar] at h
    split at h <;> cases h
    exact ⟨hm.locked, hm.strayUnlock, hm.escaped, hm.caught⟩

theorem Mutex.of_reach {C : Shell σ → Act → Prop} (hC : ∀ s a, C s a → endsWell E s a)
    (h : Reach (shellSystem E cfg R) C s) : Mutex s := by
  refine h.invariant Mutex ?_ (fun _ _ _ hr hm hc ht => mutex_step (.of_reach hr) hm (hC _ _ hc) ht)
  rintro _ ⟨v, -, rfl⟩
  exact mutex_fresh v

/-- Who still runs when the others wait for it. -/
structure Joins (s : Shell σ) : Prop where
  leftLoop : s.pol.leftLoop = true → s.selfDestruct = true
  waiting : s.pol = .exited → s.evl = .whileNotDone → s.evalDone = true
  joined : s.evl.joined = true → s.pol = .exited
  init : s.initDone = true ∨ s.evl = .off ∨ s.evl = .enter ∨ s.pol = .enter
  spinning : s.evl = .off → ∀ l, s.net ≠ .spin l
  sentinel : s.net = .join → s.evl.popsNext = true →
    s.evalque.items ≠ [] ∨ s.evalque.cancelled = true
  drainable : s.evl.drains = true → s.evalque.items ≠ []

theorem joins_fresh (v : σ) : Joins (fresh v) := by
  constructor <;> simp [fresh, PollerPc.leftLoop, EvalPc.joined, EvalPc.leftLoop, EvalPc.drains]

theorem joins_poll (hj : Joins s) (h : s.pollLoop E cfg = some t) : Joins t := by
  obtain ⟨hf, he⟩ := pollLoop_frame h
  have hex : s.pol ≠ .exited := by
    intro hp
    simp [pollLoop, hp] at h
  have hjo : t.evl.joined = false := by
    rw [he]
    by_contra hx
    exact hex (hj.joined (by simpa using hx))
  have hsp : t.evl = .off → ∀ l, t.net ≠ .spin l := by
    rw [he, hf.net]
    exact hj.spinning
  have hse : t.net = .join → t.evl.popsNext = true →
      t.evalque.items ≠ [] ∨ t.evalque.cancelled = true := by
    rw [hf.net, he, hf.evalque]
    exact hj.sentinel
  have hdr : t.evl.drains = true → t.evalque.items ≠ [] := by
    rw [he, hf.evalque]
    exact hj.drainable
  have hl := hj.leftLoop
  have hi := hj.init
  cases hp : s.pol with
  | off | exited => simp [pollLoop, hp] at h
  | enter | wait | unlock | lastTest | test =>
    simp only [pollLoop, hp, Option.some.injEq] at h
    subst h
    refine ⟨?_, ?_, by simp [hjo], ?_, hsp, hse, hdr⟩ <;> (try dsimp only) <;> (try split) <;>
      simp_all [PollerPc.leftLoop]
  | lock =>
    simp only [pollLoop, hp] at h
    split at h <;> cases h
    refine ⟨?_, ?_, by simp [hjo], ?_, hsp, hse, hdr⟩ <;> simp_all [PollerPc.leftLoop]
  | first p | second p | last p =>
    simp only [pollLoop, hp, Option.map_eq_some_iff] at h
    obtain ⟨⟨u, q⟩, hu, rfl⟩ := h
    obtain ⟨-, hue, hup, hui, -⟩ := pollAndSend_frame hu
    rw [hp] at hl hi
    refine ⟨?_, ?_, by simp [hjo], ?_, hsp, hse, hdr⟩
    · rw [hf.selfDestruct]
      intro hx
      cases q <;> simp_all [PollerPc.leftLoop]
    · cases q <;> simp
    · rw [hui, hue]
      simp only [reduceCtorEq, or_false] at hi
      rcases hi with hi | hi | hi
      · exact .inl hi
      · exact .inr (.inl hi)
      · exact .inr (.inr (.inl hi))

/-- Where the eval thread comes from when it waits, or has joined. -/
theorem evalLoop_turn (h : s.evalLoop E cfg = some t) :
    t.evl ≠ .off ∧
      (t.evl.popsNext = true → s.evl = .enter ∨ s.evl = .loopTest ∧ s.selfDestruct = false ∨
        s.evl.popsNext = true ∧ t.evl ≠ .whileNotDone ∧ t.evalque = s.evalque) ∧
      (t.evl.joined = true → s.evl.joined = true ∨ s.pol = .exited) ∧
      (t.evl.drains = true →
        t.evalque = s.evalque ∧ (s.evl.drains = true ∨ s.evalque.items ≠ [])) := by
  cases he : s.evl with
  | off | running | exited => simp [evalLoop, he] at h
  | pop | drainPop =>
    simp only [evalLoop, he] at h
    split at h <;> cases h
    · dsimp only
      split <;> simp [EvalPc.popsNext, EvalPc.joined, EvalPc.leftLoop, EvalPc.drains]
    · simp [EvalPc.popsNext, EvalPc.joined, EvalPc.leftLoop, EvalPc.drains]
  | drainPoll p | lastPoll p =>
    simp only [evalLoop, he, Option.map_eq_some_iff] at h
    obtain ⟨⟨u, q⟩, hu, rfl⟩ := h
    have hq := (pollAndSend_frame hu).1.evalque
    cases q <;> simp [hq, EvalPc.popsNext, EvalPc.joined, EvalPc.leftLoop, EvalPc.drains]
  | startEval d e =>
    simp only [evalLoop, he] at h
    split at h <;> cases h <;> cases d <;> simp_all [EvalPc.popsNext, EvalPc.joined, EvalPc.leftLoop, EvalPc.drains]
  | beginEval d e | call d e =>
    simp only [evalLoop, he, Option.some.injEq] at h
    subst h
    cases d <;> simp [EvalPc.popsNext, EvalPc.joined, EvalPc.leftLoop, EvalPc.drains]
  | joinPoll =>
    simp only [evalLoop, he] at h
    split at h <;> cases h
    rename_i hp
    simp [EvalPc.popsNext, EvalPc.drains, hp]
  | wakePop | wakeStart e | wakeEnd | whileNotDone =>
    simp only [evalLoop, he, wakePoll] at h
    split at h <;> cases h
    simp [EvalPc.popsNext, EvalPc.joined, EvalPc.leftLoop, EvalPc.drains]
  | enter | caught | unlockPoll | cancelReset | drainReset | setShell | dropEval =>
    simp only [evalLoop, he, Option.some.injEq] at h
    subst h
    simp [EvalPc.popsNext, EvalPc.joined, EvalPc.leftLoop, EvalPc.drains]
  | loopTest =>
    simp only [evalLoop, he, Option.some.injEq] at h
    subst h
    cases s.selfDestruct <;> simp [EvalPc.popsNext, EvalPc.joined, EvalPc.leftLoop, EvalPc.drains]
  | drainSize =>
    simp only [evalLoop, he, Option.some.injEq] at h
    subst h
    dsimp only
    split
    · rename_i hz
      simp [EvalPc.popsNext, EvalPc.joined, EvalPc.leftLoop, List.length_pos_iff.mp hz]
    · simp [EvalPc.popsNext, EvalPc.joined, EvalPc.leftLoop, EvalPc.drains]
  | drainTest | lastTest =>
    simp only [evalLoop, he, Option.some.injEq] at h
    subst h
    dsimp only
    split <;> simp [EvalPc.popsNext, EvalPc.joined, EvalPc.leftLoop, EvalPc.drains]

theorem joins_eval (hc : Control s) (hj : Joins s) (h : s.evalLoop E cfg = some t) : Joins t := by
  have hf := evalLoop_frame h
  obtain ⟨hoff, hpop, hjoin, hdr⟩ := evalLoop_turn h
  have hdr : t.evl.drains = true → t.evalque.items ≠ [] := by
    intro hx
    rw [(hdr hx).1]
    exact (hdr hx).2.elim hj.drainable id
  by_cases he : s.evl = .enter
  · obtain ⟨l, hl⟩ := hc.entered he
    have hp : t.pol = .enter := by rw [hf.pol, if_pos he]
    refine ⟨by simp [hp, PollerPc.leftLoop], by simp [hp], fun hx => ?_, .inr (.inr (.inr hp)),
      fun hx => absurd hx hoff, by simp [hf.net, hl], hdr⟩
    rcases hjoin hx with hx | hx
    · simp [he, EvalPc.joined, EvalPc.leftLoop] at hx
    · exact absurd he (hc.poller (by simp [hx])).2
  · have hp : t.pol = s.pol := by rw [hf.pol, if_neg he]
    constructor
    case leftLoop => rw [hp, hf.selfDestruct]; exact hj.leftLoop
    case waiting =>
      rw [hp]
      intro hx hw
      rcases hpop (by simp [hw, EvalPc.popsNext]) with h1 | h1 | h1
      · exact absurd h1 he
      · simp [hj.leftLoop (by simp [hx, PollerPc.leftLoop])] at h1
      · exact absurd hw h1.2.1
    case joined =>
      rw [hp]
      exact fun hx => (hjoin hx).elim hj.joined id
    case init =>
      rw [hf.initDone, hp]
      rcases hj.init with hi | hi | hi | hi
      · exact .inl hi
      · simp [evalLoop, hi] at h
      · exact absurd hi he
      · exact .inr (.inr (.inr hi))
    case spinning => exact fun hx => absurd hx hoff
    case sentinel =>
      rw [hf.net]
      intro hn hx
      rcases hpop hx with h1 | h1 | h1
      · exact absurd h1 he
      · simp [hc.ending (by simp [hn, NetPc.ending])] at h1
      · rw [h1.2.2]
        exact hj.sentinel hn h1.1
    case drainable => exact hdr

/-- The network thread comes to the join only by way of the sentinel, and takes
from the queue only in `user_interrupt`. -/
theorem netStep_join (h : s.netStep E cfg = some t) :
    (∀ l, t.net ≠ .spin l) ∧
      (t.net = .join → t.evalque.items ≠ [] ∨ t.evalque.cancelled = true) ∧
      (s.net ≠ .junk → s.evalque.items ≠ [] → t.evalque.items ≠ []) := by
  cases hn : s.net with
  | idle | block e | gone => simp [netStep, hn] at h
  | act d =>
    cases d <;> simp only [netStep, hn, Option.some.injEq] at h <;> subst h <;> simp [putOutput]
  | junk =>
    simp only [netStep, hn] at h
    split at h <;> cases h
    · simp
    · rw [noteRemoved_eq]
      simp [hn]
  | sentinel =>
    simp only [netStep, hn, Option.some.injEq] at h
    subst h
    rw [CancelQueue.pushOrDrop_eq]
    split <;> simp_all
  | spin l | stall | join =>
    simp only [netStep, hn] at h
    split at h <;> cases h
    simp
  | discipline l | cancel | exitMsg | interrupt | clearPending | putAbort | finishEval | dtor =>
    simp only [netStep, hn, Option.some.injEq] at h
    subst h
    simp [putOutput, Shell.finishEval]
  | push e =>
    simp only [netStep, hn, Option.some.injEq] at h
    subst h
    rw [CancelQueue.pushOrDrop_eq]
    split <;> simp
  | goodbye =>
    simp only [netStep, hn, Option.some.injEq] at h
    subst h
    rw [send_eq]
    simp
  | afterLine | checkEval =>
    simp only [netStep, hn, Option.some.injEq] at h
    subst h
    dsimp only
    split <;> simp

theorem joins_net (hc : Control s) (hj : Joins s) (h : s.netStep E cfg = some t) : Joins t := by
  have hf := netStep_frame h
  obtain ⟨hs, hjn, hit⟩ := netStep_join h
  constructor
  case leftLoop => rw [hf.pol]; exact fun hx => hf.selfDestruct (hj.leftLoop hx)
  case waiting => rw [hf.pol, hf.evl]; exact fun hx hw => hf.evalDone (hj.waiting hx hw)
  case joined => rw [hf.pol, hf.evl]; exact hj.joined
  case init => rw [hf.pol, hf.evl, hf.initDone]; exact hj.init
  case spinning => exact fun _ => hs
  case sentinel => exact fun hx _ => hjn hx
  case drainable =>
    rw [hf.evl]
    intro hx
    refine hit ?_ (hj.drainable hx)
    intro hn
    have := hc.leaving (hc.leftLoop (by cases he : s.evl <;> simp_all [EvalPc.drains, EvalPc.leftLoop]))
    simp [hn, NetPc.leaving] at this

theorem joins_step {a : Act} (hc : Control s) (hj : Joins s) (h : step E cfg s a = some t) :
    Joins t := by
  unfold step at h
  split at h
  · cases h
  · cases a with
    | net => exact joins_net hc hj h
    | poll => exact joins_poll hj h
    | eval => exact joins_eval hc hj h
    | ret =>
      cases he : s.evl <;> simp only [evalReturn, he, reduceCtorEq] at h
      case running d e =>
        have hi := hj.init
        have hd := hj.joined
        rw [he] at hi hd
        simp only [reduceCtorEq, false_or] at hi
        have hi (p : EvalPc) : s.initDone = true ∨ p = .off ∨ p = .enter ∨ s.pol = .enter :=
          hi.imp_right fun h => .inr (.inr h)
        split at h <;> cases d <;> cases h
        case isTrue.draining | isFalse.draining =>
          exact ⟨hj.leftLoop, by simp, fun _ => hd rfl, hi _, by simp, by simp [EvalPc.popsNext],
            by simp [EvalPc.drains]⟩
        all_goals
          exact ⟨hj.leftLoop, by simp, by simp [EvalPc.joined, EvalPc.leftLoop], hi _, by simp,
            by simp [EvalPc.popsNext], by simp [EvalPc.drains]⟩
    | work =>
      simp only [evalWork] at h
      split at h <;> cases h
      exact ⟨hj.leftLoop, hj.waiting, hj.joined, hj.init, hj.spinning, hj.sentinel, hj.drainable⟩
    | close =>
      simp only [close] at h
      split at h <;> cases h
      exact ⟨hj.leftLoop, hj.waiting, hj.joined, hj.init, by simp, by simp, hj.drainable⟩
    | unbar =>
      simp only [unbar] at h
      split at h <;> cases h
      exact ⟨hj.leftLoop, hj.waiting, hj.joined, hj.init, by simp, by simp, hj.drainable⟩
    | line l =>
      simp only [evalLine] at h
      split at h
      · cases h
      · split at h <;> cases h
        · exact ⟨hj.leftLoop, hj.waiting, hj.joined, hj.init, by simp, by simp, hj.drainable⟩
        · exact ⟨hj.leftLoop, by simp, by simp [EvalPc.joined, EvalPc.leftLoop], by simp, by simp,
            by simp, by simp [EvalPc.drains]⟩

theorem Joins.of_reach {C : Shell σ → Act → Prop} (h : Reach (shellSystem E cfg R) C s) :
    Joins s := by
  refine h.invariant Joins ?_ (fun _ _ _ hr hj _ ht => joins_step (.of_reach hr) hj ht)
  rintro _ ⟨v, -, rfl⟩
  exact joins_fresh v

end Shell

end CogServer
