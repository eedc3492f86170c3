import CogServer.ShellInvariant

/-! The expressions of a shell are never lost and never reordered: what was
pushed is what left the queue followed by what is still queued. -/
namespace CogServer

open Transition

/-- The expression that `eval_expr` is working on. -/
def EvalPc.current : EvalPc → List Bytes
  | .running _ e => [e]
  | _ => []

theorem EvalPc.held_idle {p : EvalPc} (h : p.hasEvaluator = false) :
    p.held = [] ∧ p.current = [] := by
  cases p <;> simp_all [EvalPc.hasEvaluator, EvalPc.held, EvalPc.current]

namespace Shell

variable {σ : Type*} {E : GenericEval σ} {cfg : ShellConfig} {s t : Shell σ}

/-- The account of the expressions. -/
structure Ledger (s : Shell σ) : Prop where
  taken : expressions s.pushed = s.removed.map Prod.fst ++ expressions s.evalque.items
  popped : (s.removed.filter Prod.snd).map Prod.fst = s.passed ++ s.evl.held
  ended : s.escaped = false → s.passed = s.ended ++ s.evl.current

theorem ledger_fresh (v : σ) : Ledger (fresh v) := by
  constructor <;> simp [fresh, CancelQueue.empty, EvalPc.held, EvalPc.current]

/-- A step that moves no expression. -/
theorem Ledger.frame (hl : Ledger s) (hpushed : t.pushed = s.pushed)
    (hremoved : t.removed = s.removed)
    (hitems : expressions t.evalque.items = expressions s.evalque.items)
    (hpassed : t.passed = s.passed) (hended : t.ended = s.ended) (hheld : t.evl.held = s.evl.held)
    (hcurrent : t.evl.current = s.evl.current) (hesc : t.escaped = false → s.escaped = false) :
    Ledger t where
  taken := by rw [hpushed, hremoved, hitems]; exact hl.taken
  popped := by rw [hremoved, hpassed, hheld]; exact hl.popped
  ended := by rw [hpassed, hended, hcurrent]; exact fun he => hl.ended (hesc he)

theorem ledger_poll (hl : Ledger s) (h : s.pollLoop E cfg = some t) : Ledger t := by
  obtain ⟨hf, he⟩ := pollLoop_frame h
  exact hl.frame hf.pushed hf.removed (by rw [hf.evalque]) hf.passed hf.ended (by rw [he]) (by rw [he])
    (by rw [hf.escaped]; exact id)

/-- Popping moves the head of the queue to the eval thread. -/
theorem ledger_pop {e : Bytes} {q : CancelQueue Bytes} {p r : EvalPc} (hl : Ledger s)
    (hq : s.evalque.items = e :: q.items) (hs : s.evl.held = [] ∧ s.evl.current = [])
    (hp : p.held = [] ∧ p.current = []) (hr : r.held = [e] ∧ r.current = []) :
    Ledger { s.noteRemoved e true with evalque := q, evl := if e = [] then p else r } := by
  have h1 := hl.taken
  have h2 := hl.popped
  have h3 := hl.ended
  rw [hq, expressions_cons] at h1
  rw [hs.1] at h2
  rw [hs.2] at h3
  by_cases he : e = []
  · simp only [he, ↓reduceIte] at h1
    simp only [noteRemoved, he, ↓reduceIte]
    exact ⟨h1, by rw [hp.1]; exact h2, by rw [hp.2]; exact h3⟩
  · simp only [he, ↓reduceIte] at h1
    simp only [noteRemoved, he, ↓reduceIte]
    constructor
    · simpa using h1
    · simpa [hr.1] using h2
    · simpa [hr.2] using h3

/-- A poll by the eval thread itself. -/
theorem ledger_ownPoll {p : PollPc} {q : Option PollPc} {u : Shell σ} {e : EvalPc} (hl : Ledger s)
    (hu : pollAndSend E cfg s p = some (u, q)) (hs : s.evl.held = [] ∧ s.evl.current = [])
    (he : e.held = [] ∧ e.current = []) : Ledger { u with evl := e } := by
  obtain ⟨hf, -⟩ := pollAndSend_frame hu
  exact hl.frame hf.pushed hf.removed (by rw [hf.evalque]) hf.passed hf.ended
    (by rw [hs.1, he.1]) (by rw [hs.2, he.2]) (by simp [hf.escaped])

attribute [local simp] EvalPc.held EvalPc.current

theorem ledger_eval (hl : Ledger s) (hs : s.escaped = false) (h : s.evalLoop E cfg = some t) :
    Ledger t := by
  cases he : s.evl with
  | off | running | exited => simp [evalLoop, he] at h
  | pop =>
    simp only [evalLoop, he] at h
    split at h <;> cases h
    · rename_i e q hq
      exact ledger_pop hl (CancelQueue.pop_eq_item.mp hq).2.1 (by simp [he]) (by simp) (by simp)
    · exact hl.frame rfl rfl rfl rfl rfl (by simp [he]) (by simp [he]) id
  | drainPop =>
    simp only [evalLoop, he] at h
    split at h <;> cases h
    · rename_i e q hq
      exact ledger_pop hl (CancelQueue.pop_eq_item.mp hq).2.1 (by simp [he]) (by simp) (by simp)
    · exact hl.frame rfl rfl rfl rfl rfl (by simp [he]) (by simp [he]) id
  | drainPoll p =>
    simp only [evalLoop, he, Option.map_eq_some_iff] at h
    obtain ⟨⟨u, q⟩, hu, rfl⟩ := h
    refine ledger_ownPoll hl hu (by simp [he]) ?_
    cases q <;> simp
  | lastPoll p =>
    simp only [evalLoop, he, Option.map_eq_some_iff] at h
    obtain ⟨⟨u, q⟩, hu, rfl⟩ := h
    refine ledger_ownPoll hl hu (by simp [he]) ?_
    cases q <;> simp
  | call d e =>
    simp only [evalLoop, he, Option.some.injEq] at h
    subst h
    have h2 := hl.popped
    have h3 := hl.ended hs
    rw [he] at h2 h3
    exact ⟨hl.taken, by simpa using h2, fun _ => by simpa using h3⟩
  | startEval d e =>
    simp only [evalLoop, he] at h
    split at h <;> cases h
    · exact hl.frame rfl rfl rfl rfl rfl (by simp [he]) (by simp [he]) id
    · exact hl.frame rfl rfl rfl rfl rfl (by simp [he]) (by simp [he]) (by simp)
  | wakePop | wakeStart e | wakeEnd | whileNotDone | joinPoll =>
    simp only [evalLoop, he, wakePoll] at h
    split at h <;> cases h
    exact hl.frame rfl rfl rfl rfl rfl (by simp [he]) (by simp [he]) id
  | loopTest | drainTest | lastTest | drainSize =>
    simp only [evalLoop, he, Option.some.injEq] at h
    subst h
    refine hl.frame rfl rfl rfl rfl rfl ?_ ?_ id <;> simp only [he] <;> split <;> simp
  | enter | beginEval d e | caught | unlockPoll | cancelReset | drainReset | setShell | dropEval =>
    simp only [evalLoop, he, Option.some.injEq] at h
    subst h
    exact hl.frame rfl rfl rfl rfl rfl (by simp [he]) (by simp [he]) id

theorem ledger_return (hl : Ledger s) (hs : s.escaped = false) (h : s.evalReturn E = some t) :
    Ledger t := by
  cases he : s.evl <;> simp only [evalReturn, he, reduceCtorEq] at h
  case running d e =>
    have h2 := hl.popped
    have h3 := hl.ended hs
    rw [he] at h2 h3
    have h2 : (s.removed.filter Prod.snd).map Prod.fst = s.passed := by simpa using h2
    have h3 : s.passed = s.ended ++ [e] := h3
    split at h <;> cases d <;> cases h
    case isTrue.draining => exact ⟨hl.taken, by simpa [he] using h2, by simp⟩
    all_goals exact ⟨hl.taken, by simpa using h2, fun _ => by simpa using h3⟩

theorem ledger_net (hl : Ledger s) (h : s.netStep E cfg = some t) : Ledger t := by
  cases hn : s.net with
  | idle | block e | gone => simp [netStep, hn] at h
  | push e =>
    simp only [netStep, hn, Option.some.injEq] at h
    subst h
    refine ⟨?_, hl.popped, hl.ended⟩
    have h1 := hl.taken
    cases hc : s.evalque.cancelled <;> simp [CancelQueue.pushOrDrop_eq, hc, h1]
  | junk =>
    simp only [netStep, hn] at h
    split at h <;> cases h
    · exact hl.frame rfl rfl rfl rfl rfl rfl rfl id
    · rename_i e rest hq
      have h1 := hl.taken
      have h2 := hl.popped
      rw [hq, expressions_cons] at h1
      unfold noteRemoved
      by_cases he : e = []
      · simp only [he, ↓reduceIte] at h1 ⊢
        exact ⟨h1, h2, hl.ended⟩
      · simp only [he, ↓reduceIte] at h1 ⊢
        exact ⟨by simpa using h1, by simpa using h2, hl.ended⟩
  | sentinel =>
    simp only [netStep, hn, Option.some.injEq] at h
    subst h
    refine hl.frame rfl rfl ?_ rfl rfl rfl rfl id
    rw [CancelQueue.pushOrDrop_eq]
    split <;> simp [expressions_cons]
  | act d =>
    cases d <;> simp only [netStep, hn, Option.some.injEq] at h <;> subst h <;>
      exact hl.frame rfl rfl rfl rfl rfl rfl rfl id
  | goodbye =>
    simp only [netStep, hn, Option.some.injEq] at h
    subst h
    rw [send_eq]
    exact hl.frame (s := s) rfl rfl rfl rfl rfl rfl rfl id
  | spin l | stall | join =>
    simp only [netStep, hn] at h
    split at h <;> cases h
    exact hl.frame rfl rfl rfl rfl rfl rfl rfl id
  | discipline l | afterLine | cancel | exitMsg | checkEval | interrupt | clearPending | putAbort
  | finishEval | dtor =>
    simp only [netStep, hn, Option.some.injEq] at h
    subst h
    exact hl.frame rfl rfl rfl rfl rfl rfl rfl id

theorem ledger_step {a : Act} (hc : Control s) (hl : Ledger s) (h : step E cfg s a = some t) :
    Ledger t := by
  unfold step at h
  split at h
  · cases h
  · rename_i hs
    have hs : s.escaped = false := by simpa using hs
    cases a with
    | net => exact ledger_net hl h
    | eval => exact ledger_eval hl hs h
    | ret => exact ledger_return hl hs h
    | poll => exact ledger_poll hl h
    | work =>
      simp only [evalWork] at h
      split at h <;> cases h
      exact hl.frame rfl rfl rfl rfl rfl rfl rfl id
    | close =>
      simp only [close] at h
      split at h <;> cases h
      exact hl.frame rfl rfl rfl rfl rfl rfl rfl id
    | unbar =>
      simp only [unbar] at h
      split at h <;> cases h
      exact hl.frame rfl rfl rfl rfl rfl rfl rfl id
    | line l =>
      simp only [evalLine] at h
      split at h
      · cases h
      · split at h <;> cases h
        · exact hl.frame rfl rfl rfl rfl rfl rfl rfl id
        · rename_i he
          have hi := EvalPc.held_idle (hc.hasEvaluator.symm.trans (by simpa using he))
          exact hl.frame rfl rfl rfl rfl rfl hi.1.symm hi.2.symm id

theorem Ledger.of_reach {R : σ → Prop} {C : Shell σ → Act → Prop}
    (h : Reach (shellSystem E cfg R) C s) : Ledger s := by
  refine h.invariant Ledger ?_ (fun _ _ _ hr hl _ ht => ledger_step (.of_reach hr) hl ht)
  rintro _ ⟨v, -, rfl⟩
  exact ledger_fresh v

end Shell

end CogServer
