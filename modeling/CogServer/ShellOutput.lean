import CogServer.McpDelivery
import CogServer.ShellRefinement

/-! What an evaluator gives and what a shell sends, in every run of a shell of any kind. -/
namespace CogServer

open Transition

/-- Where the network thread of a shell gets that passes its lines on as they are. -/
def NetPc.bare : NetPc → Bool
  | .act (.enqueue ok _) => ok.isEmpty
  | .act _ | .cancel | .exitMsg | .junk | .checkEval | .interrupt | .clearPending | .putAbort => false
  | .finishEval | .goodbye => false
  | _ => true

/-- The destructor is past its `self_destruct = true`. -/
def NetPc.parting : NetPc → Bool
  | .sentinel | .join | .gone => true
  | _ => false

namespace Shell

variable {σ : Type*}

/-- What `poll_result` gives to a thread at this position of a poll. -/
def gives (E : GenericEval σ) (s : Shell σ) (p : Option PollPc) : List Bytes :=
  match p with
  | some .pollResult => (E.pollResult s.evaluator).elim [] fun x => [x.1]
  | _ => []

/-- What it gives in a step. -/
def results (E : GenericEval σ) (s : Shell σ) : Act → List Bytes
  | .poll => s.gives E s.pol.polling
  | .eval => s.gives E s.evl.polling
  | _ => []

/-- What went to the socket of it. Empty strings and lone newlines do not count. -/
def forwarded (s : Shell σ) : List Bytes := (s.sent.map Prod.snd).filter sendable

/-- What a thread has of it in its hands. -/
def inHand (s : Shell σ) : List Bytes := s.polling.carried.filter sendable

/-- The text `o` with the result `r` is all from the evaluator: the result, or an error. -/
def FromEvaluator (E : GenericEval σ) (cfg : ShellConfig) (o r : Bytes) : Prop :=
  o = r ∨ r = [] ∧ cfg.showOutput = true ∧ ∃ v, E.evalError v = true ∧ o = E.errorString v

end Shell

/-- A shell, and all that its evaluator gave to it. -/
structure ShellOutput (σ : Type*) where
  shell : KindShell σ
  results : List Bytes

namespace ShellOutput

variable {σ : Type*}

def step (E : GenericEval σ) (cmd : σ → σ) (cfg : ShellConfig) (k : ShellKind) (x : ShellOutput σ)
    (a : Shell.Act) : Option (ShellOutput σ) :=
  (x.shell.step E cmd cfg k a).map fun shell => ⟨shell, x.results ++ x.shell.base.results E a⟩

end ShellOutput

/-- The runs of `kindSystem`, with a record of what the evaluator gives. -/
def outputSystem {σ : Type*} (E : GenericEval σ) (cmd : σ → σ) (cfg : ShellConfig) (k : ShellKind)
    (ready : σ → Prop) : System (ShellOutput σ) Shell.Act where
  init x := ∃ v, ready v ∧ x = ⟨KindShell.fresh v, []⟩
  step := ShellOutput.step E cmd cfg k

namespace Shell

variable {σ : Type*} {E : GenericEval σ} {cfg : ShellConfig} {s t u : Shell σ}

@[simp] theorem gives_none : s.gives E none = [] := rfl

theorem sendable_of_suffix {o r : Bytes} (h : r <:+ o) (hr : sendable r = true) : sendable o = true := by
  obtain ⟨before, rfl⟩ := h
  obtain ⟨hne, hnl⟩ : r ≠ [] ∧ r ≠ [newline] := by simpa [sendable] using hr
  have hone : before ++ r ≠ [newline] := by
    intro h
    rcases List.append_eq_singleton_iff.mp h with ⟨-, h⟩ | ⟨-, h⟩
    · exact hnl h
    · exact hne h
  simp [sendable, hne, hone]

/-- What is sent ends with what the evaluator gave, so that this is sent, too. -/
theorem forwarded_send {o r : Bytes} (h : r <:+ o) :
    (s.send o r).forwarded = s.forwarded ++ [r].filter sendable := by
  unfold send
  split
  · rw [forwarded, List.map_append, List.filter_append]
    rfl
  · next ho =>
    have hr : ¬ sendable r = true := fun hr => ho (sendable_of_suffix h hr)
    rw [List.filter_cons_of_neg hr, List.filter_nil, List.append_nil]

/-- A result is given, carried and sent. -/
theorem pollAndSend_account {p : PollPc} {q : Option PollPc} (hp : ∀ o r, p = .send o r → r <:+ o)
    (h : pollAndSend E cfg s p = some (u, q)) :
    u.forwarded ++ (q.getD .getOutput).carried.filter sendable =
      s.forwarded ++ p.carried.filter sendable ++ (s.gives E (some p)).filter sendable := by
  have hcarried (o r : Bytes) : (PollPc.send o r).carried.filter sendable = [r].filter sendable := by
    -- an empty result is carried like no result, and neither is sent
    by_cases hr : r = []
    · subst hr
      rfl
    · simp only [PollPc.carried, if_neg hr]
  cases p with
  | getOutput =>
    simp only [pollAndSend] at h
    split at h <;> cases h <;> simp [PollPc.carried, gives, forwarded]
  | pollResult =>
    simp only [pollAndSend] at h
    cases hpoll : E.pollResult s.evaluator with
    | none => simp [hpoll] at h
    | some x =>
      obtain ⟨r, v⟩ := x
      simp only [hpoll, Option.some.injEq, Prod.mk.injEq] at h
      obtain ⟨rfl, rfl⟩ := h
      have hgives : s.gives E (some .pollResult) = [r] := by rw [gives, hpoll]; rfl
      rw [hgives]
      by_cases hr : r = []
      · subst hr
        simp [PollPc.carried, forwarded, sendable]
      · simp only [if_neg hr, Option.getD_some, PollPc.carried, List.filter_nil, List.append_nil]
        rfl
  | getMore r =>
    cases h
    rw [Option.getD_some, hcarried]
    simp [PollPc.carried, gives, forwarded]
  | check =>
    simp only [pollAndSend] at h
    split at h
    · split at h <;> cases h <;> simp [PollPc.carried, gives, forwarded]
    · cases h
      simp [PollPc.carried, gives]
  | finishEval =>
    cases h
    simp [PollPc.carried, gives, forwarded, finishEval]
  | prompt =>
    cases h
    simp [PollPc.carried, gives]
  | send o r =>
    cases h
    rw [forwarded_send (hp o r rfl), hcarried]
    simp [PollPc.carried, gives]

/-- The text that goes out ends with the result. -/
theorem pollAndSend_suffix {p : PollPc} {q : Option PollPc} (h : pollAndSend E cfg s p = some (u, q))
    {o r : Bytes} (hq : q = some (.send o r)) : r <:+ o := by
  cases p with
  | getOutput =>
    simp only [pollAndSend] at h
    split at h <;> cases h <;> cases hq
    exact List.nil_suffix
  | pollResult =>
    simp only [pollAndSend] at h
    split at h
    · cases h
    · cases h
      split at hq <;> cases hq
  | getMore r =>
    cases h
    cases hq
    exact List.suffix_append _ _
  | check =>
    simp only [pollAndSend] at h
    split at h
    · split at h <;> cases h <;> cases hq <;> exact List.nil_suffix
    · cases h
      cases hq
  | finishEval =>
    cases h
    cases hq
  | prompt =>
    cases h
    cases hq
    exact List.nil_suffix
  | send o r =>
    cases h
    cases hq

/-- Whose turn it is to poll. -/
structure Turns (s : Shell σ) : Prop where
  joined : s.evl.joined = true → s.pol = .exited
  resting : s.evl = .off ∨ s.evl = .enter → s.pol = .off ∨ s.pol = .exited
  gone : s.net = .gone → s.evl = .off ∨ s.evl = .exited

theorem turns_fresh (v : σ) : Turns (fresh v) := by
  constructor <;> simp [fresh, EvalPc.joined, EvalPc.leftLoop]

theorem Turns.frame (hs : Turns s) (hevl : t.evl = s.evl) (hpol : t.pol = s.pol)
    (hnet : t.net = .gone → s.evl = .off ∨ s.evl = .exited) : Turns t :=
  ⟨by rw [hevl, hpol]; exact hs.joined, by rw [hevl, hpol]; exact hs.resting, by rw [hevl]; exact hnet⟩

theorem turns_poll (hs : Turns s) (h : s.pollLoop E cfg = some t) : Turns t := by
  obtain ⟨hf, hevl⟩ := pollLoop_frame h
  -- a poll thread that steps is neither off nor gone
  have hno : ¬ (s.pol = .off ∨ s.pol = .exited) := by
    rintro (hp | hp) <;> simp [pollLoop, hp] at h
  refine ⟨fun hj => ?_, fun hr => ?_, ?_⟩
  · rw [hevl] at hj
    exact absurd (.inr (hs.joined hj)) hno
  · rw [hevl] at hr
    exact absurd (hs.resting hr) hno
  · rw [hevl, hf.net]
    exact hs.gone

theorem evalLoop_entered (h : s.evalLoop E cfg = some t) : t.evl ≠ .enter := by
  cases he : s.evl with
  | off | running | exited => simp [evalLoop, he] at h
  | pop | drainPop =>
    simp only [evalLoop, he] at h
    split at h <;> cases h
    · dsimp only
      split <;> simp
    · simp
  | drainPoll p | lastPoll p =>
    simp only [evalLoop, he, Option.map_eq_some_iff] at h
    obtain ⟨⟨u, q⟩, -, rfl⟩ := h
    cases q <;> simp
  | startEval d e | wakePop | wakeStart e | wakeEnd | whileNotDone | joinPoll =>
    simp only [evalLoop, he, wakePoll] at h
    split at h <;> cases h <;> simp
  | loopTest | drainSize | drainTest | lastTest =>
    simp only [evalLoop, he, Option.some.injEq] at h
    subst h
    dsimp only
    split <;> simp
  | enter | beginEval d e | call d e | caught | unlockPoll | cancelReset | drainReset | setShell
  | dropEval =>
    simp only [evalLoop, he, Option.some.injEq] at h
    subst h
    simp

theorem turns_eval (hs : Turns s) (h : s.evalLoop E cfg = some t) : Turns t := by
  have hf := evalLoop_frame h
  obtain ⟨hoff, -, hjoined, -⟩ := evalLoop_turn h
  refine ⟨fun hj => ?_, fun hr => ?_, fun hg => ?_⟩
  · have hne : s.evl ≠ .enter := by
      intro he
      simp only [evalLoop, he, Option.some.injEq] at h
      rw [← h] at hj
      cases hj
    rw [hf.pol, if_neg hne]
    exact (hjoined hj).elim hs.joined id
  · rcases hr with hr | hr
    · exact absurd hr hoff
    · exact absurd hr (evalLoop_entered h)
  · rw [hf.net] at hg
    rcases hs.gone hg with he | he <;> simp [evalLoop, he] at h

theorem turns_return (hs : Turns s) (h : s.evalReturn E = some t) : Turns t := by
  cases he : s.evl <;> simp only [evalReturn, he, reduceCtorEq] at h
  case running d e =>
    have hnet : s.net ≠ .gone := by
      intro hg
      rcases hs.gone hg with he' | he' <;> simp [he] at he'
    have hjoined := hs.joined
    rw [he] at hjoined
    split at h <;> cases d <;> cases h <;> refine ⟨?_, by simp, fun hg => absurd hg hnet⟩
    · simp [EvalPc.joined, EvalPc.leftLoop]
    · exact hjoined
    · simp [EvalPc.joined, EvalPc.leftLoop]
    · exact hjoined

theorem evalLine_off {l : Bytes} (hd : Duty s) (h : s.evalLine l = some t) :
    t = { s with net := .discipline l } ∨
      t = { s with initDone := false, evl := .enter, net := .spin l } ∧
        (s.evl = .off ∨ s.evl = .enter ∨ s.evl = .exited) := by
  simp only [evalLine] at h
  split at h
  · cases h
  · split at h <;> cases h
    · exact .inl rfl
    · next hno =>
      -- the pointer is null: no eval thread is between its start and its end
      refine .inr ⟨rfl, ?_⟩
      have hoff := hd.hasEvaluator
      rw [Bool.eq_false_iff.mpr hno] at hoff
      cases he : s.evl <;> simp only [he, EvalPc.hasEvaluator, reduceCtorEq] at hoff
      · exact .inl rfl
      · exact .inr (.inl rfl)
      · exact .inr (.inr rfl)

theorem turns_line {l : Bytes} (hs : Turns s) (hd : Duty s) (h : s.evalLine l = some t) : Turns t := by
  rcases evalLine_off hd h with rfl | ⟨rfl, he⟩
  · exact hs.frame rfl rfl (by simp)
  · refine ⟨by simp [EvalPc.joined, EvalPc.leftLoop], fun _ => ?_, by simp⟩
    -- the new eval thread finds the poll thread where the old one left it
    rcases he with he | he | he
    · exact hs.resting (.inl he)
    · exact hs.resting (.inr he)
    · exact .inr (hs.joined (by rw [he]; rfl))

/-- While the eval thread polls, the poll thread is gone. -/
theorem Turns.exited (hs : Turns s) {p : PollPc} (h : s.evl.polling = some p) : s.pol = .exited := by
  refine hs.joined ?_
  cases he : s.evl <;> simp only [he, EvalPc.polling, reduceCtorEq] at h
  case drainPoll | lastPoll => rfl

/-- A step that is no part of a poll. -/
structure Aside (s t : Shell σ) : Prop where
  evl : t.evl = s.evl
  pol : t.pol = s.pol
  sent : t.sent = s.sent ∨ ∃ o, sendable o = true ∧ t.sent = s.sent ++ [(o, [])]
  gone : t.net = .gone → s.net = .gone ∨ s.evl = .off ∨ s.evl = .exited

theorem Turns.aside (hs : Turns s) (h : Aside s t) : Turns t :=
  hs.frame h.evl h.pol fun hg => (h.gone hg).elim hs.gone id

theorem netStep_aside (h : s.netStep E cfg = some t) : Aside s t := by
  have hf := netStep_frame h
  cases hn : s.net with
  | idle | block e | gone => simp [netStep, hn] at h
  | spin l | stall =>
    simp only [netStep, hn] at h
    split at h <;> cases h
    exact ⟨rfl, rfl, .inl rfl, by simp⟩
  | join =>
    simp only [netStep, hn] at h
    -- the destructor goes on only when the eval thread has exited or was never made
    split at h <;> cases h
    exact ⟨rfl, rfl, .inl rfl, fun _ => .inr ‹_›⟩
  | act d =>
    cases d <;> simp only [netStep, hn, Option.some.injEq] at h <;> subst h <;>
      exact ⟨rfl, rfl, .inl rfl, by simp⟩
  | junk =>
    simp only [netStep, hn] at h
    split at h <;> cases h
    · exact ⟨rfl, rfl, .inl rfl, by simp⟩
    · rw [noteRemoved_eq]
      exact ⟨rfl, rfl, .inl rfl, by simp [hn]⟩
  | goodbye =>
    simp only [netStep, hn, Option.some.injEq] at h
    subst h
    refine ⟨hf.evl, hf.pol, ?_, by simp⟩
    dsimp only
    unfold send
    split
    · exact .inr ⟨_, ‹_›, rfl⟩
    · exact .inl rfl
  | afterLine | checkEval =>
    simp only [netStep, hn, Option.some.injEq] at h
    subst h
    refine ⟨rfl, rfl, .inl rfl, ?_⟩
    dsimp only
    split <;> simp
  | discipline l | push e | cancel | exitMsg | interrupt | clearPending | putAbort | finishEval | dtor
  | sentinel =>
    simp only [netStep, hn, Option.some.injEq] at h
    subst h
    exact ⟨rfl, rfl, .inl rfl, by simp⟩

/-- A step of a poll, which gives `given`, or of a thread between its polls. -/
def Polled (E : GenericEval σ) (cfg : ShellConfig) (s t : Shell σ) (given : List Bytes) : Prop :=
  (∃ q u, pollAndSend E cfg s s.polling = some (u, q) ∧ t.polling = q.getD .getOutput ∧
    t.sent = u.sent ∧ t.pendingOutput = u.pendingOutput ∧ given = s.gives E (some s.polling)) ∨
  t.polling = s.polling ∧ t.sent = s.sent ∧ t.pendingOutput = s.pendingOutput ∧ given = []

theorem pollLoop_pending (hp : s.pol.polling = none) (h : s.pollLoop E cfg = some t) :
    t.pendingOutput = s.pendingOutput := by
  cases he : s.pol with
  | off | exited => simp [pollLoop, he] at h
  | first p | second p | last p => simp [he, PollerPc.polling] at hp
  | lock =>
    simp only [pollLoop, he] at h
    split at h <;> cases h
    rfl
  | enter | test | wait | unlock | lastTest =>
    simp only [pollLoop, he, Option.some.injEq] at h
    subst h
    rfl

theorem polled_poll (hs : Turns s) (h : s.pollLoop E cfg = some t) :
    Polled E cfg s t (s.results E .poll) := by
  obtain ⟨-, hevl⟩ := pollLoop_frame h
  -- the poll thread steps, so the eval thread is not in a poll
  have hone : s.evl.polling = none := by
    cases he : s.evl.polling with
    | none => rfl
    | some p => simp [pollLoop, hs.exited he] at h
  have hs' := polling_of_pol hone
  have ht' : t.polling = t.pol.polling.getD .getOutput := polling_of_pol (by rw [hevl, hone])
  rcases pollLoop_polling h with ⟨p, q, u, hp, hu, ht, hq⟩ | ⟨hp, hq, -, hsent, -⟩
  · rw [hp, Option.getD_some] at hs'
    rw [← hs'] at hu hp
    exact .inl ⟨q, u, hu, ht'.trans hq, by rw [ht], by rw [ht], by rw [Shell.results, hp]⟩
  · refine .inr ⟨?_, hsent, pollLoop_pending hp h, by rw [Shell.results, hp, gives_none]⟩
    rw [ht', hq, hs', hp]
    rfl

/-- A step of the eval thread is a step of its poll, or sends nothing. -/
theorem evalLoop_polling (h : s.evalLoop E cfg = some t) :
    (∃ p q u, s.evl.polling = some p ∧ pollAndSend E cfg s p = some (u, q) ∧
      t = { u with evl := t.evl } ∧ t.evl.polling.getD .getOutput = q.getD .getOutput) ∨
    s.evl.polling = none ∧ t.evl.polling.getD .getOutput = .getOutput ∧ t.sent = s.sent ∧
      t.pendingOutput = s.pendingOutput := by
  cases he : s.evl with
  | off | running | exited => simp [evalLoop, he] at h
  | pop | drainPop =>
    simp only [evalLoop, he] at h
    split at h <;> cases h
    · rw [noteRemoved_eq]
      refine .inr ⟨rfl, ?_, rfl, rfl⟩
      dsimp only
      split <;> rfl
    · exact .inr ⟨rfl, rfl, rfl, rfl⟩
  | drainPoll p | lastPoll p =>
    simp only [evalLoop, he, Option.map_eq_some_iff] at h
    obtain ⟨⟨u, q⟩, hu, rfl⟩ := h
    refine .inl ⟨p, q, u, rfl, hu, rfl, ?_⟩
    cases q <;> rfl
  | startEval d e | wakePop | wakeStart e | wakeEnd | whileNotDone | joinPoll =>
    simp only [evalLoop, he, wakePoll] at h
    split at h <;> cases h
    all_goals exact .inr ⟨rfl, rfl, rfl, rfl⟩
  | loopTest | drainSize | drainTest | lastTest =>
    simp only [evalLoop, he, Option.some.injEq] at h
    subst h
    refine .inr ⟨rfl, ?_, rfl, rfl⟩
    dsimp only
    split <;> rfl
  | enter | beginEval d e | call d e | caught | unlockPoll | cancelReset | drainReset | setShell
  | dropEval =>
    simp only [evalLoop, he, Option.some.injEq] at h
    subst h
    exact .inr ⟨rfl, rfl, rfl, rfl⟩

theorem polled_eval (hs : Turns s) (h : s.evalLoop E cfg = some t) :
    Polled E cfg s t (s.results E .eval) := by
  have hf := evalLoop_frame h
  rcases evalLoop_polling h with ⟨p, q, u, hp, hu, ht, hq⟩ | ⟨hp, hq, hsent, hpending⟩
  · have hexited := hs.exited hp
    -- this step does not start the poll thread: the eval thread is in a poll
    have hpol : t.pol = .exited := by
      rw [hf.pol, hexited, if_neg]
      intro he
      rw [he] at hp
      cases hp
    have hs' : s.polling = p := by rw [polling_of_exited hexited, hp, Option.getD_some]
    rw [← hs'] at hu hp
    exact .inl ⟨q, u, hu, (polling_of_exited hpol).trans hq, by rw [ht], by rw [ht],
      by rw [Shell.results, hp]⟩
  · refine .inr ⟨?_, hsent, hpending, by rw [Shell.results, hp, gives_none]⟩
    rw [polling_of_pol hp]
    cases ht : t.evl.polling with
    | some p =>
      have hpol := (turns_eval hs h).exited ht
      rw [polling_of_exited hpol, hq]
      rw [hf.pol] at hpol
      split at hpol
      · cases hpol
      · rw [hpol]
        rfl
    | none =>
      rw [polling_of_pol ht, hf.pol]
      split
      · next he =>
        -- the eval thread starts the poll thread
        rcases hs.resting (.inr he) with hr | hr <;> rw [hr] <;> rfl
      · rfl

/-- What is sent, and what a thread is about to send, goes with its result by `R`. -/
structure Sends (R : Bytes → Bytes → Prop) (s : Shell σ) : Prop where
  hand : ∀ o r, s.polling = .send o r → R o r
  sent : ∀ m ∈ s.sent, sendable m.1 = true ∧ R m.1 m.2

variable {R : Bytes → Bytes → Prop} {results given : List Bytes}

theorem Sends.send {o r : Bytes} (hs : Sends R s) (h : R o r) :
    ∀ m ∈ (s.send o r).sent, sendable m.1 = true ∧ R m.1 m.2 := by
  unfold Shell.send
  split
  · exact List.forall_mem_append.mpr ⟨hs.sent, List.forall_mem_singleton.mpr ⟨‹_›, h⟩⟩
  · exact hs.sent

theorem pollAndSend_sent {p : PollPc} {q : Option PollPc} (h : pollAndSend E cfg s p = some (u, q)) :
    u.sent = s.sent ∨ ∃ o r, p = .send o r ∧ u.sent = (s.send o r).sent := by
  cases p with
  | getOutput =>
    simp only [pollAndSend] at h
    split at h <;> cases h <;> exact .inl rfl
  | pollResult =>
    simp only [pollAndSend] at h
    split at h <;> cases h
    exact .inl rfl
  | check =>
    simp only [pollAndSend] at h
    split at h
    · split at h <;> cases h <;> exact .inl rfl
    · cases h
      exact .inl rfl
  | getMore r | finishEval | prompt =>
    cases h
    exact .inl rfl
  | send o r =>
    cases h
    exact .inr ⟨o, r, rfl, rfl⟩

theorem Sends.polled (hs : Sends R s) (h : Polled E cfg s t given)
    (hR : ∀ u q o r, pollAndSend E cfg s s.polling = some (u, q) → q = some (.send o r) → R o r) :
    Sends R t := by
  rcases h with ⟨q, u, hu, hpolling, hsent, -⟩ | ⟨hpolling, hsent, -⟩
  · refine ⟨fun o r hr => ?_, fun m hm => ?_⟩
    · rw [hpolling] at hr
      cases q with
      | none => cases hr
      | some q => exact hR u _ o r hu (congrArg some hr)
    · rw [hsent] at hm
      rcases pollAndSend_sent hu with h | ⟨o, r, hp, h⟩
      · exact hs.sent m (h ▸ hm)
      · exact hs.send (hs.hand o r hp) m (h ▸ hm)
  · exact ⟨hpolling ▸ hs.hand, hsent ▸ hs.sent⟩

theorem Sends.frame (hs : Sends R s) (hpolling : t.polling = s.polling)
    (hsent : t.sent = s.sent ∨ ∃ o, sendable o = true ∧ R o [] ∧ t.sent = s.sent ++ [(o, [])]) :
    Sends R t := by
  refine ⟨hpolling ▸ hs.hand, ?_⟩
  rcases hsent with h | ⟨o, ho, hR, h⟩
  · exact h ▸ hs.sent
  · rw [h]
    exact List.forall_mem_append.mpr ⟨hs.sent, List.forall_mem_singleton.mpr ⟨ho, hR⟩⟩

/-- What the evaluator gave is sent, in order, but for what is in the hands of a thread. -/
structure Balance (results : List Bytes) (s : Shell σ) : Prop where
  account : results.filter sendable = s.forwarded ++ s.inHand
  sends : Sends (fun o r => r <:+ o) s

theorem balance_fresh (v : σ) : Balance [] (fresh v) := by
  refine ⟨rfl, ⟨fun o r h => ?_, by simp [fresh]⟩⟩
  cases h

theorem Balance.polled (hb : Balance results s) (h : Polled E cfg s t given) :
    Balance (results ++ given) t := by
  refine ⟨?_, hb.sends.polled h fun u q o r hu => pollAndSend_suffix hu⟩
  rw [List.filter_append, hb.account]
  rcases h with ⟨q, u, hu, hpolling, hsent, -, rfl⟩ | ⟨hpolling, hsent, -, rfl⟩
  · have hforwarded : t.forwarded = u.forwarded := by rw [forwarded, forwarded, hsent]
    have hhand : t.inHand = (q.getD .getOutput).carried.filter sendable := by rw [inHand, hpolling]
    rw [hforwarded, hhand, pollAndSend_account hb.sends.hand hu, inHand]
  · rw [forwarded, forwarded, inHand, inHand, hpolling, hsent, List.filter_nil, List.append_nil]

theorem Balance.frame (hb : Balance results s) (hpolling : t.polling = s.polling)
    (hsent : t.sent = s.sent ∨ ∃ o, sendable o = true ∧ t.sent = s.sent ++ [(o, [])]) :
    Balance results t := by
  refine ⟨?_, hb.sends.frame hpolling (hsent.imp_right fun ⟨o, ho, h⟩ => ⟨o, ho, List.nil_suffix, h⟩)⟩
  rw [hb.account, inHand, inHand, hpolling]
  rcases hsent with h | ⟨o, -, h⟩
  · rw [forwarded, forwarded, h]
  · rw [forwarded, forwarded, h, List.map_append, List.filter_append]
    simp [sendable]

theorem Aside.polling (h : Aside s t) : t.polling = s.polling := by
  rw [Shell.polling, Shell.polling, h.evl, h.pol]

theorem evalReturn_between (h : s.evalReturn E = some t) :
    t.polling = s.polling ∧ t.sent = s.sent ∧ t.pendingOutput = s.pendingOutput := by
  cases he : s.evl <;> simp only [evalReturn, he, reduceCtorEq] at h
  case running d e =>
    split at h <;> cases d <;> cases h <;> refine ⟨?_, rfl, rfl⟩ <;> rw [polling, polling, he] <;> rfl

theorem evalLine_between {l : Bytes} (hd : Duty s) (h : s.evalLine l = some t) :
    t.polling = s.polling ∧ t.sent = s.sent ∧ t.pendingOutput = s.pendingOutput := by
  rcases evalLine_off hd h with rfl | ⟨rfl, he⟩
  · exact ⟨rfl, rfl, rfl⟩
  · refine ⟨?_, rfl, rfl⟩
    rcases he with he | he | he <;> rw [polling, polling, he] <;> rfl

/-- What holds in a shell without a line discipline and without prompts. -/
structure Bare (E : GenericEval σ) (cfg : ShellConfig) (s : Shell σ) : Prop where
  pendingOutput : s.pendingOutput = []
  net : s.net.bare = true
  selfDestruct : s.selfDestruct = true → s.net.parting = true
  sends : Sends (FromEvaluator E cfg) s

theorem bare_fresh (v : σ) : Bare E cfg (fresh v) := by
  refine ⟨rfl, rfl, fun h => absurd h Bool.false_ne_true, fun o r h => ?_, by simp [fresh]⟩
  cases h

theorem pollAndSend_bare {p : PollPc} {q : Option PollPc} (hprompt : cfg.showPrompt = false)
    (hs : s.pendingOutput = []) (h : pollAndSend E cfg s p = some (u, q)) :
    u.pendingOutput = [] ∧ ∀ o r, q = some (.send o r) → FromEvaluator E cfg o r := by
  cases p with
  | getOutput =>
    simp only [pollAndSend, hs, ↓reduceIte, Option.some.injEq, Prod.mk.injEq] at h
    obtain ⟨rfl, rfl⟩ := h
    exact ⟨hs, by simp⟩
  | pollResult =>
    simp only [pollAndSend] at h
    split at h <;> cases h
    refine ⟨hs, fun o r hq => ?_⟩
    split at hq <;> cases hq
  | getMore r =>
    cases h
    refine ⟨rfl, ?_⟩
    rintro _ _ ⟨⟩
    rw [hs, List.nil_append]
    exact .inl rfl
  | check =>
    simp only [pollAndSend] at h
    split at h
    · split at h <;> cases h <;> refine ⟨hs, ?_⟩ <;> rintro _ _ ⟨⟩
      · next herror =>
        split
        · exact .inr ⟨rfl, ‹_›, s.evaluator, herror, rfl⟩
        · exact .inl rfl
      · exact .inl rfl
    · cases h
      exact ⟨hs, by simp⟩
  | finishEval =>
    cases h
    exact ⟨hs, by simp⟩
  | prompt =>
    cases h
    refine ⟨hs, ?_⟩
    rintro _ _ ⟨⟩
    rw [hprompt, Bool.and_false]
    exact .inl rfl
  | send o r =>
    cases h
    rw [send_eq]
    exact ⟨hs, by simp⟩

theorem Bare.polled (hs : Bare E cfg s) (hprompt : cfg.showPrompt = false) (h : Polled E cfg s t given)
    (hnet : t.net = s.net) (hself : t.selfDestruct = s.selfDestruct) : Bare E cfg t := by
  refine ⟨?_, hnet ▸ hs.net, by rw [hself, hnet]; exact hs.selfDestruct, ?_⟩
  · rcases h with ⟨q, u, hu, -, -, hpending, -⟩ | ⟨-, -, hpending, -⟩
    · exact hpending.trans (pollAndSend_bare hprompt hs.pendingOutput hu).1
    · exact hpending.trans hs.pendingOutput
  · exact hs.sends.polled h fun u q o r hu => (pollAndSend_bare hprompt hs.pendingOutput hu).2 o r

theorem Bare.between (hs : Bare E cfg s)
    (h : t.polling = s.polling ∧ t.sent = s.sent ∧ t.pendingOutput = s.pendingOutput)
    (hnet : t.net.bare = true) (hself : t.selfDestruct = true → t.net.parting = true) :
    Bare E cfg t :=
  ⟨h.2.2.trans hs.pendingOutput, hnet, hself, hs.sends.frame h.1 (.inl h.2.1)⟩

theorem bare_net (hdiscipline : cfg.applyDiscipline = false) (hs : Bare E cfg s)
    (h : s.netStep E cfg = some t) : Bare E cfg t := by
  have hnet := hs.net
  have hself := hs.selfDestruct
  cases hn : s.net with
  | idle | block e | gone => simp [netStep, hn] at h
  | cancel | exitMsg | junk | checkEval | interrupt | clearPending | putAbort | finishEval | goodbye =>
    rw [hn] at hnet
    cases hnet
  | act d =>
    rw [hn] at hnet hself
    cases d with
    | enqueue ok e =>
      obtain rfl : ok = [] := by simpa [NetPc.bare] using hnet
      simp only [netStep, hn, Option.some.injEq] at h
      subst h
      exact hs.between ⟨rfl, rfl, by simp [putOutput]⟩ rfl hself
    | leave | interrupt ok | reply o => cases hnet
  | discipline l =>
    rw [hn] at hself
    simp only [netStep, hn, hdiscipline, Bool.false_eq_true, ↓reduceIte, Option.some.injEq] at h
    subst h
    exact hs.between ⟨rfl, rfl, rfl⟩ rfl hself
  | afterLine =>
    rw [hn] at hself
    have hno : ¬ s.selfDestruct = true := fun hd => absurd (hself hd) Bool.false_ne_true
    simp only [netStep, hn, if_neg hno, Option.some.injEq] at h
    subst h
    exact hs.between ⟨rfl, rfl, rfl⟩ rfl hself
  | spin l | stall | join =>
    rw [hn] at hself
    simp only [netStep, hn] at h
    split at h <;> cases h
    exact hs.between ⟨rfl, rfl, rfl⟩ rfl hself
  | push e | sentinel =>
    rw [hn] at hself
    simp only [netStep, hn, Option.some.injEq] at h
    subst h
    exact hs.between ⟨rfl, rfl, rfl⟩ rfl hself
  | dtor =>
    simp only [netStep, hn, Option.some.injEq] at h
    subst h
    exact hs.between ⟨rfl, rfl, rfl⟩ rfl fun _ => rfl

theorem bare_line {l : Bytes} (hs : Bare E cfg s) (hd : Duty s) (h : s.evalLine l = some t) :
    Bare E cfg t := by
  have hself : s.selfDestruct ≠ true := by
    intro hself
    unfold evalLine at h
    split at h
    · cases h
    · next hidle =>
      have hparting := hs.selfDestruct hself
      rw [not_ne_iff.mp hidle] at hparting
      cases hparting
  have hbetween := evalLine_between hd h
  rcases evalLine_off hd h with rfl | ⟨rfl, -⟩
  · exact hs.between hbetween rfl fun h => absurd h hself
  · exact hs.between hbetween rfl fun h => absurd h hself

/-- Without errors, all that is sent is what the evaluator gave. -/
theorem Bare.sent_eq (hs : Bare E cfg s) (herror : cfg.showOutput = false ∨ ∀ v, E.evalError v = false) :
    s.sent.map Prod.fst = s.forwarded := by
  have hsame : ∀ m ∈ s.sent, m.1 = m.2 := fun m hm => by
    rcases (hs.sends.sent m hm).2 with h | ⟨-, hshow, v, hv, -⟩
    · exact h
    · rcases herror with h | h
      · rw [h] at hshow
        cases hshow
      · rw [h v] at hv
        cases hv
  rw [forwarded, ← List.map_congr_left hsame]
  refine (List.filter_eq_self.mpr fun o ho => ?_).symm
  obtain ⟨m, hm, rfl⟩ := List.mem_map.mp ho
  exact (hs.sends.sent m hm).1

/-- What holds of a shell whose evaluator gave `results`. -/
structure Forwards (E : GenericEval σ) (cfg : ShellConfig) (results : List Bytes) (s : Shell σ) :
    Prop where
  duty : Duty s
  turns : Turns s
  balance : Balance results s
  bare : cfg.applyDiscipline = false → cfg.showPrompt = false → Bare E cfg s

theorem forwards_fresh (v : σ) : Forwards E cfg [] (fresh v) :=
  ⟨duty_fresh v, turns_fresh v, balance_fresh v, fun _ _ => bare_fresh v⟩

theorem Forwards.aside (hs : Forwards E cfg results s) (hd : Duty t) (h : Aside s t)
    (hbare : cfg.applyDiscipline = false → Bare E cfg s → Bare E cfg t) : Forwards E cfg results t :=
  ⟨hd, hs.turns.aside h, hs.balance.frame h.polling h.sent, fun h1 h2 => hbare h1 (hs.bare h1 h2)⟩

theorem forwards_line {l : Bytes} (hs : Forwards E cfg results s) (h : s.evalLine l = some t) :
    Forwards E cfg results t := by
  have hbetween := evalLine_between hs.duty h
  exact ⟨evalLine_duty hs.duty h, turns_line hs.turns hs.duty h,
    hs.balance.frame hbetween.1 (.inl hbetween.2.1), fun h1 h2 => bare_line (hs.bare h1 h2) hs.duty h⟩

/-- A step of a thread of the generic shell other than its network thread. -/
theorem forwards_step {a : Act} (hs : Forwards E cfg results s)
    (ha : a = .unbar ∨ a = .eval ∨ a = .work ∨ a = .ret ∨ a = .poll) (h : s.step E cfg a = some t) :
    Forwards E cfg (results ++ s.results E a) t := by
  have hd := (step_serially hs.duty h).2
  unfold step at h
  split at h
  · cases h
  · rcases ha with rfl | rfl | rfl | rfl | rfl
    · change Forwards E cfg (results ++ []) t
      rw [List.append_nil]
      dsimp only [unbar] at h
      split at h <;> cases h
      next e hn =>
      refine hs.aside hd ⟨rfl, rfl, .inl rfl, by simp⟩ fun _ hb => hb.between ⟨rfl, rfl, rfl⟩ rfl ?_
      have hself := hb.selfDestruct
      rw [hn] at hself
      exact hself
    · have hpolled := polled_eval hs.turns h
      have hf := evalLoop_frame h
      exact ⟨hd, turns_eval hs.turns h, hs.balance.polled hpolled,
        fun h1 h2 => (hs.bare h1 h2).polled h2 hpolled hf.net hf.selfDestruct⟩
    · change Forwards E cfg (results ++ []) t
      rw [List.append_nil]
      dsimp only [evalWork] at h
      split at h <;> cases h
      exact hs.aside hd ⟨rfl, rfl, .inl rfl, .inl⟩ fun _ hb =>
        hb.between ⟨rfl, rfl, rfl⟩ hb.net hb.selfDestruct
    · change Forwards E cfg (results ++ []) t
      rw [List.append_nil]
      have hbetween := evalReturn_between h
      obtain ⟨hnet, -, hself, -⟩ := evalReturn_other h
      refine ⟨hd, turns_return hs.turns h, hs.balance.frame hbetween.1 (.inl hbetween.2.1), fun h1 h2 => ?_⟩
      have hb := hs.bare h1 h2
      exact hb.between hbetween (hnet ▸ hb.net) (by rw [hself, hnet]; exact hb.selfDestruct)
    · have hpolled := polled_poll hs.turns h
      have hf := (pollLoop_frame h).1
      exact ⟨hd, turns_poll hs.turns h, hs.balance.polled hpolled,
        fun h1 h2 => (hs.bare h1 h2).polled h2 hpolled hf.net hf.selfDestruct⟩

/-- Once the shell is gone, nothing is in the hands of a thread. -/
theorem Turns.nothing (hs : Turns s) (h : s.net = .gone) : s.inHand = [] := by
  have hnone : s.polling = .getOutput := by
    rcases hs.gone h with he | he
    · have hevl : s.evl.polling = none := by rw [he]; rfl
      rw [polling_of_pol hevl]
      rcases hs.resting (.inl he) with hp | hp <;> rw [hp] <;> rfl
    · rw [polling_of_exited (hs.joined (by rw [he]; rfl)), he]
      rfl
  rw [inHand, hnone]
  rfl

theorem inHand_length (s : Shell σ) : s.inHand.length ≤ 1 := by
  refine (List.length_filter_le _ _).trans ?_
  cases s.polling with
  | send o r =>
    simp only [PollPc.carried]
    split <;> simp
  | _ => simp [PollPc.carried]

end Shell

namespace ShellOutput

open Shell

variable {σ : Type*} {E : GenericEval σ} {cmd : σ → σ} {cfg : ShellConfig} {k : ShellKind}
  {ready : σ → Prop} {u v : KindShell σ} {results : List Bytes} {x : ShellOutput σ}

theorem callStep_forwards {b c : Shell σ} (hs : Forwards E cfg results b)
    (h : KindShell.callStep E cmd cfg k b = some c) : Forwards E cfg results c := by
  have hd := (KindShell.callStep_serially hs.duty h).2
  unfold KindShell.callStep at h
  split at h
  · have ha := netStep_aside h
    refine hs.aside hd ⟨ha.evl, ha.pol, ha.sent, ha.gone⟩ fun h1 hb => bare_net h1 ?_ h
    exact hb.between ⟨rfl, rfl, rfl⟩ hb.net hb.selfDestruct
  · next ok hn =>
    -- an interrupt needs the line discipline, so there is nothing to show of a bare shell
    obtain ⟨t, ht, rfl⟩ := Option.map_eq_some_iff.mp h
    have ha := netStep_aside ht
    refine hs.aside hd ⟨ha.evl, ha.pol, ha.sent, ha.gone⟩ fun _ hb => ?_
    have hnet := hb.net
    rw [hn] at hnet
    cases hnet
  · exact hs.aside hd (netStep_aside h) fun h1 hb => bare_net h1 hb h

theorem kind_forwards {a : Act} (hu : KindShell.Ready u) (hs : Forwards E cfg results u.base)
    (h : u.step E cmd cfg k a = some v) : Forwards E cfg (results ++ u.base.results E a) v.base := by
  unfold KindShell.step at h
  split at h
  · cases h
  · cases a with
    | line l =>
      change Forwards E cfg (results ++ []) v.base
      rw [List.append_nil, (KindShell.called_eval hu h).base]
      exact hs
    | close =>
      change Forwards E cfg (results ++ []) v.base
      rw [List.append_nil]
      dsimp only at h
      split at h
      · cases h
      · obtain ⟨b, hb, rfl⟩ := Option.map_eq_some_iff.mp h
        unfold close at hb
        split at hb <;> cases hb
        next hidle =>
        have hd : Duty { u.base with net := .stall } := ⟨hs.duty.1, hs.duty.2⟩
        refine hs.aside hd ⟨rfl, rfl, .inl rfl, by simp⟩ fun _ hb => ?_
        refine hb.between ⟨rfl, rfl, rfl⟩ rfl fun hself => ?_
        -- `self_destruct` is set in the destructor only, and the socket is idle
        have hparting := hb.selfDestruct hself
        rw [not_ne_iff.mp hidle] at hparting
        cases hparting
    | net =>
      change Forwards E cfg (results ++ []) v.base
      rw [List.append_nil]
      dsimp only [KindShell.netStep] at h
      split at h
      · unfold KindShell.hand at h
        split at h
        · obtain ⟨b, hb, rfl⟩ := Option.map_eq_some_iff.mp h
          exact forwards_line hs hb
        -- a Python shell that deletes itself here is not ready, see `eval`
        · simp only [hu.selfie, Bool.false_eq_true, ↓reduceIte, reduceCtorEq] at h
      · obtain ⟨b, hb, rfl⟩ := Option.map_eq_some_iff.mp h
        exact callStep_forwards hs hb
    | unbar | eval | work | ret | poll =>
      obtain ⟨b, hb, rfl⟩ := Option.map_eq_some_iff.mp h
      exact forwards_step hs (by simp) hb

theorem step_eq {y : ShellOutput σ} {a : Act} (h : x.step E cmd cfg k a = some y) :
    x.shell.step E cmd cfg k a = some y.shell ∧ y.results = x.results ++ x.shell.base.results E a := by
  obtain ⟨u, hu, rfl⟩ := Option.map_eq_some_iff.mp h
  exact ⟨hu, rfl⟩

/-- The record is no part of the shell. -/
theorem output_refines : Refines (outputSystem E cmd cfg k ready) anyStep (kindSystem E cmd cfg k ready)
    anyStep ShellOutput.shell where
  init := by
    rintro _ ⟨v, hv, rfl⟩
    exact ⟨v, hv, rfl⟩
  step _ a _ _ _ ht := .inr ⟨a, trivial, (step_eq ht).1⟩

theorem forwards_of_reach (h : Reach (outputSystem E cmd cfg k ready) anyStep x) :
    Forwards E cfg x.results x.shell.base := by
  refine h.invariant (fun x => Forwards E cfg x.results x.shell.base) ?_ ?_
  · rintro _ ⟨v, -, rfl⟩
    exact forwards_fresh v
  · intro y a z hy hs _ hz
    obtain ⟨hstep, hresults⟩ := step_eq hz
    rw [hresults]
    exact kind_forwards (.of_reach (output_refines.reach hy)) hs hstep

/-- Whatever is typed, interrupted or closed, and however the threads take turns: what the evaluator
gives goes to the socket, each result once and in order, at the end of one message; when the shell is
gone, none of it is left. A shell that has no line discipline and no prompts sends nothing else but
errors. -/
theorem output_forwarded (h : Reach (outputSystem E cmd cfg k ready) anyStep x) :
    x.results.filter sendable = x.shell.base.forwarded ++ x.shell.base.inHand ∧
    x.shell.base.inHand.length ≤ 1 ∧
    (∀ m ∈ x.shell.base.sent, m.2 <:+ m.1) ∧
    (x.shell.base.net = .gone → x.shell.base.inHand = []) ∧
    (cfg.applyDiscipline = false → cfg.showPrompt = false →
      (∀ m ∈ x.shell.base.sent, FromEvaluator E cfg m.1 m.2) ∧
      (cfg.showOutput = false ∨ (∀ v, E.evalError v = false) →
        x.shell.base.sent.map Prod.fst = x.shell.base.forwarded)) := by
  obtain ⟨-, hturns, hbalance, hbare⟩ := forwards_of_reach h
  exact ⟨hbalance.account, inHand_length _, fun m hm => (hbalance.sends.sent m hm).2, hturns.nothing,
    fun h1 h2 => ⟨fun m hm => ((hbare h1 h2).sends.sent m hm).2, (hbare h1 h2).sent_eq⟩⟩

/-- A shell of the web server. -/
def webConfig : ShellConfig := { plainConfig with applyDiscipline := false }

/-- Two lines, the second while the first is evaluated, and the end of the connection. -/
def twoExpressions : List Act :=
  List.flatten [[.line (ascii "7"), .net], List.replicate 3 .eval, [.poll], List.replicate 3 .net,
    [.unbar], List.replicate 2 .net, [.line (ascii "8")], List.replicate 3 .net, [.unbar],
    List.replicate 2 .net, [.close], List.replicate 5 .eval, [.ret], List.replicate 2 .eval,
    List.replicate 3 .net, List.replicate 12 .poll, List.replicate 7 .eval, [.ret],
    List.replicate 3 .eval, List.replicate 15 .poll, List.replicate 16 .eval, [.net]]

theorem output_forwarded_two : ∃ x : ShellOutput Bytes, x.shell.base.net = .gone ∧
    x.results = [ascii "7", [], ascii "8", [], [], []] ∧
    x.shell.base.sent.map Prod.fst = [ascii "7", ascii "8"] := by
  have hrun : (exec (outputSystem echoEval id webConfig .json fun _ => True) ⟨.fresh [], []⟩
      twoExpressions).map (fun x => (x.shell.base.net, x.results)) =
        some (.gone, [ascii "7", [], ascii "8", [], [], []]) := by decide +kernel
  obtain ⟨x, hx, heq⟩ := Option.map_eq_some_iff.mp hrun
  obtain ⟨hgone, hresults⟩ := Prod.mk.inj heq
  have hreach : Reach (outputSystem echoEval id webConfig .json fun _ => True) anyStep x :=
    reach_of_exec twoExpressions ⟨[], trivial, rfl⟩ hx
  obtain ⟨haccount, -, -, hnothing, hbare⟩ := output_forwarded hreach
  refine ⟨x, hgone, hresults, ?_⟩
  rw [hnothing hgone, List.append_nil, hresults] at haccount
  rw [(hbare rfl rfl).2 (.inr fun _ => rfl), ← haccount]
  decide

end ShellOutput

end CogServer
