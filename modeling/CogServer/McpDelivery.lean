import CogServer.ShellProgress
import CogServer.McpEval

/-! The way of a response from a `McpEval` to the socket, over the poll thread that
guesses when an evaluation is over. -/
namespace CogServer

open Transition

/-- Positions inside a call of `poll_output`. -/
def PollPc.inCall : PollPc → Bool
  | .pollResult | .getMore _ | .check | .finishEval | .prompt => true
  | .getOutput | .send _ _ => false

/-- Positions behind a `poll_result` that gave nothing. -/
def PollPc.sawNothing : PollPc → Bool
  | .check | .finishEval | .prompt => true
  | _ => false

/-- The response that is on its way to the socket. -/
def PollPc.carried : PollPc → List Bytes
  | .getMore r => [r]
  | .send _ r => if r = [] then [] else [r]
  | _ => []

/-- The poll that the poll thread is in. -/
def PollerPc.polling : PollerPc → Option PollPc
  | .first p | .second p | .last p => some p
  | _ => none

/-- The poll that the eval thread is in, once the poll thread is gone. -/
def EvalPc.polling : EvalPc → Option PollPc
  | .drainPoll p | .lastPoll p => some p
  | _ => none

/-- Positions between `start_eval` and the end of `eval_expr`. -/
def EvalPc.between : EvalPc → Bool
  | .beginEval _ _ | .call _ _ | .running _ _ => true
  | _ => false

theorem EvalPc.between_of_evaluating {p : EvalPc} (h : p.evaluating = true) : p.between = true := by
  cases p <;> simp_all [EvalPc.evaluating, EvalPc.between]

namespace McpEval

variable {α : Type*} {respond : α → Bytes → McpResponse × α}

/-- A response is written with its newline. -/
def Proper (v : McpEval α) : Prop := v.result = [] ∨ 2 ≤ v.result.length

theorem json_length (j : JsonText) : 2 ≤ (j.text ++ [newline]).length := by
  have := List.length_pos_iff.mpr j.nonempty
  rw [List.length_append, List.length_singleton]
  omega

theorem evalExpr_made (respond : α → Bytes → McpResponse × α) (e : Bytes) {v : McpEval α}
    (hd : v.done = false) (hp : v.Proper) :
    (evalExpr respond e v).made = v.made ++ (evalExpr respond e v).available ∧
    (evalExpr respond e v).Proper := by
  unfold evalExpr
  split
  · simp [available, hd, hp]
  split
  · simp [available, hd, hp]
  rcases respond v.world e with ⟨_ | _ | j, w⟩
  · exact ⟨by simp [available, hd], .inr (json_length _)⟩
  · exact ⟨by simp [available], .inl rfl⟩
  · exact ⟨by simp [available], .inr (json_length _)⟩

theorem pollResult_spec (v : McpEval α) : v.pollResult.2.made = v.made ∧
    v.pollResult.2.done = false ∧ v.pollResult.2.result = v.result ∧
    v.available = (if v.pollResult.1 = [] then [] else [v.pollResult.1]) := by
  unfold pollResult available
  cases hd : v.done <;> by_cases hr : v.result = [] <;> simp [hd, hr]

end McpEval

namespace Shell

variable {α : Type*} {respond : α → Bytes → McpResponse × α} {err : Bytes} {cfg : ShellConfig}
  {s t : Shell (McpEval α)}

/-- The calls of `poll_output` and of `eval_expr` are not interrupted. -/
def methodAtomic {σ : Type*} (s : Shell σ) (a : Act) : Prop :=
  (∀ p, s.pol.polling = some p → p.inCall = true → a = .poll) ∧
  (∀ p, s.evl.polling = some p → p.inCall = true → a = .eval) ∧
  ∀ d e, s.evl = .running d e → a = .ret

/-- The poll thread does not call `finish_eval` between `start_eval` and the end
of `eval_expr`. -/
def finishesInTime {σ : Type*} (s : Shell σ) (a : Act) : Prop :=
  a = .poll → s.pol.polling = some .finishEval → s.evl.between = false

/-- The responses that went to the socket. -/
def delivered {σ : Type*} (s : Shell σ) : List Bytes := (s.sent.map Prod.snd).filter (· ≠ [])

/-- The poll that is under way, by whichever thread. -/
def polling {σ : Type*} (s : Shell σ) : PollPc := s.pol.polling.getD (s.evl.polling.getD .getOutput)

/-- The account of the responses, at position `p` of a poll. -/
structure Account (s : Shell (McpEval α)) (p : PollPc) : Prop where
  made : s.evaluator.made = s.delivered ++ p.carried ++ s.evaluator.available
  done : s.evalDone = true → p.carried = [] ∧ s.evaluator.available = []
  nothing : p.sawNothing = true → s.evaluator.available = []
  one : p.carried ≠ [] → s.evaluator.available = []
  proper : s.evaluator.Proper
  more : ∀ r, p = .getMore r → 2 ≤ r.length
  send : ∀ o r, p = .send o r → r = [] ∨ sendable o = true

theorem delivered_send {σ : Type*} {s : Shell σ} (o r : Bytes) (h : r = [] ∨ sendable o = true) :
    (s.send o r).delivered = s.delivered ++ (PollPc.send o r).carried := by
  by_cases hr : r = []
  · unfold Shell.send
    split <;> simp [delivered, PollPc.carried, hr]
  · simp [Shell.send, h.resolve_left hr, delivered, PollPc.carried, hr]

theorem sendable_append {r : Bytes} (o : Bytes) (h : 2 ≤ r.length) : sendable (o ++ r) = true := by
  simp only [sendable, Bool.and_eq_true, decide_eq_true_eq]
  refine ⟨fun h0 => ?_, fun h1 => ?_⟩
  · obtain ⟨-, rfl⟩ := List.append_eq_nil_iff.mp h0
    simp at h
  · have := congrArg List.length h1
    simp only [List.length_append, List.length_singleton] at this
    omega

/-- A step that leaves the evaluator's response and the socket alone. -/
theorem Account.move {p q : PollPc} (ha : Account s p) (hsent : t.delivered = s.delivered)
    (hmade : t.evaluator.made = s.evaluator.made) (hdone : t.evaluator.done = s.evaluator.done)
    (hresult : t.evaluator.result = s.evaluator.result) (hd : t.evalDone = true → s.evalDone = true)
    (hq : q.carried = p.carried) (hnothing : q.sawNothing = true → p.sawNothing = true)
    (hmore : ∀ r, q = .getMore r → p = .getMore r)
    (hsend : ∀ o r, q = .send o r → r = [] ∨ sendable o = true) : Account t q := by
  have hav : t.evaluator.available = s.evaluator.available := by
    rw [McpEval.available, hdone, hresult]
    rfl
  refine ⟨?_, ?_, ?_, ?_, ?_, fun r hr => ha.more r (hmore r hr), hsend⟩
  · rw [hmade, hq, hav, ha.made, hsent]
  · rw [hq, hav]
    exact fun h => ha.done (hd h)
  · rw [hav]
    exact fun h => ha.nothing (hnothing h)
  · rw [hq, hav]
    exact ha.one
  · rw [McpEval.Proper, hresult]
    exact ha.proper

theorem Account.frame {p : PollPc} (ha : Account s p) (hevaluator : t.evaluator = s.evaluator)
    (hd : t.evalDone = s.evalDone) (hsent : t.sent = s.sent) : Account t p := by
  refine ha.move ?_ ?_ ?_ ?_ (by rw [hd]; exact id) rfl id (fun _ hr => hr) ha.send
  · rw [delivered, delivered, hsent]
  · rw [hevaluator]
  · rw [hevaluator]
  · rw [hevaluator]

/-- One step of `poll_and_send` keeps the account. -/
theorem Account.poll {p : PollPc} {q : Option PollPc} (ha : Account s p)
    (h : pollAndSend (mcpEval respond err) cfg s p = some (t, q)) :
    Account t (q.getD .getOutput) ∧ t.evaluator.made = s.evaluator.made := by
  obtain ⟨hmade, hdone, hnothing, hone, hproper, hmore, hsend⟩ := id ha
  cases p with
  | getOutput =>
    simp only [pollAndSend] at h
    split at h <;> cases h <;>
      exact ⟨ha.move rfl rfl rfl rfl id rfl (by simp [PollPc.sawNothing]) (by simp) (by simp), rfl⟩
  | pollResult =>
    obtain ⟨h1, h2, h3, h4⟩ := s.evaluator.pollResult_spec
    simp only [pollAndSend, mcpEval, Option.some.injEq, Prod.mk.injEq] at h
    obtain ⟨rfl, rfl⟩ := h
    have hav : s.evaluator.pollResult.2.available = [] := by simp [McpEval.available, h2]
    have hp2 : s.evaluator.pollResult.2.Proper := by
      unfold McpEval.Proper
      rw [h3]
      exact hproper
    simp only [PollPc.carried, List.append_nil] at hmade hdone
    by_cases hr : s.evaluator.pollResult.1 = []
    · simp only [hr, ↓reduceIte] at h4 ⊢
      refine ⟨⟨?_, fun _ => ⟨rfl, hav⟩, fun _ => hav, fun _ => hav, hp2, by simp, by simp⟩, h1⟩
      simp only [Option.getD_some, PollPc.carried, List.append_nil, hav, h1, hmade, h4]
      rfl
    · simp only [hr, ↓reduceIte] at h4 ⊢
      refine ⟨⟨?_, fun hd => ?_, by simp [PollPc.sawNothing], fun _ => hav, hp2, ?_, by simp⟩, h1⟩
      · simp only [Option.getD_some, PollPc.carried, hav, h1, hmade, h4, List.append_nil]
        rfl
      · have := (hdone hd).2
        simp [h4] at this
      · rintro r hr'
        cases hr'
        have hav' := h4
        unfold McpEval.available at hav'
        split at hav'
        · rename_i hc
          rw [← (List.cons.inj hav').1]
          exact hproper.resolve_left (by simpa using And.right (by simpa using hc))
        · cases hav'
  | getMore r =>
    have hr : r ≠ [] := by
      have := hmore r rfl
      rintro rfl
      simp at this
    cases h
    refine ⟨ha.move rfl rfl rfl rfl id ?_ (by simp [PollPc.sawNothing]) (by simp) ?_, rfl⟩
    · simp [PollPc.carried, hr]
    · rintro o r' hor
      cases hor
      exact .inr (sendable_append _ (hmore r rfl))
  | check =>
    simp only [pollAndSend] at h
    split at h
    · split at h <;> cases h <;>
        exact ⟨ha.move rfl rfl rfl rfl id rfl (by simp [PollPc.sawNothing]) (by simp) (by simp), rfl⟩
    · cases h
      exact ⟨ha.move rfl rfl rfl rfl id rfl (fun _ => rfl) (by simp) (by simp), rfl⟩
  | finishEval =>
    have hav := hnothing rfl
    cases h
    exact ⟨⟨hmade, fun _ => ⟨rfl, hav⟩, fun _ => hav, fun _ => hav, hproper, by simp, by simp⟩, rfl⟩
  | prompt =>
    cases h
    exact ⟨ha.move rfl rfl rfl rfl id rfl (by simp [PollPc.sawNothing]) (by simp) (by simp), rfl⟩
  | send o r =>
    have hd := delivered_send (s := s) o r (hsend o r rfl)
    cases h
    have he : (s.send o r).evaluator = s.evaluator ∧ (s.send o r).evalDone = s.evalDone := by
      rw [send_eq]
      exact ⟨rfl, rfl⟩
    refine ⟨⟨?_, ?_, by simp [PollPc.sawNothing], by simp [PollPc.carried], by rw [he.1]; exact hproper,
      by simp, by simp⟩, by rw [he.1]⟩
    · rw [he.1, hd, hmade]
      simp [PollPc.carried]
    · rw [he.1, he.2]
      exact fun h => ⟨rfl, (hdone h).2⟩

/-- What went to the socket stays there. -/
theorem Account.grows {p : PollPc} {q : Option PollPc} (ha : Account s p)
    (h : pollAndSend (mcpEval respond err) cfg s p = some (t, q)) :
    ∃ l, t.delivered = s.delivered ++ l := by
  have hsame (hs : t.sent = s.sent) : ∃ l, t.delivered = s.delivered ++ l :=
    ⟨[], by rw [delivered, hs, List.append_nil]; rfl⟩
  cases p with
  | send o r =>
    cases h
    exact ⟨_, delivered_send o r (ha.send o r rfl)⟩
  | getOutput | check =>
    simp only [pollAndSend] at h
    split at h <;> (try split at h) <;> cases h <;> exact hsame rfl
  | pollResult | getMore | finishEval | prompt =>
    cases h
    exact hsame rfl

/-- What holds while every evaluation is finished in time. -/
structure Delivery (s : Shell (McpEval α)) : Prop where
  account : Account s s.polling
  asleep : s.evl.between = true → s.evalDone = false
  between : s.evl.between = true → s.polling.carried = [] ∧ s.evaluator.available = []
  begun : s.evl.evaluating = true → s.evaluator.done = false

theorem delivery_fresh (w : α) : Delivery (fresh (McpEval.new w)) := by
  refine ⟨⟨rfl, fun _ => ⟨rfl, rfl⟩, fun _ => rfl, fun _ => rfl, .inl rfl, ?_, ?_⟩, nofun, nofun, nofun⟩ <;>
    simp [polling, fresh, PollerPc.polling, EvalPc.polling]

theorem pollAndSend_clears {p : PollPc} {q : Option PollPc} (hd : s.evaluator.done = false)
    (h : pollAndSend (mcpEval respond err) cfg s p = some (t, q)) : t.evaluator.done = false := by
  cases p with
  | send o r =>
    cases h
    rw [send_eq]
    exact hd
  | getOutput | check =>
    simp only [pollAndSend] at h
    split at h <;> (try split at h) <;> cases h <;> exact hd
  | pollResult =>
    cases h
    exact s.evaluator.pollResult_spec.2.1
  | getMore | finishEval | prompt =>
    cases h
    exact hd

/-- A step of the poll thread is a step of its poll, or changes nothing that counts. -/
theorem pollLoop_polling {σ : Type*} {E : GenericEval σ} {s t : Shell σ} (h : s.pollLoop E cfg = some t) :
    (∃ p q u, s.pol.polling = some p ∧ pollAndSend E cfg s p = some (u, q) ∧
      t = { u with pol := t.pol } ∧ t.pol.polling.getD .getOutput = q.getD .getOutput) ∨
    s.pol.polling = none ∧ t.pol.polling.getD .getOutput = .getOutput ∧ t.evaluator = s.evaluator ∧
      t.sent = s.sent ∧ t.evalDone = s.evalDone := by
  cases hp : s.pol with
  | off | exited => simp [pollLoop, hp] at h
  | lock =>
    simp only [pollLoop, hp] at h
    split at h <;> cases h
    exact .inr ⟨rfl, rfl, rfl, rfl, rfl⟩
  | enter | wait | unlock =>
    simp only [pollLoop, hp, Option.some.injEq] at h
    subst h
    exact .inr ⟨rfl, rfl, rfl, rfl, rfl⟩
  | test | lastTest =>
    simp only [pollLoop, hp, Option.some.injEq] at h
    subst h
    refine .inr ⟨rfl, ?_, rfl, rfl, rfl⟩
    dsimp only
    split <;> rfl
  | first p | second p | last p =>
    simp only [pollLoop, hp, Option.map_eq_some_iff] at h
    obtain ⟨⟨u, q⟩, hu, rfl⟩ := h
    refine .inl ⟨p, q, u, rfl, hu, rfl, ?_⟩
    cases q <;> rfl

/-- Only one thread polls. -/
theorem Joins.one_polls {σ : Type*} {s : Shell σ} (hj : Joins s) (hp : s.pol ≠ .exited) :
    s.evl.polling = none := by
  have hjoined := hj.joined
  cases he : s.evl <;> simp_all [EvalPc.polling, EvalPc.joined, EvalPc.leftLoop]

theorem polling_of_pol {σ : Type*} {s : Shell σ} (h : s.evl.polling = none) :
    s.polling = s.pol.polling.getD .getOutput := by
  rw [polling, h]
  rfl

/-- Which poll is under way, once the poll thread is gone. -/
theorem polling_of_exited {σ : Type*} {s : Shell σ} (h : s.pol = .exited) :
    s.polling = s.evl.polling.getD .getOutput := by
  simp [polling, h, PollerPc.polling]

theorem delivery_poll (hd : Delivery s) (hj : Joins s) (hf : finishesInTime s .poll)
    (h : s.pollLoop (mcpEval respond err) cfg = some t) :
    Delivery t ∧ t.evaluator.made = s.evaluator.made := by
  obtain ⟨ha, hsleep, hbetween, hbegun⟩ := hd
  have hne : s.pol ≠ .exited := by
    intro hp
    simp [pollLoop, hp] at h
  have hpolling := hj.one_polls hne
  obtain ⟨hframe, hevl⟩ := pollLoop_frame h
  have hpolling' : t.polling = t.pol.polling.getD .getOutput :=
    polling_of_pol (by rw [hevl, hpolling])
  rw [polling_of_pol hpolling] at ha hbetween
  rcases pollLoop_polling h with ⟨p, q, u, hp, hu, ht, hq⟩ | ⟨hp, hq, h1, h2, h3⟩
  · rw [hp] at ha hbetween
    simp only [Option.getD_some] at ha hbetween
    obtain ⟨hau, hmade⟩ := ha.poll hu
    obtain ⟨-, -, -, -, -, -, hdone⟩ := pollAndSend_frame hu
    have he : t.evaluator = u.evaluator ∧ t.evalDone = u.evalDone ∧ t.sent = u.sent := by
      rw [ht]
      exact ⟨rfl, rfl, rfl⟩
    have hat : Account t t.polling := by
      rw [hpolling', hq]
      exact hau.frame he.1 he.2.1 he.2.2
    have hstill (hb : s.evl.between = true) : u.evalDone = false := by
      rw [hdone, hsleep hb]
      rintro rfl
      simp [hf rfl hp] at hb
    refine ⟨⟨hat, fun hb => ?_, fun hb => ?_, fun hb => ?_⟩, by rw [he.1, hmade]⟩
    · rw [he.2.1]
      exact hstill (hevl ▸ hb)
    · -- what there is to send is all sent, so the step adds nothing to it
      obtain ⟨h1, h2⟩ := hbetween (hevl ▸ hb)
      have hmade' := ha.made
      have hmade'' := hat.made
      rw [h1, h2, List.append_nil, List.append_nil] at hmade'
      rw [he.1, hmade, hmade'] at hmade''
      obtain ⟨l, hl⟩ := ha.grows hu
      have hl : t.delivered = s.delivered ++ l := by rw [← hl, delivered, delivered, he.2.2]
      rw [hl] at hmade''
      have hlen := congrArg List.length hmade''
      simp only [List.length_append] at hlen
      refine ⟨List.length_eq_zero_iff.mp (by omega), ?_⟩
      rw [he.1]
      exact List.length_eq_zero_iff.mp (by omega)
    · rw [he.1]
      exact pollAndSend_clears (hbegun (hevl ▸ hb)) hu
  · rw [hp] at ha hbetween
    simp only [Option.getD_none] at ha hbetween
    rw [← hq] at ha hbetween
    refine ⟨⟨?_, ?_, ?_, ?_⟩, by rw [h1]⟩
    · rw [hpolling']
      exact ha.frame h1 h3 h2
    · rw [hevl, h3]
      exact hsleep
    · rw [hevl, hpolling', h1]
      exact hbetween
    · rw [hevl, h1]
      exact hbegun

/-- A step of the eval thread outside its polls and outside `eval_expr`. -/
theorem Delivery.evalStep (hd : Delivery s) (hsent : t.delivered = s.delivered)
    (hmade : t.evaluator.made = s.evaluator.made) (hdone : t.evaluator.done = s.evaluator.done)
    (hresult : t.evaluator.result = s.evaluator.result) (he : t.evalDone = true → s.evalDone = true)
    (hpolling : t.polling = s.polling)
    (hbetween : t.evl.between = true → t.evalDone = false ∧ (s.evl.between = true ∨ s.evalDone = true))
    (hbegun : t.evl.evaluating = true → s.evaluator.done = false) : Delivery t := by
  obtain ⟨ha, hsleep, hb, -⟩ := hd
  have hav : t.evaluator.available = s.evaluator.available := by
    rw [McpEval.available, hdone, hresult]
    rfl
  refine ⟨?_, fun h => (hbetween h).1, fun h => ?_, fun h => hdone.trans (hbegun h)⟩
  · rw [hpolling]
    exact ha.move hsent hmade hdone hresult he rfl id (fun _ hr => hr) ha.send
  · rw [hpolling, hav]
    exact (hbetween h).2.elim hb ha.done

/-- A poll by the eval thread itself. -/
theorem delivery_ownPoll {p : PollPc} {q : Option PollPc} {u : Shell (McpEval α)} {e : EvalPc}
    (hd : Delivery s) (hp : s.pol = .exited) (hs : s.evl.polling = some p)
    (hu : pollAndSend (mcpEval respond err) cfg s p = some (u, q))
    (he : e.polling.getD .getOutput = q.getD .getOutput) (hb : e.between = false) :
    Delivery { u with evl := e } ∧ u.evaluator.made = s.evaluator.made := by
  have ha := hd.account
  rw [polling_of_exited hp, hs, Option.getD_some] at ha
  obtain ⟨hau, hmade⟩ := ha.poll hu
  obtain ⟨-, -, hpol, -⟩ := pollAndSend_frame hu
  have ht : ({ u with evl := e } : Shell (McpEval α)).polling = q.getD .getOutput := by
    simp [polling, hpol, hp, PollerPc.polling, he]
  refine ⟨⟨?_, ?_, ?_, fun h => ?_⟩, hmade⟩
  · rw [ht]
    exact hau.move rfl rfl rfl rfl id rfl id (fun _ hr => hr) hau.send
  · simp [hb]
  · simp [hb]
  · simp [EvalPc.between_of_evaluating h] at hb

theorem delivery_eval (hd : Delivery s) (hc : Control s) (hj : Joins s)
    (hcaught : s.evl ≠ .caught ∧ s.evl ≠ .unlockPoll)
    (h : s.evalLoop (mcpEval respond err) cfg = some t) :
    Delivery t ∧ t.evaluator.made = s.evaluator.made := by
  have hsaw := hc.sawDone
  cases he : s.evl with
  | off | running | exited => simp [evalLoop, he] at h
  | caught | unlockPoll => simp [he] at hcaught
  | drainPoll p | lastPoll p =>
    have hp := hj.joined (by simp [he, EvalPc.joined, EvalPc.leftLoop])
    simp only [evalLoop, he, Option.map_eq_some_iff] at h
    obtain ⟨⟨u, q⟩, hu, rfl⟩ := h
    refine delivery_ownPoll hd hp (by rw [he]; rfl) hu ?_ ?_ <;> cases q <;> rfl
  | drainSize | drainTest | lastTest =>
    simp only [evalLoop, he, Option.some.injEq] at h
    subst h
    refine ⟨hd.evalStep rfl rfl rfl rfl id ?_ ?_ ?_, rfl⟩
    · simp only [polling, he]
      split <;> rfl
    · dsimp only
      split <;> simp [EvalPc.between]
    · dsimp only
      split <;> simp [EvalPc.evaluating]
  | pop | drainPop =>
    simp only [evalLoop, he] at h
    split at h <;> cases h
    · rw [noteRemoved_eq]
      refine ⟨hd.evalStep rfl rfl rfl rfl id ?_ ?_ ?_, rfl⟩
      · simp only [polling, he]
        split <;> rfl
      · dsimp only
        split <;> simp [EvalPc.between]
      · dsimp only
        split <;> simp [EvalPc.evaluating]
    · exact ⟨hd.evalStep rfl rfl rfl rfl id (by simp [polling, he, EvalPc.polling]) (by simp [EvalPc.between])
      (by simp [EvalPc.evaluating]), rfl⟩
  | startEval d e =>
    have hdone : s.evalDone = true := hsaw (by rw [he]; rfl)
    simp only [evalLoop, he, hdone, ↓reduceIte, Option.some.injEq] at h
    subst h
    exact ⟨hd.evalStep rfl rfl rfl rfl (by simp) (by simp [polling, he, EvalPc.polling])
      (fun _ => ⟨rfl, .inr hdone⟩) (by simp [EvalPc.evaluating]), rfl⟩
  | beginEval d e =>
    have hb : s.evl.between = true := by rw [he]; rfl
    have hnone := (hd.between hb).2
    simp only [evalLoop, he, Option.some.injEq] at h
    subst h
    obtain ⟨ha, hsleep, hbetween, -⟩ := hd
    have hpolling : ({ s with
        evaluator := (mcpEval respond err).beginEval s.evaluator, evl := .call d e } : Shell _).polling =
        s.polling := by simp [polling, he, EvalPc.polling]
    refine ⟨⟨⟨?_, ?_, ?_, fun _ => rfl, ha.proper, ?_, ?_⟩, fun _ => hsleep hb, fun _ => ?_, fun _ => rfl⟩, rfl⟩
    · rw [hpolling]
      have := ha.made
      rw [hnone] at this
      exact this
    · exact fun h => absurd h (by simp [hsleep hb])
    · exact fun _ => rfl
    · rw [hpolling]
      exact ha.more
    · rw [hpolling]
      exact ha.send
    · rw [hpolling]
      exact ⟨(hbetween hb).1, rfl⟩
  | call d e =>
    have hb : s.evl.between = true := by rw [he]; rfl
    simp only [evalLoop, he, Option.some.injEq] at h
    subst h
    exact ⟨hd.evalStep rfl rfl rfl rfl id (by simp [polling, he, EvalPc.polling])
      (fun _ => ⟨hd.asleep hb, .inl hb⟩) (fun _ => hd.begun (by rw [he]; rfl)), rfl⟩
  | enter =>
    have hp : s.pol = .off := by
      by_contra hp
      exact (hc.poller hp).2 he
    simp only [evalLoop, he, Option.some.injEq] at h
    subst h
    exact ⟨hd.evalStep rfl rfl rfl rfl id (by simp [polling, he, hp, EvalPc.polling, PollerPc.polling])
      (by simp [EvalPc.between])
      (by simp [EvalPc.evaluating]), rfl⟩
  | wakePop | wakeStart e | wakeEnd | whileNotDone | joinPoll =>
    simp only [evalLoop, he, wakePoll] at h
    split at h <;> cases h
    exact ⟨hd.evalStep rfl rfl rfl rfl id (by simp [polling, he, EvalPc.polling]) (by simp [EvalPc.between])
      (by simp [EvalPc.evaluating]), rfl⟩
  | loopTest =>
    simp only [evalLoop, he, Option.some.injEq] at h
    subst h
    refine ⟨hd.evalStep rfl rfl rfl rfl id ?_ ?_ ?_, rfl⟩
    · simp only [polling, he]
      split <;> rfl
    · dsimp only
      split <;> simp [EvalPc.between]
    · dsimp only
      split <;> simp [EvalPc.evaluating]
  | cancelReset | drainReset | setShell | dropEval =>
    simp only [evalLoop, he, Option.some.injEq] at h
    subst h
    exact ⟨hd.evalStep rfl rfl rfl rfl id (by simp [polling, he, EvalPc.polling]) (by simp [EvalPc.between])
      (by simp [EvalPc.evaluating]), rfl⟩

/-- At its end `eval_expr` makes one response available, or none. -/
theorem delivery_return (hd : Delivery s) (hm : methodAtomic s .ret)
    (h : s.evalReturn (mcpEval respond err) = some t) : Delivery t := by
  cases he : s.evl <;> simp only [evalReturn, he, reduceCtorEq] at h
  case running d e =>
    have hb : s.evl.between = true := by rw [he]; rfl
    have hrun : s.evaluator.done = false := hd.begun (by rw [he]; rfl)
    obtain ⟨ha, hsleep, hbetween, -⟩ := hd
    obtain ⟨hcarried, hav⟩ := hbetween hb
    have hpc : s.polling = s.pol.polling.getD .getOutput := polling_of_pol (by rw [he]; rfl)
    have hout : s.polling.inCall = false := by
      rw [hpc]
      cases hp : s.pol.polling with
      | none => rfl
      | some p => simpa using hm.1 p hp
    obtain ⟨hmade, hproper⟩ := McpEval.evalExpr_made respond e hrun ha.proper
    have haccount (n : EvalPc) (hn : n.polling = none) : Account { s with
        evaluator := McpEval.evalExpr respond e s.evaluator, ended := s.ended ++ [e], evl := n } s.polling := by
      have h0 := ha.made
      rw [hcarried, hav, List.append_nil, List.append_nil] at h0
      refine ⟨?_, fun h => absurd h (by simp [hsleep hb]), fun h => ?_, fun h => absurd hcarried h, hproper,
        ha.more, ha.send⟩
      · rw [hcarried, List.append_nil, hmade, h0]
        rfl
      · revert h hout
        cases s.polling <;> simp [PollPc.inCall, PollPc.sawNothing]
    have hpolling (n : EvalPc) (hn : n.polling = none) : ({ s with
        evaluator := McpEval.evalExpr respond e s.evaluator, ended := s.ended ++ [e], evl := n } :
        Shell (McpEval α)).polling = s.polling := by
      rw [hpc, polling, hn]
      rfl
    cases d <;> cases h
    · refine ⟨(hpolling .wakeEnd rfl).symm ▸ haccount .wakeEnd rfl, ?_, ?_, ?_⟩ <;> intro hx <;> cases hx
    · refine ⟨(hpolling .drainSize rfl).symm ▸ haccount .drainSize rfl, ?_, ?_, ?_⟩ <;> intro hx <;> cases hx

/-- Without interrupts the network thread sends no response and finishes no evaluation. -/
theorem netStep_silent {σ : Type*} {E : GenericEval σ} {s t : Shell σ}
    (hq : s.net.interrupting = false) (h : s.netStep E cfg = some t) :
    t.evalDone = s.evalDone ∧ t.delivered = s.delivered := by
  cases hn : s.net <;> simp only [hn, NetPc.interrupting, Bool.true_eq_false] at hq
  case idle | block | gone => simp [netStep, hn] at h
  case act d =>
    cases d <;> simp only [Bool.true_eq_false] at hq <;>
      simp only [netStep, hn, putOutput, Option.some.injEq] at h <;> subst h <;> exact ⟨rfl, rfl⟩
  case goodbye =>
    simp only [netStep, hn, Option.some.injEq] at h
    subst h
    have hd := delivered_send (s := s) (ascii "goodbye!\n") [] (.inl rfl)
    rw [send_eq]
    exact ⟨rfl, by simpa [delivered, PollPc.carried] using hd⟩
  case spin | stall | join =>
    simp only [netStep, hn] at h
    split at h <;> cases h
    exact ⟨rfl, rfl⟩
  case discipline | push | afterLine | cancel | exitMsg | dtor | sentinel =>
    simp only [netStep, hn, putOutput, Option.some.injEq] at h
    subst h
    exact ⟨rfl, rfl⟩

/-- A step of the network thread, or one that only moves it. -/
theorem Delivery.aside (hd : Delivery s) (hsent : t.delivered = s.delivered)
    (hev : t.evaluator = s.evaluator) (he : t.evalDone = s.evalDone) (hevl : t.evl = s.evl)
    (hpol : t.pol = s.pol) : Delivery t := by
  refine hd.evalStep hsent (by rw [hev]) (by rw [hev]) (by rw [hev]) (by rw [he]; exact id)
    (by rw [polling, polling, hevl, hpol]) (fun h => ?_) (by rw [hevl]; exact hd.begun)
  rw [hevl] at h
  exact ⟨he.trans (hd.asleep h), .inl h⟩

/-- The runs that are considered: methods are atomic, nobody interrupts, and every
evaluation is finished in time. -/
def inTurn {σ : Type*} (cfg : ShellConfig) (s : Shell σ) (a : Act) : Prop :=
  methodAtomic s a ∧ calm cfg s a ∧ finishesInTime s a

theorem delivery_step {a : Act} (hd : Delivery s) (hc : Control s) (hj : Joins s) (hm : Mutex s)
    (hq : Quiet cfg s) (ha : inTurn cfg s a) (h : step (mcpEval respond err) cfg s a = some t) :
    Delivery t := by
  simp only [step, hm.escaped, Bool.false_eq_true, ↓reduceIte] at h
  cases a with
  | poll => exact (delivery_poll hd hj ha.2.2 h).1
  | eval => exact (delivery_eval hd hc hj hm.caught h).1
  | ret => exact delivery_return hd ha.1 h
  | net =>
    obtain ⟨h1, h2⟩ := netStep_silent hq.net h
    exact hd.aside h2 (netStep_quiet hq h).2 h1 (netStep_frame h).evl (netStep_frame h).pol
  | work =>
    cases he : s.evl <;> simp only [evalWork, he, reduceCtorEq] at h
    exact absurd (ha.1.2.2 _ _ he) (by simp)
  | close =>
    simp only [close] at h
    split at h <;> cases h
    exact hd.aside rfl rfl rfl rfl rfl
  | unbar =>
    simp only [unbar] at h
    split at h <;> cases h
    exact hd.aside rfl rfl rfl rfl rfl
  | line l =>
    simp only [evalLine] at h
    split at h
    · cases h
    split at h <;> cases h
    · exact hd.aside rfl rfl rfl rfl rfl
    · rename_i he
      have hne : s.evl.polling = none := by
        have := hc.hasEvaluator
        cases hx : s.evl <;> simp_all [EvalPc.hasEvaluator, EvalPc.polling]
      refine hd.evalStep rfl rfl rfl rfl id (by rw [polling, polling, hne]; rfl) ?_ ?_ <;> intro hx <;> cases hx

theorem mcpEval_terminating :
    Terminating (mcpEval respond err) (fun _ => True) fun v => v.done.toNat where
  throws _ _ := rfl
  evalExpr _ _ := trivial
  clearPending _ _ := trivial
  pollResult v _ := by
    refine ⟨v.pollResult.1, v.pollResult.2, rfl, trivial, ?_⟩
    unfold McpEval.pollResult
    split <;> simp_all

/-- A new evaluator. -/
def IsNew (v : McpEval α) : Prop := ∃ w, v = McpEval.new w

/-- The shells of `McpEval`, each with an evaluator of its own. -/
abbrev mcpShell (respond : α → Bytes → McpResponse × α) (err : Bytes) (cfg : ShellConfig) :
    System (Shell (McpEval α)) Act :=
  shellSystem (mcpEval respond err) cfg IsNew

/-- The same runs, if the evaluator were not known to be new. -/
theorem reach_ready (h : Reach (mcpShell respond err cfg) (inTurn cfg) s) :
    Reach (shellSystem (mcpEval respond err) cfg fun _ => True) (calm cfg) s := by
  induction h with
  | init hi =>
    obtain ⟨v, -, rfl⟩ := hi
    exact .init ⟨v, trivial, rfl⟩
  | step _ hc ht ih => exact .step ih hc.2.1 ht

theorem Delivery.of_reach (h : Reach (mcpShell respond err cfg) (inTurn cfg) s) : Delivery s := by
  refine h.invariant Delivery ?_ fun s a t hr hd hc ht => ?_
  · rintro _ ⟨_, ⟨w, rfl⟩, rfl⟩
    exact delivery_fresh w
  · have hr' := reach_ready hr
    exact delivery_step hd (.of_reach hr') (.of_reach hr') (reach_mutex mcpEval_terminating hr')
      (.of_reach hr') hc ht

/-- Where no evaluation is under way the poll thread brings out what is left. -/
theorem poll_brings_out (h : Reach (mcpShell respond err cfg) (inTurn cfg) s)
    (hb : s.evl.between = false) (hp : s.pol ≠ .off ∧ s.pol ≠ .exited) :
    ∃ t, Path (mcpShell respond err cfg) (only .poll) s t ∧ t.delivered = s.evaluator.made := by
  have hev : s.evl.evaluating = false := by
    cases he : s.evl.evaluating with
    | false => rfl
    | true => simp [EvalPc.between_of_evaluating he] at hb
  obtain ⟨t, hst, hdone⟩ := poll_done mcpEval_terminating (reach_ready h) hev (.inr hp)
  have hpath : Path (mcpShell respond err cfg) (only .poll) s t :=
    hst.transfer (M := shellSystem (mcpEval respond err) cfg fun _ => True)
      (N := mcpShell respond err cfg) fun _ _ => rfl
  have hinv : Reach (mcpShell respond err cfg) (inTurn cfg) t ∧ t.evl = s.evl ∧
      t.evaluator.made = s.evaluator.made := by
    refine hpath.invariant (fun u => Reach (mcpShell respond err cfg) (inTurn cfg) u ∧ u.evl = s.evl ∧
      u.evaluator.made = s.evaluator.made) ?_ ⟨h, rfl, rfl⟩
    rintro u a v ⟨hu, h1, h2⟩ rfl hv
    have hu' := reach_ready hu
    have hj : Joins u := .of_reach hu'
    have hpv : u.pollLoop (mcpEval respond err) cfg = some v :=
      (step_poll (reach_mutex mcpEval_terminating hu')).symm.trans hv
    have hne : u.pol ≠ .exited := by
      intro hx
      simp [pollLoop, hx] at hpv
    have hfin : finishesInTime u .poll := fun _ _ => h1 ▸ hb
    have hturn : inTurn cfg u .poll := by
      refine ⟨⟨fun _ _ _ => rfl, fun p hx => ?_, fun d e hx => ?_⟩, by simp [calm], hfin⟩
      · simp [hj.one_polls hne] at hx
      · rw [← h1, hx] at hb
        cases hb
    exact ⟨.step hu hturn hv, ((pollLoop_frame hpv).2).trans h1,
      ((delivery_poll (.of_reach hu) hj hfin hpv).2).trans h2⟩
  have hd := Delivery.of_reach hinv.1
  refine ⟨t, hpath, ?_⟩
  have hmade := hd.account.made
  obtain ⟨h1, h2⟩ := hd.account.done hdone
  rw [h1, h2, List.append_nil, List.append_nil] at hmade
  rw [← hmade, hinv.2.2]

/-- While the poll thread finishes no evaluation early, every response goes to the
socket once, in the order of the evaluations, and the next evaluation begins only
when it is sent. -/
theorem mcp_delivery (h : Reach (mcpShell respond err cfg) (inTurn cfg) s) :
    (s.delivered <+: s.evaluator.made ∧ s.evaluator.made.length ≤ s.delivered.length + 1) ∧
    (∀ d e, s.evl = .beginEval d e → s.delivered = s.evaluator.made) ∧
    (s.evl = .exited → s.delivered = s.evaluator.made) ∧
    (s.evl.between = false → s.pol ≠ .off ∧ s.pol ≠ .exited →
      ∃ t, Path (mcpShell respond err cfg) (only .poll) s t ∧ t.delivered = s.evaluator.made) := by
  obtain ⟨ha, hsleep, hbetween, -⟩ := Delivery.of_reach h
  have hc := Control.of_reach (reach_ready h)
  have hmade := ha.made
  refine ⟨⟨?_, ?_⟩, ?_, ?_, poll_brings_out h⟩
  · rw [hmade, List.append_assoc]
    exact List.prefix_append _ _
  · have hav : s.evaluator.available.length ≤ 1 := by
      unfold McpEval.available
      split <;> simp
    have hcarried : s.polling.carried.length ≤ 1 := by
      cases hx : s.polling <;> simp only [PollPc.carried, List.length_nil, List.length_singleton] <;>
        (try split) <;> simp
    have hone := ha.one
    rw [hmade, List.length_append, List.length_append]
    by_cases h0 : s.polling.carried = []
    · simp [h0, hav]
    · simp [hone h0, hcarried]
  · intro d e he
    obtain ⟨h1, h2⟩ := hbetween (by rw [he]; rfl)
    rw [h1, h2, List.append_nil, List.append_nil] at hmade
    exact hmade.symm
  · intro he
    obtain ⟨h1, h2⟩ := ha.done (hc.sawDone (by rw [he]; rfl))
    rw [h1, h2, List.append_nil, List.append_nil] at hmade
    exact hmade.symm

/-- The test for `methodAtomic`. -/
def atomicNow {σ : Type*} (s : Shell σ) (a : Act) : Bool :=
  (s.pol.polling.all fun p => !p.inCall || a = .poll) &&
    (s.evl.polling.all fun p => !p.inCall || a = .eval) &&
    match s.evl with
    | .running _ _ => a = .ret
    | _ => true

theorem methodAtomic_of_atomicNow {σ : Type*} {s : Shell σ} {a : Act} (h : s.atomicNow a = true) :
    methodAtomic s a := by
  simp only [atomicNow, Bool.and_eq_true, Option.all_eq_true, Bool.or_eq_true, Bool.not_eq_true',
    decide_eq_true_eq] at h
  obtain ⟨⟨h1, h2⟩, h3⟩ := h
  refine ⟨fun p hp hin => (h1 p hp).resolve_left (by simp [hin]),
    fun p hp hin => (h2 p hp).resolve_left (by simp [hin]), fun d e he => ?_⟩
  simpa [he] using h3

/-- Every request is answered by an empty object. -/
def emptyReply (w : Unit) (_ : Bytes) : McpResponse × Unit := (.reply .emptyObject, w)

/-- Two lines arrive, and the first is evaluated. -/
def twoLines (rounds : List Act) : List Act :=
  List.flatten [[.line (ascii "1"), .eval, .poll], List.replicate 3 .net, [.unbar],
    List.replicate 2 .net, [.line (ascii "2")], List.replicate 2 .net, [.unbar],
    List.replicate 2 .net, rounds]

theorem twoLines_calm (s : Shell (McpEval Unit)) (a : Act)
    (h : (match a with | .line l => decide (l = ascii "1" ∨ l = ascii "2") | _ => true) = true) :
    calm plainConfig s a := by
  rintro l rfl
  have hl : l = ascii "1" ∨ l = ascii "2" := by simpa using h
  rcases hl with rfl | rfl <;> intro _ prompt pending ok <;> cases pending <;> exact nofun

theorem mcp_delivery_two : ∃ s : Shell (McpEval Unit), s.evl = .beginEval .serving (ascii "2\n") ∧
    s.evaluator.made = [ascii "\x7b\x7d\n"] ∧ s.delivered = [ascii "\x7b\x7d\n"] := by
  have hx : (exec (mcpShell emptyReply [] plainConfig) (fresh (McpEval.new ())) (twoLines (List.flatten
      [List.replicate 7 .eval, [.ret], List.replicate 13 .poll, List.replicate 7 .eval]))).map
      (fun s => (s.evl, s.evaluator.made)) =
      some (.beginEval .serving (ascii "2\n"), [ascii "\x7b\x7d\n"]) := by decide +kernel
  obtain ⟨s, hs, h⟩ := Option.map_eq_some_iff.mp hx
  obtain ⟨he, hm⟩ := Prod.mk.inj h
  have hr : Reach (mcpShell emptyReply [] plainConfig) (inTurn plainConfig) s := by
    refine Reach.of_exec (fun s a => s.atomicNow a &&
      (match a with | .line l => decide (l = ascii "1" ∨ l = ascii "2") | _ => true) &&
      !(decide (a = .poll) && decide (s.pol.polling = some .finishEval) && s.evl.between)) ?_
      (.init ⟨_, ⟨(), rfl⟩, rfl⟩) (by decide +kernel) hs
    intro s a ha
    simp only [Bool.and_eq_true] at ha
    refine ⟨methodAtomic_of_atomicNow ha.1.1, twoLines_calm s a ha.1.2, fun h1 h2 => ?_⟩
    simpa [h1, h2] using ha.2
  refine ⟨s, he, hm, ?_⟩
  rw [(mcp_delivery hr).2.1 _ _ he, hm]

/-- The poll thread looks between `start_eval` and `begin_eval`, and takes the
evaluation for finished. The next `begin_eval` then loses the response. -/
theorem mcp_delivery_fails : ∃ s : Shell (McpEval Unit),
    Reach (mcpShell emptyReply [] plainConfig) (fun s a => methodAtomic s a ∧ calm plainConfig s a) s ∧
    s.evl = .call .serving (ascii "2\n") ∧ s.evaluator.made = [ascii "\x7b\x7d\n"] ∧
    s.delivered ++ s.polling.carried ++ s.evaluator.available = [] := by
  have hx : (exec (mcpShell emptyReply [] plainConfig) (fresh (McpEval.new ())) (twoLines (List.flatten
      [List.replicate 5 .eval, List.replicate 13 .poll, List.replicate 2 .eval, [.ret],
        List.replicate 8 .eval]))).map
      (fun s => (s.evl, s.evaluator.made, s.delivered ++ s.polling.carried ++ s.evaluator.available)) =
      some (.call .serving (ascii "2\n"), [ascii "\x7b\x7d\n"], []) := by decide +kernel
  obtain ⟨s, hs, h⟩ := Option.map_eq_some_iff.mp hx
  simp only [Prod.mk.injEq] at h
  refine ⟨s, ?_, h⟩
  refine Reach.of_exec (fun s a => s.atomicNow a &&
    match a with | .line l => decide (l = ascii "1" ∨ l = ascii "2") | _ => true) ?_
    (.init ⟨_, ⟨(), rfl⟩, rfl⟩) (by decide +kernel) hs
  intro s a ha
  rw [Bool.and_eq_true] at ha
  exact ⟨methodAtomic_of_atomicNow ha.1, twoLines_calm s a ha.2⟩

end Shell

end CogServer
