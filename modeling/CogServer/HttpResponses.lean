import CogServer.HttpConnection
import CogServer.McpAnswers

/-! The responses of an HTTP connection whose requests go to `McpEval`. -/
namespace CogServer

open Transition

namespace HttpConnection

variable {α : Type*} (H : McpHost α) {err ct : Bytes} {s t : HttpConnection (McpEval α)}

/-- A body that gets a reply from an evaluator whose tools work on `w`. -/
structure Replied (w : α) (body : Bytes) : Prop where
  ne_nil : body ≠ []
  ne_newline : body ≠ [newline]
  uncancelled : ¬ Mcp.Cancels H body
  heard : Mcp.heard H body = true
  tame : ¬ Mcp.WildMessage H w body

/-- Every request that comes has a body that gets a reply. -/
def asksWell (_ : HttpConnection (McpEval α)) : Act (McpEval α) → Prop
  | .turn (.request body v) => Replied H v.world body
  | _ => True

/-- What `SendWithHeader` makes of an answer. -/
def httpResponse (ct : Bytes) (r : Json) : Bytes :=
  withHeader ((H.json.write r).text ++ [newline]) ct

/-- So far one response was sent for each of `n` requests. -/
def OneEach (ct : Bytes) (sent : List Bytes) (n : ℕ) : Prop :=
  ∃ answers : List Json, (∀ r ∈ answers, IsResponse r) ∧ sent = answers.map (httpResponse H ct) ∧
    answers.length = n

/-- One response was sent for each request, but for the one in hand, whose response is
still to come: here from its body, from the evaluator, or from the text that was polled. -/
def Owed (ct : Bytes) (s : HttpConnection (McpEval α)) : Prop :=
  match s.pc with
  | .read | .closed => OneEach H ct s.sent s.received.length
  | .beginEval b | .call b | .running b =>
    Replied H s.evaluator.world b ∧ ∃ n, s.received.length = n + 1 ∧ OneEach H ct s.sent n
  | .pollResult text =>
    (∃ n, s.received.length = n + 1 ∧ OneEach H ct s.sent n) ∧ ∃ r, IsResponse r ∧
      ((s.evaluator.done = true ∧ text = [] ∧ s.evaluator.result = (H.json.write r).text ++ [newline]) ∨
        (s.evaluator.done = false ∧ text = (H.json.write r).text ++ [newline]))
  | .reply text =>
    (∃ n, s.received.length = n + 1 ∧ OneEach H ct s.sent n) ∧
      ∃ r, IsResponse r ∧ text = (H.json.write r).text ++ [newline]

variable {H}

theorem OneEach.sent {sent : List Bytes} {n : ℕ} {r : Json} (h : OneEach H ct sent n)
    (hr : IsResponse r) : OneEach H ct (sent ++ [httpResponse H ct r]) (n + 1) := by
  obtain ⟨answers, hall, hsent, hlen⟩ := h
  refine ⟨answers ++ [r], ?_, by simp [hsent], by simp [hlen]⟩
  intro x hx
  rcases List.mem_append.mp hx with hx | hx
  · exact hall x hx
  · exact List.mem_singleton.mp hx ▸ hr

/-- `eval_expr` of such a body throws nothing, and leaves a response to be polled. -/
theorem replied_evalExpr (err : Bytes) {b : Bytes} {v : McpEval α} (h : Replied H v.world b) :
    (mcpProtocol H err).throws b v = false ∧ ∃ r, IsResponse r ∧
      ((mcpProtocol H err).evalExpr b v).done = true ∧
      ((mcpProtocol H err).evalExpr b v).result = (H.json.write r).text ++ [newline] := by
  obtain ⟨r, hr⟩ := (Mcp.replies_iff H v.world h.uncancelled).mpr ⟨h.heard, h.tame⟩
  refine ⟨?_, r, Mcp.response_of_reply H v.world hr, ?_⟩
  · simp [mcpProtocol, Mcp.letsOut, hr]
  · simp [mcpProtocol, mcpEval, McpEval.evalExpr, Mcp.respond, h.ne_nil, h.ne_newline, hr]

theorem owed_turn {x : Turn (McpEval α)} (hs : Owed H ct s) (hw : asksWell H s (.turn x))
    (h : s.handleTurn x = some t) : Owed H ct t := by
  unfold Owed at hs
  cases x <;> simp only [handleTurn] at h <;> split at h <;> cases h <;> rename_i hp
  all_goals simp only [hp] at hs
  case header.isTrue.refl => simpa only [Owed, hp] using hs
  case request.isTrue.refl b v =>
    exact ⟨hw, s.received.length, by simp, hs⟩
  case systemError.isTrue.refl ends => cases ends <;> exact hs
  case silent.isTrue.refl => exact hs

theorem owed_onLine (hs : Owed H ct s) (h : s.onLine (mcpProtocol H err) ct = some t) :
    Owed H ct t := by
  unfold Owed at hs
  cases hp : s.pc <;> simp only [onLine, hp, reduceCtorEq, Option.some.injEq] at h <;> simp only [hp] at hs
  case beginEval b =>
    subst h
    exact hs
  case call b =>
    subst h
    exact hs
  case pollResult text =>
    obtain ⟨hn, r, hr, ⟨hd, rfl, htext⟩ | ⟨hd, rfl⟩⟩ := hs
    · -- the first poll takes the response
      simp only [mcpProtocol, mcpEval, McpEval.pollResult, hd, ↓reduceIte, htext, Option.map_some,
        List.append_eq_nil_iff, List.cons_ne_nil, and_false, Option.some.injEq] at h
      subst h
      exact ⟨hn, r, hr, .inr ⟨rfl, rfl⟩⟩
    · -- the second one finds nothing
      simp only [mcpProtocol, mcpEval, McpEval.pollResult, hd, Bool.false_eq_true, ↓reduceIte,
        Option.map_some, Option.some.injEq] at h
      subst h
      exact ⟨hn, r, hr, rfl⟩
  case reply text =>
    obtain ⟨⟨n, hn, hone⟩, r, hr, rfl⟩ := hs
    simp only [List.append_eq_nil_iff, List.cons_ne_nil, and_false, ↓reduceIte] at h
    subst h
    simp only [Owed, hn]
    exact hone.sent hr

theorem owed_evalReturn (hs : Owed H ct s) (h : s.evalReturn (mcpProtocol H err) = some t) :
    Owed H ct t ∧ t.escaped = s.escaped := by
  unfold Owed at hs
  cases hp : s.pc <;> simp only [evalReturn, hp, reduceCtorEq] at h
  all_goals simp only [hp] at hs
  case running b =>
    obtain ⟨hb, hn⟩ := hs
    obtain ⟨hthrows, r, hr, hdone, hresult⟩ := replied_evalExpr err hb
    rw [hthrows] at h
    simp only [Bool.false_eq_true, ↓reduceIte, Option.some.injEq] at h
    subst h
    exact ⟨⟨hn, r, hr, .inl ⟨hdone, rfl, hresult⟩⟩, rfl⟩

theorem owed_evalWork (hs : Owed H ct s) (h : s.evalWork (mcpProtocol H err) = some t) :
    Owed H ct t := by
  unfold Owed at hs
  cases hp : s.pc <;> simp only [evalWork, hp, reduceCtorEq, Option.some.injEq] at h
  simp only [hp] at hs
  subst h
  simpa only [Owed, hp, mcpProtocol, mcpEval] using hs

theorem onLine_escaped {σ : Type*} {E : GenericEval σ} {s t : HttpConnection σ}
    (h : s.onLine E ct = some t) : t.escaped = s.escaped := by
  cases hp : s.pc <;> simp only [onLine, hp, reduceCtorEq, Option.some.injEq] at h
  case pollResult text =>
    obtain ⟨x, -, rfl⟩ := Option.map_eq_some_iff.mp h
    rfl
  all_goals
    subst h
    rfl

theorem handleTurn_escaped {σ : Type*} {s t : HttpConnection σ} {x : Turn σ}
    (h : s.handleTurn x = some t) : t.escaped = s.escaped := by
  cases x <;> simp only [handleTurn] at h <;> split at h <;> cases h <;> rfl

theorem owed_step {a : Act (McpEval α)} (hs : Owed H ct s) (he : s.escaped = false)
    (hw : asksWell H s a) (h : s.step (mcpProtocol H err) ct a = some t) :
    Owed H ct t ∧ t.escaped = false := by
  simp only [step, he, Bool.false_eq_true, ↓reduceIte] at h
  cases a with
  | turn x => exact ⟨owed_turn hs hw h, (handleTurn_escaped h).trans he⟩
  | step => exact ⟨owed_onLine hs h, (onLine_escaped h).trans he⟩
  | work =>
    refine ⟨owed_evalWork hs h, ?_⟩
    cases hp : s.pc <;> simp only [evalWork, hp, reduceCtorEq, Option.some.injEq] at h
    subst h
    exact he
  | ret => exact (owed_evalReturn hs h).imp_right fun ht => ht.trans he

theorem owed_of_reach (h : Reach (httpSystem (mcpProtocol H err) ct) (asksWell H) s) :
    Owed H ct s ∧ s.escaped = false := by
  refine h.invariant (fun s => Owed H ct s ∧ s.escaped = false) ?_ fun _ _ _ _ hs hc ht =>
    owed_step hs.1 hs.2 hc ht
  rintro _ ⟨v, rfl⟩
  exact ⟨⟨[], by simp, rfl, rfl⟩, rfl⟩

/-- How far the thread is from the next request. -/
def distance (s : HttpConnection (McpEval α)) : ℕ :=
  match s.pc with
  | .read | .closed => 0
  | .reply _ => 1
  | .pollResult _ => if s.evaluator.done then 3 else 2
  | .running _ => 4
  | .call _ => 5
  | .beginEval _ => 6

/-- The thread is never stuck within a request. -/
theorem owed_advances (err : Bytes) (hs : Owed H ct s) (he : s.escaped = false)
    (hread : s.pc ≠ .read) (hclosed : s.pc ≠ .closed) : ∃ a t, (a = .step ∨ a = .ret) ∧
    s.step (mcpProtocol H err) ct a = some t ∧ distance t < distance s := by
  unfold Owed at hs
  cases hp : s.pc <;> simp only [hp] at hs
  case read => exact absurd hp hread
  case closed => exact absurd hp hclosed
  case beginEval b =>
    refine ⟨.step, _, .inl rfl, by simp only [step, he, onLine, hp]; rfl, ?_⟩
    simp only [distance, hp]
    decide
  case call b =>
    refine ⟨.step, _, .inl rfl, by simp only [step, he, onLine, hp]; rfl, ?_⟩
    simp only [distance, hp]
    decide
  case running b =>
    refine ⟨.ret, _, .inr rfl, by
      simp only [step, he, evalReturn, hp, (replied_evalExpr err hs.1).1]; rfl, ?_⟩
    simp only [distance, hp]
    split <;> decide
  case reply text =>
    refine ⟨.step, _, .inl rfl, by simp only [step, he, onLine, hp]; rfl, ?_⟩
    simp only [distance, hp]
    decide
  case pollResult text =>
    obtain ⟨-, r, -, ⟨hd, -, htext⟩ | ⟨hd, -⟩⟩ := hs
    · refine ⟨.step, { s with
          evaluator := { s.evaluator with done := false }, pc := .pollResult (text ++ s.evaluator.result) },
        .inl rfl, ?_, by simp [distance, hp, hd]⟩
      simp [step, he, onLine, hp, mcpProtocol, mcpEval, McpEval.pollResult, hd, htext]
    · refine ⟨.step, { s with pc := .reply text }, .inl rfl, ?_, by simp [distance, hp, hd]⟩
      simp [step, he, onLine, hp, mcpProtocol, mcpEval, McpEval.pollResult, hd]

theorem owed_received {a : Act (McpEval α)} (ha : a = .step ∨ a = .ret)
    (h : s.step (mcpProtocol H err) ct a = some t) : t.received = s.received := by
  simp only [step] at h
  split at h
  · cases h
  rcases ha with rfl | rfl
  · cases hp : s.pc <;> simp only [onLine, hp, reduceCtorEq, Option.some.injEq] at h
    case pollResult text =>
      obtain ⟨x, -, rfl⟩ := Option.map_eq_some_iff.mp h
      rfl
    all_goals
      subst h
      rfl
  · cases hp : s.pc <;> simp only [evalReturn, hp, reduceCtorEq] at h
    split at h <;> cases h <;> rfl

/-- Left alone, the thread sends the response that it owes, and goes back to read. -/
theorem owed_sent (hs : Owed H ct s) (he : s.escaped = false) :
    ∃ t, Path (httpSystem (mcpProtocol H err) ct) (fun _ a => a = .step ∨ a = .ret) s t ∧
      (t.pc = .read ∨ t.pc = .closed) ∧ OneEach H ct t.sent s.received.length := by
  have hadvance (u : HttpConnection (McpEval α)) (hu : Owed H ct u ∧ u.escaped = false ∧
      u.received = s.received) (hpc : ¬ (u.pc = .read ∨ u.pc = .closed)) :
      ∃ v, Path (httpSystem (mcpProtocol H err) ct) (fun _ a => a = .step ∨ a = .ret) u v ∧
        (Owed H ct v ∧ v.escaped = false ∧ v.received = s.received) ∧ distance v < distance u := by
    obtain ⟨hu, hue, hur⟩ := hu
    obtain ⟨hread, hclosed⟩ := not_or.mp hpc
    obtain ⟨a, v, ha, hv, hlt⟩ := owed_advances err hu hue hread hclosed
    have hw : asksWell H u a := by rcases ha with rfl | rfl <;> trivial
    have ⟨h1, h2⟩ := owed_step hu hue hw hv
    exact ⟨v, .single ha hv, ⟨h1, h2, (owed_received ha hv).trans hur⟩, hlt⟩
  obtain ⟨t, hp, ⟨ht, -, hr⟩, hpc⟩ := Path.progress _ _ distance hadvance s ⟨hs, he, rfl⟩
  refine ⟨t, hp, hpc, hr ▸ ?_⟩
  unfold Owed at ht
  rcases hpc with hpc | hpc <;> simpa only [hpc] using ht

/-- While every body that comes gets a reply, one complete response is sent for each
request before the next is read; and the thread does get to read the next. -/
theorem http_responds (h : Reach (httpSystem (mcpProtocol H err) ct) (asksWell H) s) :
    s.escaped = false ∧ (s.pc = .read ∨ s.pc = .closed → OneEach H ct s.sent s.received.length) ∧
      ∃ t, Path (httpSystem (mcpProtocol H err) ct) (fun _ a => a = .step ∨ a = .ret) s t ∧
        (t.pc = .read ∨ t.pc = .closed) ∧ OneEach H ct t.sent s.received.length := by
  obtain ⟨hs, he⟩ := owed_of_reach h
  refine ⟨he, fun hpc => ?_, owed_sent hs he⟩
  unfold Owed at hs
  rcases hpc with hpc | hpc <;> simpa only [hpc] using hs

/-- One request with this body, up to the next turn of the loop. -/
def oneTurn (body : Bytes) (polls : ℕ) : List (Act (McpEval Unit)) :=
  [.turn .header, .turn (.request body (McpEval.new ())), .step, .step, .ret] ++ List.replicate polls .step

theorem http_responds_ping : ∃ s : HttpConnection (McpEval Unit),
    s.received = [Mcp.ping] ∧ OneEach Mcp.bareHost [] s.sent 1 := by
  have hx : (exec (httpSystem (mcpProtocol Mcp.bareHost []) []) (opened (McpEval.new ()))
      (oneTurn Mcp.ping 3)).map (fun s => (s.pc, s.received)) = some (.read, [Mcp.ping]) := by decide +kernel
  obtain ⟨s, hs, h⟩ := Option.map_eq_some_iff.mp hx
  obtain ⟨hpc, hreceived⟩ := Prod.mk.inj h
  have hping : Replied Mcp.bareHost () Mcp.ping := by
    have hq : Mcp.request? Mcp.bareHost Mcp.ping = some (ascii "ping", .object [], .number (ascii "1")) := rfl
    refine ⟨by decide, by decide, ?_, rfl, ?_⟩
    · rintro ⟨method, params, id, h, hm⟩
      cases hq.symm.trans h
      exact absurd hm (by decide)
    · rintro ⟨method, params, id, h, hw⟩
      cases hq.symm.trans h
      exact hw
  have hr : Reach (httpSystem (mcpProtocol Mcp.bareHost []) []) (asksWell Mcp.bareHost) s := by
    refine Reach.of_exec (fun _ a => match a with
      | .turn (.request body _) => decide (body = Mcp.ping)
      | _ => true) ?_ (.init ⟨_, rfl⟩) (by decide +kernel) hs
    rintro u (x | _ | _ | _) hu
    case turn =>
      cases x
      case request body v => exact of_decide_eq_true hu ▸ hping
      all_goals trivial
    all_goals trivial
  have hone := (http_responds hr).2.1 (.inl hpc)
  rw [hreceived] at hone
  exact ⟨s, hreceived, hone⟩

/-- Some run ends its first request, which has this body, without a response. -/
def Unanswered (body : Bytes) : Prop :=
  ∃ s, Reach (httpSystem (mcpProtocol Mcp.bareHost []) []) anyStep s ∧ s.pc = .read ∧
    s.received = [body] ∧ ¬ OneEach Mcp.bareHost [] s.sent s.received.length

theorem unanswered_of_exec {body : Bytes} (hx : (exec (httpSystem (mcpProtocol Mcp.bareHost []) [])
    (opened (McpEval.new ())) (oneTurn body 2)).map (fun s => (s.pc, s.received, s.sent)) =
      some (.read, [body], [])) : Unanswered body := by
  obtain ⟨s, hs, h⟩ := Option.map_eq_some_iff.mp hx
  obtain ⟨hpc, hreceived, hsent⟩ : _ ∧ _ ∧ _ := by simpa using h
  refine ⟨s, reach_of_exec _ ⟨_, rfl⟩ hs, hpc, hreceived, ?_⟩
  rintro ⟨answers, -, hall, hlen⟩
  rw [hsent] at hall
  simp [hreceived, List.map_eq_nil_iff.mp hall.symm] at hlen

/-- A request with an empty body, or with one that is no JSON, is never answered. -/
theorem http_responds_fails : Unanswered [] ∧ Unanswered (ascii "\x7b") :=
  ⟨unanswered_of_exec (by decide +kernel), unanswered_of_exec (by decide +kernel)⟩

end HttpConnection

end CogServer
