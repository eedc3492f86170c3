import CogServer.HttpMessage
import CogServer.HttpRequests
import CogServer.McpPort
import CogServer.WebShells

/-! Requests to the MCP shell of the web server: from the bytes that come in to the responses that a
client reads. -/
namespace CogServer

open Transition Telnet Mcp

namespace HttpSocket

variable {P : WebPages} {key : Bytes → Bytes} {reqs : List HttpRequest} {s t : HttpSocket} {future : Bytes}

theorem onConnection_accepts {url : Bytes} (h : Accepts P url) (hostHeader : Bytes) :
    P.onConnection url hostHeader = ([], none) := by
  obtain ⟨hfixed, hurl, hknown⟩ := h
  simp only [WebPages.onConnection, fixed_none P url [] hostHeader hfixed, hurl, hknown, ↓reduceIte]

theorem connect_accepting (h : Accepts P s.url) : s.connect (P.host key) = s.connect (accepting key) := by
  unfold connect WebPages.host accepting
  simp only [onConnection_accepts h]

theorem handshakeLine_accepting {line : Bytes} (h : s.gotFirstLine = true → Accepts P s.url) :
    s.handshakeLine (P.host key) line = s.handshakeLine (accepting key) line := by
  cases hf : s.gotFirstLine with
  | false => rw [handshakeLine_first line hf, handshakeLine_first line hf]
  | true =>
    have hurl := h hf
    cases hh : s.gotHttpHeader with
    | false =>
      by_cases hl : line = []
      · rw [hl, handshakeLine_end hf hh, handshakeLine_end hf hh]
        exact connect_accepting hurl
      · rw [handshakeLine_header hf hh hl, handshakeLine_header hf hh hl]
    | true => simp only [handshakeLine, hf, hh, not_true_eq_false, false_and, ↓reduceIte, connect_accepting hurl]

theorem next_first {a : Act} {line : Bytes} (h : s.next? a = some (line, t)) :
    t.gotFirstLine = s.gotFirstLine ∧ t.sent = s.sent := by
  cases a with
  | step =>
    cases hp : s.pc <;> simp only [next?, hp, reduceCtorEq] at h
    split at h <;> cases h
    exact ⟨rfl, rfl⟩
  | frame data =>
    simp only [next?] at h
    split at h <;> cases h
    exact ⟨rfl, rfl⟩
  | recv bytes => cases h
  | ends e => cases h

/-- While the URL in hand is accepted, the pages of the server do not matter. -/
theorem step_accepting (h : s.gotFirstLine = true → Accepts P s.url) (a : Act) :
    s.step (P.host key) a = s.step (accepting key) a := by
  unfold step
  cases hn : s.next? a with
  | none => rfl
  | some x =>
    obtain ⟨line, u⟩ := x
    have hu : u.gotFirstLine = true → Accepts P u.url := by
      rw [(next_first hn).1, (next_same hn).2.2]
      exact h
    dsimp only
    by_cases hbus : [0x1, 0x21] <+: line
    · simp only [handleLine, hbus, ↓reduceIte]
    · rw [handleLine_eq _ hbus, handleLine_eq _ hbus, handshakeLine_accepting hu]

/-- The URL in hand is that of one of the requests. -/
theorem Ahead.url {rest : Bytes} (h : Ahead reqs s rest) (hreqs : ∀ r ∈ reqs, Accepts P r.url)
    (hbody : ∀ n, s.pc ≠ .body n) : s.gotFirstLine = true → Accepts P s.url := by
  intro hf
  cases h with
  | first _ _ hfirst => exact absurd (hfirst.symm.trans hf) Bool.false_ne_true
  | headers hr _ _ _ _ hurl =>
    rw [hurl]
    exact hreqs _ (hr ▸ List.mem_append_right _ List.mem_cons_self)
  | body _ hpc => exact absurd hpc (hbody _)

theorem Ahead.step_accepting {rest : Bytes} (h : Ahead reqs s rest) (hreqs : ∀ r ∈ reqs, Accepts P r.url)
    (a : Act) : s.step (P.host key) a = s.step (accepting key) a := by
  -- while a body is read, `HandshakeLine` is not called
  by_cases hbody : ∃ n, s.pc = .body n
  · obtain ⟨n, hn⟩ := hbody
    cases a <;> simp [step, next?, hn]
  · exact HttpSocket.step_accepting (h.url hreqs (not_exists.mp hbody)) a

theorem Ahead.open {rest : Bytes} (h : Ahead reqs s rest) : ¬ (s.pc = .closed ∨ s.Dead) := by
  have hreads (hreading : Reading s) : ¬ (s.pc = .closed ∨ s.Dead) := by
    rintro (hpc | ⟨e, hpc⟩) <;> rcases hreading with ⟨n, hn, -⟩ | ⟨hn, -⟩ <;> cases hpc.symm.trans hn
  cases h with
  | first _ hreading => exact hreads hreading
  | headers _ _ hreading => exact hreads hreading
  | body _ hn => rintro (hpc | ⟨e, hpc⟩) <;> cases hpc.symm.trans hn

/-- A server that accepts the requests reads them as one that accepts everything. -/
theorem reach_accepting (hreqs : ∀ r ∈ reqs, Accepts P r.url)
    (h : Reach (framingSystem (P.host key)) (arrives (reqs.flatMap HttpRequest.bytes)) s) :
    Reach (framingSystem (accepting key)) (arrives (reqs.flatMap HttpRequest.bytes)) s := by
  induction h with
  | init hi => exact .init hi
  | step hs hc ht ih =>
    obtain ⟨future, -, -, ha⟩ := ahead_of_reach ih
    exact .step ih hc ((ha.step_accepting hreqs _).symm.trans ht)

/-- Nothing was sent yet, or the connection is about to end. -/
def Unsent (s : HttpSocket) : Prop := s.sent = [] ∨ s.pc = .closed ∨ s.Dead

theorem unsent_requestLine (line : Bytes) (h : s.sent = []) :
    (s.requestLine line).2 = none → (s.requestLine line).1.sent = [] := by
  unfold requestLine
  dsimp only
  split_ifs
  · exact fun _ => h
  · exact fun _ => h
  · nofun

theorem headerLine_sent (line : Bytes) (s : HttpSocket) : (s.headerLine line).1.sent = s.sent := by
  unfold headerLine
  split
  · split <;> rfl
  · split_ifs <;> rfl

theorem getHttpBody_sent (s : HttpSocket) : s.getHttpBody.sent = s.sent := by
  unfold getHttpBody takeBody onBody
  split_ifs <;> rfl

theorem unsent_handshakeLine (line : Bytes) (h : s.sent = []) (hw : s.gotWebsockHeader = false) :
    (s.handshakeLine (accepting key) line).2 = none → (s.handshakeLine (accepting key) line).1.sent = [] := by
  have hconnect (u : HttpSocket) (hu : u.sent = []) (hw : u.gotWebsockHeader = false) :
      (u.connect (accepting key)).1.sent = [] := by
    simp [connect, accepting, hw, hu]
  cases hf : s.gotFirstLine with
  | false =>
    rw [handshakeLine_first line hf]
    exact unsent_requestLine line h
  | true =>
    intro _
    cases hh : s.gotHttpHeader with
    | false =>
      by_cases hl : line = []
      · rw [hl, handshakeLine_end hf hh]
        exact hconnect _ h hw
      · rw [handshakeLine_header hf hh hl, headerLine_sent]
        exact h
    | true =>
      simp only [handshakeLine, hf, hh, not_true_eq_false, false_and, ↓reduceIte]
      exact hconnect _ h hw

theorem unsent_handleLine (line : Bytes) (h : s.sent = []) (hw : s.gotWebsockHeader = false) :
    Unsent (s.handleLine (accepting key) line) := by
  by_cases hbus : [0x1, 0x21] <+: line
  · exact .inr (.inl (by simp only [handleLine, hbus, ↓reduceIte]))
  rw [handleLine_eq _ hbus]
  have hr : (if s.gotHttpHeader then (s, none) else s.handshakeLine (accepting key) (stripReturn line)).2 = none →
      (if s.gotHttpHeader then (s, none) else s.handshakeLine (accepting key) (stripReturn line)).1.sent = [] := by
    split
    · exact fun _ => h
    · exact unsent_handshakeLine _ h hw
  generalize (if s.gotHttpHeader then (s, none) else s.handshakeLine (accepting key) (stripReturn line)) = r at hr
  cases he : r.2 with
  | some e => exact .inr (afterHandshake_error _ he).2.2
  | none =>
    refine .inl ?_
    unfold afterHandshake
    simp only [he]
    split
    · exact hr he
    · split
      · exact hr he
      · rw [getHttpBody_sent]
        exact hr he

/-- Before the responses of `OnLine`, nothing is sent on a connection that serves such requests. -/
theorem unsent_of_reach
    (h : Reach (framingSystem (accepting key)) (arrives (reqs.flatMap HttpRequest.bytes)) s) : s.sent = [] := by
  induction h with
  | init hi => exact hi ▸ rfl
  | @step s t a hs hc ht ih =>
    obtain ⟨-, -, hplain, -⟩ := ahead_of_reach hs
    obtain ⟨_, -, -, ha⟩ := ahead_of_reach (.step hs hc ht)
    -- a step sends only on its way to the end, and `t` has still something ahead
    have hunsent : Unsent t := by
      change s.step (accepting key) a = some t at ht
      unfold step at ht
      cases hn : s.next? a with
      | some x =>
        obtain ⟨line, u⟩ := x
        simp only [hn, Option.some.injEq] at ht
        rw [← ht]
        have hw : u.gotWebsockHeader = false := by
          rcases hc with rfl | ⟨bytes, rfl, -⟩
          · cases hp : s.pc <;> simp only [next?, hp, reduceCtorEq] at hn
            split at hn <;> cases hn
            exact hplain.header
          · cases hn
        exact unsent_handleLine line ((next_first hn).2.trans ih) hw
      | none =>
        simp only [hn] at ht
        rcases hc with rfl | ⟨bytes, rfl, -⟩
        · cases hp : s.pc <;> simp only [hp, reduceCtorEq] at ht
          cases ht
          exact .inl ih
        · simp only [recv] at ht
          split at ht
          · cases ht
          cases hp : s.pc <;> simp only [hp, reduceCtorEq] at ht
          · cases ht
            exact .inl ih
          · unfold takeBody onBody at ht
            split_ifs at ht <;> cases ht <;> exact .inl ih
    exact hunsent.resolve_right ha.open

/-- With the whole stream there, the thread gets through all the requests by itself. -/
theorem served_of_received (key : Bytes → Bytes) (hreqs : ∀ r ∈ reqs, Accepts P r.url) (hp : Plain s)
    (ha : Ahead reqs s (s.buffer ++ future)) (hf : s.received ++ future = reqs.flatMap HttpRequest.bytes)
    (hall : s.received = reqs.flatMap HttpRequest.bytes) :
    ∃ t, Path (framingSystem (P.host key)) (fun _ a => a = .step) s t ∧ t.pc = .lineWait ∧
      t.calls = reqs.flatMap HttpRequest.calls := by
  obtain rfl : future = [] := by simpa [hall] using hf
  -- the thread is at a line that is there, so that it can step, and comes closer to the end
  have hadvance (u : HttpSocket) (hu : Plain u ∧ Ahead reqs u (u.buffer ++ []))
      (hline : ¬ ∀ n, u.pc ≠ .line n) :
      ∃ v, Path (framingSystem (P.host key)) (fun _ a => a = .step) u v ∧
        (Plain v ∧ Ahead reqs v (v.buffer ++ [])) ∧ stepsLeft v < stepsLeft u := by
    obtain ⟨n, hn⟩ := not_forall_not.mp hline
    obtain ⟨v, hv⟩ := step_of_line (W := P.host key) hn
    have hm := ahead_step hu.1 hu.2 ((hu.2.step_accepting hreqs .step).symm.trans hv)
    exact ⟨v, .single rfl hv, ⟨hm.plain, hm.ahead⟩, hm.sooner⟩
  obtain ⟨t, hpath, ⟨-, ht⟩, hstuck⟩ := Path.progress _ _ stepsLeft hadvance s ⟨hp, ha⟩
  rw [List.append_nil] at ht
  obtain ⟨hpc, hcalls⟩ := ahead_done ht hstuck
  exact ⟨t, hpath, hpc, hcalls⟩

end HttpSocket

namespace WebReplies

/-- The content type that `OnLine` picks by the name of the shell. -/
def contentType (shell : Bytes) : Bytes :=
  if shell = ascii "mcp" ∨ shell = ascii "json" then ascii "application/json" else ascii "text/plain"

section

variable {σ : Type*}

/-- `poll_result` up to an empty chunk, in so many rounds at most. -/
def pollAll (E : GenericEval σ) : ℕ → σ → Option (Bytes × σ)
  | 0, _ => none
  | n + 1, v => (E.pollResult v).bind fun (chunk, u) =>
    if chunk = [] then some ([], u) else (pollAll E n u).map fun (more, u) => (chunk ++ more, u)

/-- The evaluation of a body in `OnLine`, and what it sends. `none` is an exception. -/
def evalBody (E : Bytes → GenericEval σ) (rounds : ℕ) (shell : Bytes) (v : σ) (body : Bytes) :
    Option (List Bytes × σ) :=
  let begun := (E shell).beginEval v
  if (E shell).throws body begun then none
  else (pollAll (E shell) rounds ((E shell).evalExpr body begun)).map fun (result, u) =>
    (if result = [] then [] else [withHeader result (contentType shell)], u)

/-- What the subclass sends in a call, for a URL that is accepted, and for a body. `none` is also
a null shell. -/
def onCall (P : WebPages) (commands : Bytes → Option Command) (E : Bytes → GenericEval σ) (rounds : ℕ)
    (s : WebServer × σ) : HttpCall → Option (List Bytes × WebServer × σ)
  | .connection url => some ([], s.1.onConnection P commands url, s.2)
  | .line body =>
    let server := s.1.onLine
    server.shell.bind fun shell =>
      (evalBody E rounds shell s.2 body).map fun (sent, u) => (sent, server, u)

/-- One call after the other. -/
def onCalls (P : WebPages) (commands : Bytes → Option Command) (E : Bytes → GenericEval σ) (rounds : ℕ) :
    WebServer × σ → List HttpCall → Option (List Bytes × WebServer × σ)
  | s, [] => some ([], s)
  | s, c :: calls => (onCall P commands E rounds s c).bind fun (sent, t) =>
    (onCalls P commands E rounds t calls).map fun (more, u) => (sent ++ more, u)

/-- What the calls of a connection write to it. -/
def answers (P : WebPages) (commands : Bytes → Option Command) (E : Bytes → GenericEval σ) (rounds : ℕ)
    (v : σ) (calls : List HttpCall) : Option Bytes :=
  (onCalls P commands E rounds (WebServer.opened, v) calls).map fun r => McpPort.written r.1

variable {P : WebPages} {commands : Bytes → Option Command} {E : Bytes → GenericEval σ} {rounds : ℕ}

theorem onCalls_append (s : WebServer × σ) (calls more : List HttpCall) :
    onCalls P commands E rounds s (calls ++ more) = (onCalls P commands E rounds s calls).bind fun r =>
      (onCalls P commands E rounds r.2 more).map fun q => (r.1 ++ q.1, q.2) := by
  induction calls generalizing s with
  | nil => simp [onCalls]
  | cons c calls ih =>
    rw [List.cons_append, onCalls, onCalls]
    cases onCall P commands E rounds s c with
    | none => rfl
    | some r =>
      simp only [Option.bind_some, ih]
      cases onCalls P commands E rounds r.2 calls with
      | none => rfl
      | some q => simp [Function.comp_def]

/-- What was written before some of the calls is still there after them. -/
theorem answers_prefix {v : σ} {calls all : List HttpCall} {sent : Bytes} (h : calls <+: all)
    (hall : answers P commands E rounds v all = some sent) :
    ∃ sofar, answers P commands E rounds v calls = some sofar ∧ sofar <+: sent := by
  obtain ⟨more, rfl⟩ := h
  obtain ⟨r, hr, rfl⟩ := Option.map_eq_some_iff.mp hall
  rw [onCalls_append] at hr
  obtain ⟨q, hq, hr⟩ := Option.bind_eq_some_iff.mp hr
  obtain ⟨u, -, rfl⟩ := Option.map_eq_some_iff.mp hr
  refine ⟨McpPort.written q.1, by rw [answers, hq]; rfl, ?_⟩
  rw [McpPort.written, McpPort.written, List.filter_append, List.flatten_append]
  exact List.prefix_append _ _

/-- A request for a shell: the shell is made, and gets the body. -/
theorem onCalls_request {r : HttpRequest} {name : Bytes} (ha : HttpSocket.Accepts P r.url)
    (hc : commands (r.url.drop 1) = some (.shell name)) (s : WebServer × σ) (hs : s.1.nullDeref = false) :
    onCalls P commands E rounds s r.calls =
      (evalBody E rounds name s.2 r.body).map fun (sent, u) => (sent, ⟨none, some name, false⟩, u) := by
  have hconnection : s.1.onConnection P commands r.url = { s.1 with request := some (.shell name) } := by
    rw [WebServer.onConnection, if_neg (not_or.mpr ⟨not_not.mpr ha.1, ha.2.1⟩), hc]
  have hline : ({ s.1 with request := some (.shell name) } : WebServer).onLine = ⟨none, some name, false⟩ := by
    simp [WebServer.onLine, WebServer.runRequest, WebServer.execute, hs]
  simp only [HttpRequest.calls, onCalls, onCall, hconnection, hline, Option.bind_some]
  cases evalBody E rounds name s.2 r.body with
  | none => rfl
  | some x => simp

end

theorem ascii_toString (n : ℕ) : ascii (toString n) = (Nat.toDigits 10 n).map fun c => UInt8.ofNat c.toNat := by
  rw [ascii, Nat.toString_eq_repr, Nat.toList_repr]

/-- A number as `snprintf` writes it. -/
theorem toString_digits (n : ℕ) :
    ascii (toString n) ≠ [] ∧ (∀ c ∈ ascii (toString n), isDigit c = true) ∧
    digitsValue (ascii (toString n)) = n := by
  have hchar : ∀ d < 10, (Nat.toDigits 10 d).map (fun c => UInt8.ofNat c.toNat) = [UInt8.ofNat (48 + d)] := by
    decide
  rw [ascii_toString]
  induction n using Nat.strongRecOn with
  | ind n ih =>
    by_cases hn : n < 10
    · rw [hchar n hn]
      refine ⟨List.cons_ne_nil _ _, List.forall_mem_singleton.mpr (isDigit_ofNat hn), ?_⟩
      simp only [digitsValue, List.foldl_cons, List.foldl_nil, digit_toNat hn]
      omega
    · obtain ⟨-, hdigits, hvalue⟩ := ih (n / 10) (by omega)
      have hlast : n % 10 < 10 := Nat.mod_lt n (by omega)
      -- the last digit is cut off
      have htext : Nat.toDigits 10 n = Nat.toDigits 10 (n / 10) ++ Nat.toDigits 10 (n % 10) := by
        rw [Nat.toDigits_of_base_le (by omega) (by omega), Nat.toDigits_of_lt_base hlast]
      rw [htext, List.map_append, hchar _ hlast]
      refine ⟨List.append_ne_nil_of_right_ne_nil _ (List.cons_ne_nil _ _),
        List.forall_mem_append.mpr ⟨hdigits, List.forall_mem_singleton.mpr (isDigit_ofNat hlast)⟩, ?_⟩
      rw [digitsValue, List.foldl_append, ← digitsValue, hvalue]
      simp only [List.foldl_cons, List.foldl_nil, digit_toNat hlast]
      omega

theorem okMessage_announced (msg : Bytes) {contentType : Bytes} :
    Http.lengthOf [ascii "Server: CogServer", ascii "Content-Type: " ++ contentType,
      ascii "Content-Length: " ++ ascii (toString msg.length)] = some msg.length := by
  obtain ⟨hne, hdigits, hvalue⟩ := toString_digits msg.length
  have hbefore : Http.lengthTexts [ascii "Server: CogServer", ascii "Content-Type: " ++ contentType] = [] := by
    have htype : ¬ ascii "Content-Length: " <+: ascii "Content-Type: " ++ contentType := by
      rintro ⟨x, hx⟩
      -- the two names differ in the ninth letter
      have hninth : some (76 : UInt8) = some 84 := congrArg (·[8]?) hx
      exact absurd hninth (by decide)
    simp only [Http.lengthTexts, List.filterMap_cons, htype, ↓reduceIte]
    rfl
  have hafter : Http.lengthTexts [] = [] := rfl
  exact (Http.lengthOf_digits hbefore hafter hne hdigits).trans (congrArg some hvalue)

/-- What `SendWithHeader` sends, as a message. -/
def okMessage (msg contentType : Bytes) (h : Http.IsText contentType) : Http.Message where
  start := ascii "HTTP/1.1 200 OK"
  fields := [ascii "Server: CogServer", ascii "Content-Type: " ++ contentType,
    ascii "Content-Length: " ++ ascii (toString msg.length)]
  body := msg
  start_text := by decide
  fields_text := by
    have hdigits := Http.isText_digits (toString_digits msg.length).2.1
    have htype : Http.IsText (ascii "Content-Type: ") := by decide
    have hlength : Http.IsText (ascii "Content-Length: ") := by decide
    exact List.forall_mem_cons.mpr ⟨by decide, List.forall_mem_cons.mpr
      ⟨⟨List.append_ne_nil_of_left_ne_nil (by decide) _, Http.isText_append.mpr ⟨htype, h⟩⟩,
        List.forall_mem_singleton.mpr ⟨List.append_ne_nil_of_left_ne_nil (by decide) _,
          Http.isText_append.mpr ⟨hlength, hdigits⟩⟩⟩⟩
  announced := okMessage_announced msg

theorem okMessage_bytes (msg : Bytes) {contentType : Bytes} (h : Http.IsText contentType) :
    (okMessage msg contentType h).bytes = withHeader msg contentType := by
  have hstart : ascii "HTTP/1.1 200 OK\r\nServer: CogServer\r\nContent-Type: " = ascii "HTTP/1.1 200 OK" ++
      (Http.crlf ++ (ascii "Server: CogServer" ++ (Http.crlf ++ ascii "Content-Type: "))) := by decide
  have hlength : ascii "\r\nContent-Length: " = Http.crlf ++ ascii "Content-Length: " := by decide
  have hend : ascii "\r\n\r\n" = Http.crlf ++ Http.crlf := by decide
  simp only [Http.Message.bytes, okMessage, withHeader, hstart, hlength, hend, List.flatMap_cons,
    List.flatMap_nil, List.flatten_cons, List.flatten_nil, List.append_assoc, List.append_nil]

variable {α : Type*} {H : McpHost α} {err : Bytes}

/-- A body that gets a response. -/
def asked (H : McpHost α) (body : Bytes) : Bool := body ≠ [] && body ≠ [newline] && McpPort.answered H body

/-- The response with this reply. -/
def response (H : McpHost α) (r : Json) : Http.Message :=
  okMessage (McpPort.line H r) (ascii "application/json") (by decide)

variable {P : WebPages} {commands : Bytes → Option Command} {E : Bytes → GenericEval (McpEval α)}

theorem pollResult_done (v : McpEval α) : v.pollResult.2.done = false := by
  unfold McpEval.pollResult
  split
  · rfl
  · next hd => simpa using hd

/-- The second round of the loop finds nothing. -/
theorem evalBody_piece (hE : E (ascii "mcp") = mcpProtocol H err) {v u : McpEval α} {body text : Bytes}
    (h : McpPort.evalPiece H err v body = some (text, u)) (n : ℕ) :
    evalBody E (n + 2) (ascii "mcp") v body =
      some (if text = [] then [] else [withHeader text (ascii "application/json")], u) := by
  have hct : contentType (ascii "mcp") = ascii "application/json" := rfl
  unfold McpPort.evalPiece at h
  dsimp only at h
  split at h
  · cases h
  next hthrows =>
  -- `poll_result` clears `_done`, so the next call gives nothing
  have hu : (mcpProtocol H err).pollResult u = some ([], u) := by
    have hdone : u.done = false :=
      (congrArg (fun p => p.2.done) (Option.some.inj h)).symm.trans (pollResult_done _)
    change some u.pollResult = some ([], u)
    simp only [McpEval.pollResult, hdone, Bool.false_eq_true, ↓reduceIte]
  rw [evalBody, hE, if_neg hthrows, pollAll, h]
  simp only [Option.bind_some, hct]
  by_cases htext : text = []
  · simp only [htext, ↓reduceIte, Option.map_some]
  · rw [if_neg htext, pollAll, hu]
    simp [htext]

/-- The response to a body, or nothing. -/
theorem evalBody_spec (hE : E (ascii "mcp") = mcpProtocol H err) (v : McpEval α) {body : Bytes}
    (hw : ∀ w, ¬ WildMessage H w body) (n : ℕ) :
    ∃ sent u, evalBody E (n + 2) (ascii "mcp") v body = some (sent, u) ∧
      ((asked H body = true ∧ ∃ r, sent = [(response H r).bytes] ∧ McpPort.Replies H body r) ∨
        asked H body = false ∧ sent = []) := by
  have hsilent (hbody : body = [] ∨ body = [newline]) : ∃ u, McpPort.evalPiece H err v body = some ([], u) := by
    rcases hbody with rfl | rfl
    · exact ⟨_, rfl⟩
    · exact ⟨_, rfl⟩
  by_cases hbody : body = [] ∨ body = [newline]
  · obtain ⟨u, hu⟩ := hsilent hbody
    refine ⟨[], u, evalBody_piece hE hu n, .inr ⟨?_, rfl⟩⟩
    rcases hbody with rfl | rfl <;> rfl
  · obtain ⟨hne, hnl⟩ := not_or.mp hbody
    obtain ⟨text, u, hpiece, h⟩ := McpPort.evalPiece_spec err v hne hnl (hw _)
    have hasked : asked H body = McpPort.answered H body := by simp [asked, hne, hnl]
    refine ⟨_, u, evalBody_piece hE hpiece n, ?_⟩
    rw [hasked]
    rcases h with ⟨ha, r, rfl, hr⟩ | ⟨ha, rfl⟩
    · refine .inl ⟨ha, r, ?_, hr⟩
      rw [response, okMessage_bytes, if_neg (by simp [McpPort.line])]
    · exact .inr ⟨ha, rfl⟩

theorem written_bytes (m : Http.Message) : McpPort.written [m.bytes] = m.bytes := by
  have hsendable : sendable m.bytes = true := by
    have hlength : 4 ≤ m.bytes.length := by
      simp only [Http.Message.bytes, Http.crlf, List.length_append, List.length_cons, List.length_nil]
      omega
    have hnil : m.bytes ≠ [] := m.bytes_ne_nil
    have hone : m.bytes ≠ [newline] := by
      intro h
      rw [h] at hlength
      simp at hlength
    simp [sendable, hnil, hone]
  rw [McpPort.written, List.filter_cons_of_pos hsendable]
  exact List.append_nil _

theorem written_append (texts more : List Bytes) :
    McpPort.written (texts ++ more) = McpPort.written texts ++ McpPort.written more := by
  rw [McpPort.written, List.filter_append, List.flatten_append]
  rfl

/-- `OnConnection` accepts the URL, which is one of the MCP shell. -/
def McpUrl (P : WebPages) (commands : Bytes → Option Command) (url : Bytes) : Prop :=
  HttpSocket.Accepts P url ∧ commands (url.drop 1) = some (.shell (ascii "mcp"))

/-- The calls for a list of requests write one response for each body that gets one. -/
theorem onCalls_requests (hE : E (ascii "mcp") = mcpProtocol H err) (n : ℕ) (reqs : List HttpRequest)
    (hreqs : ∀ r ∈ reqs, McpUrl P commands r.url ∧ ∀ w, ¬ WildMessage H w r.body)
    (s : WebServer × McpEval α) (hs : s.1.nullDeref = false) :
    ∃ sent t replies, onCalls P commands E (n + 2) s (reqs.flatMap HttpRequest.calls) = some (sent, t) ∧
      McpPort.written sent = (replies.map (response H)).flatMap Http.Message.bytes ∧
      List.Forall₂ (McpPort.Replies H) ((reqs.map HttpRequest.body).filter (asked H)) replies := by
  induction reqs generalizing s with
  | nil => exact ⟨[], s, [], rfl, rfl, .nil⟩
  | cons r reqs ih =>
    obtain ⟨⟨hurl, hw⟩, hrest⟩ := List.forall_mem_cons.mp hreqs
    obtain ⟨sent, u, heval, hsent⟩ := evalBody_spec hE s.2 hw n
    obtain ⟨more, t, replies, hcalls, hwritten, hreplies⟩ :=
      ih hrest (⟨none, some (ascii "mcp"), false⟩, u) rfl
    -- `OnLine` leaves the shell of the request, which the next `OnConnection` replaces
    have hall : onCalls P commands E (n + 2) s ((r :: reqs).flatMap HttpRequest.calls) =
        some (sent ++ more, t) := by
      rw [List.flatMap_cons, onCalls_append, onCalls_request hurl.1 hurl.2 s hs, heval]
      simp only [Option.map_some, Option.bind_some, hcalls]
    rw [List.map_cons]
    rcases hsent with ⟨ha, j, rfl, hj⟩ | ⟨ha, rfl⟩
    · refine ⟨_, t, j :: replies, hall, ?_, ?_⟩
      · rw [written_append, written_bytes, hwritten, List.map_cons, List.flatMap_cons]
      · rw [List.filter_cons_of_pos ha]
        exact .cons hj hreplies
    · refine ⟨_, t, replies, hall, hwritten, ?_⟩
      rw [List.filter_cons_of_neg (by rw [ha]; exact Bool.false_ne_true)]
      exact hreplies

/-- A request with a message, and one without a body, for the MCP shell. -/
def mcpPost : HttpRequest where
  first := ⟨ascii "POST /mcp HTTP/1.1", true, by decide +kernel⟩
  url := ascii "/mcp"
  headers := [⟨ascii "Content-Length: 24", true, by decide +kernel⟩]
  last := true
  body := McpPort.nameless
  first_url := ⟨ascii "POST ", by simp, ascii " HTTP/1.1", rfl, .inr rfl⟩
  url_ne := by decide +kernel
  url_blank := by decide +kernel
  headers_ne := by decide +kernel
  headers_upgrade := by decide +kernel
  headers_length := .inr ⟨ascii "24", by decide +kernel, by decide +kernel, by decide +kernel,
    by decide +kernel, by decide +kernel⟩

def mcpGet : HttpRequest where
  first := ⟨ascii "GET /mcp", false, by decide +kernel⟩
  url := ascii "/mcp"
  headers := []
  last := false
  body := []
  first_url := ⟨ascii "GET ", by simp, [], rfl, .inl rfl⟩
  url_ne := by decide +kernel
  url_blank := by decide +kernel
  headers_ne := nofun
  headers_upgrade := nofun
  headers_length := .inl ⟨rfl, rfl⟩

def mcpStream : Bytes := [mcpPost, mcpGet, mcpPost].flatMap HttpRequest.bytes

end WebReplies

end CogServer
