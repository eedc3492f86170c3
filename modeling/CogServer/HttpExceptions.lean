import CogServer.HttpFraming

/-! Which input from a client makes an exception leave the thread of a web connection. -/
namespace CogServer

open Transition

/-- What a web server knows and serves: its commands and its pages. -/
structure WebPages where
  /-- `createRequest` knows the command. -/
  commands : Bytes → Bool
  favicon : Bytes
  htmlStats : Bytes
  oauthProtectedResource : Bytes
  oauthAuthorizationServer : Bytes → Bytes
  oauthRegisterNotRequired : Bytes
  /-- `PageServer::serve` -/
  serve : Bytes → Bytes

namespace WebPages

/-- The page of a URL that is no command. -/
def fixed? (P : WebPages) (url hostHeader : Bytes) : Option Bytes :=
  if url = ascii "/favicon.ico" then some P.favicon
  else if url = ascii "/stats" then some P.htmlStats
  else if url = ascii "/.well-known/oauth-protected-resource" then some P.oauthProtectedResource
  else if url = ascii "/.well-known/oauth-authorization-server" then
    some (P.oauthAuthorizationServer hostHeader)
  else if url = ascii "/register" then some P.oauthRegisterNotRequired
  else none

/-- `WebServer::OnConnection`. Its `substr(1)` throws on an empty URL. -/
def onConnection (P : WebPages) (url hostHeader : Bytes) : List Bytes × Option HttpError :=
  match P.fixed? url hostHeader with
  | some page => ([page], some .silent)
  | none =>
    if url = [] then ([], some .outOfRange)
    else if P.commands (url.drop 1) then ([], none)
    else ([P.serve url], some .silent)

/-- The web server as the subclass of a web socket. -/
def host (P : WebPages) (key : Bytes → Bytes) : HttpHost := ⟨P.onConnection, key⟩

theorem onConnection_cases (P : WebPages) (url hostHeader : Bytes) :
    (url = [] ∧ (P.onConnection url hostHeader).2 = some .outOfRange) ∨
      url ≠ [] ∧ ((P.onConnection url hostHeader).2 = some .silent ∨ (P.onConnection url hostHeader).2 = none) := by
  by_cases hurl : url = []
  · subst hurl
    exact .inl ⟨rfl, rfl⟩
  · refine .inr ⟨hurl, ?_⟩
    unfold onConnection
    cases P.fixed? url hostHeader with
    | some page => exact .inl rfl
    | none =>
      simp only [hurl, ↓reduceIte]
      split
      · exact .inr rfl
      · exact .inl rfl

end WebPages

namespace HttpSocket

variable {P : WebPages} {key : Bytes → Bytes} {s t : HttpSocket}

/-- The thread died of an exception. -/
def Dead (s : HttpSocket) : Prop := ∃ e, s.pc = .dead e

/-- All of a body has come that is longer than any string. -/
def Oversize (s : HttpSocket) : Prop :=
  s.contentLength ≤ s.buffer.length ∧ maxSize < s.contentLength

/-- The lines on which an exception leaves the thread, stripped of their carriage return. -/
inductive FatalLine (P : WebPages) (s : HttpSocket) (line : Bytes) : Prop
  /-- A `Content-Length` whose text is not the number of an `int`. -/
  | length {text : Bytes} (hheader : s.gotHttpHeader = false) (hfirst : s.gotFirstLine = true)
      (ht : lengthText line = some text) (hn : ∀ n, stoi text ≠ .ok n)
  /-- The end of a header whose URL is empty. -/
  | url (hheader : s.gotHttpHeader = false) (hfirst : s.gotFirstLine = true) (hline : line = [])
      (hurl : s.url = [])
  /-- The end of a header that is accepted, before such a body. -/
  | body (hheader : s.gotHttpHeader = false) (hfirst : s.gotFirstLine = true) (hline : line = [])
      (haccepted : (P.onConnection s.url s.hostHeader).2 = none) (hwebsock : s.gotWebsockHeader = false)
      (hframes : s.doFrameIo = false) (hbody : Oversize s)
  /-- A read of such a body that is tried again after an error. -/
  | again (hheader : s.gotHttpHeader = true) (hframes : s.doFrameIo = false) (hbody : Oversize s)

/-- The steps on which an exception leaves the thread. -/
inductive Fatal (P : WebPages) (s : HttpSocket) (a : Act) : Prop
  | line {line : Bytes} {t : HttpSocket} (hnext : s.next? a = some (line, t)) (hbus : ¬ [0x1, 0x21] <+: line)
      (hline : FatalLine P t (stripReturn line))
  /-- The last bytes of a body that is longer than any string. -/
  | recv {bytes : Bytes} (ha : a = .recv bytes) (hne : bytes ≠ []) (hpc : s.pc = .body bytes.length)
      (hbody : maxSize < s.contentLength)

theorem stoi_error {text : Bytes} {e : HttpError} (h : stoi text = .error e) :
    e.caught = false := by
  unfold stoi at h
  dsimp only at h
  split_ifs at h
  all_goals
    obtain rfl := Except.error.inj h
    rfl

theorem foldl_send (sends : List Bytes) (s : HttpSocket) : ∃ o, sends.foldl send s = { s with sent := o } := by
  induction sends generalizing s with
  | nil => exact ⟨s.sent, rfl⟩
  | cons b sends ih =>
    obtain ⟨o, ho⟩ := ih (s.send b)
    refine ⟨o, ?_⟩
    rw [List.foldl_cons, ho]
    unfold send
    split <;> rfl

theorem takeBody_dead : s.takeBody.Dead ↔ maxSize < s.contentLength := by
  unfold takeBody Dead
  split <;> rename_i h
  · exact ⟨fun _ => h, fun _ => ⟨_, rfl⟩⟩
  · refine ⟨fun ⟨e, he⟩ => ?_, fun hlt => absurd hlt h⟩
    cases he

theorem getHttpBody_dead : s.getHttpBody.Dead ↔ s.Oversize := by
  unfold getHttpBody Oversize
  split <;> rename_i h0
  · refine ⟨fun ⟨e, he⟩ => (by cases he), fun h => ?_⟩
    omega
  split <;> rename_i hlt
  · refine ⟨fun ⟨e, he⟩ => (by cases he), fun h => ?_⟩
    omega
  · rw [takeBody_dead]
    exact ⟨fun h => ⟨by omega, h⟩, fun h => h.2⟩

theorem requestLine_cases (line : Bytes) (s : HttpSocket) :
    ((s.requestLine line).2 = none ∧ (s.requestLine line).1.gotHttpHeader = s.gotHttpHeader) ∨
      (s.requestLine line).2 = some .silent := by
  unfold requestLine
  dsimp only
  split
  · exact .inl ⟨rfl, rfl⟩
  split
  · exact .inl ⟨rfl, rfl⟩
  · exact .inr rfl

/-- A header line throws exactly if it announces a length that is none. -/
theorem headerLine_cases (line : Bytes) (s : HttpSocket) :
    ((s.headerLine line).2 = none ∧ (s.headerLine line).1.gotHttpHeader = s.gotHttpHeader ∧
      ∀ text, lengthText line = some text → ∃ n, stoi text = .ok n) ∨
    ∃ e text, (s.headerLine line).2 = some e ∧ e.caught = false ∧ lengthText line = some text ∧
      ∀ n, stoi text ≠ .ok n := by
  unfold headerLine
  cases ht : lengthText line with
  | some text =>
    cases hn : stoi text with
    | ok n =>
      refine .inl ⟨by simp only [hn], by simp only [hn], fun x hx => ⟨n, ?_⟩⟩
      rw [← Option.some.inj hx, hn]
    | error e => exact .inr ⟨e, text, by simp only [hn], stoi_error hn, rfl, by simp [hn]⟩
  | none =>
    refine .inl ⟨?_, ?_, nofun⟩
    · dsimp only
      split_ifs <;> rfl
    · dsimp only
      split_ifs <;> rfl

theorem connect_cases (P : WebPages) (key : Bytes → Bytes) (s : HttpSocket) :
    let r := s.connect (P.host key)
    (s.url = [] ∧ r.2 = some .outOfRange) ∨ s.url ≠ [] ∧
      (((P.onConnection s.url s.hostHeader).2 = some .silent ∧ r.2 = some .silent) ∨
        (P.onConnection s.url s.hostHeader).2 = none ∧ r.2 = none ∧ r.1.gotHttpHeader = s.gotHttpHeader ∧
          r.1.contentLength = s.contentLength ∧ r.1.buffer = s.buffer ∧
          r.1.doFrameIo = (s.gotWebsockHeader || s.doFrameIo)) := by
  obtain ⟨o, ho⟩ := foldl_send (P.onConnection s.url s.hostHeader).1
    { s with calls := s.calls ++ [.connection s.url] }
  unfold connect WebPages.host
  simp only [ho]
  rcases P.onConnection_cases s.url s.hostHeader with ⟨hurl, h⟩ | ⟨hurl, h | h⟩
  · exact .inl ⟨hurl, by simp only [h]⟩
  · exact .inr ⟨hurl, .inl ⟨h, by simp only [h]⟩⟩
  · refine .inr ⟨hurl, .inr ⟨h, ?_⟩⟩
    simp only [h]
    cases hw : s.gotWebsockHeader with
    | false => exact ⟨rfl, rfl, rfl, rfl, by simp⟩
    | true =>
      refine ⟨rfl, ?_⟩
      simp only [not_true_eq_false, ↓reduceIte, send]
      split <;> exact ⟨rfl, rfl, rfl, rfl⟩

theorem handshakeLine_first {W : HttpHost} (line : Bytes) (hf : s.gotFirstLine = false) :
    s.handshakeLine W line = s.requestLine line := by
  simp [handshakeLine, hf]

theorem handshakeLine_header {W : HttpHost} {line : Bytes} (hf : s.gotFirstLine = true)
    (hh : s.gotHttpHeader = false) (hl : line ≠ []) :
    s.handshakeLine W line = s.headerLine line := by
  simp [handshakeLine, hf, hh, hl]

theorem handshakeLine_end {W : HttpHost} (hf : s.gotFirstLine = true) (hh : s.gotHttpHeader = false) :
    s.handshakeLine W [] = connect W { s with gotHttpHeader := true } := by
  simp [handshakeLine, hf, hh]

/-- What the loop does with what `HandshakeLine` leaves. -/
theorem handleLine_none {W : HttpHost} {line : Bytes} (hbus : ¬ [0x1, 0x21] <+: line)
    (hh : s.gotHttpHeader = false) (h : s.handshakeLine W (stripReturn line) = (t, none)) :
    (s.handleLine W line).Dead ↔ t.gotHttpHeader = true ∧ t.doFrameIo = false ∧ t.Oversize := by
  simp only [handleLine, hbus, ↓reduceIte, hh, h, Bool.false_eq_true]
  cases t.gotHttpHeader with
  | false => exact ⟨fun ⟨e, he⟩ => (by cases he), fun h => by cases h.1⟩
  | true =>
    cases hd : t.doFrameIo with
    | true => exact ⟨fun ⟨e, he⟩ => (by cases he), fun h => by cases h.2.1⟩
    | false =>
      simp only [not_true_eq_false, Bool.false_eq_true, ↓reduceIte, getHttpBody_dead, true_and]

theorem handleLine_some {W : HttpHost} {line : Bytes} {e : HttpError}
    (hbus : ¬ [0x1, 0x21] <+: line) (hh : s.gotHttpHeader = false)
    (h : (s.handshakeLine W (stripReturn line)).2 = some e) :
    (s.handleLine W line).Dead ↔ e.caught = false := by
  simp only [handleLine, hbus, ↓reduceIte, hh, h, Bool.false_eq_true, Dead]
  cases e.caught <;> simp

theorem handleLine_kept {W : HttpHost} {line : Bytes} (hbus : ¬ [0x1, 0x21] <+: line)
    (hh : s.gotHttpHeader = true) :
    (s.handleLine W line).Dead ↔ s.doFrameIo = false ∧ s.Oversize := by
  simp only [handleLine, hbus, ↓reduceIte, hh, not_true_eq_false]
  cases hd : s.doFrameIo with
  | true => exact ⟨fun ⟨e, he⟩ => (by cases he), fun h => by cases h.1⟩
  | false => simp only [Bool.false_eq_true, ↓reduceIte, getHttpBody_dead, true_and]

theorem connect_dead {line : Bytes} (hbus : ¬ [0x1, 0x21] <+: line) (hh : s.gotHttpHeader = false)
    (hf : s.gotFirstLine = true) (hl : stripReturn line = []) :
    (s.handleLine (P.host key) line).Dead ↔ FatalLine P s [] := by
  have hline : s.handshakeLine (P.host key) (stripReturn line) =
      connect (P.host key) { s with gotHttpHeader := true } := hl ▸ handshakeLine_end hf hh
  rcases connect_cases P key { s with gotHttpHeader := true } with ⟨hurl, herror⟩ |
    ⟨hurl, ⟨hpage, herror⟩ | ⟨hpage, herror, hheader, hlength, hbuffer, hframes⟩⟩
  · rw [handleLine_some hbus hh (hline ▸ herror)]
    exact ⟨fun _ => .url hh hf rfl hurl, fun _ => rfl⟩
  · rw [handleLine_some hbus hh (hline ▸ herror)]
    refine ⟨fun h => (by cases h), fun h => ?_⟩
    cases h with
    | length _ _ ht _ => cases ht
    | url _ _ _ h => exact absurd h hurl
    | body _ _ _ haccepted => cases haccepted.symm.trans hpage
    | again h => cases h.symm.trans hh
  · rw [handleLine_none hbus hh (hline.trans (Prod.ext rfl herror)), hheader, hframes, Oversize, hlength, hbuffer]
    refine ⟨fun ⟨_, hplain, hbody⟩ => ?_, fun h => ?_⟩
    · obtain ⟨hwebsock, hframe⟩ := Bool.or_eq_false_iff.mp hplain
      exact .body hh hf rfl hpage hwebsock hframe hbody
    · cases h with
      | length _ _ ht _ => cases ht
      | url _ _ _ h => exact absurd h hurl
      | body _ _ _ _ hwebsock hframe hbody =>
        exact ⟨rfl, Bool.or_eq_false_iff.mpr ⟨hwebsock, hframe⟩, hbody⟩
      | again h => cases h.symm.trans hh

theorem handleLine_dead (line : Bytes) (s : HttpSocket) : (s.handleLine (P.host key) line).Dead ↔
    ¬ [0x1, 0x21] <+: line ∧ FatalLine P s (stripReturn line) := by
  by_cases hbus : [0x1, 0x21] <+: line
  · simp only [handleLine, hbus, ↓reduceIte, not_true_eq_false, false_and, iff_false]
    rintro ⟨e, he⟩
    cases he
  simp only [hbus, not_false_eq_true, true_and]
  cases hh : s.gotHttpHeader with
  | true =>
    rw [handleLine_kept hbus hh]
    refine ⟨fun h => .again hh h.1 h.2, fun h => ?_⟩
    cases h with
    | again _ hframes hbody => exact ⟨hframes, hbody⟩
    | length h | url h | body h => cases h.symm.trans hh
  | false =>
    cases hf : s.gotFirstLine with
    | false =>
      have hline := handshakeLine_first (W := P.host key) (stripReturn line) hf
      refine ⟨fun h => ?_, fun h => ?_⟩
      · rcases requestLine_cases (stripReturn line) s with ⟨hnone, hkept⟩ | hsilent
        · rw [handleLine_none hbus hh (hline.trans (Prod.ext rfl hnone)), hkept, hh] at h
          cases h.1
        · rw [handleLine_some hbus hh (hline ▸ hsilent)] at h
          cases h
      · cases h with
        | again h => cases h.symm.trans hh
        | length _ h | url _ h | body _ h => cases h.symm.trans hf
    | true =>
      by_cases hl : stripReturn line = []
      · rw [connect_dead hbus hh hf hl, hl]
      · have hline := handshakeLine_header (W := P.host key) hf hh hl
        rcases headerLine_cases (stripReturn line) s with ⟨hnone, hkept, hn⟩ |
          ⟨e, text, herror, hcaught, ht, hn⟩
        · rw [handleLine_none hbus hh (hline.trans (Prod.ext rfl hnone)), hkept, hh]
          refine ⟨fun h => (by cases h.1), fun h => ?_⟩
          cases h with
          | again h => cases h.symm.trans hh
          | url _ _ h | body _ _ h => exact absurd h hl
          | length _ _ ht he =>
            obtain ⟨n, h⟩ := hn _ ht
            exact absurd h (he n)
        · rw [handleLine_some hbus hh (hline ▸ herror)]
          exact ⟨fun _ => .length hh hf ht hn, fun _ => hcaught⟩

theorem recv_dead {bytes : Bytes} (h : s.recv bytes = some t) :
    t.Dead ↔ s.pc = .body bytes.length ∧ maxSize < s.contentLength := by
  unfold recv at h
  split at h
  · cases h
  cases hp : s.pc <;> simp only [hp, reduceCtorEq] at h
  case lineWait =>
    cases h
    exact ⟨fun ⟨e, he⟩ => (by cases he), fun h => (by cases h.1)⟩
  case body n =>
    split at h
    · cases h
    split at h <;> rename_i hn
    · cases h
      rw [takeBody_dead, hn]
      exact ⟨fun h => ⟨rfl, h⟩, fun h => h.2⟩
    · cases h
      refine ⟨fun ⟨e, he⟩ => (by cases he), fun h => ?_⟩
      exact absurd (FramePc.body.inj h.1).symm hn

theorem readEnds_alive {e : ReadEnd} (h : s.readEnds e = some t) : ¬ t.Dead := by
  rintro ⟨x, hx⟩
  unfold readEnds at h
  dsimp only at h
  split at h
  case h_4 => cases h
  case h_5 => cases h
  case h_6 => cases h
  all_goals
    cases e <;> dsimp only at h
    case eof =>
      split at h <;> cases h
      · cases hx
      · dsimp only at hx
        split at hx <;> cases hx
    case gone =>
      cases h
      cases hx
    case otherError =>
      cases h
      dsimp only at hx
      split at hx <;> cases hx
    case silent => split at h <;> cases h <;> cases hx

/-- A step kills the thread exactly if it is one of the fatal ones. -/
theorem step_dead {a : Act} (h : s.step (P.host key) a = some t) : t.Dead ↔ Fatal P s a := by
  unfold step at h
  cases hn : s.next? a with
  | some x =>
    simp only [hn, Option.some.injEq] at h
    rw [← h, handleLine_dead]
    refine ⟨fun h => .line hn h.1 h.2, fun h => ?_⟩
    cases h with
    | line hnext hbus hline =>
      obtain rfl := Option.some.inj (hn.symm.trans hnext)
      exact ⟨hbus, hline⟩
    | recv ha =>
      subst ha
      cases hn
  | none =>
    have hfatal : Fatal P s a →
        ∃ bytes, a = .recv bytes ∧ s.pc = .body bytes.length ∧ maxSize < s.contentLength := by
      intro hf
      cases hf with
      | line hnext => cases hn.symm.trans hnext
      | recv ha _ hpc hbody => exact ⟨_, ha, hpc, hbody⟩
    simp only [hn] at h
    cases a <;> dsimp only at h
    case step =>
      refine ⟨fun ⟨e, he⟩ => ?_, fun hf => by obtain ⟨_, h, -⟩ := hfatal hf; cases h⟩
      split at h <;> cases h
      cases he
    case recv bytes =>
      rw [recv_dead h]
      refine ⟨fun hb => ?_, fun hf => ?_⟩
      · refine .recv rfl ?_ hb.1 hb.2
        rintro rfl
        cases h
      · obtain ⟨_, h, hb⟩ := hfatal hf
        cases h
        exact hb
    case frame data => cases h
    case ends e =>
      exact ⟨fun h' => absurd h' (readEnds_alive h), fun hf => by obtain ⟨_, h, -⟩ := hfatal hf; cases h⟩

/-- While no step is fatal, no exception leaves the thread of a connection; and every fatal
step ends it with one, which kills the process. -/
theorem http_contained (P : WebPages) (key : Bytes → Bytes) :
    (∀ s, Reach (framingSystem (P.host key)) (fun s a => ¬ Fatal P s a) s → ¬ s.Dead) ∧
      ∀ s a t, s.step (P.host key) a = some t → (t.Dead ↔ Fatal P s a) := by
  refine ⟨fun s h => ?_, fun s a t => step_dead⟩
  refine h.invariant (fun s => ¬ s.Dead) ?_ fun _ _ _ _ _ hc ht => (step_dead ht).not.mpr hc
  rintro _ rfl ⟨e, he⟩
  cases he

/-- A server without commands and pages. -/
def barePages : WebPages := ⟨fun _ => false, [], [], [], id, [], id⟩

/-- Some run that receives this stream kills the server. -/
def Kills (stream : Bytes) : Prop :=
  ∃ s, Reach (framingSystem (barePages.host id)) anyStep s ∧ s.received = stream ∧ s.Dead

theorem kills_of_exec {stream : Bytes} {e : HttpError} (hx : (exec (framingSystem (barePages.host id)) opened
    [.step, .recv stream, .step, .step]).map (fun s => (s.received, s.pc)) = some (stream, .dead e)) :
    Kills stream := by
  obtain ⟨s, hs, h⟩ := Option.map_eq_some_iff.mp hx
  obtain ⟨hreceived, hpc⟩ := Prod.mk.inj h
  exact ⟨s, reach_of_exec _ rfl hs, hreceived, e, hpc⟩

/-- A `Content-Length` that is no number, one that is too long, and an empty URL. -/
theorem http_contained_fails : Kills (ascii "GET /x\ncontent-length: x\n") ∧
    Kills (ascii "GET /x\nContent-Length: 99999999999\n") ∧ Kills (ascii "GET  HTTP/1.1\n\n") := by
  refine ⟨kills_of_exec (e := .invalidArgument) ?_, kills_of_exec (e := .outOfRange) ?_,
    kills_of_exec (e := .outOfRange) ?_⟩ <;> decide +kernel

end HttpSocket

end CogServer
