import CogServer.ServerSocket

/-! What the steps of a socket can be. -/
namespace CogServer.ServerSocket

open Transition

variable {θ α : Type*} {respond : α → Bytes → McpResponse × α} {now : ℕ} {s t : ServerSocket θ α}

/-- Nothing is written, no write begins, and nothing is made that is to be written. -/
structure Unsent (s t : ServerSocket θ α) : Prop where
  send : t.send = s.send
  kind : t.kind = s.kind
  eval : t.eval = s.eval
  plain : t.plain = s.plain
  framed : t.framed = s.framed
  upgraded : t.upgraded = s.upgraded
  isOpen : t.isOpen = s.isOpen
  responses : t.responses = s.responses

theorem Unsent.leave (now : ℕ) (s : ServerSocket θ α) : Unsent s (s.leave now) :=
  ⟨rfl, rfl, rfl, rfl, rfl, rfl, rfl, rfl⟩

theorem Unsent.handle (l : Bytes) (s : ServerSocket θ α) : Unsent s (s.handle l) := by
  unfold ServerSocket.handle
  split <;> exact ⟨rfl, rfl, rfl, rfl, rfl, rfl, rfl, rfl⟩

theorem onInput_unsent {l : Bytes} (h : s.onInput now l = some t) : Unsent s t := by
  unfold onInput at h
  split at h
  · split at h
    · cases h
      exact .leave now s
    · cases h
      obtain ⟨h1, h2, h3, h4, h5, h6, h7, h8⟩ :=
        Unsent.handle l { s with lastActivity := now, status := .quing }
      exact ⟨h1, h2, h3, h4, h5, h6, h7, h8⟩
  · cases h
    exact .handle l s
  · cases h

theorem sendable_of_http {r : Bytes} (h : ascii "HTTP/1.1 " <+: r) : sendable r = true := by
  obtain ⟨r, rfl⟩ := h
  simp only [sendable, Bool.and_eq_true, decide_eq_true_eq]
  constructor
  · intro h
    exact absurd (List.append_eq_nil_iff.mp h).1 (by decide)
  · intro h
    have hlen := congrArg List.length h
    rw [List.length_append, List.length_singleton] at hlen
    have : (ascii "HTTP/1.1 ").length = 9 := by decide
    omega

variable [DecidableEq θ]

@[simp] theorem setSend_send (x : Sender θ) (p : Option SendPc) (s : ServerSocket θ α) :
    (s.setSend x p).send = Function.update s.send x p := rfl

/-- A call of `Send` begins with the look at `_do_frame_io`, or is over at once. -/
theorem call_cases {x : Sender θ} {cmd : Bytes} (h : s.call x cmd = some t) : cmd.length ≤ maxSize ∧
    (sendable cmd = true ∧ t = s.setSend x (some (.flag cmd)) ∨ sendable cmd = false ∧ t = s) := by
  unfold call at h
  split_ifs at h with hlen hs
  · cases h
    exact ⟨by omega, .inl ⟨hs, rfl⟩⟩
  · cases h
    exact ⟨by omega, .inr ⟨by simpa using hs, rfl⟩⟩

/-- What the reader thread does outside of its calls of `Send`. -/
inductive ReaderMove (respond : α → Bytes → McpResponse × α) (s : ServerSocket θ α) :
    Act θ α → ServerSocket θ α → Prop
  | quiet {a : Act θ α} {t : ServerSocket θ α} (h : Unsent s t) : ReaderMove respond s a t
  /-- The next answer to an HTTP request. -/
  | answer {a : Act θ α} {t : ServerSocket θ α} {r : Bytes} {next : ReaderPc}
      (hpc : s.reader = .handshake ∨ s.reader = .request) (hr : ascii "HTTP/1.1 " <+: r)
      (h : { s with reader := next, responses := s.responses ++ [r] }.call .reader r = some t) :
      ReaderMove respond s a t
  | object {t : ServerSocket θ α} {o : Bytes} {todo : List Bytes} (hpc : s.reader = .objects (o :: todo))
      (h : { (evalObject respond o s).2 with reader := .objects todo }.call .reader
        (evalObject respond o s).1 = some t) : ReaderMove respond s .step t
  | say {t : ServerSocket θ α} {cmd : Bytes} (hpc : s.reader = .onLine ∨ s.reader = .request)
      (h : s.call .reader cmd = some t) : ReaderMove respond s (.say cmd) t
  | ping {d : Bytes} (hframe : s.doFrameIo = true) :
      ReaderMove respond s (.ping d) (s.setSend .reader (some (.pongHeader d)))

theorem withHeader_http (msg contentType : Bytes) :
    ascii "HTTP/1.1 " <+: withHeader msg contentType := by
  refine ⟨ascii "200 OK\r\nServer: CogServer\r\nContent-Type: " ++ List.flatten [contentType,
    ascii "\r\nContent-Length: ", ascii (toString msg.length), ascii "\r\n\r\n", msg], ?_⟩
  unfold withHeader
  rw [List.flatten_cons, ← List.append_assoc]
  congr 1

theorem switchingProtocols_http (key : Bytes) : ascii "HTTP/1.1 " <+: switchingProtocols key := by
  refine ⟨ascii "101 Switching Protocols\r\nUpgrade: websocket\r\nConnection: Upgrade\r\n" ++ List.flatten [
    ascii "Sec-WebSocket-Accept: ", key, ascii "\r\n\r\n"], ?_⟩
  unfold switchingProtocols
  rw [List.flatten_cons, ← List.append_assoc]
  congr 1

theorem readerStep_move (h : s.readerStep respond now = some t) : ReaderMove respond s .step t := by
  cases hpc : s.reader with
  | objects todo =>
    cases todo with
    | nil =>
      simp only [readerStep, hpc, Option.some.injEq] at h
      exact .quiet (h ▸ ⟨rfl, rfl, rfl, rfl, rfl, rfl, rfl, rfl⟩)
    | cons o todo =>
      simp only [readerStep, hpc] at h
      exact .object hpc h
  | silent =>
    simp only [readerStep, hpc, Option.some.injEq] at h
    exact .quiet (h ▸ .leave now s)
  | read | handshake | request | closed => simp [readerStep, hpc] at h
  | enter | top | switching | onLine | draining =>
    simp only [readerStep, hpc, Option.some.injEq] at h
    exact .quiet (h ▸ ⟨rfl, rfl, rfl, rfl, rfl, rfl, rfl, rfl⟩)

theorem http_move {a : Act θ α} (h : s.http a = some t) : ReaderMove respond s a t := by
  cases a <;> simp only [http, reduceCtorEq] at h
  case header | body =>
    split_ifs at h
    cases h
    exact .quiet ⟨rfl, rfl, rfl, rfl, rfl, rfl, rfl, rfl⟩
  case page r =>
    split_ifs at h with hp
    exact .answer (.inl hp.1) hp.2 h
  case upgrade key =>
    split_ifs at h with hp
    exact .answer (.inl hp) (switchingProtocols_http key) h
  case respond result contentType =>
    split_ifs at h with hp hr
    · cases h
      exact .quiet ⟨rfl, rfl, rfl, rfl, rfl, rfl, rfl, rfl⟩
    · exact .answer (.inr hp) (withHeader_http result contentType) h

theorem readerAct_move {a : Act θ α} (h : s.readerAct respond now a = some t) :
    ReaderMove respond s a t := by
  cases a <;> simp only [readerAct] at h
  case step => exact readerStep_move h
  case line l => exact .quiet (onInput_unsent h)
  case ping data =>
    split_ifs at h with hp
    cases h
    exact .ping hp.2.1
  case fail ends =>
    split_ifs at h
    · cases h
      exact .quiet (.leave now s)
    · cases h
      exact .quiet ⟨rfl, rfl, rfl, rfl, rfl, rfl, rfl, rfl⟩
  case say cmd =>
    split_ifs at h with hp
    exact .say hp h
  case attach =>
    split_ifs at h
    cases h
    exact .quiet ⟨rfl, rfl, rfl, rfl, rfl, rfl, rfl, rfl⟩
  all_goals exact http_move h

/-- What a step of a socket can be. -/
inductive Move (respond : α → Bytes → McpResponse × α) (now : ℕ) (s : ServerSocket θ α) :
    Act θ α → ServerSocket θ α → Prop
  | send {x : Sender θ} {p : SendPc} (h : s.send x = some p) : Move respond now s (.send x) (s.sendStep x p)
  | write {x : θ} {cmd : Bytes} {t : ServerSocket θ α} (hs : s.shared = true) (hx : s.send (.shell x) = none)
      (h : s.call (.shell x) cmd = some t) : Move respond now s (.write x cmd) t
  | test {t : ServerSocket θ α} (hx : s.send .halfPing = none)
      (h : s.pingable now = true ∧ t = s.setSend .halfPing (some .probe) ∨ s.pingable now = false ∧ t = s) :
      Move respond now s .test t
  | bar : Move respond now s .bar { s with status := .bar }
  | world {w : α} : Move respond now s (.world w) { s with eval := { s.eval with world := w } }
  | exit : Move respond now s .exit { s with isOpen := false, status := .down }
  | reader {a : Act θ α} {t : ServerSocket θ α} (hx : s.send .reader = none)
      (h : s.readerAct respond now a = some t) : Move respond now s a t

theorem step_move {a : Act θ α} (h : s.step respond now a = some t) : Move respond now s a t := by
  cases a <;> simp only [step] at h
  case send x =>
    obtain ⟨p, hp, rfl⟩ := Option.map_eq_some_iff.mp h
    exact .send hp
  case write x cmd =>
    split_ifs at h with hs
    exact .write hs.1 hs.2 h
  case test =>
    split_ifs at h with hx hp
    · cases h
      exact .test hx (.inl ⟨hp, rfl⟩)
    · cases h
      exact .test hx (.inr ⟨by simpa using hp, rfl⟩)
  case bar =>
    split_ifs at h
    cases h
    exact .bar
  case world w =>
    cases h
    exact .world
  case exit =>
    cases h
    exact .exit
  all_goals
    split_ifs at h with hx
    exact .reader hx h

/-- The reader thread leaves the others' writes alone. -/
theorem ReaderMove.send_ne {a : Act θ α} (h : ReaderMove respond s a t) {x : Sender θ}
    (hx : x ≠ .reader) : t.send x = s.send x := by
  have hcall {u : ServerSocket θ α} {cmd : Bytes} (hc : u.call .reader cmd = some t) (hu : u.send = s.send) :
      t.send x = s.send x := by
    obtain ⟨-, ⟨-, rfl⟩ | ⟨-, rfl⟩⟩ := call_cases hc
    · simp [hx, hu]
    · rw [hu]
  cases h with
  | quiet h => rw [h.send]
  | answer _ _ h | object _ h | say _ h => exact hcall h rfl
  | ping => simp [hx]

/-- Where a write of the reader thread begins. -/
theorem ReaderMove.send_reader {a : Act θ α} (h : ReaderMove respond s a t)
    (hx : s.send .reader = none) {p : SendPc} (hp : t.send .reader = some p) :
    (∃ cmd, p = .flag cmd ∧ cmd.length ≤ maxSize) ∨ ∃ d, p = .pongHeader d ∧ a = .ping d ∧
    s.doFrameIo = true := by
  have hcall {u : ServerSocket θ α} {cmd : Bytes} (hc : u.call .reader cmd = some t) (hu : u.send .reader = none) :
      ∃ cmd, p = .flag cmd ∧ cmd.length ≤ maxSize := by
    obtain ⟨hlen, ⟨-, rfl⟩ | ⟨-, rfl⟩⟩ := call_cases hc
    · rw [setSend_send, Function.update_self] at hp
      exact ⟨cmd, (Option.some.inj hp).symm, hlen⟩
    · rw [hu] at hp
      cases hp
  cases h with
  | quiet h =>
    rw [h.send, hx] at hp
    cases hp
  | answer _ _ h | object _ h | say _ h => exact .inl (hcall h hx)
  | @ping d hframe =>
    rw [setSend_send, Function.update_self] at hp
    exact .inr ⟨d, (Option.some.inj hp).symm, rfl, hframe⟩

end CogServer.ServerSocket
