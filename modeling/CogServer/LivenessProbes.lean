import CogServer.FrameWriters

/-! What is sent on plain HTTP connections and on MCP connections: the answers, and the bare
character with which `half_ping` tests whether a connection is still alive. -/
namespace CogServer

open Transition

namespace ServerSocket

variable {θ α : Type*} {respond : α → Bytes → McpResponse × α} {now : ℕ} {s t : ServerSocket θ α}

/-- What the connection was to be answered: responses to HTTP requests, or the replies of the
evaluator of an MCP connection. -/
def answers (s : ServerSocket θ α) : List Bytes := if s.kind = .mcp then s.eval.made else s.responses

/-- The answer that the reader thread is about to write. -/
def inFlight (s : ServerSocket θ α) : Bytes :=
  if s.upgraded then []
  else match s.send .reader with
    | some (.flag cmd) | some (.raw cmd) => cmd
    | _ => []

/-- What was written, up to the handshake of a websocket, are the answers, but for one that is in
flight; a closed socket may miss more of them. -/
def Clean (s : ServerSocket θ α) : Prop :=
  ∃ rest, s.plain ++ rest = s.answers.flatten ∧ (s.isOpen = true → rest = s.inFlight)

/-- `half_ping` does not find a plain HTTP connection or an MCP connection that is idle. No HTTP
request names a command that is not a shell, and that would write to the connection itself. -/
def unprobed (now : ℕ) (s : ServerSocket θ α) : Act θ α → Prop
  | .test => s.pingable now = true → s.isOpen = true → s.kind = .console ∨ s.doFrameIo = true
  | .say cmd => s.reader = .request → sendable cmd = false
  | .step | .line _ | .ping _ | .fail _ | .header | .page _ | .body | .upgrade _ | .respond .. | .attach | .write ..
  | .send _ | .bar | .world _ | .exit => True

instance (now : ℕ) (s : ServerSocket θ α) (a : Act θ α) : Decidable (unprobed now s a) :=
  match a with
  | .test => inferInstanceAs (Decidable (_ → _ → _ ∨ _))
  | .say cmd => inferInstanceAs (Decidable (s.reader = .request → sendable cmd = false))
  | .step | .line _ | .ping _ | .fail _ | .header | .page _ | .body | .upgrade _ | .respond .. | .attach | .write ..
  | .send _ | .bar | .world _ | .exit => isTrue trivial

/-- What every step keeps. -/
structure Answered (s : ServerSocket θ α) : Prop where
  control : Control s
  halfPing : s.isOpen = true → s.kind ≠ .console → s.doFrameIo = false → s.send .halfPing = none
  clean : s.kind ≠ .console → s.Clean
  http : ∀ r ∈ s.responses, ascii "HTTP/1.1 " <+: r
  json : ∀ r ∈ s.eval.made, ∃ j : JsonText, r = j.text ++ [newline]

theorem answered_made (kind : SocketKind) (w : α) (now : ℕ) :
    Answered (made kind w now : ServerSocket θ α) where
  control := control_made kind w now
  halfPing _ _ _ := rfl
  clean _ := by
    refine ⟨[], ?_, fun _ => rfl⟩
    cases kind <;> rfl
  http := nofun
  json := nofun

/-- The reply to an object, and the evaluator's account of it. -/
theorem evalObject_made (respond : α → Bytes → McpResponse × α) (o : Bytes) (s : ServerSocket θ α) :
    ((evalObject respond o s).1 = [] ∧ (evalObject respond o s).2.eval.made = s.eval.made) ∨
      ∃ j : JsonText, (evalObject respond o s).1 = j.text ++ [newline] ∧
        (evalObject respond o s).2.eval.made = s.eval.made ++ [j.text ++ [newline]] := by
  have hskip : ({ s.eval with done := false } : McpEval α).pollResult = ([], { s.eval with done := false }) := rfl
  unfold evalObject McpEval.evalExpr
  split
  · exact .inl ⟨by rw [hskip], by rw [hskip]⟩
  split
  · exact .inl ⟨by rw [hskip], by rw [hskip]⟩
  rcases respond s.eval.world o with ⟨_ | _ | j, w⟩
  · exact .inl ⟨rfl, rfl⟩
  · exact .inl ⟨rfl, rfl⟩
  · exact .inr ⟨j, rfl, rfl⟩

theorem sendable_json (j : JsonText) : sendable (j.text ++ [newline]) = true := by
  have hpos := List.length_pos_iff.mpr j.nonempty
  simp only [sendable, Bool.and_eq_true, decide_eq_true_eq]
  constructor
  · intro h
    simp at h
  · intro h
    have hlen := congrArg List.length h
    rw [List.length_append, List.length_singleton] at hlen
    omega

/-- A step that sends nothing of its own. -/
theorem Answered.still (hs : Answered s) (hc : Control t) (hkind : t.kind = s.kind)
    (hplain : t.plain = s.plain) (hanswers : t.answers = s.answers)
    (hopen : t.isOpen = true → s.isOpen = true)
    (hflight : t.isOpen = true → s.kind ≠ .console → t.inFlight = s.inFlight)
    (hping : t.isOpen = true → t.kind ≠ .console → t.doFrameIo = false → t.send .halfPing = none)
    (hhttp : t.responses = s.responses) (hmade : t.eval.made = s.eval.made) : Answered t := by
  refine ⟨hc, hping, fun hk => ?_, hhttp ▸ hs.http, hmade ▸ hs.json⟩
  obtain ⟨rest, hrest, hfl⟩ := hs.clean (hkind ▸ hk)
  refine ⟨rest, ?_, fun ht => ?_⟩
  · rw [hplain, hanswers, hrest]
  · rw [hflight ht (hkind ▸ hk)]
    exact hfl (hopen ht)

/-- On a plain connection only the reader thread writes, and it writes strings. -/
theorem Answered.writer (hs : Answered s) (hopen : s.isOpen = true) (hk : s.kind ≠ .console)
    (hup : s.upgraded = false) {x : Sender θ} {p : SendPc} (hx : s.send x = some p) :
    x = .reader ∧ ∃ cmd, p = .flag cmd ∨ p = .raw cmd := by
  have hframe : s.doFrameIo = false := by
    by_contra h
    rw [(hs.control.frame (by simpa using h)).1] at hup
    cases hup
  have hreader : x = .reader := by
    cases x with
    | reader => rfl
    | halfPing =>
      rw [hs.halfPing hopen hk hframe] at hx
      cases hx
    | shell x =>
      rcases hs.control.shell x (by simp [hx]) with h | h
      · exact absurd h hk
      · rw [hframe] at h
        cases h
  refine ⟨hreader, ?_⟩
  have hframing (hp : p.framing = true) : False := by
    rw [hs.control.framing x p hx hp] at hframe
    cases hframe
  cases p with
  | flag cmd => exact ⟨cmd, .inl rfl⟩
  | raw cmd => exact ⟨cmd, .inr rfl⟩
  | header _ | payload _ | pongHeader _ => exact (hframing rfl).elim
  | probe =>
    rw [hs.control.probe x hx] at hreader
    cases hreader

/-- A websocket has no answer in flight. -/
theorem inFlight_of_upgraded (h : s.upgraded = true) : s.inFlight = [] := by simp [inFlight, h]

variable [DecidableEq θ]

theorem sendStep_plain (s : ServerSocket θ α) (x : Sender θ) (p : SendPc) :
    (s.sendStep x p).plain =
      if s.isOpen = true ∧ s.upgraded = false then s.plain ++ (sendNext s.doFrameIo p).1 else s.plain := by
  have hput : (s.put (sendNext s.doFrameIo p).1).plain =
      if s.isOpen = true ∧ s.upgraded = false then s.plain ++ (sendNext s.doFrameIo p).1 else s.plain := by
    unfold put
    split_ifs <;> simp_all
  unfold sendStep
  dsimp only
  split_ifs at hput ⊢ <;> exact hput

/-- A step of a write moves an answer from the thread to the socket. -/
theorem Answered.clean_send (hs : Answered s) {x : Sender θ} {p : SendPc} (hx : s.send x = some p)
    (hk : s.kind ≠ .console) : (s.sendStep x p).Clean := by
  obtain ⟨-, hkind, -, -, hopen, heval, hresponses, hsend⟩ := s.sendStep_same x p
  have hanswers : (s.sendStep x p).answers = s.answers := by
    unfold answers
    rw [hkind, heval, hresponses]
  obtain ⟨rest, hrest, hflight⟩ := hs.clean hk
  have hplain := sendStep_plain s x p
  have hupgraded := sendStep_upgraded s x p
  cases ho : s.isOpen
  · -- nothing is written
    rw [if_neg (by simp [ho])] at hplain
    refine ⟨rest, by rw [hplain, hanswers, hrest], fun h => ?_⟩
    rw [hopen, ho] at h
    cases h
  cases hup : s.upgraded
  · rw [if_pos ⟨ho, hup⟩] at hplain
    obtain ⟨rfl, cmd, rfl | rfl⟩ := hs.writer ho hk hup hx
    · -- the flag is read
      have hfalse : s.doFrameIo = false := by
        by_contra h
        rw [(hs.control.frame (by simpa using h)).1] at hup
        cases hup
      have hcmd : s.inFlight = cmd := by simp [inFlight, hup, hx]
      refine ⟨rest, ?_, fun _ => ?_⟩
      · rw [hplain, hanswers, ← hrest]
        simp [sendNext]
      · rw [hflight ho, hcmd]
        simp [inFlight, hupgraded, hup, hsend, sendNext, hfalse]
    · -- the answer is written
      have hcmd : s.inFlight = cmd := by simp [inFlight, hup, hx]
      refine ⟨[], ?_, fun _ => ?_⟩
      · rw [hplain, hanswers, ← hrest, hflight ho, hcmd, List.append_nil]
        rfl
      · simp [inFlight, hsend, sendNext]
  · -- what is written are frames
    rw [if_neg (by simp [hup])] at hplain
    refine ⟨rest, by rw [hplain, hanswers, hrest], fun _ => ?_⟩
    rw [hflight ho]
    simp [inFlight, hupgraded, hup]

/-- An answer that is made is in flight. -/
theorem Answered.clean_call (hs : Answered s) {u : ServerSocket θ α} {cmd : Bytes}
    (hx : s.send .reader = none) (hk : s.kind ≠ .console) (hup : s.upgraded = false)
    (h : u.call .reader cmd = some t) (hsend : u.send = s.send) (hplain : u.plain = s.plain)
    (hupgraded : u.upgraded = s.upgraded) (hopen : u.isOpen = s.isOpen)
    (hanswers : u.answers.flatten = s.answers.flatten ++ cmd)
    (hcmd : sendable cmd = true ∨ cmd = []) : t.Clean := by
  obtain ⟨rest, hrest, hflight⟩ := hs.clean hk
  have hnone : s.inFlight = [] := by simp [inFlight, hx]
  obtain ⟨-, ⟨-, rfl⟩ | ⟨hn, rfl⟩⟩ := call_cases h
  · refine ⟨rest ++ cmd, ?_, fun ho => ?_⟩
    · change u.plain ++ (rest ++ cmd) = u.answers.flatten
      rw [hplain, hanswers, ← hrest, List.append_assoc]
    · have hs' : s.isOpen = true := hopen ▸ ho
      rw [hflight hs', hnone]
      simp [inFlight, setSend, hupgraded, hup]
  · obtain rfl : cmd = [] := hcmd.resolve_left (by simp [hn])
    rw [List.append_nil] at hanswers
    refine ⟨rest, by rw [hplain, hanswers, hrest], fun ho => ?_⟩
    rw [hflight (hopen ▸ ho), hnone]
    simp [inFlight, hsend, hx]

theorem answered_send (hs : Answered s) {x : Sender θ} {p : SendPc} (hx : s.send x = some p) :
    Answered (s.sendStep x p) := by
  obtain ⟨-, hkind, hframe, -, hopen, heval, hresponses, hsend⟩ := s.sendStep_same x p
  refine ⟨hs.control.sendStep hx, fun ho hk hf => ?_, fun hk => hs.clean_send hx (hkind ▸ hk), ?_, ?_⟩
  · have hnone := hs.halfPing (hopen ▸ ho) (hkind ▸ hk) (hframe ▸ hf)
    have hne : Sender.halfPing ≠ x := by
      rintro rfl
      rw [hnone] at hx
      cases hx
    rw [hsend, Function.update_of_ne hne]
    exact hnone
  · rw [hresponses]
    exact hs.http
  · rw [heval]
    exact hs.json

/-- A string that the reader thread of a websocket sends, or that of a console, is none of the
answers. -/
theorem Answered.say (hs : Answered s) {cmd : Bytes} (ht : Control t)
    (hpc : s.kind = .console ∨ s.doFrameIo = true) (h : s.call .reader cmd = some t) :
    Answered t := by
  have hping {u : ServerSocket θ α} (hu : u.send .halfPing = s.send .halfPing) (ho : s.isOpen = true)
      (hk : s.kind ≠ .console) (hf : s.doFrameIo = false) : u.send .halfPing = none :=
    hu.trans (hs.halfPing ho hk hf)
  obtain ⟨-, ⟨-, rfl⟩ | ⟨-, rfl⟩⟩ := call_cases h
  · refine hs.still ht rfl rfl rfl id (fun _ hk => ?_) (hping (by simp)) rfl rfl
    have hup := (hs.control.frame (hpc.resolve_left hk)).1
    rw [inFlight_of_upgraded hup, inFlight_of_upgraded]
    exact hup
  · exact hs

/-- The reader thread makes an answer and begins to send it. -/
theorem Answered.answer (hs : Answered s) {r : Bytes} {n : ReaderPc} (ht : Control t) (hx : s.send .reader = none)
    (hpc : s.reader = .handshake ∨ s.reader = .request) (hr : ascii "HTTP/1.1 " <+: r)
    (h : { s with reader := n, responses := s.responses ++ [r] }.call .reader r = some t) : Answered t := by
  have hplace : s.kind = .web ∧ s.doFrameIo = false := by
    have hok := hs.control.pc
    rcases hpc with hpc | hpc <;> rwa [pcOk, hpc] at hok
  have hup : s.upgraded = false := by
    by_contra hu
    rcases (hs.control.upgraded (by simpa using hu)).2 with hf | ⟨hsw, -⟩
    · rw [hplace.2] at hf
      cases hf
    · rcases hpc with hpc | hpc <;> rw [hpc] at hsw <;> cases hsw
  have hk : s.kind ≠ .console := by simp [hplace.1]
  have hclean : t.Clean := hs.clean_call hx hk hup h rfl rfl rfl rfl (by simp [answers, hplace.1])
    (.inl (sendable_of_http hr))
  have hsame : t.responses = s.responses ++ [r] ∧ t.eval = s.eval ∧ t.send .halfPing = s.send .halfPing ∧
      t.isOpen = s.isOpen := by
    obtain ⟨-, ⟨-, rfl⟩ | ⟨-, rfl⟩⟩ := call_cases h
    · exact ⟨rfl, rfl, by simp, rfl⟩
    · exact ⟨rfl, rfl, rfl, rfl⟩
  obtain ⟨hresponses, heval, hping, hopen⟩ := hsame
  refine ⟨ht, fun ho _ _ => hping.trans (hs.halfPing (hopen ▸ ho) hk hplace.2), fun _ => hclean, ?_, heval ▸ hs.json⟩
  rw [hresponses]
  intro r' hr'
  rcases List.mem_append.mp hr' with hr' | hr'
  · exact hs.http r' hr'
  · rwa [List.mem_singleton.mp hr']

/-- `MCPServer::OnLine` evaluates an object and begins to send the reply. -/
theorem Answered.object (hs : Answered s) {o : Bytes} {todo : List Bytes} (ht : Control t)
    (hx : s.send .reader = none) (hpc : s.reader = .objects (o :: todo))
    (h : { (evalObject respond o s).2 with reader := .objects todo }.call .reader
      (evalObject respond o s).1 = some t) : Answered t := by
  have hmcp : s.kind = .mcp := by
    have hok := hs.control.pc
    rwa [pcOk, hpc] at hok
  have hframe : s.doFrameIo = false := by
    by_contra hf
    rw [(hs.control.frame (by simpa using hf)).2] at hmcp
    cases hmcp
  have hup : s.upgraded = false := by
    by_contra hu
    rw [(hs.control.upgraded (by simpa using hu)).1] at hmcp
    cases hmcp
  have hk : s.kind ≠ .console := by simp [hmcp]
  have hsame : t.responses = s.responses ∧ t.eval = (evalObject respond o s).2.eval ∧
      t.send .halfPing = s.send .halfPing ∧ t.isOpen = s.isOpen := by
    obtain ⟨-, ⟨-, rfl⟩ | ⟨-, rfl⟩⟩ := call_cases h
    · exact ⟨rfl, rfl, by simp [evalObject], rfl⟩
    · exact ⟨rfl, rfl, rfl, rfl⟩
  obtain ⟨hresponses, heval, hping, hopen⟩ := hsame
  have hanswers (u : ServerSocket θ α) (hu : u.kind = .mcp) : u.answers = u.eval.made := by simp [answers, hu]
  refine ⟨ht, fun ho _ _ => hping.trans (hs.halfPing (hopen ▸ ho) hk hframe), fun _ => ?_, hresponses ▸ hs.http, ?_⟩
  · refine hs.clean_call hx hk hup h rfl rfl rfl rfl ?_ ?_
    · have hmade : ({ (evalObject respond o s).2 with reader := .objects todo } : ServerSocket θ α).answers =
          (evalObject respond o s).2.eval.made := hanswers _ hmcp
      rw [hmade, hanswers s hmcp]
      rcases evalObject_made respond o s with ⟨h1, h2⟩ | ⟨j, h1, h2⟩ <;> simp [h1, h2]
    · rcases evalObject_made respond o s with ⟨h1, -⟩ | ⟨j, h1, -⟩
      · exact .inr h1
      · rw [h1]
        exact .inl (sendable_json j)
  · rw [heval]
    rcases evalObject_made respond o s with ⟨-, h2⟩ | ⟨j, -, h2⟩
    · rw [h2]
      exact hs.json
    · rw [h2]
      intro r hr
      rcases List.mem_append.mp hr with hr | hr
      · exact hs.json r hr
      · exact ⟨j, List.mem_singleton.mp hr⟩

/-- Every step that is not a probe keeps the answers together. -/
theorem answered_step {a : Act θ α} (hs : Answered s) (hc : unprobed now s a)
    (h : s.step respond now a = some t) : Answered t := by
  have ht := control_step hs.control h
  cases step_move h with
  | send hx => exact answered_send hs hx
  | @write x cmd t hshared _ h =>
    obtain ⟨-, ⟨-, rfl⟩ | ⟨-, rfl⟩⟩ := call_cases h
    · refine hs.still ht rfl rfl rfl id (fun _ _ => ?_) (fun ho hk hf => ?_) rfl rfl
      · simp [inFlight, setSend]
      · simpa [setSend] using hs.halfPing ho hk hf
    · exact hs
  | test _ h =>
    obtain ⟨hp, rfl⟩ | ⟨-, rfl⟩ := h
    · refine hs.still ht rfl rfl rfl id (fun _ _ => ?_) (fun ho hk hf => ?_) rfl rfl
      · simp [inFlight, setSend]
      · rcases hc hp ho with h | h
        · exact absurd h hk
        · exact absurd (h.symm.trans hf) (by simp)
    · exact hs
  | bar => exact hs.still ht rfl rfl rfl id (fun _ _ => rfl) hs.halfPing rfl rfl
  | world =>
    refine hs.still ht rfl rfl ?_ id (fun _ _ => rfl) hs.halfPing rfl rfl
    unfold answers
    rfl
  | exit => exact hs.still ht rfl rfl rfl (by simp) (by simp) (by simp) rfl rfl
  | reader hx h =>
    cases readerAct_move h with
    | quiet hq =>
      have hflag := (readerAct_control hs.control.pc hs.control.left h).frame
      refine hs.still ht hq.kind hq.plain ?_ (fun ho => hq.isOpen ▸ ho) (fun _ _ => ?_) (fun ho hk hf => ?_)
        hq.responses (by rw [hq.eval])
      · rw [answers, hq.kind, hq.eval, hq.responses, answers]
      · rw [inFlight, hq.upgraded, hq.send, inFlight]
      · rw [hq.send]
        rcases hflag with ⟨-, h⟩ | ⟨-, h⟩
        · exact hs.halfPing (hq.isOpen ▸ ho) (hq.kind ▸ hk) (h ▸ hf)
        · exact absurd (h.symm.trans hf) (by simp)
    | answer hpc hr h => exact hs.answer ht hx hpc hr h
    | object hpc h => exact hs.object ht hx hpc h
    | say hpc h =>
      rcases hpc with hpc | hpc
      · have hok := hs.control.pc
        rw [pcOk, hpc] at hok
        exact hs.say ht hok h
      · obtain ⟨-, ⟨hsend, rfl⟩ | ⟨-, rfl⟩⟩ := call_cases h
        · rw [hc hpc] at hsend
          cases hsend
        · exact hs
    | ping hframe =>
      refine hs.still ht rfl rfl rfl id (fun _ _ => ?_) (fun ho hk hf => ?_) rfl rfl
      · have hup := (hs.control.frame hframe).1
        rw [inFlight_of_upgraded hup, inFlight_of_upgraded]
        exact hup
      · exact absurd (hframe.symm.trans hf) (by simp)

end ServerSocket

namespace SocketTable

/-- What is sent on HTTP and MCP connections are the answers, where `half_ping` finds none of them
idle, and no HTTP request names a command that writes to the connection itself. -/
theorem answers_sent {ι θ α : Type*} [DecidableEq ι] [DecidableEq θ] [Fintype θ]
    {respond : α → Bytes → McpResponse × α} {maxOpen : ℕ} {w : SocketTable ι θ α}
    (h : Reach (tableSystem respond maxOpen) (eachSocket ServerSocket.unprobed) w) (i : ι)
    (hk : (w.sock i).kind ≠ .console) : (w.sock i).Clean ∧
      ((w.sock i).kind = .web → ∀ r ∈ (w.sock i).answers, ascii "HTTP/1.1 " <+: r) ∧
      ((w.sock i).kind = .mcp → ∀ r ∈ (w.sock i).answers, ∃ j : JsonText, r = j.text ++ [newline]) := by
  have ha : (w.sock i).Answered := sock_invariant ServerSocket.Answered ServerSocket.answered_made
    (fun _ _ _ _ hs hc ht => ServerSocket.answered_step hs hc ht) h i
  refine ⟨ha.clean hk, fun hweb => ?_, fun hmcp => ?_⟩
  · have hanswers : (w.sock i).answers = (w.sock i).responses := by simp [ServerSocket.answers, hweb]
    exact hanswers ▸ ha.http
  · have hanswers : (w.sock i).answers = (w.sock i).eval.made := by simp [ServerSocket.answers, hmcp]
    exact hanswers ▸ ha.json

/-- Two slots for sockets. -/
def twoSlots : SocketTable Bool Unit Unit :=
  ⟨fun _ => .made .console () 0, fun _ => .absent, [], none, false, 0, 0⟩

/-- Every object is answered with an empty one. -/
def emptyAnswer (_ : Unit) (_ : Bytes) : McpResponse × Unit := (.reply .emptyObject, ())

theorem twoSlots_init : (tableSystem emptyAnswer 2).init twoSlots :=
  ⟨fun _ => ⟨.console, (), 0, rfl⟩, rfl, rfl, rfl, rfl, rfl⟩

/-- A line with an object on an MCP connection. -/
def mcpLine : List (TableAct Bool Unit Unit) :=
  [.line (ascii "\x7b\x7d"), .step, .send .reader, .send .reader, .step, .step].map (.sock false)

/-- A new connection, up to its first read. -/
def connection (kind : SocketKind) : List (TableAct Bool Unit Unit) :=
  [.construct false kind (), .addSock false, .sock false .step, .sock false .step]

/-- A request on an HTTP connection, up to its `OnLine`. -/
def httpRequest : List (TableAct Bool Unit Unit) :=
  [.line (ascii "GET /json HTTP/1.1"), .header, .step, .line [], .body].map (.sock false)

def httpResponse : List (TableAct Bool Unit Unit) :=
  [.respond (ascii "1") (ascii "text/plain"), .send .reader, .send .reader, .step].map (.sock false)

theorem answers_sent_two : ∃ w : SocketTable Bool Unit Unit,
    (w.sock false).plain = ascii "\x7b\x7d\n\x7b\x7d\n" ∧ (w.sock false).Clean := by
  have hx : (exec (tableSystem emptyAnswer 2) twoSlots (List.flatten [connection .mcp, mcpLine,
      List.replicate 10 .tick, [.halfPing none, .visit, .visit, .visit], mcpLine])).map
        (fun w => ((w.sock false).kind, (w.sock false).plain)) =
      some (.mcp, ascii "\x7b\x7d\n\x7b\x7d\n") := by decide +kernel
  obtain ⟨w, hw, h⟩ := Option.map_eq_some_iff.mp hx
  simp only [Prod.mk.injEq] at h
  obtain ⟨hkind, hplain⟩ := h
  have hr : Reach (tableSystem emptyAnswer 2) (eachSocket ServerSocket.unprobed) w :=
    Reach.of_exec (fun w a => decide (eachSocket ServerSocket.unprobed w a)) (fun _ _ h => of_decide_eq_true h)
      (.init twoSlots_init) (by decide +kernel) hw
  exact ⟨w, hplain, (answers_sent hr false (by simp [hkind])).1⟩

/-- A connection gets these bytes, which are not its answers. -/
def Corrupts (kind : SocketKind) (sent : Bytes) : Prop :=
  ∃ w : SocketTable Bool Unit Unit, Reach (tableSystem emptyAnswer 2) anyStep w ∧
    (w.sock false).kind = kind ∧ (w.sock false).plain = sent ∧ ¬(w.sock false).Clean

theorem corrupts_of_exec {l : List (TableAct Bool Unit Unit)} {kind : SocketKind} {sent : Bytes}
    (hx : (exec (tableSystem emptyAnswer 2) twoSlots l).map (fun w => ((w.sock false).kind,
      (w.sock false).plain, (w.sock false).isOpen,
      decide ((w.sock false).plain ++ (w.sock false).inFlight = (w.sock false).answers.flatten))) =
        some (kind, sent, true, false)) : Corrupts kind sent := by
  obtain ⟨w, hw, h⟩ := Option.map_eq_some_iff.mp hx
  simp only [Prod.mk.injEq, decide_eq_false_iff_not] at h
  obtain ⟨hkind, hplain, hopen, hne⟩ := h
  refine ⟨w, reach_of_exec l twoSlots_init hw, hkind, hplain, ?_⟩
  rintro ⟨rest, hrest, hflight⟩
  rw [hflight hopen] at hrest
  exact hne hrest

/-- `display_stats` probes an idle MCP connection; a new connection takes the last slot while an
HTTP connection is idle; and the second request of an HTTP connection names a command. -/
theorem answers_sent_fails : Corrupts .mcp (ascii "\x7b\x7d\n" ++ [syn]) ∧
    Corrupts .web (withHeader (ascii "1") (ascii "text/plain") ++ [syn]) ∧
    Corrupts .web (withHeader (ascii "1") (ascii "text/plain") ++ ascii "Unknown command") := by
  refine ⟨corrupts_of_exec (l := .flatten [connection .mcp, mcpLine, .replicate 11 .tick,
      [.halfPing none, .visit, .visit, .visit, .visit]]) ?_,
    corrupts_of_exec (l := .flatten [connection .web, httpRequest, httpResponse, .replicate 11 .tick,
      [.construct true .console (), .halfPing (some true), .visit, .visit, .visit, .visit]]) ?_,
    corrupts_of_exec (l := .flatten [connection .web, httpRequest, httpResponse, httpRequest,
      [.say (ascii "Unknown command"), .send .reader, .send .reader].map (.sock false)]) ?_⟩
  all_goals decide +kernel

end SocketTable

end CogServer
