import CogServer.HttpExceptions

/-! The shell behind a web connection: which command made it, and whether `OnLine` finds it. -/
namespace CogServer

open Transition Telnet

/-- What `execute` of a command does to its console. -/
inductive Command
  /-- It makes a shell of this name, and sets it as the shell of the console. -/
  | shell (name : Bytes)
  /-- It sends a reply. -/
  | reply
  /-- It closes the console. -/
  | leave
  deriving DecidableEq, Repr

def Command.isShell : Command → Bool
  | .shell _ => true
  | .reply | .leave => false

/-- The commands of the modules of the repository. -/
def builtinCommands : List (Bytes × Command) :=
  ["sexpr", "json", "mcp", "scm", "py", "top"].map (fun name => (ascii name, .shell (ascii name))) ++
    ["help", "h", "list", "load", "unload", "stats", "py-eval"].map (fun name => (ascii name, .reply)) ++
    ["exit", "quit", "q", ".", "shutdown"].map (fun name => (ascii name, .leave)) ++
    [([0x04], .leave), ([iac, teof], .leave)]

def builtinCommand (name : Bytes) : Option Command := builtinCommands.lookup name

/-- A `WebServer`. Its `_request` is what `createRequest` made in `OnConnection`. -/
structure WebServer where
  request : Option Command
  shell : Option Bytes
  /-- `OnLine` dereferenced a null `_shell`. -/
  nullDeref : Bool
  deriving DecidableEq, Repr

namespace WebServer

def opened : WebServer := ⟨none, none, false⟩

def execute (s : WebServer) : Command → WebServer
  | .shell name => { s with shell := some name }
  | .reply | .leave => s

/-- What `OnLine` does first, if `OnConnection` made a request. -/
def runRequest (s : WebServer) : WebServer :=
  match s.request with
  | some c => { s.execute c with request := none }
  | none => s

/-- `OnLine`. It sets or reads something of the shell on each of its paths. With the line
discipline off, which is the first thing that it sets, a shell does not remove itself. -/
def onLine (s : WebServer) : WebServer :=
  { s.runRequest with nullDeref := s.runRequest.nullDeref || s.runRequest.shell.isNone }

/-- `OnConnection`, which makes a request for a URL that is not the one of a page. -/
def onConnection (P : WebPages) (commands : Bytes → Option Command) (s : WebServer) (url : Bytes) : WebServer :=
  if P.fixed? url [] ≠ none ∨ url = [] then s else { s with request := commands (url.drop 1) }

def onCall (P : WebPages) (commands : Bytes → Option Command) (s : WebServer) : HttpCall → WebServer
  | .connection url => s.onConnection P commands url
  | .line _ => s.onLine

/-- The server after all calls of a connection. -/
def after (P : WebPages) (commands : Bytes → Option Command) (calls : List HttpCall) : WebServer :=
  calls.foldl (onCall P commands) opened

end WebServer

namespace HttpSocket

variable {P : WebPages} {key : Bytes → Bytes} {s t : HttpSocket}

/-- `OnConnection` accepts the URL. -/
def Accepts (P : WebPages) (url : Bytes) : Prop :=
  P.fixed? url [] = none ∧ url ≠ [] ∧ P.commands (url.drop 1) = true

/-- What a line or frame that was read adds to the calls. -/
inductive Called (P : WebPages) (s t : HttpSocket) : Prop
  | nothing (hcalls : t.calls = s.calls) (hheader : t.gotHttpHeader = s.gotHttpHeader)
  | refused (hcalls : t.calls = s.calls ++ [.connection s.url]) (hheader : s.gotHttpHeader = false)
      (hpc : t.pc = .closed ∨ t.Dead)
  | asked (hcalls : t.calls = s.calls ++ [.connection s.url]) (hheader : s.gotHttpHeader = false)
      (haccepts : Accepts P s.url) (hheader' : t.gotHttpHeader = true)
  | served {l : Bytes} (hcalls : t.calls = s.calls ++ [.connection s.url, .line l])
      (hheader : s.gotHttpHeader = false) (haccepts : Accepts P s.url)
  | lined {l : Bytes} (hcalls : t.calls = s.calls ++ [.line l]) (hheader : s.gotHttpHeader = true)

/-- A body is read after a header. -/
def Headed (s : HttpSocket) : Prop := ∀ n, s.pc = .body n → s.gotHttpHeader = true

theorem fixed_none (P : WebPages) (url h h' : Bytes) (hn : P.fixed? url h = none) :
    P.fixed? url h' = none := by
  unfold WebPages.fixed? at hn ⊢
  split_ifs at hn ⊢
  rfl

theorem accepts_of_none {url hostHeader : Bytes} (h : (P.onConnection url hostHeader).2 = none) :
    Accepts P url := by
  unfold WebPages.onConnection at h
  cases hp : P.fixed? url hostHeader with
  | some page => simp [hp] at h
  | none =>
    simp only [hp] at h
    split_ifs at h with h1 h2
    exact ⟨fixed_none P url hostHeader [] hp, h1, h2⟩

theorem requestLine_calls (line : Bytes) (s : HttpSocket) : (s.requestLine line).1.calls = s.calls ∧
    (s.requestLine line).1.gotHttpHeader = s.gotHttpHeader := by
  unfold requestLine send
  dsimp only
  split_ifs <;> exact ⟨rfl, rfl⟩

theorem headerLine_calls (line : Bytes) (s : HttpSocket) : (s.headerLine line).1.calls = s.calls ∧
    (s.headerLine line).1.gotHttpHeader = s.gotHttpHeader := by
  unfold headerLine
  split
  · split <;> exact ⟨rfl, rfl⟩
  · split_ifs <;> exact ⟨rfl, rfl⟩

theorem connect_calls (W : HttpHost) (s : HttpSocket) :
    (s.connect W).1.calls = s.calls ++ [.connection s.url] ∧ (s.connect W).1.gotHttpHeader = s.gotHttpHeader := by
  obtain ⟨o, ho⟩ := foldl_send (W.onConnection s.url s.hostHeader).1
    { s with calls := s.calls ++ [.connection s.url] }
  unfold connect
  simp only [ho]
  split
  · exact ⟨rfl, rfl⟩
  · unfold send
    split_ifs <;> exact ⟨rfl, rfl⟩

theorem takeBody_calls (s : HttpSocket) :
    (s.takeBody.calls = s.calls ∧ s.takeBody.gotHttpHeader = s.gotHttpHeader ∨
      ∃ l, s.takeBody.calls = s.calls ++ [.line l]) ∧ Headed s.takeBody := by
  unfold takeBody
  split
  · exact ⟨.inl ⟨rfl, rfl⟩, nofun⟩
  · exact ⟨.inr ⟨_, rfl⟩, nofun⟩

theorem getHttpBody_calls (hh : s.gotHttpHeader = true) :
    (s.getHttpBody.calls = s.calls ∧ s.getHttpBody.gotHttpHeader = s.gotHttpHeader ∨
      ∃ l, s.getHttpBody.calls = s.calls ++ [.line l]) ∧ Headed s.getHttpBody := by
  unfold getHttpBody
  split
  · exact ⟨.inr ⟨_, rfl⟩, nofun⟩
  split
  · exact ⟨.inl ⟨rfl, rfl⟩, fun _ _ => hh⟩
  · exact takeBody_calls s

/-- What the loop does after `HandshakeLine`: it reads on, or it calls `OnLine`, now or when it
has the body. -/
def afterHandshake (line : Bytes) (r : HttpSocket × Option HttpError) : HttpSocket :=
  match r.2 with
  | some e => { r.1 with pc := if e.caught then .closed else .dead e }
  | none =>
    if ¬ r.1.gotHttpHeader then { r.1 with pc := .line 0 }
    else if r.1.doFrameIo then { r.1 with calls := r.1.calls ++ [.line line], pc := .frame }
    else r.1.getHttpBody

theorem handleLine_eq (W : HttpHost) {line : Bytes} (hbus : ¬ [0x1, 0x21] <+: line) (s : HttpSocket) :
    s.handleLine W line = afterHandshake (stripReturn line)
      (if s.gotHttpHeader then (s, none) else s.handshakeLine W (stripReturn line)) := by
  rw [handleLine, if_neg hbus]
  rfl

theorem afterHandshake_error (line : Bytes) {r : HttpSocket × Option HttpError} {e : HttpError}
    (h : r.2 = some e) : (afterHandshake line r).calls = r.1.calls ∧
    (afterHandshake line r).gotHttpHeader = r.1.gotHttpHeader ∧
    ((afterHandshake line r).pc = .closed ∨ (afterHandshake line r).Dead) := by
  have heq : afterHandshake line r = { r.1 with pc := if e.caught then .closed else .dead e } := by
    simp only [afterHandshake, h]
  rw [heq]
  refine ⟨rfl, rfl, ?_⟩
  cases hc : e.caught with
  | true => exact .inl rfl
  | false => exact .inr ⟨e, rfl⟩

theorem afterHandshake_again {line : Bytes} {r : HttpSocket × Option HttpError} (h : r.2 = none)
    (hh : r.1.gotHttpHeader = false) : afterHandshake line r = { r.1 with pc := .line 0 } := by
  simp [afterHandshake, h, hh]

theorem afterHandshake_line (line : Bytes) {r : HttpSocket × Option HttpError} (h : r.2 = none)
    (hh : r.1.gotHttpHeader = true) :
    ((afterHandshake line r).calls = r.1.calls ∧ (afterHandshake line r).gotHttpHeader = true ∨
      ∃ l, (afterHandshake line r).calls = r.1.calls ++ [.line l]) ∧ Headed (afterHandshake line r) := by
  cases hd : r.1.doFrameIo with
  | true =>
    have heq : afterHandshake line r = { r.1 with calls := r.1.calls ++ [.line line], pc := .frame } := by
      simp [afterHandshake, h, hh, hd]
    rw [heq]
    exact ⟨.inr ⟨line, rfl⟩, fun _ _ => hh⟩
  | false =>
    have heq : afterHandshake line r = r.1.getHttpBody := by simp [afterHandshake, h, hh, hd]
    rw [heq, ← hh]
    exact getHttpBody_calls hh

theorem headed_of_ends (h : s.pc = .closed ∨ s.Dead) : Headed s := by
  intro n h'
  rcases h with h | ⟨e, h⟩ <;> cases h.symm.trans h'

theorem handleLine_called (P : WebPages) (key : Bytes → Bytes) (s : HttpSocket) (line : Bytes) :
    Called P s (s.handleLine (P.host key) line) ∧ Headed (s.handleLine (P.host key) line) := by
  by_cases hbus : [0x1, 0x21] <+: line
  · simp only [handleLine, hbus, ↓reduceIte]
    exact ⟨.nothing rfl rfl, headed_of_ends (.inl rfl)⟩
  rw [handleLine_eq (P.host key) hbus]
  cases hh : s.gotHttpHeader with
  | true =>
    simp only [↓reduceIte]
    obtain ⟨⟨hc, hk⟩ | ⟨l, hc⟩, hheaded⟩ :=
      afterHandshake_line (stripReturn line) (r := (s, none)) rfl hh
    · exact ⟨.nothing hc (hk.trans hh.symm), hheaded⟩
    · exact ⟨.lined hc hh, hheaded⟩
  | false =>
    simp only [Bool.false_eq_true, ↓reduceIte]
    generalize stripReturn line = line
    -- a handshake that calls nothing
    have hquiet (r : HttpSocket × Option HttpError) (hc : r.1.calls = s.calls)
        (hk : r.1.gotHttpHeader = s.gotHttpHeader) :
        Called P s (afterHandshake line r) ∧ Headed (afterHandshake line r) := by
      cases he : r.2 with
      | some e =>
        obtain ⟨h1, h2, h3⟩ := afterHandshake_error line he
        exact ⟨.nothing (h1.trans hc) (h2.trans hk), headed_of_ends h3⟩
      | none =>
        rw [afterHandshake_again he (hk.trans hh)]
        exact ⟨.nothing hc hk, fun _ hx => by cases hx⟩
    cases hf : s.gotFirstLine with
    | false =>
      rw [handshakeLine_first line hf]
      exact hquiet _ (requestLine_calls line s).1 (requestLine_calls line s).2
    | true =>
      by_cases hl : line = []
      · rw [hl, handshakeLine_end hf hh]
        obtain ⟨hc, hk⟩ := connect_calls (P.host key) { s with gotHttpHeader := true }
        rcases connect_cases P key { s with gotHttpHeader := true } with ⟨-, he⟩ |
          ⟨-, ⟨-, he⟩ | ⟨hnone, he, -⟩⟩
        · obtain ⟨h1, -, h3⟩ := afterHandshake_error [] he
          exact ⟨.refused (h1.trans hc) hh h3, headed_of_ends h3⟩
        · obtain ⟨h1, -, h3⟩ := afterHandshake_error [] he
          exact ⟨.refused (h1.trans hc) hh h3, headed_of_ends h3⟩
        · obtain ⟨⟨h1, h2⟩ | ⟨l, h1⟩, hheaded⟩ := afterHandshake_line [] he hk
          · exact ⟨.asked (h1.trans hc) hh (accepts_of_none hnone) h2, hheaded⟩
          · refine ⟨.served (l := l) ?_ hh (accepts_of_none hnone), hheaded⟩
            rw [h1, hc, List.append_assoc]
            rfl
      · rw [handshakeLine_header hf hh hl]
        exact hquiet _ (headerLine_calls line s).1 (headerLine_calls line s).2

/-- The calls that a connection begins with. -/
inductive Started (P : WebPages) (s : HttpSocket) : Prop
  | fresh (hcalls : s.calls = []) (hheader : s.gotHttpHeader = false)
  | refused {url : Bytes} (hcalls : s.calls = [.connection url]) (hpc : s.pc = .closed ∨ s.Dead)
  | asked {url : Bytes} (hcalls : s.calls = [.connection url]) (haccepts : Accepts P url)
      (hheader : s.gotHttpHeader = true)
  | served {url l : Bytes} {rest : List HttpCall} (hcalls : s.calls = .connection url :: .line l :: rest)
      (haccepts : Accepts P url)

theorem Started.called (h : Started P s) (hc : Called P s t) (hpc : ¬ (s.pc = .closed ∨ s.Dead)) :
    Started P t := by
  cases h with
  | fresh hcalls hheader =>
    cases hc with
    | nothing h hk => exact .fresh (h.trans hcalls) (hk.trans hheader)
    | refused h _ hends => exact .refused (by rw [h, hcalls]; rfl) hends
    | asked h _ ha hk => exact .asked (by rw [h, hcalls]; rfl) ha hk
    | served h _ ha => exact .served (by rw [h, hcalls]; rfl) ha
    | lined h hk => cases hheader.symm.trans hk
  | refused _ hends => exact absurd hends hpc
  | asked hcalls ha hheader =>
    cases hc with
    | nothing h hk => exact .asked (h.trans hcalls) ha (hk.trans hheader)
    | lined h hk => exact .served (by rw [h, hcalls]; rfl) ha
    | refused _ hk | asked _ hk | served _ hk => cases hheader.symm.trans hk
  | served hcalls ha =>
    cases hc with
    | nothing h hk => exact .served (h.trans hcalls) ha
    | lined h | refused h | asked h | served h => exact .served (by rw [h, hcalls]; rfl) ha

theorem next_same {a : Act} {line : Bytes} (h : s.next? a = some (line, t)) :
    t.calls = s.calls ∧ t.gotHttpHeader = s.gotHttpHeader ∧ t.url = s.url := by
  cases a with
  | step =>
    cases hp : s.pc <;> simp only [next?, hp, reduceCtorEq] at h
    split at h <;> cases h
    exact ⟨rfl, rfl, rfl⟩
  | frame data =>
    simp only [next?] at h
    split at h <;> cases h
    exact ⟨rfl, rfl, rfl⟩
  | recv bytes => cases h
  | ends e => cases h

/-- A thread that ended makes no step. -/
theorem step_open {W : HttpHost} {a : Act} (h : s.step W a = some t) :
    ¬ (s.pc = .closed ∨ s.Dead) := by
  rintro (hp | ⟨e, hp⟩) <;> cases a <;> simp [step, next?, recv, readEnds, hp] at h

theorem recv_called {bytes : Bytes} (hheaded : Headed s) (h : s.recv bytes = some t) :
    Called P s t ∧ Headed t := by
  simp only [recv] at h
  split at h
  · cases h
  cases hp : s.pc <;> simp only [hp, reduceCtorEq] at h
  case lineWait =>
    cases h
    exact ⟨.nothing rfl rfl, nofun⟩
  case body n =>
    split at h
    · cases h
    split at h <;> cases h
    · obtain ⟨⟨hc, hk⟩ | ⟨l, hc⟩, ht⟩ := takeBody_calls { s with
        buffer := s.buffer ++ bytes, received := s.received ++ bytes }
      · exact ⟨.nothing hc hk, ht⟩
      · exact ⟨.lined hc (hheaded n hp), ht⟩
    · exact ⟨.nothing rfl rfl, fun _ _ => hheaded n hp⟩

theorem readEnds_called {e : ReadEnd} (h : s.readEnds e = some t) : Called P s t ∧ Headed t := by
  have hagain (n : ℕ) : (if s.doFrameIo then FramePc.frame else .line 0) ≠ .body n := by
    split <;> nofun
  unfold readEnds at h
  dsimp only at h
  split at h
  case h_4 => cases h
  case h_5 => cases h
  case h_6 => cases h
  all_goals
    cases e <;> dsimp only at h
    case eof =>
      split at h <;> cases h
      · exact ⟨.nothing rfl rfl, nofun⟩
      · exact ⟨.nothing rfl rfl, fun n hn => absurd hn (hagain n)⟩
    case gone =>
      cases h
      exact ⟨.nothing rfl rfl, nofun⟩
    case otherError =>
      cases h
      exact ⟨.nothing rfl rfl, fun n hn => absurd hn (hagain n)⟩
    case silent => split at h <;> cases h <;> exact ⟨.nothing rfl rfl, nofun⟩

theorem step_called {a : Act} (hheaded : Headed s) (h : s.step (P.host key) a = some t) :
    Called P s t ∧ Headed t := by
  unfold step at h
  cases hn : s.next? a with
  | some x =>
    obtain ⟨line, u⟩ := x
    simp only [hn, Option.some.injEq] at h
    obtain ⟨h1, h2, h3⟩ := next_same hn
    obtain ⟨hc, hh⟩ := handleLine_called P key u line
    rw [h] at hc hh
    refine ⟨?_, hh⟩
    cases hc with
    | nothing h hk => exact .nothing (h.trans h1) (hk.trans h2)
    | refused h hk hends => exact .refused (by rw [h, h1, h3]) (h2 ▸ hk) hends
    | asked h hk ha hk' => exact .asked (by rw [h, h1, h3]) (h2 ▸ hk) (h3 ▸ ha) hk'
    | served h hk ha => exact .served (by rw [h, h1, h3]) (h2 ▸ hk) (h3 ▸ ha)
    | lined h hk => exact .lined (by rw [h, h1]) (h2 ▸ hk)
  | none =>
    simp only [hn] at h
    cases a <;> dsimp only at h
    case step =>
      split at h <;> cases h
      exact ⟨.nothing rfl rfl, nofun⟩
    case recv bytes => exact recv_called hheaded h
    case frame data => cases h
    case ends e => exact readEnds_called h

theorem started_of_reach {C : HttpSocket → Act → Prop}
    (h : Reach (framingSystem (P.host key)) C s) : Started P s := by
  have hboth : Started P s ∧ Headed s := by
    refine h.invariant (fun s => Started P s ∧ Headed s) ?_ fun s a t _ hs _ ht => ?_
    · rintro _ rfl
      exact ⟨.fresh rfl rfl, nofun⟩
    · obtain ⟨hc, hh⟩ := step_called hs.2 ht
      exact ⟨hs.1.called hc (step_open ht), hh⟩
  exact hboth.1

end HttpSocket

namespace WebServer

variable {P : WebPages} {commands : Bytes → Option Command} {s : WebServer}

/-- The commands that the web server knows are those that are registered. -/
def Registered (P : WebPages) (commands : Bytes → Option Command) : Prop :=
  ∀ name, P.commands name = (commands name).isSome

theorem runRequest_nullDeref (s : WebServer) : s.runRequest.nullDeref = s.nullDeref := by
  unfold runRequest execute
  split
  · split <;> rfl
  · rfl

theorem runRequest_shell (h : s.shell.isSome = true) : s.runRequest.shell.isSome = true := by
  unfold runRequest execute
  split
  · split
    · rfl
    · exact h
    · exact h
  · exact h

theorem onConnection_kept (P : WebPages) (commands : Bytes → Option Command) (s : WebServer)
    (url : Bytes) : (s.onConnection P commands url).shell = s.shell ∧
    (s.onConnection P commands url).nullDeref = s.nullDeref := by
  unfold onConnection
  split <;> exact ⟨rfl, rfl⟩

/-- A console keeps a shell. -/
theorem onCall_shell (P : WebPages) (commands : Bytes → Option Command) (c : HttpCall)
    (h : s.shell.isSome = true) : (s.onCall P commands c).shell.isSome = true ∧
    (s.onCall P commands c).nullDeref = s.nullDeref := by
  cases c with
  | connection url =>
    obtain ⟨h1, h2⟩ := onConnection_kept P commands s url
    exact ⟨(congrArg Option.isSome h1).trans h, h2⟩
  | line l =>
    have hshell := runRequest_shell h
    refine ⟨hshell, ?_⟩
    simp only [onCall, onLine, runRequest_nullDeref]
    simp [Option.isNone_eq_false_iff.mpr hshell]

theorem calls_shell (calls : List HttpCall) (h : s.shell.isSome = true) :
    (calls.foldl (onCall P commands) s).nullDeref = s.nullDeref := by
  induction calls generalizing s with
  | nil => rfl
  | cons c calls ih =>
    obtain ⟨h1, h2⟩ := onCall_shell P commands c h
    rw [List.foldl_cons, ih h1, h2]

theorem calls_nullDeref (calls : List HttpCall) (h : s.nullDeref = true) :
    (calls.foldl (onCall P commands) s).nullDeref = true := by
  induction calls generalizing s with
  | nil => exact h
  | cons c calls ih =>
    rw [List.foldl_cons]
    refine ih ?_
    cases c with
    | line l => simp [onCall, onLine, runRequest_nullDeref, h]
    | connection url => exact (onConnection_kept P commands s url).2.trans h

/-- The first request of the connection that got as far as `OnLine` named a command that makes
a shell. -/
def ShellFirst (commands : Bytes → Option Command) (calls : List HttpCall) : Prop :=
  ∀ url l rest, calls = .connection url :: .line l :: rest →
    ∃ c, commands (url.drop 1) = some c ∧ c.isShell = true

/-- The first `OnLine` finds a shell exactly if the command makes one. -/
theorem first_line {url : Bytes} (ha : HttpSocket.Accepts P url) {c : Command} (hc : commands (url.drop 1) = some c)
    (l : Bytes) :
    let s := (opened.onCall P commands (.connection url)).onCall P commands (.line l)
    (c.isShell = true → s.shell.isSome = true ∧ s.nullDeref = false) ∧ (c.isShell = false → s.nullDeref = true) := by
  have hasked : opened.onCall P commands (.connection url) = ⟨some c, none, false⟩ := by
    rw [onCall, onConnection, if_neg (by simp [ha.1, ha.2.1]), hc]
    rfl
  rw [hasked]
  cases c with
  | shell name => exact ⟨fun _ => ⟨rfl, rfl⟩, nofun⟩
  | reply => exact ⟨nofun, fun _ => rfl⟩
  | leave => exact ⟨nofun, fun _ => rfl⟩

/-- On every connection, `OnLine` finds a shell whenever it needs one exactly if the first
request that it was given named a command that makes a shell. -/
theorem web_shell (P : WebPages) (key : Bytes → Bytes) (commands : Bytes → Option Command)
    (hregistered : Registered P commands) {s : HttpSocket}
    (h : Reach (framingSystem (P.host key)) anyStep s) :
    (after P commands s.calls).nullDeref = false ↔ ShellFirst commands s.calls := by
  have hshort (url : Bytes) : (after P commands [.connection url]).nullDeref = false :=
    (onConnection_kept P commands opened url).2
  cases HttpSocket.started_of_reach h with
  | fresh hcalls _ =>
    rw [hcalls]
    exact ⟨fun _ _ _ _ hx => (by cases hx), fun _ => rfl⟩
  | refused hcalls _ =>
    rw [hcalls]
    exact ⟨fun _ _ _ _ hx => (by cases hx), fun _ => hshort _⟩
  | asked hcalls _ _ =>
    rw [hcalls]
    exact ⟨fun _ _ _ _ hx => (by cases hx), fun _ => hshort _⟩
  | served hcalls ha =>
    rename_i url l rest
    rw [hcalls]
    obtain ⟨c, hc⟩ := Option.isSome_iff_exists.mp ((hregistered _).symm.trans ha.2.2)
    obtain ⟨hshell, hnone⟩ := first_line ha hc l
    have hfold : after P commands (.connection url :: .line l :: rest) = rest.foldl (onCall P commands)
        ((opened.onCall P commands (.connection url)).onCall P commands (.line l)) := rfl
    rw [hfold]
    cases hk : c.isShell with
    | true =>
      obtain ⟨h1, h2⟩ := hshell hk
      rw [calls_shell rest h1, h2]
      refine ⟨fun _ url' l' rest' hx => ?_, fun _ => rfl⟩
      cases hx
      exact ⟨c, hc, hk⟩
    | false =>
      rw [calls_nullDeref rest (hnone hk)]
      refine ⟨nofun, fun hf => ?_⟩
      obtain ⟨c', hc', hk'⟩ := hf url l rest rfl
      cases hc.symm.trans hc'
      cases hk.symm.trans hk'

/-- A web server with the commands of the repository, and without pages. -/
def builtinPages : WebPages :=
  { HttpSocket.barePages with commands := fun name => (builtinCommand name).isSome }

theorem web_shell_json : ∃ s : HttpSocket, s.received = ascii "GET /json\n\n" ∧
    (after builtinPages builtinCommand s.calls).nullDeref = false := by
  have hx : (exec (framingSystem (builtinPages.host id)) HttpSocket.opened
      [.step, .recv (ascii "GET /json\n\n"), .step, .step]).map (fun s => (s.received, s.calls)) =
        some (ascii "GET /json\n\n", [.connection (ascii "/json"), .line []]) := by decide +kernel
  obtain ⟨s, hs, h⟩ := Option.map_eq_some_iff.mp hx
  obtain ⟨hreceived, hcalls⟩ := Prod.mk.inj h
  refine ⟨s, hreceived, (web_shell builtinPages id _ (fun _ => rfl) (reach_of_exec _ rfl hs)).mpr ?_⟩
  rw [hcalls]
  intro url l rest hx
  cases hx
  exact ⟨.shell (ascii "json"), rfl, rfl⟩

/-- Some run that receives this stream lets `OnLine` dereference a null shell. -/
def Derefs (stream : Bytes) : Prop :=
  ∃ s, Reach (framingSystem (builtinPages.host id)) anyStep s ∧ s.received = stream ∧
    (after builtinPages builtinCommand s.calls).nullDeref = true

theorem derefs_of_exec {stream : Bytes} (hx : (exec (framingSystem (builtinPages.host id)) HttpSocket.opened
    [.step, .recv stream, .step, .step]).map (fun s => (s.received,
      (after builtinPages builtinCommand s.calls).nullDeref)) = some (stream, true)) : Derefs stream := by
  obtain ⟨s, hs, h⟩ := Option.map_eq_some_iff.mp hx
  exact ⟨s, reach_of_exec _ rfl hs, (Prod.mk.inj h).1, (Prod.mk.inj h).2⟩

/-- Requests for two commands that are not shells. -/
theorem web_shell_fails : Derefs (ascii "GET /help\n\n") ∧ Derefs (ascii "GET /quit\n\n") :=
  ⟨derefs_of_exec (by decide +kernel), derefs_of_exec (by decide +kernel)⟩

end WebServer

end CogServer
