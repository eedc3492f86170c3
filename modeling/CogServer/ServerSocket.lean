import CogServer.HttpConnection
import CogServer.HttpFraming
import CogServer.McpEval
import CogServer.WebSocketFrames

/-! A `ServerSocket` and the threads that write to it: the reader thread in
`handle_connection`, the threads of its shell, and whoever calls `half_ping`. -/
namespace CogServer

open Transition

/-- The listener that made the socket. -/
inductive SocketKind
  | console | web | mcp
  deriving DecidableEq, Repr

/-- `_status` -/
inductive SocketStatus
  | start | iwait | bar | quing | close | down
  deriving DecidableEq, Repr

/-- The threads that write to a socket. The calls of `half_ping` hold `_sock_lock`. -/
inductive Sender (θ : Type*)
  | reader | shell (t : θ) | halfPing
  deriving DecidableEq, Repr

instance {θ : Type*} [Fintype θ] (P : Sender θ → Prop) [DecidablePred P] : Decidable (∀ x, P x) :=
  decidable_of_iff (P .reader ∧ P .halfPing ∧ ∀ t, P (.shell t))
    ⟨fun h x => match x with
      | .reader => h.1
      | .halfPing => h.2.1
      | .shell t => h.2.2 t, fun h => ⟨h .reader, h .halfPing, fun t => h (.shell t)⟩⟩

/-- Positions in the functions that write: in `Send` of a string before it reads
`_do_frame_io`; before the `Send` of a buffer; and in `half_ping` before it reads
`_do_frame_io`. -/
inductive SendPc
  | flag (cmd : Bytes) | raw (cmd : Bytes)
  | header (cmd : Bytes) | payload (data : Bytes)
  | pongHeader (data : Bytes)
  | probe
  deriving DecidableEq, Repr

/-- What the next step writes, and where it leads. -/
def sendNext (doFrameIo : Bool) : SendPc → Bytes × Option SendPc
  | .flag cmd => ([], some (if doFrameIo then .header cmd else .raw cmd))
  | .raw cmd => (cmd, none)
  -- `send_websocket`
  | .header cmd => (dataHeader cmd.length, some (.payload cmd))
  | .payload data => (data, none)
  | .pongHeader data => (pongHeader data.length, if data = [] then none else some (.payload data))
  -- `send_websocket_pong`, or `Send`
  | .probe => ([], some (if doFrameIo then .pongHeader [] else .flag [syn]))

/-- Where the scan of a JSON object ends: the rest of the line, and the `brace_count`. -/
def scanObject : Bytes → ℤ → Bool → Bool → Bytes × ℤ
  | [], braceCount, _, _ => ([], braceCount)
  | c :: s, braceCount, inString, escapeNext =>
    if ¬escapeNext ∧ c = 92 then scanObject s braceCount inString true
    else if ¬escapeNext ∧ c = 34 then scanObject s braceCount (!inString) escapeNext
    else if ¬inString ∧ ¬escapeNext then
      if c = 123 then scanObject s (braceCount + 1) inString escapeNext
      else if c = 125 then
        if braceCount - 1 = 0 then (s, 0) else scanObject s (braceCount - 1) inString escapeNext
      else scanObject s braceCount inString escapeNext
    else scanObject s braceCount inString false

/-- The objects of a line, at most `fuel` of them. The last one may be malformed. -/
def splitObjects : ℕ → Bytes → List Bytes
  | 0, _ => []
  | fuel + 1, buffer =>
    let start := buffer.dropWhile isSpace
    if start = [] then []
    else
      let (rest, braceCount) := scanObject start 0 false false
      if braceCount = 0 then start.take (start.length - rest.length) :: splitObjects fuel rest else [start]

/-- Positions of the reader thread, when it is not in a `Send`. -/
inductive ReaderPc
  /-- At the start of `handle_connection`. -/
  | enter
  | top | read
  /-- In `HandshakeLine`. -/
  | handshake
  /-- The answer to a websocket is sent, `_do_frame_io` not yet set. -/
  | switching
  /-- In `WebServer::OnLine` of a plain connection. -/
  | request
  /-- In `OnLine` or `OnConnection` of a console, or in `WebServer::OnLine` of a websocket. -/
  | onLine
  /-- In `MCPServer::OnLine`, with these objects to do. -/
  | objects (todo : List Bytes)
  /-- A `SilentException` is on its way. -/
  | silent
  /-- The loop is left; the lines still in the buffer are handled. -/
  | draining
  | closed
  deriving DecidableEq, Repr

/-- A socket. The last four fields record what was written before and after the handshake of
a websocket, whether that is over, and the HTTP responses that were made. -/
structure ServerSocket (θ α : Type*) where
  kind : SocketKind
  reader : ReaderPc
  send : Sender θ → Option SendPc
  eval : McpEval α
  status : SocketStatus
  doFrameIo : Bool
  hasShell : Bool
  isOpen : Bool
  left : Bool
  lastActivity : ℕ
  plain : Bytes
  framed : Bytes
  upgraded : Bool
  responses : List Bytes

namespace ServerSocket

variable {θ α : Type*}

def made (kind : SocketKind) (w : α) (now : ℕ) : ServerSocket θ α :=
  ⟨kind, .enter, fun _ => none, McpEval.new w, .start, false, false, true, false, now, [], [], false, []⟩

inductive Act (θ α : Type*)
  /-- The next step of the reader thread outside of its calls of `Send`. -/
  | step
  /-- A line or a data frame comes in. -/
  | line (l : Bytes)
  /-- A ping frame comes in. -/
  | ping (data : Bytes)
  /-- A read fails, or the client sends something that `get_websocket_line` does not take. -/
  | fail (ends : Bool)
  /-- What `HandshakeLine` does: it keeps the line, answers with a page, finds the header complete,
  or upgrades the connection. -/
  | header | page (response : Bytes) | body | upgrade (key : Bytes)
  /-- `OnLine` calls `Send`; in a plain HTTP connection this is a command that is not a shell. -/
  | say (cmd : Bytes)
  /-- `OnLine` of a plain HTTP connection has the result of the evaluation. -/
  | respond (result contentType : Bytes)
  /-- A shell is made. -/
  | attach
  /-- Another thread calls `Send`. -/
  | write (t : θ) (cmd : Bytes)
  /-- The next step of a thread in `Send` or in `half_ping`. -/
  | send (x : Sender θ)
  /-- `half_ping` looks at the status. -/
  | test
  /-- `global_barrier` of the eval thread sets the status. -/
  | bar
  /-- Other threads change what the evaluator works on. -/
  | world (w : α)
  /-- `Exit` -/
  | exit
  deriving DecidableEq, Repr

/-- The steps of `half_ping`. -/
def Act.isPing : Act θ α → Bool
  | .test | .send .halfPing => true
  | _ => false

/-- A write of one buffer. On a closed socket it fails, and nobody minds. -/
def put (s : ServerSocket θ α) (out : Bytes) : ServerSocket θ α :=
  if ¬s.isOpen then s
  else if s.upgraded then { s with framed := s.framed ++ out }
  else { s with plain := s.plain ++ out }

/-- The end of the loop of `handle_connection`. -/
def leave (now : ℕ) (s : ServerSocket θ α) : ServerSocket θ α :=
  { s with
    lastActivity := now, status := .close, left := true
    reader := if s.kind = .web then .closed else .draining }

/-- `OnLine`, or `HandshakeLine`, with the line. -/
def handle (l : Bytes) (s : ServerSocket θ α) : ServerSocket θ α :=
  match s.kind with
  | .console => { s with reader := .onLine }
  | .web => { s with reader := if s.doFrameIo then .onLine else .handshake }
  | .mcp => { s with reader := .objects (splitObjects (l.length + 1) (stripReturn l)) }

/-- `half_ping` pings a socket that waits for input and was idle for more than ten seconds. -/
def pingable (now : ℕ) (s : ServerSocket θ α) : Bool :=
  s.status = .iwait && s.lastActivity + 10 < now

/-- Other threads write to consoles, and to websockets that have a shell. -/
def shared (s : ServerSocket θ α) : Bool := s.kind = .console || (s.doFrameIo && s.hasShell)

variable [DecidableEq θ]

def setSend (x : Sender θ) (p : Option SendPc) (s : ServerSocket θ α) : ServerSocket θ α :=
  { s with send := Function.update s.send x p }

/-- A thread calls `Send`, which does nothing with an empty string or a lone newline. -/
def call (x : Sender θ) (cmd : Bytes) (s : ServerSocket θ α) : Option (ServerSocket θ α) :=
  if maxSize < cmd.length then none
  else if sendable cmd then some (s.setSend x (some (.flag cmd)))
  else some s

/-- The answer to a websocket. -/
def switchingProtocols (key : Bytes) : Bytes :=
  List.flatten [
    ascii "HTTP/1.1 101 Switching Protocols\r\nUpgrade: websocket\r\nConnection: Upgrade\r\n",
    ascii "Sec-WebSocket-Accept: ", key, ascii "\r\n\r\n"]

/-- `MCPServer::OnLine` of one object, up to its `Send`. -/
def evalObject (respond : α → Bytes → McpResponse × α) (object : Bytes) (s : ServerSocket θ α) :
    Bytes × ServerSocket θ α :=
  let r := (McpEval.evalExpr respond object { s.eval with done := false }).pollResult
  (r.1, { s with eval := r.2 })

def readerStep (respond : α → Bytes → McpResponse × α) (now : ℕ) (s : ServerSocket θ α) :
    Option (ServerSocket θ α) :=
  match s.reader with
  | .enter => some { s with reader := if s.kind = .console then .onLine else .top }
  | .top => some { s with reader := .read, status := .iwait }
  | .switching => some { s with reader := .onLine, doFrameIo := true }
  | .onLine | .objects [] => some { s with reader := if s.left then .draining else .top }
  | .objects (o :: todo) =>
    let r := evalObject respond o s
    { r.2 with reader := .objects todo }.call .reader r.1
  | .silent => some (s.leave now)
  | .draining => some { s with reader := .closed }
  | .read | .handshake | .request | .closed => none

/-- A line comes in, in the loop or after it. -/
def onInput (now : ℕ) (l : Bytes) (s : ServerSocket θ α) : Option (ServerSocket θ α) :=
  match s.reader with
  | .read =>
    if [0x1, 0x21] <+: l then some (s.leave now)
    else some (handle l { s with lastActivity := now, status := .quing })
  | .draining => some (handle l s)
  | _ => none

/-- `HandshakeLine` and the HTTP part of `OnLine`. -/
def http (s : ServerSocket θ α) : Act θ α → Option (ServerSocket θ α)
  | .header => if s.reader = .handshake then some { s with reader := .top } else none
  | .page r =>
    if s.reader = .handshake ∧ ascii "HTTP/1.1 " <+: r then
      { s with reader := .silent, responses := s.responses ++ [r] }.call .reader r
    else none
  | .body => if s.reader = .handshake then some { s with reader := .request } else none
  | .upgrade key =>
    if s.reader = .handshake then
      let r := switchingProtocols key
      { s with reader := .switching, responses := s.responses ++ [r] }.call .reader r
    else none
  | .respond result contentType =>
    if s.reader = .request then
      if result = [] then some { s with reader := .top }
      else
        let r := withHeader result contentType
        { s with reader := .top, responses := s.responses ++ [r] }.call .reader r
    else none
  | _ => none

/-- What the reader thread does outside of its calls of `Send`. -/
def readerAct (respond : α → Bytes → McpResponse × α) (now : ℕ) (s : ServerSocket θ α) (a : Act θ α) :
    Option (ServerSocket θ α) :=
  match a with
  | .step => s.readerStep respond now
  | .line l => s.onInput now l
  | .ping data =>
    if s.reader = .read ∧ s.doFrameIo ∧ data.length ≤ 2 ^ 40 then
      some (s.setSend .reader (some (.pongHeader data)))
    else none
  | .fail ends =>
    if s.reader = .read ∨ s.reader = .handshake then
      some (if ends then s.leave now else { s with reader := .top })
    else none
  | .say cmd => if s.reader = .onLine ∨ s.reader = .request then s.call .reader cmd else none
  | .attach => if s.reader = .onLine ∨ s.reader = .request then some { s with hasShell := true } else none
  | a => s.http a

/-- The next step of a thread in `Send` or in `half_ping`. -/
def sendStep (s : ServerSocket θ α) (x : Sender θ) (p : SendPc) : ServerSocket θ α :=
  let r := sendNext s.doFrameIo p
  let t := (s.put r.1).setSend x r.2
  -- the handshake is over when its answer is written
  if x = .reader ∧ s.reader = .switching ∧ r.2 = none then { t with upgraded := true } else t

def step (respond : α → Bytes → McpResponse × α) (now : ℕ) (s : ServerSocket θ α) (a : Act θ α) :
    Option (ServerSocket θ α) :=
  match a with
  | .send x => (s.send x).map (s.sendStep x)
  | .write t cmd => if s.shared ∧ s.send (.shell t) = none then s.call (.shell t) cmd else none
  | .test =>
    if s.send .halfPing = none then
      some (if s.pingable now then s.setSend .halfPing (some .probe) else s)
    else none
  | .bar => if s.hasShell then some { s with status := .bar } else none
  | .world w => some { s with eval := { s.eval with world := w } }
  | .exit => some { s with isOpen := false, status := .down }
  | a => if s.send .reader = none then s.readerAct respond now a else none

end ServerSocket

end CogServer
