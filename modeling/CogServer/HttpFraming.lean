import CogServer.Decimals
import CogServer.Transition

/-! `handle_connection` of a web socket, byte for byte: how the stream from the client is cut
into header lines, bodies and frames. -/
namespace CogServer

open Transition Telnet

def carriageReturn : UInt8 := 13

/-- What the functions of a web connection throw, apart from the `system_error`s of reads. -/
inductive HttpError
  | silent | invalidArgument | outOfRange | lengthError
  deriving DecidableEq, Repr

/-- `handle_connection` catches a `SilentException`, and nothing else of these. -/
def HttpError.caught : HttpError → Bool
  | .silent => true
  | .invalidArgument | .outOfRange | .lengthError => false

/-- `std::stoi` -/
def stoi (s : Bytes) : Except HttpError ℤ :=
  let signed := scanSign (s.dropWhile isSpace)
  let digits := signed.2.takeWhile isDigit
  if digits = [] then .error .invalidArgument
  else
    let n : ℤ := if signed.1 then -digitsValue digits else digitsValue digits
    if -2 ^ 31 ≤ n ∧ n < 2 ^ 31 then .ok n else .error .outOfRange

/-- Conversion of an `int` to `size_t`. -/
def toSize (n : ℤ) : ℕ := (n % 2 ^ 64).toNat

/-- `std::string::max_size`, from which on `resize` throws. -/
def maxSize : ℕ := 2 ^ 63 - 2

/-- `match_eol_or_escape`. The telnet mode is forgotten from one call to the next. -/
def matchEolOrEscape : Bool → Bytes → Bool
  | _, [] => false
  | telnetMode, c :: s =>
    let telnetMode := telnetMode || c = iac
    c = newline || c = eot || (telnetMode && c ≤ 0xf0) || matchEolOrEscape telnetMode s

/-- `std::getline`: the line, and what follows it. -/
def getline (b : Bytes) : Bytes × Bytes :=
  (b.takeWhile (· ≠ newline), (b.dropWhile (· ≠ newline)).drop 1)

def stripReturn (line : Bytes) : Bytes := if line.getLast? = some carriageReturn then line.dropLast else line

/-- What is not in this directory: the `OnConnection` of the subclass, by the URL and the host
header that it reads, with what it sends; and the key that answers a websocket key. -/
structure HttpHost where
  onConnection : Bytes → Bytes → List Bytes × Option HttpError
  acceptKey : Bytes → Bytes

/-- The calls into the subclass. -/
inductive HttpCall
  | connection (url : Bytes) | line (line : Bytes)
  deriving DecidableEq, Repr

/-- Positions in the loop of `handle_connection`. -/
inductive FramePc
  /-- `read_until`, with so many bytes of the buffer searched. -/
  | line (searched : ℕ)
  | lineWait
  /-- `read`, with so many bytes to come. -/
  | body (remaining : ℕ)
  | frame
  | closed
  /-- An exception left the thread: the process is dead. -/
  | dead (e : HttpError)
  deriving DecidableEq, Repr

/-- A web socket. The last two fields only record what happened. -/
structure HttpSocket where
  pc : FramePc
  buffer : Bytes
  gotFirstLine : Bool
  gotHttpHeader : Bool
  gotWebsockHeader : Bool
  doFrameIo : Bool
  keepAlive : Bool
  contentLength : ℕ
  url : Bytes
  hostHeader : Bytes
  webkey : Bytes
  sent : List Bytes
  received : Bytes
  calls : List HttpCall
  deriving DecidableEq, Repr

namespace HttpSocket

def opened : HttpSocket :=
  ⟨.line 0, [], false, false, false, false, false, 0, [], [], [], [], [], []⟩

def send (s : HttpSocket) (o : Bytes) : HttpSocket := if sendable o then { s with sent := s.sent ++ [o] } else s

def notImplemented : Bytes := ascii "HTTP/1.1 501 Not Implemented\r\nServer: CogServer\r\n\r\n"

/-- The method and the URL of a request. -/
def requestLine (line : Bytes) (s : HttpSocket) : HttpSocket × Option HttpError :=
  let s := { s with gotFirstLine := true }
  if ascii "GET " <+: line then ({ s with url := (line.drop 4).takeWhile (· ≠ blank) }, none)
  else if ascii "POST " <+: line then ({ s with url := (line.drop 5).takeWhile (· ≠ blank) }, none)
  else (s.send notImplemented, some .silent)

/-- The text of a `Content-Length`. -/
def lengthText (line : Bytes) : Option Bytes :=
  if ascii "Content-Length: " <+: line then some (line.drop 16)
  else if ascii "content-length: " <+: line then some (line.drop 16)
  else none

def headerLine (line : Bytes) (s : HttpSocket) : HttpSocket × Option HttpError :=
  match lengthText line with
  | some text =>
    match stoi text with
    | .ok n => ({ s with contentLength := toSize n }, none)
    | .error e => (s, some e)
  | none =>
    if ascii "Host: " <+: line then ({ s with hostHeader := line.drop 6 }, none)
    else if ascii "host: " <+: line then ({ s with hostHeader := line.drop 6 }, none)
    else if ascii "connection: keep-alive" <+: line then ({ s with keepAlive := true }, none)
    else if ascii "Upgrade: websocket" <+: line then ({ s with gotWebsockHeader := true }, none)
    else if ascii "Sec-WebSocket-Key: " <+: line then ({ s with webkey := line.drop 19 }, none)
    else (s, none)

/-- The call of `OnConnection`, and after it the answer to a websocket. -/
def connect (W : HttpHost) (s : HttpSocket) : HttpSocket × Option HttpError :=
  let c := W.onConnection s.url s.hostHeader
  let s := c.1.foldl send { s with calls := s.calls ++ [.connection s.url] }
  match c.2 with
  | some e => (s, some e)
  | none =>
    if ¬ s.gotWebsockHeader then (s, none)
    else
      let webkey := s.webkey ++ ascii "258EAFA5-E914-47DA-95CA-C5AB0DC85B11"
      let response := List.flatten [
        ascii "HTTP/1.1 101 Switching Protocols\r\nUpgrade: websocket\r\nConnection: Upgrade\r\n",
        ascii "Sec-WebSocket-Accept: ", W.acceptKey webkey, ascii "\r\n\r\n"]
      ({ s.send response with webkey := webkey, doFrameIo := true }, none)

/-- `HandshakeLine`, with the exception that leaves it. -/
def handshakeLine (W : HttpHost) (line : Bytes) (s : HttpSocket) : HttpSocket × Option HttpError :=
  if ¬ s.gotFirstLine then requestLine line s
  else
    let s := if ¬ s.gotHttpHeader ∧ line = [] then { s with gotHttpHeader := true } else s
    if ¬ s.gotHttpHeader then headerLine line s else connect W s

/-- `OnLine` with a body, and the resets after it. -/
def onBody (body : Bytes) (s : HttpSocket) : HttpSocket :=
  { s with
    calls := s.calls ++ [.line body], gotHttpHeader := false, gotFirstLine := false, contentLength := 0,
    pc := .line 0 }

/-- The end of `get_http_body`, with enough bytes in the buffer. -/
def takeBody (s : HttpSocket) : HttpSocket :=
  if maxSize < s.contentLength then { s with pc := .dead .lengthError }
  else onBody (s.buffer.take s.contentLength) { s with buffer := s.buffer.drop s.contentLength }

/-- `get_http_body`, up to its `read`. -/
def getHttpBody (s : HttpSocket) : HttpSocket :=
  if s.contentLength = 0 then s.onBody []
  else if s.buffer.length < s.contentLength then
    { s with pc := .body (s.contentLength - s.buffer.length) }
  else s.takeBody

/-- What `handle_connection` does with a line or a frame that was read. -/
def handleLine (W : HttpHost) (line : Bytes) (s : HttpSocket) : HttpSocket :=
  if [0x1, 0x21] <+: line then { s with pc := .closed }
  else
    let line := stripReturn line
    let r := if s.gotHttpHeader then (s, none) else s.handshakeLine W line
    match r.2 with
    | some e => { r.1 with pc := if e.caught then .closed else .dead e }
    | none =>
      if ¬ r.1.gotHttpHeader then { r.1 with pc := .line 0 }
      else if r.1.doFrameIo then { r.1 with calls := r.1.calls ++ [.line line], pc := .frame }
      else r.1.getHttpBody

/-- How a read ends other than with bytes. -/
inductive ReadEnd
  /-- The end of the stream; what the socket had still available was read. -/
  | eof (available : Bytes)
  /-- `connection_reset`, `not_connected` or `bad_descriptor` -/
  | gone
  | otherError
  /-- `get_websocket_line` gives up. -/
  | silent
  deriving DecidableEq, Repr

inductive Act
  | step | recv (bytes : Bytes) | frame (data : Bytes) | ends (e : ReadEnd)
  deriving DecidableEq, Repr

/-- Bytes come in. -/
def recv (s : HttpSocket) (bytes : Bytes) : Option HttpSocket :=
  if bytes = [] then none
  else
    let t := { s with buffer := s.buffer ++ bytes, received := s.received ++ bytes }
    match s.pc with
    | .lineWait => some { t with pc := .line s.buffer.length }
    | .body n =>
      if n < bytes.length then none
      else if bytes.length = n then some t.takeBody
      else some { t with pc := .body (n - bytes.length) }
    | .line _ | .frame | .closed | .dead _ => none

/-- A read that throws, and the handler of `handle_connection`. -/
def readEnds (s : HttpSocket) (e : ReadEnd) : Option HttpSocket :=
  let again : FramePc := if s.doFrameIo then .frame else .line 0
  match s.pc with
  | .lineWait | .body _ | .frame =>
    match e with
    | .eof available =>
      if available = [] then some { s with pc := .closed }
      else some { s with buffer := s.buffer ++ available, received := s.received ++ available, pc := again }
    | .gone => some { s with pc := .closed }
    | .otherError => some { s with pc := again }
    | .silent => if s.pc = .frame then some { s with pc := .closed } else none
  | .line _ | .closed | .dead _ => none

/-- The line or frame that a step handles. -/
def next? (s : HttpSocket) : Act → Option (Bytes × HttpSocket)
  | .step =>
    match s.pc with
    | .line n =>
      if matchEolOrEscape false (s.buffer.drop n) then
        some ((getline s.buffer).1, { s with buffer := (getline s.buffer).2 })
      else none
    | _ => none
  | .frame data => if s.pc = .frame then some (data, s) else none
  | .recv _ | .ends _ => none

def step (W : HttpHost) (s : HttpSocket) (a : Act) : Option HttpSocket :=
  match s.next? a with
  | some (line, t) => some (t.handleLine W line)
  | none =>
    match a with
    | .step =>
      match s.pc with
      | .line _ => some { s with pc := .lineWait }
      | _ => none
    | .recv bytes => s.recv bytes
    | .ends e => s.readEnds e
    | .frame _ => none

end HttpSocket

/-- The runs of one web socket. -/
def framingSystem (W : HttpHost) : System HttpSocket HttpSocket.Act where
  init s := s = HttpSocket.opened
  step := HttpSocket.step W

theorem takeWhile_of_all {α : Type*} {p : α → Bool} {l : List α} (h : ∀ a ∈ l, p a = true) :
    l.takeWhile p = l := by
  rw [← List.append_nil l, List.takeWhile_append_of_pos h]
  simp

/-- A number in plain digits is converted. -/
theorem stoi_digits {s : Bytes} (hne : s ≠ []) (hd : ∀ c ∈ s, isDigit c = true)
    (hv : digitsValue s < 2 ^ 31) : stoi s = .ok (digitsValue s) := by
  have hsign : scanSign (s.dropWhile isSpace) = (false, s) := by
    cases s with
    | nil => exact absurd rfl hne
    | cons d ds =>
      have hdigit := hd d List.mem_cons_self
      have h1 : d ≠ 45 := ne_of_isDigit hdigit (by decide)
      have h2 : d ≠ 43 := ne_of_isDigit hdigit (by decide)
      simp [isSpace_of_isDigit hdigit, scanSign, h1, h2]
  simp only [stoi, hsign, takeWhile_of_all hd, hne, ↓reduceIte, Bool.false_eq_true]
  rw [if_pos (by omega)]

theorem toSize_natCast {n : ℕ} (h : n < 2 ^ 64) : toSize n = n := by
  unfold toSize
  omega

end CogServer
