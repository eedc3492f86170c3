import CogServer.Shell

/-! `handle_connection` of an HTTP socket, which evaluates each request itself, in
`WebServer::OnLine`. -/
namespace CogServer

open Transition

/-- What `SendWithHeader` sends. -/
def withHeader (msg contentType : Bytes) : Bytes :=
  List.flatten [ascii "HTTP/1.1 200 OK\r\nServer: CogServer\r\nContent-Type: ", contentType,
    ascii "\r\nContent-Length: ", ascii (toString msg.length), ascii "\r\n\r\n", msg]

/-- What one turn of the loop gets from the client. -/
inductive Turn (σ : Type*)
  /-- A line that `HandshakeLine` keeps. -/
  | header
  /-- The body of a request, for a shell whose `get_evaluator` gives `v`. -/
  | request (body : Bytes) (v : σ)
  /-- A `system_error` of the socket. Some of them end the loop. -/
  | systemError (ends : Bool)
  /-- A `SilentException` of the handshake. -/
  | silent

/-- Positions in `handle_connection` and in the `OnLine` that it calls. -/
inductive HttpPc
  | read | beginEval (b : Bytes) | call (b : Bytes) | running (b : Bytes)
  | pollResult (result : Bytes) | reply (result : Bytes) | closed
  deriving DecidableEq, Repr

/-- An HTTP connection. The fields from `escaped` on only record what happened. -/
structure HttpConnection (σ : Type*) where
  pc : HttpPc
  evaluator : σ
  sent : List Bytes
  /-- An exception left `handle_connection`: the process is dead. -/
  escaped : Bool
  received : List Bytes
  passed : List Bytes
  ended : List Bytes
  deriving DecidableEq, Repr

namespace HttpConnection

variable {σ : Type*}

def opened (v : σ) : HttpConnection σ := ⟨.read, v, [], false, [], [], []⟩

inductive Act (σ : Type*)
  | turn (t : Turn σ) | step | work | ret

/-- The loop of `handle_connection`, up to its call of `OnLine`. -/
def handleTurn (s : HttpConnection σ) : Turn σ → Option (HttpConnection σ)
  | .header => if s.pc = .read then some s else none
  | .request b v =>
    if s.pc = .read then some { s with pc := .beginEval b, evaluator := v, received := s.received ++ [b] }
    else none
  | .systemError ends =>
    if s.pc = .read then some { s with pc := if ends then .closed else .read } else none
  | .silent => if s.pc = .read then some { s with pc := .closed } else none

/-- `OnLine` without its `eval_expr`. -/
def onLine (E : GenericEval σ) (contentType : Bytes) (s : HttpConnection σ) : Option (HttpConnection σ) :=
  match s.pc with
  | .beginEval b => some { s with evaluator := E.beginEval s.evaluator, pc := .call b }
  | .call b => some { s with passed := s.passed ++ [b], pc := .running b }
  | .pollResult result =>
    (E.pollResult s.evaluator).map fun r =>
      { s with evaluator := r.2, pc := if r.1 = [] then .reply result else .pollResult (result ++ r.1) }
  | .reply result =>
    some { s with
      sent := if result = [] then s.sent else s.sent ++ [withHeader result contentType], pc := .read }
  | .read | .running _ | .closed => none

/-- The end of `eval_expr`. Neither `OnLine` nor the loop catches a `RuntimeException`. -/
def evalReturn (E : GenericEval σ) (s : HttpConnection σ) : Option (HttpConnection σ) :=
  match s.pc with
  | .running b =>
    let t := { s with evaluator := E.evalExpr b s.evaluator, ended := s.ended ++ [b] }
    if E.throws b s.evaluator then some { t with escaped := true }
    else some { t with pc := .pollResult [] }
  | _ => none

def evalWork (E : GenericEval σ) (s : HttpConnection σ) : Option (HttpConnection σ) :=
  match s.pc with
  | .running b => some { s with evaluator := E.work b s.evaluator }
  | _ => none

def step (E : GenericEval σ) (contentType : Bytes) (s : HttpConnection σ) (a : Act σ) :
    Option (HttpConnection σ) :=
  if s.escaped then none
  else match a with
  | .turn t => s.handleTurn t
  | .step => s.onLine E contentType
  | .work => s.evalWork E
  | .ret => s.evalReturn E

end HttpConnection

/-- The runs of one HTTP connection. -/
def httpSystem {σ : Type*} (E : GenericEval σ) (contentType : Bytes) :
    System (HttpConnection σ) (HttpConnection.Act σ) where
  init s := ∃ v, s = HttpConnection.opened v
  step := HttpConnection.step E contentType

end CogServer
