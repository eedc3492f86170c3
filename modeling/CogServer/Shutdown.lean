import CogServer.RequestOrder
import CogServer.WebShells

/-! The shutdown of the server: `stop` from a control thread or from a request,
the last part of `serverLoop`, and the handler threads that it joins. -/
namespace CogServer

open Transition

variable {ι : Type*}

/-- The request whose `execute` calls `stop`. -/
def Request.isShutdown (r : Request ι) : Bool := r.cmdName == ascii "shutdown"

/-- The requests that set their console to null in `execute`. -/
def Request.leaves (r : Request ι) : Bool := builtinCommand r.cmdName == some .leave

/-- A connection: its handler thread reads, or is in `~ConsoleSocket`, or has ended. -/
inductive SocketPc
  | absent | reading | destructor | closed
  deriving DecidableEq, Repr

/-- The server with its listener. `stopper` is the thread that executes a shutdown
request and is between the two statements of `stop`, with the request. `returned`
says that `serverLoop` has returned. `queuedAtStop` only records what was in the
queue at the calls of `stop`. -/
structure NetworkedServer (ι : Type*) where
  server : RequestServer ι
  stopper : Option (Worker ι × Request ι)
  useCount : ι → ℕ
  socket : ι → SocketPc
  listening : Bool
  handlerThreads : List ι
  returned : Bool
  queuedAtStop : List (Request ι)

namespace NetworkedServer

inductive Act (ι : Type*)
  | accept (i : ι)
  | line (i : ι) (l : Bytes)
  | evalEnds (i : ι) (left : Bool)
  | thread (w : Worker ι)
  | stop | cancel
  /-- The handler thread of `i` has read all that there is, and deletes its console. -/
  | leave (i : ι)
  | destroy (i : ι)
  deriving DecidableEq, Repr

section Model

variable [DecidableEq ι]

def start : NetworkedServer ι where
  server := .start
  stopper := none
  useCount _ := 0
  socket _ := .absent
  listening := true
  handlerThreads := []
  returned := false
  queuedAtStop := []

def get (s : NetworkedServer ι) (i : ι) : NetworkedServer ι :=
  { s with useCount := Function.update s.useCount i (s.useCount i + 1) }

def put (s : NetworkedServer ι) (i : ι) : NetworkedServer ι :=
  { s with useCount := Function.update s.useCount i (s.useCount i - 1) }

/-- What `w` does to the server when its step takes the requests to `u`. A shutdown
request is then between the two statements of `stop`, the other requests that leave
have let go of their console, and `~Request` lets go of it for the rest. -/
def workerStep (s : NetworkedServer ι) (w : Worker ι) (u : RequestServer ι) : NetworkedServer ι :=
  match s.server.critical w with
  | some (.execute r) =>
    if r.isShutdown then
      { s with
        server := { u with running := false }
        stopper := some (w, r)
        queuedAtStop := s.queuedAtStop ++ u.requestQueue.items }
    else if r.leaves then { s with server := u }.put r.console
    else { s with server := u }
  | some (.delete r) => if r.leaves then { s with server := u } else { s with server := u }.put r.console
  | _ => { s with server := u }

/-- A handler thread. A request that is about to be pushed has got its console. -/
def handlerStep (C : Commands ι) (s : NetworkedServer ι) (i : ι) : Option (NetworkedServer ι) :=
  (s.server.consoleStep C i).map fun u =>
    match u.console i with
    | .push _ _ => { s with server := u }.get i
    | _ => s.workerStep (.handler i) u

/-- `serverLoop`, with `stop_listening` before the drain and `join_threads` after it. -/
def loopStep (C : Commands ι) (s : NetworkedServer ι) : Option (NetworkedServer ι) :=
  match s.server.loop with
  | .joinThreads =>
    match s.handlerThreads with
    | [] => if s.returned then none else some { s with returned := true }
    | i :: rest => if s.socket i = .closed then some { s with handlerThreads := rest } else none
  | .drainTest =>
    if s.listening then some { s with listening := false }
    else (s.server.loopStep C).map (s.workerStep .serverLoop)
  | _ => (s.server.loopStep C).map (s.workerStep .serverLoop)

def threadStep (C : Commands ι) (s : NetworkedServer ι) : Worker ι → Option (NetworkedServer ι)
  | .handler i => s.handlerStep C i
  | .serverLoop => s.loopStep C

/-- The rest of `stop`, and of the `execute` that called it. -/
def stopped (s : NetworkedServer ι) (r : Request ι) : NetworkedServer ι :=
  { s with
    server := { s.server with requestQueue := s.server.requestQueue.cancel }
    stopper := none }.put r.console

def step (C : Commands ι) (s : NetworkedServer ι) : Act ι → Option (NetworkedServer ι)
  | .accept i =>
    if s.listening ∧ s.socket i = .absent then
      some { s with
        socket := Function.update s.socket i .reading
        handlerThreads := s.handlerThreads ++ [i] }
    else none
  | .line i l =>
    if s.socket i = .reading then (s.server.step C (.line i l)).map fun u => { s with server := u }
    else none
  | .evalEnds i left => (s.server.step C (.evalEnds i left)).map fun u => { s with server := u }
  | .thread w =>
    match s.stopper with
    | some (w', r) => if w = w' then some (s.stopped r) else s.threadStep C w
    | none => s.threadStep C w
  | .stop => (s.server.step C .stop).map fun u =>
      { s with server := u, queuedAtStop := s.queuedAtStop ++ s.server.requestQueue.items }
  | .cancel => (s.server.step C .cancel).map fun u => { s with server := u }
  | .leave i =>
    if s.socket i = .reading ∧ s.server.console i = .idle then
      some { s with socket := Function.update s.socket i .destructor }
    else none
  | .destroy i =>
    if s.socket i = .destructor ∧ s.useCount i = 0 then
      some { s with socket := Function.update s.socket i .closed }
    else none

end Model

end NetworkedServer

/-- Any number of connections, from the start of the server. -/
def shutdownSystem {ι : Type*} [DecidableEq ι] (C : Commands ι) :
    System (NetworkedServer ι) (NetworkedServer.Act ι) where
  init s := s = NetworkedServer.start
  step := NetworkedServer.step C

end CogServer
