import CogServer.Transition
import CogServer.CancelQueue
import CogServer.ServerConsole
import Mathlib.Logic.Function.Basic

/-! The request queue, the threads of the consoles that push to it, and the
threads that drain it. -/
namespace CogServer

open Transition

/-- A request; `console` is the console that it was made for. -/
structure Request (ι : Type*) where
  id : ℕ
  console : ι
  cmdName : Bytes
  parameters : List Bytes
  isShell : Bool
  deriving DecidableEq, Repr

/-- The registered commands. `create` says of a command name whether a request
for it is a shell; `reply` is what its `execute` sends. -/
structure Commands (ι : Type*) where
  create : Bytes → Option Bool
  reply : Request ι → Bytes
  prompt : Bytes

/-- Positions in `processRequests`. -/
inductive ProcPc (ι : Type*)
  | lock | size | pop | execute (r : Request ι) | delete (r : Request ι) | unlock
  deriving DecidableEq, Repr

/-- Positions of a console's thread in `OnLine`. `outer` are the lines whose
`OnLine` is waiting for an inner `OnLine` to return. -/
inductive ConsolePc (ι : Type*)
  | idle
  | shellTest (line : Bytes) (outer : List Bytes)
  | eval (line : Bytes) (outer : List Bytes)
  | runningTest (line : Bytes) (outer : List Bytes)
  | dispatch (line : Bytes) (outer : List Bytes)
  | reissue (line : Bytes) (outer : List Bytes)
  | command (line : Bytes) (outer : List Bytes)
  | push (r : Request ι) (outer : List Bytes)
  | process (r : Request ι) (outer : List Bytes) (p : ProcPc ι)
  | returned (shell : Option (Request ι)) (outer : List Bytes)
  | threw
  deriving DecidableEq, Repr

/-- Positions in `serverLoop`, up to where it joins the other threads. -/
inductive LoopPc (ι : Type*)
  | test | barrier | sizeTest | stepTest | process (p : ProcPc ι)
  | cancelReset | drainTest | drain (p : ProcPc ι) | joinThreads | threw
  deriving DecidableEq, Repr

/-- The threads that call `processRequests`. -/
inductive Worker (ι : Type*)
  | handler (i : ι) | serverLoop
  deriving DecidableEq, Repr

/-- The server and its consoles. `mutex` is the holder of `processRequestsMutex`,
`shell i` says whether console `i` has a shell, and `stopping` counts the threads
between the two statements of `stop`. The lists at the end only record what
happened. -/
structure RequestServer (ι : Type*) where
  requestQueue : CancelQueue (Request ι)
  running : Bool
  stopping : ℕ
  mutex : Option (Worker ι)
  shell : ι → Bool
  exited : ι → Bool
  sent : ι → List Bytes
  console : ι → ConsolePc ι
  loop : LoopPc ι
  nextId : ℕ
  pushed : List (Request ι)
  executed : List (Request ι)
  deleted : List (Request ι)

namespace RequestServer

variable {ι : Type*} [DecidableEq ι]

def start : RequestServer ι where
  requestQueue := .empty
  running := true
  stopping := 0
  mutex := none
  shell _ := false
  exited _ := false
  sent _ := []
  console _ := .idle
  loop := .test
  nextId := 0
  pushed := []
  executed := []
  deleted := []

/-- The thread of console `i` goes to `p`. -/
def goto (s : RequestServer ι) (i : ι) (p : ConsolePc ι) : RequestServer ι :=
  { s with console := Function.update s.console i p }

def send (s : RequestServer ι) (i : ι) (m : List Bytes) : RequestServer ι :=
  { s with sent := Function.update s.sent i (s.sent i ++ m.filter sendable) }

/-- `execute` of a request; shells install themselves on their console. -/
def execute (C : Commands ι) (s : RequestServer ι) (r : Request ι) : RequestServer ι :=
  { s.send r.console [C.reply r] with
    shell := if r.isShell then Function.update s.shell r.console true else s.shell
    executed := s.executed ++ [r] }

/-- The destructor of a request prompts the user, but not in a shell. -/
def delete (C : Commands ι) (s : RequestServer ι) (r : Request ι) : RequestServer ι :=
  { s.send r.console (if s.shell r.console then [] else [C.prompt]) with
    deleted := s.deleted ++ [r] }

/-- How a step in `processRequests` goes on. -/
inductive Next (ι : Type*)
  | goto (p : ProcPc ι) | done | threw

/-- `processRequests`, run by `w`. -/
def processStep (C : Commands ι) (s : RequestServer ι) (w : Worker ι) :
    ProcPc ι → Option (RequestServer ι × Next ι)
  | .lock => if s.mutex = none then some ({ s with mutex := some w }, .goto .size) else none
  | .size => some (s, .goto (if 0 < s.requestQueue.size then .pop else .unlock))
  | .pop =>
    match s.requestQueue.pop with
    | .item r q => some ({ s with requestQueue := q }, .goto (.execute r))
    | .cancelled => some ({ s with mutex := none }, .threw)
    | .blocked => none
  | .execute r => some (s.execute C r, .goto (.delete r))
  | .delete r => some (s.delete C r, .goto .size)
  | .unlock => some ({ s with mutex := none }, .done)

/-- `createRequest` and what follows it, up to the push. -/
def makeRequest (s : RequestServer ι) (i : ι) (cmdName : Bytes) (params : List Bytes) (isShell : Bool)
    (outer : List Bytes) : RequestServer ι :=
  { s with nextId := s.nextId + 1 }.goto i (.push ⟨s.nextId, i, cmdName, params, isShell⟩ outer)

/-- `OnLine`, run by the thread of console `i`. -/
def consoleStep (C : Commands ι) (s : RequestServer ι) (i : ι) : Option (RequestServer ι) :=
  match s.console i with
  | .idle | .eval _ _ | .threw => none
  | .shellTest l k => some (s.goto i (if s.shell i then .eval l k else .runningTest l k))
  | .runningTest l k =>
    if s.running then some (s.goto i (.dispatch l k))
    else some ({ s with exited := Function.update s.exited i true }.goto i (.returned none k))
  | .dispatch l k =>
    match dispatch l with
    | .telnet sent => some ((s.send i (sent ++ [C.prompt])).goto i (.returned none k))
    | .enter sent command => some ((s.send i sent).goto i (.shellTest command (l :: k)))
    | .command sent => some ((s.send i sent).goto i (.command l k))
  | .reissue l k => some (s.goto i (if s.shell i then .shellTest l k else .command l k))
  | .command l k =>
    match simpleTokenize l with
    | [] => some ((s.send i [C.prompt]).goto i (.returned none k))
    | cmdName :: params =>
      match C.create cmdName with
      | some isShell => some (s.makeRequest i cmdName params isShell k)
      | none =>
        match C.create (ascii "help") with
        | some isShell =>
          some ((s.send i [notFound cmdName]).makeRequest i (ascii "help") params isShell k)
        | none => some ((s.send i [notFound cmdName, C.prompt]).goto i (.returned none k))
  | .push r k =>
    match s.requestQueue.push r with
    | none => some (s.goto i .threw)
    | some q =>
      some ({ s with requestQueue := q, pushed := s.pushed ++ [r] }.goto i
        (if r.isShell then .process r k .lock else .returned none k))
  | .process r k p => (s.processStep C (.handler i) p).map fun x =>
      x.1.goto i (match x.2 with | .goto q => .process r k q | .done => .returned (some r) k | .threw => .threw)
  | .returned _ [] => some (s.goto i .idle)
  | .returned _ (l :: k) => some (s.goto i (.reissue l k))

/-- `serverLoop` -/
def loopStep (C : Commands ι) (s : RequestServer ι) : Option (RequestServer ι) :=
  match s.loop with
  | .test => some { s with loop := if s.running then .barrier else .cancelReset }
  | .barrier =>
    if s.requestQueue.cancelled then some { s with loop := .cancelReset }
    else if s.requestQueue.items = [] then none
    else some { s with loop := .sizeTest }
  | .sizeTest => some { s with loop := if 0 < s.requestQueue.size then .stepTest else .test }
  | .stepTest => some { s with loop := if 0 < s.requestQueue.size then .process .lock else .sizeTest }
  | .process p => (s.processStep C .serverLoop p).map fun x =>
      { x.1 with loop := match x.2 with | .goto q => .process q | .done => .sizeTest | .threw => .cancelReset }
  | .cancelReset => some { s with requestQueue := s.requestQueue.cancelReset, loop := .drainTest }
  | .drainTest =>
    some { s with loop := if 0 < s.requestQueue.size then .drain .lock else .joinThreads }
  | .drain p => (s.processStep C .serverLoop p).map fun x =>
      { x.1 with loop := match x.2 with | .goto q => .drain q | .done => .drainTest | .threw => .threw }
  | .joinThreads | .threw => none

/-- Which thread runs, and what the outside chooses for it. -/
inductive Act (ι : Type*)
  | line (i : ι) (l : Bytes)
  /-- The shell of console `i` is done with a line, and the user may have left it. -/
  | evalEnds (i : ι) (left : Bool)
  | console (i : ι) | loop | stop | cancel

def step (C : Commands ι) (s : RequestServer ι) : Act ι → Option (RequestServer ι)
  | .line i l =>
    match s.console i with
    | .idle => some (s.goto i (.shellTest l []))
    | _ => none
  | .evalEnds i left =>
    match s.console i with
    | .eval _ k =>
      some ({ s with shell := Function.update s.shell i (s.shell i && !left) }.goto i (.returned none k))
    | _ => none
  | .console i => s.consoleStep C i
  | .loop => s.loopStep C
  -- `stop` clears the flag and then cancels the queue.
  | .stop => some { s with running := false, stopping := s.stopping + 1 }
  | .cancel =>
    if 0 < s.stopping then some { s with stopping := s.stopping - 1, requestQueue := s.requestQueue.cancel }
    else none

end RequestServer

/-- Any number of consoles and the server loop, from the start of the server. -/
def requestSystem {ι : Type*} [DecidableEq ι] (C : Commands ι) :
    System (RequestServer ι) (RequestServer.Act ι) where
  init s := s = RequestServer.start
  step := RequestServer.step C

end CogServer
