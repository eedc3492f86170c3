import CogServer.CancelQueue
import CogServer.Tally
import CogServer.Transition
import Mathlib.Logic.Function.Basic

/-! The use count of a console: requests hold it while they may call the console, and the
destructor of the console waits for it. -/
namespace CogServer

open Transition Tally

/-- What `execute` of a request does with its console. -/
inductive ConsoleOp
  /-- `send`, which calls `Send` if there is a console. -/
  | send
  /-- `con = get_console()`, with the assertion that it is not null. -/
  | getConsole
  /-- `con->SetShell()` and `con->Exit()` -/
  | setShell | exit
  /-- `set_console(nullptr)` -/
  | clearConsole
  /-- `_cogserver.stop()` -/
  | stop
  deriving DecidableEq, Repr

/-- The requests, by what they do with their console. -/
inductive RequestKind
  /-- `help`, `h`, `stats`, `py-eval`, `list`, `load` and `unload` -/
  | reply
  /-- `exit`, `quit`, `q`, `.`, the empty command and the end of file of telnet -/
  | exit
  | shutdown
  /-- `scm`, `sexpr`, `json`, `mcp` and `py` -/
  | shell
  | top
  deriving DecidableEq, Repr

namespace RequestKind

def execute : RequestKind → List ConsoleOp
  | .reply => [.send]
  | .exit => [.getConsole, .exit, .clearConsole, .send]
  | .shutdown => [.send, .stop, .getConsole, .clearConsole, .exit]
  | .shell => [.getConsole, .setShell, .send]
  | .top => [.getConsole, .setShell]

def isShell : RequestKind → Bool
  | .shell | .top => true
  | .reply | .exit | .shutdown => false

end RequestKind

/-- Where the thread of a connection is, which owns the console. -/
inductive ConsoleThread (ρ : Type*)
  | absent | reading
  /-- `createRequest` returned `r`; a `WebServer` keeps it until its first line. -/
  | made (r : ρ)
  /-- Before `pushRequest`, and in `processRequests` after a shell. -/
  | pushing (r : ρ) | draining
  /-- A `WebServer` executes its request itself. -/
  | executing (r : ρ)
  /-- In `~ConsoleSocket`, before the test of the use count and in `_in_use_cv.wait`. -/
  | closing | asleep
  | destroyed | threw
  deriving DecidableEq, Repr

namespace ConsoleThread

variable {ρ : Type*}

/-- What `notify_all` does to a destructor. -/
def notified : ConsoleThread ρ → ConsoleThread ρ
  | .asleep => .closing
  | h => h

/-- The destructors of the derived classes are done. -/
def destructing : ConsoleThread ρ → Bool
  | .closing | .asleep | .destroyed => true
  | _ => false

end ConsoleThread

/-- Where a request is: `ops` is what is left of `execute`, and then `~Request` runs. -/
inductive RequestPc (κ : Type*)
  | absent
  | created (c : κ)
  | ready (c : κ)
  | queued
  | running (ops : List ConsoleOp)
  /-- At the start of `~Request`, before `sendPrompt` and before `put`. -/
  | destroying | prompting | putting
  | deleted | threw
  deriving DecidableEq, Repr

/-- The consoles `κ` and the requests `ρ`. `console` is the `_console` of a request, and `con` the
local variable of its `execute`; `processing` is the request that was popped under
`processRequestsMutex`. -/
structure ConsoleUse (κ ρ : Type*) where
  useCount : κ → UInt32
  shell : κ → Bool
  handler : κ → ConsoleThread ρ
  console : ρ → Option κ
  con : ρ → Option κ
  pc : ρ → RequestPc κ
  requestQueue : CancelQueue ρ
  processing : Option ρ

namespace ConsoleUse

variable {κ ρ : Type*}

inductive Act (κ ρ : Type*)
  | accept (c : κ) | create (c : κ) (r : ρ) | set (c : κ) | push (c : κ)
  | drained (c : κ) | returned (c : κ) | hangUp (c : κ) | destroy (c : κ) | wake (c : κ)
  | leaveShell (c : κ)
  | pop | run (r : ρ) | cancelReset
  deriving DecidableEq, Repr

section Model

variable [DecidableEq κ] [DecidableEq ρ] (kind : ρ → RequestKind) (isServerConsole : κ → Bool)

def start : ConsoleUse κ ρ where
  useCount _ := 0
  shell _ := false
  handler _ := .absent
  console _ := none
  con _ := none
  pc _ := .absent
  requestQueue := .empty
  processing := none

def handle (s : ConsoleUse κ ρ) (c : κ) (p : ConsoleThread ρ) : ConsoleUse κ ρ :=
  { s with handler := Function.update s.handler c p }

def goto (s : ConsoleUse κ ρ) (r : ρ) (p : RequestPc κ) : ConsoleUse κ ρ :=
  { s with pc := Function.update s.pc r p }

/-- `get`, and the pointer of the request that keeps the count. -/
def setConsole (s : ConsoleUse κ ρ) (r : ρ) (c : κ) : ConsoleUse κ ρ :=
  { s with
    useCount := Function.update s.useCount c (s.useCount c + 1)
    console := Function.update s.console r (some c) }

/-- `put` with its `notify_all`, after which the request has no console. -/
def put (s : ConsoleUse κ ρ) (r : ρ) (c : κ) : ConsoleUse κ ρ :=
  { s.handle c (s.handler c).notified with
    useCount := Function.update s.useCount c (s.useCount c - 1)
    console := Function.update s.console r none }

/-- One statement of `execute`; `ops` are those that follow. -/
def executeOp (s : ConsoleUse κ ρ) (r : ρ) (ops : List ConsoleOp) : ConsoleOp → ConsoleUse κ ρ
  | .send => s.goto r (.running ops)
  | .stop => { s with requestQueue := s.requestQueue.cancel }.goto r (.running ops)
  | .getConsole =>
    match s.console r with
    | some c => { s with con := Function.update s.con r (some c) }.goto r (.running ops)
    | none => s.goto r .threw
  | .setShell =>
    match s.con r with
    | some c => { s with shell := Function.update s.shell c true }.goto r (.running ops)
    | none => s.goto r .threw
  | .exit =>
    match s.con r with
    | some _ => s.goto r (.running ops)
    | none => s.goto r .threw
  | .clearConsole =>
    match s.console r with
    | some c => (s.put r c).goto r (.running ops)
    | none => s.goto r .threw

/-- The request is gone; `processRequests` may pop the next one. -/
def delete (s : ConsoleUse κ ρ) (r : ρ) : ConsoleUse κ ρ :=
  { s with processing := if s.processing = some r then none else s.processing }.goto r .deleted

/-- `execute` and then `~Request` -/
def run (s : ConsoleUse κ ρ) (r : ρ) : Option (ConsoleUse κ ρ) :=
  match s.pc r with
  | .running [] => some (s.goto r .destroying)
  | .running (op :: ops) => some (s.executeOp r ops op)
  | .destroying =>
    match s.console r with
    | none => some (s.delete r)
    | some c =>
      -- A console in its destructor is no `ServerConsole` any more.
      some (s.goto r
        (if !s.shell c && isServerConsole c && !(s.handler c).destructing then .prompting else .putting))
  | .prompting => some (s.goto r .putting)
  | .putting =>
    match s.console r with
    | some c => some ((s.put r c).delete r)
    | none => some (s.goto r .threw)
  | .absent | .created _ | .ready _ | .queued | .deleted | .threw => none

/-- `createRequest` in `ServerConsole::OnLine`, or in `WebServer::OnConnection`. -/
def mayCreate (s : ConsoleUse κ ρ) (c : κ) : Bool :=
  if isServerConsole c then s.handler c = .reading && !s.shell c else s.handler c = .absent

/-- The thread of `c` after `set_console(this)`: it pushes the request, or executes it. -/
def afterSet (s : ConsoleUse κ ρ) (c : κ) (r : ρ) : ConsoleUse κ ρ :=
  if isServerConsole c then (s.goto r (.ready c)).handle c (.pushing r)
  else (s.goto r (.running (kind r).execute)).handle c (.executing r)

def step (s : ConsoleUse κ ρ) : Act κ ρ → Option (ConsoleUse κ ρ)
  | .accept c => if s.handler c = .absent then some (s.handle c .reading) else none
  | .create c r =>
    if s.mayCreate isServerConsole c ∧ s.pc r = .absent then
      some ((s.goto r (.created c)).handle c (.made r))
    else none
  | .set c =>
    match s.handler c with
    | .made r =>
      match s.console r with
      | none => some ((s.setConsole r c).afterSet kind isServerConsole c r)
      | some _ => some (s.handle c .threw)
    | _ => none
  | .push c =>
    match s.handler c with
    | .pushing r =>
      match s.requestQueue.push r with
      | some q => some (({ s with requestQueue := q }.goto r .queued).handle c
          (if (kind r).isShell then .draining else .reading))
      | none => some (s.handle c .threw)
    | _ => none
  | .drained c =>
    if s.handler c = .draining ∧ s.processing = none then
      if s.requestQueue.items = [] then some (s.handle c .reading)
      else if s.requestQueue.cancelled then some (s.handle c .threw)
      else none
    else none
  | .returned c =>
    match s.handler c with
    | .executing r => if s.pc r = .deleted then some (s.handle c .reading) else none
    | _ => none
  -- The connection is closed, by either side, and the thread leaves its loop.
  | .hangUp c =>
    match s.handler c with
    | .reading => some (s.handle c .closing)
    | .made _ => if isServerConsole c then none else some (s.handle c .closing)
    | _ => none
  | .destroy c =>
    if s.handler c = .closing then
      if s.useCount c = 0 then
        some ({ s with shell := Function.update s.shell c false }.handle c .destroyed)
      else some (s.handle c .asleep)
    else none
  | .wake c => if s.handler c = .asleep then some (s.handle c .closing) else none
  | .leaveShell c => if s.shell c then some { s with shell := Function.update s.shell c false } else none
  | .pop =>
    match s.processing, s.requestQueue.pop with
    | none, .item r q =>
      some ({ s with requestQueue := q, processing := some r }.goto r (.running (kind r).execute))
    | _, _ => none
  | .run r => s.run isServerConsole r
  -- The server loop does this when it has ended.
  | .cancelReset => some { s with requestQueue := s.requestQueue.cancelReset }

end Model

/-- The requests whose `_console` is `c`. -/
noncomputable def holders (s : ConsoleUse κ ρ) (c : κ) : ℕ := tally s.console fun d => d = some c

/-- The console that the next statement of a request calls a method of. -/
def calls (s : ConsoleUse κ ρ) (r : ρ) : Option κ :=
  match s.pc r with
  | .running (.send :: _) | .running (.clearConsole :: _) | .destroying | .prompting | .putting =>
    s.console r
  | .running (.setShell :: _) | .running (.exit :: _) => s.con r
  | _ => none

/-- The use count is that of the requests, and whoever calls a console holds it. -/
structure Outlives (s : ConsoleUse κ ρ) : Prop where
  counted : ∀ c, (s.useCount c).toNat = s.holders c
  held : ∀ r c, s.calls r = some c → s.console r = some c
  positive : ∀ r c, s.calls r = some c → 0 < s.useCount c
  alive : ∀ r c, s.calls r = some c → s.handler c ≠ .destroyed

end ConsoleUse

/-- Any number of consoles and requests; `kind` and `isServerConsole` tell what they are. -/
def consoleSystem {κ ρ : Type*} [DecidableEq κ] [DecidableEq ρ] (kind : ρ → RequestKind)
    (isServerConsole : κ → Bool) : System (ConsoleUse κ ρ) (ConsoleUse.Act κ ρ) where
  init s := s = ConsoleUse.start
  step := ConsoleUse.step kind isServerConsole

end CogServer
