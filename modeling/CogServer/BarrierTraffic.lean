import CogServer.GlobalBarrier
import CogServer.RecvBarrierRounds
import Mathlib.Algebra.BigOperators.Group.Finset.Basic

/-! The commands of any number of s-expression shells on their way to the two barriers: each
socket has a network thread that waits in `block_on_bar` before it queues a command, an eval
thread that may wait in either barrier, and a poll thread that notes the end of an evaluation. -/
namespace CogServer

open Transition

/-- A command, by the barrier that its evaluation calls. -/
inductive BarrierCommand
  | other | recv (n : UInt8) (uuid : Bytes) | global
  deriving DecidableEq, Repr

/-- It is a `cog-barrier` of this UUID. -/
def BarrierCommand.names (u : Bytes) : BarrierCommand → Bool
  | .recv _ v => v = u
  | .other | .global => false

def BarrierCommand.uuid : BarrierCommand → Option Bytes
  | .recv _ u => some u
  | .other | .global => none

/-- Positions of a network thread: at its socket, in `block_on_bar`, and behind it. -/
inductive EnqueuePc
  | reading | blocked (c : BarrierCommand) | pushing (c : BarrierCommand)
  deriving DecidableEq, Repr

/-- Positions of an eval thread: at the queue, before and behind `start_eval`, in a barrier, and
waiting for the poll thread. -/
inductive EvaluationPc
  | idle | popped (c : BarrierCommand) | started (c : BarrierCommand) | inside (c : BarrierCommand) | returned
  deriving DecidableEq, Repr

/-- The commands that the clients are still to send, the threads, the queues, and the barriers. -/
structure Traffic (ι : Type*) where
  script : ι → List BarrierCommand
  net : ι → EnqueuePc
  queue : ι → List BarrierCommand
  eval : ι → EvaluationPc
  evalDone : ι → Bool
  bar : GlobalBarrier ι
  recv : RecvBarriers ι

namespace Traffic

variable {ι : Type*}

def start [DecidableEq ι] (script : ι → List BarrierCommand) : Traffic ι where
  script := script
  net _ := .reading
  queue _ := []
  eval _ := .idle
  evalDone _ := true
  bar := .start
  recv := .start

inductive Act (ι : Type*)
  | net (i : ι) | eval (i : ι) | poll (i : ι)
  /-- A wait in `recv_barrier` returns without having been notified. -/
  | spurious (i : ι)
  deriving DecidableEq, Repr

/-- `busyShell` -/
def busy (w : Traffic ι) (i : ι) : Bool := w.queue i ≠ [] || !w.evalDone i

variable [DecidableEq ι]

/-- `enqueue_work` with the next command of the client. -/
def netStep (w : Traffic ι) (i : ι) : Option (Traffic ι) :=
  match w.net i, w.script i with
  | .reading, c :: cs =>
    some { w with net := Function.update w.net i (.blocked c), script := Function.update w.script i cs }
  | .reading, [] => none
  | .blocked c, _ => if w.bar.active then none else some { w with net := Function.update w.net i (.pushing c) }
  | .pushing c, _ =>
    some { w with
      net := Function.update w.net i .reading, queue := Function.update w.queue i (w.queue i ++ [c]) }

def goto (w : Traffic ι) (i : ι) (p : EvaluationPc) : Traffic ι :=
  { w with eval := Function.update w.eval i p }

variable [Fintype ι]

/-- The eval thread: the queue, and the evaluation of a command. -/
def evalStep (w : Traffic ι) (i : ι) : Option (Traffic ι) :=
  match w.eval i with
  | .idle =>
    match w.queue i with
    | c :: q => some { w.goto i (.popped c) with queue := Function.update w.queue i q }
    | [] => none
  | .popped c => some { w.goto i (.started c) with evalDone := Function.update w.evalDone i false }
  | .started .other => some (w.goto i .returned)
  | .started (.recv n u) =>
    (w.recv.step (.call i n u)).map fun r => { w.goto i (.inside (.recv n u)) with recv := r }
  | .started .global => (w.bar.step (.call i)).map fun b => { w.goto i (.inside .global) with bar := b }
  | .inside (.recv _ _) =>
    if w.recv.caller i = .out then some (w.goto i .returned)
    else (w.recv.step (.wake i)).map fun r => { w with recv := r }
  | .inside .global =>
    if w.bar.pc i = none then some (w.goto i .returned)
    else (w.bar.step (.run i (fun _ => true) w.busy)).map fun b => { w with bar := b }
  | .inside .other => none
  -- `while_not_done`
  | .returned => if w.evalDone i then some (w.goto i .idle) else none

/-- The poll thread notes the end of an evaluation. With an evaluator whose `poll_result` does not
block it may do so early. -/
def pollStep (early : ι → Bool) (w : Traffic ι) (i : ι) : Option (Traffic ι) :=
  if w.evalDone i = false ∧ (w.eval i = .returned ∨ early i = true) then
    some { w with evalDone := Function.update w.evalDone i true }
  else none

def step (early : ι → Bool) (w : Traffic ι) : Act ι → Option (Traffic ι)
  | .net i => w.netStep i
  | .eval i => w.evalStep i
  | .poll i => w.pollStep early i
  | .spurious i =>
    match w.eval i with
    | .inside (.recv _ _) => (w.recv.step (.spurious i)).map fun r => { w with recv := r }
    | _ => none

end Traffic

/-- Clients that send these commands. -/
def trafficSystem {ι : Type*} [DecidableEq ι] [Fintype ι] (early : ι → Bool) (script : ι → List BarrierCommand) :
    System (Traffic ι) (Traffic.Act ι) where
  init w := w = Traffic.start script
  step := Traffic.step early

/-- How many sockets the clients send the barrier of a UUID on. -/
def senders {ι : Type*} [Fintype ι] (script : ι → List BarrierCommand) (u : Bytes) : ℕ :=
  ∑ i, (script i).countP (BarrierCommand.names u)

/-- The clients send each `(cog-barrier n "uuid")` on exactly `n` sockets. -/
def Promised {ι : Type*} [Fintype ι] (script : ι → List BarrierCommand) : Prop :=
  ∀ i n u, .recv n u ∈ script i →
    n.toNat = senders script u ∧ (script i).countP (BarrierCommand.names u) = 1

/-- All sockets get the barriers of different UUIDs in one order. -/
def InOrder {ι : Type*} (rank : Bytes → ℕ) (script : ι → List BarrierCommand) : Prop :=
  ∀ i, ((script i).filterMap BarrierCommand.uuid).Pairwise fun u v => rank u < rank v

namespace Traffic

variable {ι : Type*} {w : Traffic ι}

/-- The command that is in a barrier. -/
def current (w : Traffic ι) (i : ι) : List BarrierCommand :=
  match w.eval i with
  | .inside c => [c]
  | _ => []

/-- The commands behind `block_on_bar` that are not evaluated yet. -/
def passed (w : Traffic ι) (i : ι) : List BarrierCommand :=
  (match w.eval i with
    | .popped c | .started c => [c]
    | _ => []) ++ w.queue i ++
  match w.net i with
  | .pushing c => [c]
  | _ => []

/-- The commands that `block_on_bar` can still keep back. -/
def unpassed (w : Traffic ι) (i : ι) : List BarrierCommand :=
  (match w.net i with
    | .blocked c => [c]
    | _ => []) ++ w.script i

/-- The rest of the barrier that a command belongs to is behind `block_on_bar`, and not behind
the command that socket `i` evaluates. -/
def clear (w : Traffic ι) (i : ι) : BarrierCommand → Prop
  | .recv _ u => (∀ k, ∀ d ∈ w.unpassed k, d.names u = false) ∧ ∀ d ∈ w.passed i, d.names u = false
  | .other | .global => True

/-- The barriers that other sockets have begun with are clear of socket `i`. -/
def Sealed (w : Traffic ι) (i : ι) : Prop :=
  ∀ j, j ≠ i → ∀ c ∈ w.current j ++ w.passed j, w.clear i c

/-- A caller sets `_global_barrier_active` only where the barriers that others have begun with are
clear of it, and while no other caller is about to release it. -/
def setsClear (w : Traffic ι) : Act ι → Prop
  | .eval i => w.eval i = .inside .global → w.bar.pc i = some .setActive →
      (∀ j, w.bar.pc j ≠ some .release) ∧ w.Sealed i
  | .net _ | .poll _ | .spurious _ => True

/-- Some thread is in `recv_barrier`, `global_barrier` or `block_on_bar`. -/
def Waiting (w : Traffic ι) : Prop :=
  ∃ i, w.recv.caller i ≠ .out ∨ w.bar.pc i ≠ none ∨ ∃ c, w.net i = .blocked c

variable [DecidableEq ι] [Fintype ι]

/-- No thread changes the state any more. The scan of `global_barrier` may be repeated. -/
def Stuck (early : ι → Bool) (w : Traffic ι) : Prop := ∀ a u, w.step early a = some u → u = w

def Deadlocked (early : ι → Bool) (w : Traffic ι) : Prop := w.Waiting ∧ w.Stuck early

instance (i : ι) (c : BarrierCommand) : Decidable (w.clear i c) :=
  match c with
  | .recv _ _ => inferInstanceAs (Decidable ((∀ _, _) ∧ _))
  | .other | .global => .isTrue trivial

instance (i : ι) : Decidable (w.Sealed i) := inferInstanceAs (Decidable (∀ _, _))

instance (a : Act ι) : Decidable (w.setsClear a) :=
  match a with
  | .eval _ => inferInstanceAs (Decidable (_ → _ → _))
  | .net _ | .poll _ | .spurious _ => .isTrue trivial

end Traffic

end CogServer
