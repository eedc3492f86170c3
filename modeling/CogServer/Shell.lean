import CogServer.Transition
import CogServer.CancelQueue
import CogServer.LineDiscipline

/-! The three threads of one shell: the network thread that feeds it, its eval
thread and its poll thread. One step of a thread is one section under a mutex,
one queue operation, one call into the evaluator or one access to a flag. -/
namespace CogServer

open Transition

/-- The evaluator behind a shell. `evalExpr` is the state in which `eval_expr`
ends, `throws` whether it ends by a `RuntimeException`, `work` what a running
`eval_expr` does meanwhile, and a `pollResult` of `none` is a blocked call. -/
structure GenericEval (σ : Type*) where
  beginEval : σ → σ
  work : Bytes → σ → σ
  evalExpr : Bytes → σ → σ
  throws : Bytes → σ → Bool
  pollResult : σ → Option (Bytes × σ)
  interrupt : σ → σ
  clearPending : σ → σ
  inputPending : σ → Bool
  evalError : σ → Bool
  errorString : σ → Bytes

/-- What the derived shell sets up. `stalls` says whether its destructor
begins with `while_not_done()`. -/
structure ShellConfig where
  abortPrompt : Bytes
  normalPrompt : Bytes
  pendingPrompt : Bytes
  showOutput : Bool
  showPrompt : Bool
  applyDiscipline : Bool
  stalls : Bool
  deriving DecidableEq, Repr

/-- Positions in `poll_and_send` and in the `poll_output` it calls. `result` is what
the evaluator gave. -/
inductive PollPc
  | getOutput | pollResult | getMore (result : Bytes) | check | finishEval | prompt
  | send (out result : Bytes)
  deriving DecidableEq, Repr

/-- Positions of the poll thread in `poll_loop`. -/
inductive PollerPc
  | off | enter | lock | test | first (p : PollPc) | second (p : PollPc) | wait | unlock
  | last (p : PollPc) | lastTest | exited
  deriving DecidableEq, Repr

/-- The two loops of `eval_loop`. -/
inductive Phase
  | serving | draining
  deriving DecidableEq, Repr

/-- Positions of the eval thread in `eval_loop`. -/
inductive EvalPc
  | off | enter
  | whileNotDone | wakePop | pop | wakeStart (e : Bytes)
  | startEval (d : Phase) (e : Bytes) | beginEval (d : Phase) (e : Bytes)
  | call (d : Phase) (e : Bytes) | running (d : Phase) (e : Bytes)
  | wakeEnd | caught | unlockPoll | loopTest
  | cancelReset | joinPoll | drainSize | drainPoll (p : PollPc) | drainTest | drainPop | drainReset
  | lastPoll (p : PollPc) | lastTest | setShell | dropEval | exited
  deriving DecidableEq, Repr

/-- Positions of the network thread in `eval`, `line_discipline`,
`enqueue_work`, `user_interrupt` and the destructor. -/
inductive NetPc
  | idle | spin (l : Bytes) | discipline (l : Bytes) | act (d : Discipline)
  | block (e : Bytes) | push (e : Bytes) | afterLine
  | cancel | exitMsg
  | junk | checkEval | interrupt | clearPending | putAbort | finishEval
  | goodbye | stall | dtor | sentinel | join | gone
  deriving DecidableEq, Repr

/-- A shell, with the positions of its threads. `pollLocked` says whether the
poll thread holds `_poll_mtx`, `attached` whether the socket still points to
the shell, `hasEvaluator` whether `_evaluator` is set. The fields from
`pushed` on only record what happened. -/
structure Shell (σ : Type*) where
  pendingOutput : Bytes
  evalque : CancelQueue Bytes
  initDone : Bool
  selfDestruct : Bool
  pollLocked : Bool
  evalDone : Bool
  hasEvaluator : Bool
  evaluator : σ
  attached : Bool
  net : NetPc
  evl : EvalPc
  pol : PollerPc
  /-- An exception left a thread's top function: the process is dead. -/
  escaped : Bool
  /-- Some thread unlocked `_poll_mtx` without holding it. -/
  strayUnlock : Bool
  /-- What `enqueue_work` pushed. -/
  pushed : List Bytes
  /-- The expressions that left the queue, and whether the eval thread popped
  them; if not, `user_interrupt` discarded them. -/
  removed : List (Bytes × Bool)
  /-- What was passed to `eval_expr`. -/
  passed : List Bytes
  /-- What `eval_expr` is done with. -/
  ended : List Bytes
  /-- How often `_eval_done` went from false to true. -/
  acks : ℕ
  /-- What went to the socket, and the part of it that the evaluator gave. -/
  sent : List (Bytes × Bytes)
  deriving DecidableEq, Repr

namespace Shell

variable {σ : Type*}

/-- A shell on its socket before the first line reaches it. -/
def fresh (v : σ) : Shell σ where
  pendingOutput := []
  evalque := .empty
  initDone := false
  selfDestruct := false
  pollLocked := false
  evalDone := true
  hasEvaluator := false
  evaluator := v
  attached := true
  net := .idle
  evl := .off
  pol := .off
  escaped := false
  strayUnlock := false
  pushed := []
  removed := []
  passed := []
  ended := []
  acks := 0
  sent := []

def putOutput (s : Shell σ) (o : Bytes) : Shell σ :=
  { s with pendingOutput := s.pendingOutput ++ o }

def finishEval (s : Shell σ) : Shell σ :=
  { s with evalDone := true, acks := if s.evalDone then s.acks else s.acks + 1 }

def send (s : Shell σ) (o result : Bytes) : Shell σ :=
  if sendable o then { s with sent := s.sent ++ [(o, result)] } else s

/-- The empty string is a wake-up signal and no expression. -/
def noteRemoved (s : Shell σ) (e : Bytes) (popped : Bool) : Shell σ :=
  if e = [] then s else { s with removed := s.removed ++ [(e, popped)] }

def queued (s : Shell σ) : ℕ := s.evalque.size

/-- `ConsoleSocket::busyShell` -/
def busyShell (s : Shell σ) : Bool := s.attached && (decide (0 < s.queued) || !s.evalDone)

/-- `get_prompt` -/
def getPrompt (E : GenericEval σ) (cfg : ShellConfig) (s : Shell σ) : Bytes :=
  if !cfg.showPrompt then []
  else if s.hasEvaluator && E.inputPending s.evaluator then cfg.pendingPrompt
  else cfg.normalPrompt

/-- `poll_and_send`. The second component is the position after the step,
`none` when the call returns. -/
def pollAndSend (E : GenericEval σ) (cfg : ShellConfig) (s : Shell σ) :
    PollPc → Option (Shell σ × Option PollPc)
  | .getOutput =>
    if s.pendingOutput = [] then some (s, some .pollResult)
    else some ({ s with pendingOutput := [] }, some (.send s.pendingOutput []))
  | .pollResult =>
    match E.pollResult s.evaluator with
    | none => none
    | some (r, v) =>
      some ({ s with evaluator := v }, some (if r = [] then .check else .getMore r))
  | .getMore r => some ({ s with pendingOutput := [] }, some (.send (s.pendingOutput ++ r) r))
  | .check =>
    if s.evalDone then
      if E.evalError s.evaluator then
        some ({ s with evaluator := E.clearPending s.evaluator },
          some (.send (if cfg.showOutput then E.errorString s.evaluator else []) []))
      else some (s, some (.send [] []))
    else some (s, some .finishEval)
  | .finishEval => some (s.finishEval, some .prompt)
  | .prompt =>
    some (s, some (.send (if cfg.showOutput && cfg.showPrompt then
      if E.inputPending s.evaluator then cfg.pendingPrompt else cfg.normalPrompt else []) []))
  | .send o r => some (s.send o r, none)

/-- `poll_loop`. `wait_for` gives up the mutex and may end at any time. -/
def pollLoop (E : GenericEval σ) (cfg : ShellConfig) (s : Shell σ) : Option (Shell σ) :=
  match s.pol with
  | .off => none
  | .enter => some { s with initDone := true, pol := .lock }
  | .lock => if s.pollLocked then none else some { s with pollLocked := true, pol := .test }
  | .test => some { s with pol := if s.selfDestruct then .unlock else .first .getOutput }
  | .first p => (pollAndSend E cfg s p).map fun r =>
      { r.1 with pol := match r.2 with | some q => .first q | none => .second .getOutput }
  | .second p => (pollAndSend E cfg s p).map fun r =>
      { r.1 with pol := match r.2 with | some q => .second q | none => .wait }
  | .wait =>
    some { s with pollLocked := false, strayUnlock := s.strayUnlock || !s.pollLocked, pol := .lock }
  | .unlock =>
    some { s with
      pollLocked := false, strayUnlock := s.strayUnlock || !s.pollLocked, pol := .last .getOutput }
  | .last p => (pollAndSend E cfg s p).map fun r =>
      { r.1 with pol := match r.2 with | some q => .last q | none => .lastTest }
  | .lastTest => some { s with pol := if s.evalDone then .exited else .last .getOutput }
  | .exited => none

/-- `wake_poll`, which needs the mutex for a moment. -/
def wakePoll (s : Shell σ) (next : EvalPc) : Option (Shell σ) :=
  if s.pollLocked then none else some { s with evl := next }

/-- `eval_loop`, except for a running `eval_expr`. -/
def evalLoop (E : GenericEval σ) (cfg : ShellConfig) (s : Shell σ) : Option (Shell σ) :=
  match s.evl with
  | .off => none
  | .enter =>
    some { s with
      hasEvaluator := true, evaluator := E.clearPending s.evaluator, pol := .enter,
      evl := .whileNotDone }
  | .whileNotDone => if s.evalDone then some { s with evl := .wakePop } else none
  | .wakePop => s.wakePoll .pop
  | .pop =>
    match s.evalque.pop with
    | .item e q =>
      some { s.noteRemoved e true with
        evalque := q, evl := if e = [] then .loopTest else .wakeStart e }
    | .cancelled => some { s with evl := .cancelReset }
    | .blocked => none
  | .wakeStart e => s.wakePoll (.startEval .serving e)
  | .startEval d e =>
    -- The failed assertion is an exception that nobody catches.
    if s.evalDone then some { s with evalDone := false, evl := .beginEval d e }
    else some { s with escaped := true }
  | .beginEval d e => some { s with evaluator := E.beginEval s.evaluator, evl := .call d e }
  | .call d e => some { s with passed := s.passed ++ [e], evl := .running d e }
  | .running _ _ => none
  | .wakeEnd => s.wakePoll .loopTest
  | .caught => some { s.finishEval with evl := .unlockPoll }
  | .unlockPoll => some { s with pollLocked := false, strayUnlock := true, evl := .loopTest }
  | .loopTest => some { s with evl := if s.selfDestruct then .cancelReset else .whileNotDone }
  | .cancelReset => some { s with evalque := s.evalque.cancelReset, evl := .joinPoll }
  | .joinPoll => if s.pol = .exited then some { s with evl := .drainSize } else none
  | .drainSize =>
    some { s with evl := if 0 < s.evalque.size then .drainPoll .getOutput else .lastPoll .getOutput }
  | .drainPoll p => (pollAndSend E cfg s p).map fun r =>
      { r.1 with evl := match r.2 with | some q => .drainPoll q | none => .drainTest }
  | .drainTest => some { s with evl := if s.evalDone then .drainPop else .drainPoll .getOutput }
  | .drainPop =>
    match s.evalque.pop with
    | .item e q =>
      some { s.noteRemoved e true with
        evalque := q, evl := if e = [] then .drainSize else .startEval .draining e }
    | .cancelled => some { s with evl := .drainReset }
    | .blocked => none
  | .drainReset => some { s with evalque := s.evalque.cancelReset, evl := .drainSize }
  | .lastPoll p => (pollAndSend E cfg s p).map fun r =>
      { r.1 with evl := match r.2 with | some q => .lastPoll q | none => .lastTest }
  | .lastTest => some { s with evl := if s.evalDone then .setShell else .lastPoll .getOutput }
  | .setShell => some { s with attached := false, evl := .dropEval }
  | .dropEval => some { s with hasEvaluator := false, evl := .exited }
  | .exited => none

/-- The end of a running `eval_expr`. Only the first loop catches exceptions. -/
def evalReturn (E : GenericEval σ) (s : Shell σ) : Option (Shell σ) :=
  match s.evl with
  | .running d e =>
    let t := { s with evaluator := E.evalExpr e s.evaluator, ended := s.ended ++ [e] }
    if E.throws e s.evaluator then
      match d with
      | .serving => some { t with evl := .caught }
      | .draining => some { t with escaped := true }
    else
      match d with
      | .serving => some { t with evl := .wakeEnd }
      | .draining => some { t with evl := .drainSize }
  | _ => none

/-- A running `eval_expr` goes on. -/
def evalWork (E : GenericEval σ) (s : Shell σ) : Option (Shell σ) :=
  match s.evl with
  | .running _ e => some { s with evaluator := E.work e s.evaluator }
  | _ => none

/-- `eval` is called with a line: the first line makes the eval thread. -/
def evalLine (s : Shell σ) (l : Bytes) : Option (Shell σ) :=
  if s.net ≠ .idle then none
  else if s.hasEvaluator then some { s with net := .discipline l }
  else some { s with initDone := false, evl := .enter, net := .spin l }

/-- The connection is gone, so the socket deletes its shell. -/
def close (s : Shell σ) : Option (Shell σ) :=
  if s.net ≠ .idle then none else some { s with net := .stall }

/-- `block_on_bar` returns. -/
def unbar (s : Shell σ) : Option (Shell σ) :=
  match s.net with
  | .block e => some { s with net := .push e }
  | _ => none

/-- The network thread in `eval`, `line_discipline`, `enqueue_work`,
`user_interrupt` and the destructor. -/
def netStep (E : GenericEval σ) (cfg : ShellConfig) (s : Shell σ) : Option (Shell σ) :=
  match s.net with
  | .idle => none
  | .spin l => if s.initDone then some { s with net := .discipline l } else none
  | .discipline l =>
    some { s with
      net := .act (if cfg.applyDiscipline then
        lineDiscipline (s.getPrompt E cfg) (E.inputPending s.evaluator) l else .enqueue [] l) }
  | .act (.enqueue ok e) => some { s.putOutput ok with net := .block e }
  | .act .leave => some { s with selfDestruct := true, net := .cancel }
  | .act (.interrupt ok) => some { s.putOutput ok with net := .junk }
  | .act (.reply o) => some { s.putOutput o with net := .afterLine }
  | .block _ => none
  | .push e =>
    some { s with
      evalque := s.evalque.pushOrDrop e,
      pushed := if s.evalque.cancelled then s.pushed else s.pushed ++ [e], net := .afterLine }
  | .afterLine => some { s with net := if s.selfDestruct then .goodbye else .idle }
  | .cancel => some { s with evalque := s.evalque.cancel, net := .exitMsg }
  | .exitMsg =>
    some { s.putOutput (if cfg.showPrompt then ascii "Exiting the shell\n" else []) with
      net := .afterLine }
  | .junk =>
    match s.evalque.items with
    | [] => some { s with net := .checkEval }
    | e :: rest =>
      some { s.noteRemoved e false with evalque := { s.evalque with items := rest } }
  | .checkEval => some { s with net := if s.hasEvaluator then .interrupt else .afterLine }
  | .interrupt => some { s with evaluator := E.interrupt s.evaluator, net := .clearPending }
  | .clearPending => some { s with evaluator := E.clearPending s.evaluator, net := .putAbort }
  | .putAbort => some { s.putOutput cfg.abortPrompt with net := .finishEval }
  | .finishEval => some { s.finishEval with net := .afterLine }
  | .goodbye => some { s.send (ascii "goodbye!\n") [] with net := .stall }
  | .stall => if cfg.stalls && !s.evalDone then none else some { s with net := .dtor }
  | .dtor => some { s with selfDestruct := true, net := .sentinel }
  | .sentinel => some { s with evalque := s.evalque.pushOrDrop [], net := .join }
  | .join => if s.evl = .off ∨ s.evl = .exited then some { s with net := .gone } else none
  | .gone => none

/-- Which thread runs, and what the outside chooses for it. -/
inductive Act
  | line (l : Bytes) | close | unbar | net | eval | work | ret | poll
  deriving DecidableEq, Repr

/-- One step of one of the threads. Nothing runs in a dead process. -/
def step (E : GenericEval σ) (cfg : ShellConfig) (s : Shell σ) (a : Act) : Option (Shell σ) :=
  if s.escaped then none
  else match a with
  | .line l => s.evalLine l
  | .close => s.close
  | .unbar => s.unbar
  | .net => s.netStep E cfg
  | .eval => s.evalLoop E cfg
  | .work => s.evalWork E
  | .ret => s.evalReturn E
  | .poll => s.pollLoop E cfg

end Shell

/-- The runs of one shell, from any state of its evaluator that is `ready`. -/
def shellSystem {σ : Type*} (E : GenericEval σ) (cfg : ShellConfig) (ready : σ → Prop) :
    System (Shell σ) Shell.Act where
  init s := ∃ v, ready v ∧ s = Shell.fresh v
  step := Shell.step E cfg

end CogServer
