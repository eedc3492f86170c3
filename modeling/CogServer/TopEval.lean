import CogServer.ShellKinds
import CogServer.Decimals

/-! The evaluator of the top shell, which has something to say for as long as nobody types. -/
namespace CogServer

open Transition

/-- `strtol` in base ten: what does not fit into a `long` becomes the nearest one that does. -/
def strtol (s : Bytes) : ℤ :=
  let signed := scanSign (s.dropWhile isSpace)
  let digits := digitsValue (signed.2.takeWhile isDigit)
  max (-2 ^ 63) (min (2 ^ 63 - 1) (if signed.1 then -digits else digits))

/-- `std::atoi`, which is `strtol` cut to an `int`. -/
def atoi (s : Bytes) : ℤ := (strtol s).bmod (2 ^ 32)

/-- `std::to_string` of a `size_t`. -/
def sizeText (n : ℕ) : Bytes := if n = 0 then ascii "0" else decimal n

/-- The rest of the server, as `TopEval` uses it. What it shows may be another thing each time. -/
structure TopHost (α : Type*) where
  displayStats : ℤ → α → Bytes × α
  kill : ℤ → α → Bool × α

/-- The state of a `TopEval`; `world` is the rest of the server. -/
structure TopEval (α : Type*) where
  world : α
  nlines : ℤ
  started : Bool
  done : Bool
  msg : Bytes
  caughtError : Bool
  deriving DecidableEq, Repr

namespace TopEval

variable {α : Type*}

def new (w : α) : TopEval α := ⟨w, 24, false, false, [], false⟩

/-- What follows the command, from the first blank on. -/
def argument (expr : Bytes) : Option Bytes :=
  if blank ∈ expr then some (expr.dropWhile (· ≠ blank)) else none

/-- `eval_expr`. The result of `atoi` is kept as a `size_t`, and cut back to an `int` for `kill`. -/
def evalExpr (H : TopHost α) (expr : Bytes) (v : TopEval α) : TopEval α :=
  if expr = [] then v
  else if expr = [newline] then v
  -- what `TopShellModule` sends to begin with
  else if expr = ascii "foo\n" then v
  else if expr.head? = some 104 then { v with msg := ascii "Available commands: display kill" }
  else if expr.head? = some 107 then
    match argument expr with
    | none => { v with msg := ascii "Usage: kill <thread-id>" }
    | some s =>
      let tid : ℕ := (atoi s % 2 ^ 64).toNat
      let (rc, w) := H.kill (Int.bmod tid (2 ^ 32)) v.world
      { v with
        world := w,
        msg := ascii (if rc then "Killed thread " else "No such thread ") ++ sizeText tid }
  else if expr.head? = some 100 then
    match argument expr with
    | none => { v with msg := ascii "Usage: display <num-lines-to-display>" }
    | some s => { v with nlines := atoi s }
  else { v with msg := ascii "Unknown top command >>" ++ expr }

/-- `poll_result`, after its sleep. -/
def pollResult (H : TopHost α) (v : TopEval α) : Bytes × TopEval α :=
  if v.done then ([], v)
  else
    let (stats, w) := H.displayStats v.nlines v.world
    ((if v.started then [] else [newline]) ++ (ascii "\x1b[2J" ++ stats ++ v.msg),
      { v with world := w, started := true, msg := [] })

/-- The user has typed something. -/
def cmd (v : TopEval α) : TopEval α := { v with done := true, started := false }

def interrupt (v : TopEval α) : TopEval α :=
  { v with done := true, started := false, caughtError := true }

theorem evalExpr_done (H : TopHost α) (expr : Bytes) (v : TopEval α) :
    (evalExpr H expr v).done = v.done := by
  unfold evalExpr
  split_ifs <;> first | rfl | (split <;> rfl)

/-- As long as nobody types there is something to show. -/
theorem pollResult_ne_nil (H : TopHost α) {v : TopEval α} (h : v.done = false) :
    (pollResult H v).1 ≠ [] ∧ (pollResult H v).2.done = false := by
  simp [pollResult, h, ascii]

end TopEval

/-- `TopEval` behind its shell. Its base class keeps the error flag, whose text is `errorString`. -/
def topEval {α : Type*} (H : TopHost α) (errorString : Bytes) : GenericEval (TopEval α) where
  beginEval v := { v with done := false }
  work _ v := v
  evalExpr := TopEval.evalExpr H
  throws _ _ := false
  pollResult v := some (TopEval.pollResult H v)
  interrupt := TopEval.interrupt
  clearPending v := { v with caughtError := false }
  inputPending _ := false
  evalError v := v.caughtError
  errorString _ := errorString

/-- Positions of a poll from which it does not come to `finish_eval` without another look at the
evaluator. -/
def PollPc.harmless : PollPc → Bool
  | .check | .finishEval => false
  | _ => true

def PollerPc.harmless : PollerPc → Bool
  | .first p | .second p | .last p => p.harmless
  | _ => true

/-- Positions of the eval thread from the call of `eval_expr` on up to where it waits for the end of
the evaluation. -/
def EvalPc.waits : EvalPc → Bool
  | .call _ _ | .running _ _ | .wakeEnd | .loopTest | .whileNotDone | .cancelReset | .joinPoll
  | .drainSize | .drainTest | .lastTest => true
  | .drainPoll p | .lastPoll p => p.harmless
  | _ => false

/-- Positions of the network thread that are not on the way to `cmd` or to the interrupt of the
evaluator. -/
def NetPc.quiet : NetPc → Bool
  | .idle | .act (.enqueue _ _) | .act (.reply _) | .act .leave | .block _ | .push _ | .afterLine
  | .cancel | .exitMsg | .goodbye | .stall | .dtor | .sentinel | .join => true
  | _ => false

namespace KindShell

variable {α : Type*} {H : TopHost α} {errorString : Bytes} {cfg : ShellConfig}

/-- The top shell shows its table, and nobody is about to type. -/
structure Displaying (s : KindShell (TopEval α)) : Prop where
  evl : s.base.evl.waits = true
  pol : s.base.pol.harmless = true
  net : s.base.net.quiet = true
  evalDone : s.base.evalDone = false
  done : s.base.evaluator.done = false
  todo : s.todo = []
  selfie : s.selfie = false

/-- A poll that finds the table does not end the evaluation. -/
theorem pollAndSend_displaying {b c : Shell (TopEval α)} {p : PollPc} {q : Option PollPc}
    (hdone : b.evaluator.done = false) (hp : p.harmless = true)
    (h : b.pollAndSend (topEval H errorString) cfg p = some (c, q)) :
    c.evaluator.done = false ∧ c.evalDone = b.evalDone ∧ ∀ r, q = some r → r.harmless = true := by
  cases p with
  | getOutput =>
    simp only [Shell.pollAndSend] at h
    split at h <;> cases h <;> exact ⟨hdone, rfl, by rintro _ ⟨⟩; rfl⟩
  | pollResult =>
    obtain ⟨hne, hdone'⟩ := TopEval.pollResult_ne_nil H hdone
    simp only [Shell.pollAndSend, topEval, if_neg hne] at h
    cases h
    exact ⟨hdone', rfl, by rintro _ ⟨⟩; rfl⟩
  | getMore r | prompt =>
    cases h
    exact ⟨hdone, rfl, by rintro _ ⟨⟩; rfl⟩
  | send o r =>
    cases h
    refine ⟨?_, ?_, by rintro _ ⟨⟩⟩
    · unfold Shell.send
      split <;> exact hdone
    · unfold Shell.send
      split <;> rfl
  | check | finishEval => cases hp

variable {b c : Shell (TopEval α)}

theorem pollLoop_displaying (hdone : b.evaluator.done = false) (hpol : b.pol.harmless = true)
    (h : b.pollLoop (topEval H errorString) cfg = some c) :
    c.evaluator.done = false ∧ c.evalDone = b.evalDone ∧ c.pol.harmless = true := by
  cases hp : b.pol with
  | off | exited => simp [Shell.pollLoop, hp] at h
  | enter | wait | unlock =>
    simp only [Shell.pollLoop, hp, Option.some.injEq] at h
    subst h
    exact ⟨hdone, rfl, rfl⟩
  | test | lastTest =>
    simp only [Shell.pollLoop, hp, Option.some.injEq] at h
    subst h
    refine ⟨hdone, rfl, ?_⟩
    dsimp only
    split <;> rfl
  | lock =>
    simp only [Shell.pollLoop, hp] at h
    split at h <;> cases h
    exact ⟨hdone, rfl, rfl⟩
  | first p | second p | last p =>
    rw [hp] at hpol
    simp only [Shell.pollLoop, hp, Option.map_eq_some_iff] at h
    obtain ⟨⟨u, q⟩, hu, rfl⟩ := h
    obtain ⟨hd, he, hq⟩ := pollAndSend_displaying hdone hpol hu
    refine ⟨hd, he, ?_⟩
    cases q with
    | none => rfl
    | some r => exact hq r rfl

theorem evalLoop_displaying (hdone : b.evaluator.done = false) (hundone : b.evalDone = false)
    (hevl : b.evl.waits = true) (h : b.evalLoop (topEval H errorString) cfg = some c) :
    c.evaluator.done = false ∧ c.evalDone = false ∧ c.evl.waits = true ∧ c.net = b.net ∧
      c.pol = b.pol ∧ c.removed = b.removed := by
  cases he : b.evl with
  | call d e =>
    simp only [Shell.evalLoop, he, Option.some.injEq] at h
    subst h
    exact ⟨hdone, hundone, rfl, rfl, rfl, rfl⟩
  | wakeEnd | joinPoll =>
    simp only [Shell.evalLoop, he, Shell.wakePoll] at h
    split at h <;> cases h
    exact ⟨hdone, hundone, rfl, rfl, rfl, rfl⟩
  | loopTest | drainSize =>
    simp only [Shell.evalLoop, he, Option.some.injEq] at h
    subst h
    refine ⟨hdone, hundone, ?_, rfl, rfl, rfl⟩
    dsimp only
    split <;> rfl
  | whileNotDone => simp [Shell.evalLoop, he, hundone] at h
  | cancelReset =>
    simp only [Shell.evalLoop, he, Option.some.injEq] at h
    subst h
    exact ⟨hdone, hundone, rfl, rfl, rfl, rfl⟩
  | drainTest | lastTest =>
    -- the flag that would end the loop is not set
    simp only [Shell.evalLoop, he, hundone, Bool.false_eq_true, ↓reduceIte, Option.some.injEq] at h
    subst h
    exact ⟨hdone, rfl, rfl, rfl, rfl, rfl⟩
  | drainPoll p | lastPoll p =>
    rw [he] at hevl
    simp only [Shell.evalLoop, he, Option.map_eq_some_iff] at h
    obtain ⟨⟨u, q⟩, hu, rfl⟩ := h
    obtain ⟨hd, hud, hq⟩ := pollAndSend_displaying hdone hevl hu
    obtain ⟨hf, -, hpol, -⟩ := Shell.pollAndSend_frame hu
    refine ⟨hd, hud.trans hundone, ?_, hf.net, hpol, hf.removed⟩
    cases q with
    | none => rfl
    | some r => exact hq r rfl
  | running d e => simp [Shell.evalLoop, he] at h
  | off | enter | wakePop | pop | wakeStart e | startEval d e | beginEval d e | caught | unlockPoll
  | drainPop | drainReset | setShell | dropEval | exited =>
    rw [he] at hevl
    cases hevl

theorem evalReturn_displaying (hdone : b.evaluator.done = false) (hundone : b.evalDone = false)
    (h : b.evalReturn (topEval H errorString) = some c) :
    c.evaluator.done = false ∧ c.evalDone = false ∧ c.evl.waits = true ∧ c.net = b.net ∧
      c.pol = b.pol ∧ c.removed = b.removed := by
  cases he : b.evl <;> simp only [Shell.evalReturn, he, reduceCtorEq] at h
  case running d e =>
    have hdone' := (TopEval.evalExpr_done H e b.evaluator).trans hdone
    cases d <;> cases h <;> exact ⟨hdone', hundone, rfl, rfl, rfl, rfl⟩

theorem netStep_displaying (hdone : b.evaluator.done = false) (hundone : b.evalDone = false)
    (hevl : b.evl.waits = true) (hnet : b.net.quiet = true)
    (h : b.netStep (topEval H errorString) cfg = some c) :
    c.evaluator.done = false ∧ c.evalDone = false ∧ c.net.quiet = true ∧ c.removed = b.removed := by
  cases hn : b.net with
  | idle | gone | block e => simp [Shell.netStep, hn] at h
  | spin l | discipline l | junk | checkEval | interrupt | clearPending | putAbort | finishEval =>
    rw [hn] at hnet
    cases hnet
  | act d =>
    rw [hn] at hnet
    cases d with
    | interrupt ok => cases hnet
    | enqueue ok e | leave | reply o =>
      simp only [Shell.netStep, hn, Option.some.injEq] at h
      subst h
      exact ⟨hdone, hundone, rfl, rfl⟩
  | push e | cancel | exitMsg | dtor | sentinel =>
    simp only [Shell.netStep, hn, Option.some.injEq] at h
    subst h
    exact ⟨hdone, hundone, rfl, rfl⟩
  | afterLine =>
    simp only [Shell.netStep, hn, Option.some.injEq] at h
    subst h
    refine ⟨hdone, hundone, ?_, rfl⟩
    dsimp only
    split <;> rfl
  | goodbye =>
    simp only [Shell.netStep, hn, Option.some.injEq] at h
    subst h
    unfold Shell.send
    split <;> exact ⟨hdone, hundone, rfl, rfl⟩
  | stall =>
    simp only [Shell.netStep, hn] at h
    split at h <;> cases h
    exact ⟨hdone, hundone, rfl, rfl⟩
  | join =>
    -- the eval thread is not at its end, so there is no joining it
    simp only [Shell.netStep, hn] at h
    split at h
    · next hend =>
      rcases hend with he | he <;> rw [he] at hevl <;> cases hevl
    · cases h

/-- No step but a line from the client changes anything about it. -/
theorem Displaying.step {s t : KindShell (TopEval α)} {a : Shell.Act} (hs : Displaying s)
    (ha : ∀ l, a ≠ .line l) (h : s.step (topEval H errorString) TopEval.cmd cfg .top a = some t) :
    Displaying t ∧ t.base.removed = s.base.removed := by
  obtain ⟨hevl, hpol, hnet, hundone, hdone, htodo, hselfie⟩ := hs
  unfold KindShell.step at h
  split at h
  · cases h
  next halive =>
  cases a with
  | line l => exact absurd rfl (ha l)
  | close =>
    simp only [Shell.close] at h
    split at h
    · cases h
    split at h <;> cases h
    exact ⟨⟨hevl, hpol, rfl, hundone, hdone, htodo, hselfie⟩, rfl⟩
  | net =>
    simp only [KindShell.netStep] at h
    split at h
    · simp [hand, htodo, hselfie] at h
    · obtain ⟨c, hc, rfl⟩ := Option.map_eq_some_iff.mp h
      have hcall : callStep (topEval H errorString) TopEval.cmd cfg .top s.base =
          s.base.netStep (topEval H errorString) cfg := by
        unfold callStep
        split
        · next hn =>
          rw [hn] at hnet
          cases hnet
        · next hn =>
          rw [hn] at hnet
          cases hnet
        · rfl
      rw [hcall] at hc
      obtain ⟨hd, hu, hq, hr⟩ := netStep_displaying hdone hundone hevl hnet hc
      have hf := Shell.netStep_frame hc
      exact ⟨⟨by rw [hf.evl]; exact hevl, by rw [hf.pol]; exact hpol, hq, hu, hd, htodo, hselfie⟩, hr⟩
  | unbar =>
    obtain ⟨c, hc, rfl⟩ := Option.map_eq_some_iff.mp h
    simp only [Shell.step, halive, Shell.unbar, Bool.false_eq_true, ↓reduceIte] at hc
    split at hc <;> cases hc
    exact ⟨⟨hevl, hpol, rfl, hundone, hdone, htodo, hselfie⟩, rfl⟩
  | eval =>
    obtain ⟨c, hc, rfl⟩ := Option.map_eq_some_iff.mp h
    simp only [Shell.step, halive, Bool.false_eq_true, ↓reduceIte] at hc
    obtain ⟨hd, hu, hw, hn, hp, hr⟩ := evalLoop_displaying hdone hundone hevl hc
    exact ⟨⟨hw, by rw [hp]; exact hpol, by rw [hn]; exact hnet, hu, hd, htodo, hselfie⟩, hr⟩
  | work =>
    obtain ⟨c, hc, rfl⟩ := Option.map_eq_some_iff.mp h
    simp only [Shell.step, halive, Shell.evalWork, Bool.false_eq_true, ↓reduceIte] at hc
    split at hc <;> cases hc
    exact ⟨⟨hevl, hpol, hnet, hundone, hdone, htodo, hselfie⟩, rfl⟩
  | ret =>
    obtain ⟨c, hc, rfl⟩ := Option.map_eq_some_iff.mp h
    simp only [Shell.step, halive, Bool.false_eq_true, ↓reduceIte] at hc
    obtain ⟨hd, hu, hw, hn, hp, hr⟩ := evalReturn_displaying hdone hundone hc
    exact ⟨⟨hw, by rw [hp]; exact hpol, by rw [hn]; exact hnet, hu, hd, htodo, hselfie⟩, hr⟩
  | poll =>
    obtain ⟨c, hc, rfl⟩ := Option.map_eq_some_iff.mp h
    simp only [Shell.step, halive, Bool.false_eq_true, ↓reduceIte] at hc
    obtain ⟨hd, hu, hp⟩ := pollLoop_displaying hdone hpol hc
    obtain ⟨hf, he⟩ := Shell.pollLoop_frame hc
    exact ⟨⟨by rw [he]; exact hevl, hp, by rw [hf.net]; exact hnet, hu.trans hundone, hd, htodo, hselfie⟩,
      hf.removed⟩

/-- Once the table is shown and nothing more is typed, neither the eval thread nor the destructor
comes to its end, and no expression leaves the queue, whatever becomes of the connection. -/
theorem top_holds_on {ready : TopEval α → Prop} {s t : KindShell (TopEval α)} (hs : Displaying s)
    (h : Path (kindSystem (topEval H errorString) TopEval.cmd cfg .top ready)
      (fun _ a => ∀ l, a ≠ .line l) s t) :
    t.base.net ≠ .gone ∧ t.base.evl ≠ .exited ∧ t.base.evalDone = false ∧
      t.base.removed = s.base.removed := by
  have hkeep := h.invariant (fun u => Displaying u ∧ u.base.removed = s.base.removed)
    (fun u a v hu ha hv => by
      obtain ⟨hd, hr⟩ := hu.1.step ha hv
      exact ⟨hd, hr.trans hu.2⟩) ⟨hs, rfl⟩
  obtain ⟨hd, hr⟩ := hkeep
  refine ⟨?_, ?_, hd.evalDone, hr⟩
  · intro hgone
    have hnet := hd.net
    rw [hgone] at hnet
    cases hnet
  · intro hexited
    have hevl := hd.evl
    rw [hexited] at hevl
    cases hevl

/-- What the constructor of `TopShell` sets up. Its destructor does not stall. -/
def topConfig : ShellConfig := ⟨[], ascii "top> ", [], true, true, true, false⟩

/-- A server without connections. -/
def emptyHost : TopHost Unit := ⟨fun _ w => ([], w), fun _ w => (false, w)⟩

/-- What `TopShellModule` sends, up to the call of `eval_expr`. -/
def startTop : List Shell.Act :=
  [.line (ascii "foo"), .net, .eval, .poll, .net, .net, .net, .unbar, .net, .net] ++ List.replicate 6 .eval

/-- The client hangs up while the table is shown. -/
theorem top_holds_on_close : ∃ s t,
    Reach (kindSystem (topEval emptyHost []) TopEval.cmd topConfig .top fun _ => True) anyStep s ∧
      s.base.removed = [(ascii "foo\n", true)] ∧ t = { s with base := { s.base with net := .stall } } ∧
      t.base.net ≠ .gone ∧ t.base.evl ≠ .exited ∧ t.base.evalDone = false ∧
      t.base.removed = s.base.removed := by
  have hx : (exec (kindSystem (topEval emptyHost []) TopEval.cmd topConfig .top fun _ => True)
      (fresh (TopEval.new ())) startTop).map (fun s => (s.base.evl, s.base.pol, s.base.net,
        [s.base.evalDone, s.base.evaluator.done, s.selfie, s.base.escaped, decide (s.todo ≠ []),
          decide (s.base.removed ≠ [(ascii "foo\n", true)])])) =
      some (.call .serving (ascii "foo\n"), .lock, .idle, List.replicate 6 false) := by decide +kernel
  obtain ⟨s, hs, hfields⟩ := Option.map_eq_some_iff.mp hx
  simp only [Prod.mk.injEq, List.replicate, List.cons.injEq, and_true, decide_eq_false_iff_not, ne_eq,
    not_not] at hfields
  obtain ⟨hevl, hpol, hnet, hundone, hdone, hselfie, hescaped, htodo, hremoved⟩ := hfields
  have hd : Displaying s :=
    ⟨by rw [hevl]; rfl, by rw [hpol]; rfl, by rw [hnet]; rfl, hundone, hdone, htodo, hselfie⟩
  have hclose : s.step (topEval emptyHost []) TopEval.cmd topConfig .top .close =
      some { s with base := { s.base with net := .stall } } := by
    simp [KindShell.step, Shell.close, hnet, htodo, hselfie, hescaped]
  have hpath : Path (kindSystem (topEval emptyHost []) TopEval.cmd topConfig .top fun _ => True)
      (fun _ a => ∀ l, a ≠ .line l) s { s with base := { s.base with net := .stall } } :=
    .single (a := .close) (by rintro l ⟨⟩) hclose
  exact ⟨s, _, reach_of_exec startTop ⟨_, trivial, rfl⟩ hs, hremoved, rfl, top_holds_on hd hpath⟩

end KindShell

end CogServer
