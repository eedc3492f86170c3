import CogServer.Transition
import Mathlib.Data.List.Nodup
import Mathlib.Logic.Function.Basic

/-! The messages to a `CogServerNode`, the loops that they start, and the network servers that these
stop and delete. -/
namespace CogServer

open Transition

/-- The members that point to network servers. -/
inductive ServerPort
  | mcp | web | console
  deriving DecidableEq, Repr

/-- In the order in which `serverLoop` goes through them. -/
def ServerPort.all : List ServerPort := [.mcp, .web, .console]

theorem ServerPort.mem_all (p : ServerPort) : p ∈ all := by
  cases p <;> decide

/-- Where a `serverLoop` is. -/
inductive MainLoopPc
  | absent | looping
  /-- Between the two statements of `stop`, which a shutdown request calls in the loop or in the
  drain. -/
  | shutting (draining : Bool)
  /-- Before `cancel_reset`. -/
  | reset
  | stop (todo : List ServerPort)
  | drain
  | delete (todo : List ServerPort)
  /-- The members are set to null. -/
  | clear (todo : List ServerPort)
  | finished
  deriving DecidableEq, Repr

namespace MainLoopPc

def executing : MainLoopPc → Bool
  | absent | finished => false
  | _ => true

def todo : MainLoopPc → List ServerPort
  | stop todo | delete todo | clear todo => todo
  | _ => []

/-- The loop has called `stop_listening` of the server that the member points to. -/
def hasStopped (p : ServerPort) : MainLoopPc → Bool
  | stop todo => p ∉ todo
  | shutting draining => draining
  | drain | delete _ | clear _ | finished => true
  | absent | looping | reset => false

/-- The loop has deleted it. -/
def hasDeleted (p : ServerPort) : MainLoopPc → Bool
  | delete todo => p ∉ todo
  | clear _ | finished => true
  | absent | looping | shutting _ | reset | stop _ | drain => false

end MainLoopPc

/-- A `NetworkServer` that was made for a loop, and the loops that stopped it and deleted it. -/
structure ServerLife where
  creator : ℕ
  stopped : List ℕ
  deleted : List ℕ
  deriving DecidableEq, Repr

/-- Where a message is. A `*-run-*` goes on as the loop that it calls, while other messages come
in. -/
inductive MessagePc
  | idle
  /-- Before `set_running`, in `startServers`, and before the loop; of a `*-run-*` or a
  `*-start-*`. -/
  | setRunning (run : Bool) | enabling (run : Bool) (todo : List ServerPort) | spawn (run : Bool)
  /-- In a `*-stop-*`, before the test, before both statements of `stop`, and in `join`. -/
  | stopTest | stopping | cancelling | joining
  deriving DecidableEq, Repr

namespace MessagePc

/-- The message is about to start a loop. -/
def starting : MessagePc → Bool
  | enabling _ _ | spawn _ => true
  | _ => false

/-- A `*-start-*` that makes a thread. -/
def threading : MessagePc → Bool
  | enabling false _ | spawn false => true
  | _ => false

/-- A `*-stop-*` that has found the server running. -/
def stops : MessagePc → Bool
  | stopping | cancelling | joining => true
  | _ => false

end MessagePc

/-- What becomes of a server that `startServers` is to make. -/
inductive Enabled
  | made | noPort | throws
  deriving DecidableEq, Repr

/-- The node. Loops and network servers are numbered in the order in which they are made. -/
structure CogServerNode where
  message : MessagePc
  running : Bool
  queueCancelled : Bool
  member : ServerPort → Option ℕ
  server : ℕ → ServerLife
  nextServer : ℕ
  loop : ℕ → MainLoopPc
  nextLoop : ℕ
  /-- The loop has a thread that a `*-start-*` made. -/
  thread : ℕ → Bool
  joined : ℕ → Bool
  mainLoop : Option ℕ

namespace CogServerNode

inductive Act
  | start | stop | run
  /-- The message goes on; `enable` is its next call of an `enable...Server`. -/
  | message | enable (e : Enabled)
  | loop (l : ℕ)
  /-- A shutdown request is executed by a loop. -/
  | shutdown (l : ℕ)
  deriving DecidableEq, Repr

def goto (s : CogServerNode) (l : ℕ) (pc : MainLoopPc) : CogServerNode :=
  { s with loop := Function.update s.loop l pc }

def setServer (s : CogServerNode) (v : ℕ) (life : ServerLife) : CogServerNode :=
  { s with server := Function.update s.server v life }

/-- A new network server, for the loop that is about to start. -/
def newServer (s : CogServerNode) (p : ServerPort) : CogServerNode :=
  { s with
    member := Function.update s.member p (some s.nextServer)
    server := Function.update s.server s.nextServer ⟨s.nextLoop, [], []⟩
    nextServer := s.nextServer + 1 }

/-- `enableNetworkServer` and the like. What they throw is caught in `startServers`. -/
def enableStep (s : CogServerNode) (e : Enabled) : Option CogServerNode :=
  match s.message with
  | .enabling run (p :: todo) =>
    if (s.member p).isSome then some { s with message := .enabling run todo }
    else
      match e with
      | .made => some { s.newServer p with message := .enabling run todo }
      | .noPort => some { s with message := .enabling run todo }
      | .throws => some { s with message := .spawn run }
  | _ => none

def messageStep (s : CogServerNode) : Option CogServerNode :=
  match s.message with
  | .setRunning run =>
    -- a `*-run-*` does not look at what `startServers` returns
    if s.running then some { s with message := if run then .spawn run else .idle }
    else some { s with running := true, message := .enabling run [.console, .web, .mcp] }
  | .enabling run [] => some { s with message := .spawn run }
  | .spawn run =>
    some { s.goto s.nextLoop .looping with
      message := .idle
      nextLoop := s.nextLoop + 1
      thread := Function.update s.thread s.nextLoop (!run)
      mainLoop := if run then s.mainLoop else some s.nextLoop }
  | .stopTest => some { s with message := if s.running then .stopping else .idle }
  | .stopping => some { s with running := false, message := .cancelling }
  | .cancelling => some { s with queueCancelled := true, message := .joining }
  | .joining =>
    match s.mainLoop with
    | some l =>
      if s.loop l = .finished then
        some { s with joined := Function.update s.joined l true, mainLoop := none, message := .idle }
      else none
    | none => some { s with message := .idle }
  | .idle | .enabling _ (_ :: _) => none

/-- A step of the loop `l` from its place. -/
def loopStep (s : CogServerNode) (l : ℕ) : Option CogServerNode :=
  match s.loop l with
  | .looping => if s.running = false ∨ s.queueCancelled then some (s.goto l .reset) else none
  | .shutting draining =>
    some { s.goto l (if draining then .drain else .looping) with queueCancelled := true }
  | .reset => some { s.goto l (.stop ServerPort.all) with queueCancelled := false }
  | .stop (p :: todo) =>
    match s.member p with
    | some v =>
      some ((s.setServer v { s.server v with
        stopped := (s.server v).stopped ++ [l] }).goto l (.stop todo))
    | none => some (s.goto l (.stop todo))
  | .stop [] => some (s.goto l .drain)
  | .drain => some (s.goto l (.delete ServerPort.all))
  | .delete (p :: todo) =>
    match s.member p with
    | some v =>
      some ((s.setServer v { s.server v with
        deleted := (s.server v).deleted ++ [l] }).goto l (.delete todo))
    | none => some (s.goto l (.delete todo))
  | .delete [] => some (s.goto l (.clear ServerPort.all))
  | .clear (p :: todo) =>
    some { s.goto l (.clear todo) with member := Function.update s.member p none }
  | .clear [] => some (s.goto l .finished)
  | .absent | .finished => none

def shutdownStep (s : CogServerNode) (l : ℕ) : Option CogServerNode :=
  match s.loop l with
  | .looping => some { s.goto l (.shutting false) with running := false }
  | .drain => some { s.goto l (.shutting true) with running := false }
  | _ => none

def step (s : CogServerNode) : Act → Option CogServerNode
  | .start => if s.message = .idle then some { s with message := .setRunning false } else none
  | .run => if s.message = .idle then some { s with message := .setRunning true } else none
  | .stop => if s.message = .idle then some { s with message := .stopTest } else none
  | .message => s.messageStep
  | .enable e => s.enableStep e
  | .loop l => s.loopStep l
  | .shutdown l => s.shutdownStep l

def new : CogServerNode where
  message := .idle
  running := false
  queueCancelled := false
  member _ := none
  server _ := ⟨0, [], []⟩
  nextServer := 0
  loop _ := .absent
  nextLoop := 0
  thread _ := false
  joined _ := false
  mainLoop := none

def system : System CogServerNode Act where
  init s := s = new
  step := step

/-- A `*-start-*` that finds the server not running, and every `*-run-*`, comes when no loop is
executing; and a shutdown request is executed while no main loop is left to be joined, or behind the
test of a `*-stop-*`. -/
def Orderly (s : CogServerNode) : Act → Prop
  | .message => ∀ run, s.message = .setRunning run → run ∨ s.running = false →
    ∀ l, (s.loop l).executing = false
  | .shutdown _ => s.mainLoop = none ∨ s.message.stops
  | _ => True

/-- What is to hold of the loops, their servers and their threads. -/
structure OneLoop (s : CogServerNode) : Prop where
  alone : ∀ l m, (s.loop l).executing → (s.loop m).executing → l = m
  /-- A network server is stopped and deleted once at most, by its loop, and by the end of the
  loop. -/
  once : ∀ v < s.nextServer, (s.server v).stopped <+: [(s.server v).creator] ∧
    (s.server v).deleted <+: [(s.server v).creator] ∧
    (s.loop (s.server v).creator = .finished →
      (s.server v).stopped = [(s.server v).creator] ∧ (s.server v).deleted = [(s.server v).creator])
  own : ∀ l, (s.loop l).executing → ∀ p v, s.member p = some v → (s.server v).creator = l
  /-- The handle of a thread is kept until it is joined, -/
  handle : ∀ l, s.thread l → s.joined l ∨ s.mainLoop = some l
  /-- and all are joined when no message is carried out and the server does not run. -/
  settled : s.message = .idle → s.running = false → ∀ l, s.thread l → s.joined l

/-- The loops, and the servers that the members point to, are the loop's own. -/
structure Sound (s : CogServerNode) : Prop where
  future : ∀ l, s.nextLoop ≤ l → s.loop l = .absent ∧ s.thread l = false
  alone : ∀ l m, (s.loop l).executing → (s.loop m).executing → l = m
  starting : s.message.starting → ∀ l, (s.loop l).executing = false
  nodup : ∀ l, (s.loop l).todo.Nodup
  cleared : ∀ p v todo, s.member p = some v → s.loop (s.server v).creator = .clear todo → p ∈ todo
  owned : ∀ p v, s.member p = some v → v < s.nextServer ∧
    ((s.loop (s.server v).creator).executing ∨
      s.message.starting ∧ (s.server v).creator = s.nextLoop)
  distinct : ∀ p q v, s.member p = some v → s.member q = some v → p = q
  life : ∀ p v, s.member p = some v →
    (s.server v).stopped =
      (if (s.loop (s.server v).creator).hasStopped p then [(s.server v).creator] else []) ∧
    (s.server v).deleted =
      (if (s.loop (s.server v).creator).hasDeleted p then [(s.server v).creator] else [])
  dead : ∀ v < s.nextServer, (∀ p, s.member p ≠ some v) →
    (s.server v).stopped = [(s.server v).creator] ∧ (s.server v).deleted = [(s.server v).creator]

/-- The main-loop threads. -/
structure Threads (s : CogServerNode) : Prop where
  up : s.message.starting → s.running
  handle : ∀ l, s.thread l → s.joined l ∨ s.mainLoop = some l
  free : s.message.threading → s.mainLoop = none
  settled : s.running = false → s.mainLoop ≠ none → s.message.stops

variable {s t : CogServerNode} {l : ℕ} {p : ServerPort} {v : ℕ}

/-- While a loop is executing, the members point to servers of its own. -/
theorem Sound.own (h : Sound s) (hl : (s.loop l).executing) (hp : s.member p = some v) :
    (s.server v).creator = l := by
  rcases (h.owned p v hp).2 with hexecuting | ⟨hstarting, -⟩
  · exact h.alone _ _ hexecuting hl
  · rw [h.starting hstarting l] at hl
    cases hl

theorem Sound.oneLoop (h : Sound s) (ht : Threads s) : OneLoop s := by
  refine ⟨h.alone, ?_, ?_, ht.handle, ?_⟩
  · intro v hv
    by_cases hp : ∃ p, s.member p = some v
    · obtain ⟨p, hp⟩ := hp
      obtain ⟨hstopped, hdeleted⟩ := h.life p v hp
      refine ⟨?_, ?_, ?_⟩
      · rw [hstopped]
        split
        · exact List.prefix_rfl
        · exact List.nil_prefix
      · rw [hdeleted]
        split
        · exact List.prefix_rfl
        · exact List.nil_prefix
      · intro hfin
        rw [hstopped, hdeleted, hfin]
        exact ⟨rfl, rfl⟩
    · obtain ⟨hstopped, hdeleted⟩ := h.dead v hv fun p hm => hp ⟨p, hm⟩
      exact ⟨hstopped ▸ List.prefix_rfl, hdeleted ▸ List.prefix_rfl, fun _ => ⟨hstopped, hdeleted⟩⟩
  · intro l hl p v hp
    exact h.own hl hp
  · intro hidle hstopped l hl
    refine (ht.handle l hl).resolve_right ?_
    intro hmain
    have hstops := ht.settled hstopped (by rw [hmain]; exact Option.some_ne_none l)
    rw [hidle] at hstops
    cases hstops

theorem sound_new : Sound new where
  future l _ := ⟨rfl, rfl⟩
  alone l m hl := by cases hl
  starting h := by cases h
  nodup l := List.nodup_nil
  cleared p v todo hp := by cases hp
  owned p v hp := by cases hp
  distinct p q v hp := by cases hp
  life p v hp := by cases hp
  dead v hv := absurd hv (Nat.not_lt_zero v)

/-- A message that goes on and touches no loop and no server. -/
theorem Sound.message_to (h : Sound s) {message : MessagePc} {running queueCancelled : Bool} {joined : ℕ → Bool}
    {mainLoop : Option ℕ} (hnew : message.starting → ∀ l, (s.loop l).executing = false)
    (hold : s.message.starting → message.starting) :
    Sound { s with
      message := message, running := running, queueCancelled := queueCancelled
      joined := joined, mainLoop := mainLoop } := by
  refine ⟨h.future, h.alone, hnew, h.nodup, h.cleared, ?_, h.distinct, h.life, h.dead⟩
  intro p v hp
  obtain ⟨hv, hor⟩ := h.owned p v hp
  exact ⟨hv, hor.imp id fun hstart => ⟨hold hstart.1, hstart.2⟩⟩

theorem Sound.not_starting (h : Sound s) (hl : (s.loop l).executing) :
    s.message.starting ≠ true := by
  intro hstarting
  rw [h.starting hstarting l] at hl
  cases hl

theorem Sound.ne_of_future (h : Sound s) (hl : (s.loop l).executing) {m : ℕ} (hm : s.nextLoop ≤ m) :
    m ≠ l := by
  rintro rfl
  rw [(h.future m hm).1] at hl
  cases hl

theorem executing_of_update (hl : (s.loop l).executing) {pc : MainLoopPc} {m : ℕ}
    (hm : (Function.update s.loop l pc m).executing) : (s.loop m).executing := by
  by_cases hml : m = l
  · rwa [hml]
  · rwa [Function.update_of_ne hml] at hm

/-- A loop that goes on with its servers. -/
theorem Sound.loop_to (h : Sound s) (hl : (s.loop l).executing) {pc : MainLoopPc} {server : ℕ → ServerLife}
    {running queueCancelled : Bool} (hpc : pc.executing) (hnodup : pc.todo.Nodup)
    (hcreator : ∀ v, (server v).creator = (s.server v).creator)
    (hlife : ∀ p v, s.member p = some v → (server v).stopped = (if pc.hasStopped p then [l] else []) ∧
      (server v).deleted = (if pc.hasDeleted p then [l] else []))
    (hdead : ∀ v, (∀ p, s.member p ≠ some v) → server v = s.server v)
    (hclear : ∀ todo, pc = .clear todo → ∀ p v, s.member p = some v → p ∈ todo) :
    Sound { s with
      server := server, loop := Function.update s.loop l pc
      running := running, queueCancelled := queueCancelled } := by
  have hown : ∀ p v, s.member p = some v → (server v).creator = l := by
    intro p v hp
    rw [hcreator]
    exact h.own hl hp
  refine ⟨?_, ?_, ?_, ?_, ?_, ?_, h.distinct, ?_, ?_⟩
  · intro m hm
    simpa [h.ne_of_future hl hm] using h.future m hm
  · intro m n hm hn
    exact h.alone m n (executing_of_update hl hm) (executing_of_update hl hn)
  · intro hstarting
    exact absurd hstarting (h.not_starting hl)
  · intro m
    by_cases hml : m = l
    · subst hml
      simpa using hnodup
    · simpa [hml] using h.nodup m
  · intro p v todo hp hpc'
    dsimp only at hpc'
    rw [hown p v hp, Function.update_self] at hpc'
    exact hclear todo hpc' p v hp
  · intro p v hp
    refine ⟨(h.owned p v hp).1, .inl ?_⟩
    dsimp only
    rwa [hown p v hp, Function.update_self]
  · intro p v hp
    simp only [hown p v hp, Function.update_self]
    exact hlife p v hp
  · intro v hv hnone
    dsimp only at hnone ⊢
    rw [hdead v hnone]
    exact h.dead v hv hnone

/-- A loop that goes on and touches no server. -/
theorem Sound.goto (h : Sound s) (hl : (s.loop l).executing) {pc : MainLoopPc} {running queueCancelled : Bool}
    (hpc : pc.executing) (hnodup : pc.todo.Nodup)
    (hsame : ∀ p v, s.member p = some v →
      pc.hasStopped p = (s.loop l).hasStopped p ∧ pc.hasDeleted p = (s.loop l).hasDeleted p)
    (hclear : ∀ todo, pc = .clear todo → ∀ p v, s.member p = some v → p ∈ todo) :
    Sound { s with
      loop := Function.update s.loop l pc
      running := running
      queueCancelled := queueCancelled } := by
  refine h.loop_to hl hpc hnodup (fun _ => rfl) ?_ (fun _ _ => rfl) hclear
  intro p v hp
  have hlife := h.life p v hp
  rw [h.own hl hp] at hlife
  obtain ⟨hstopped, hdeleted⟩ := hsame p v hp
  rwa [hstopped, hdeleted]

@[simp] theorem setServer_self (s : CogServerNode) (v : ℕ) (life : ServerLife) :
    (s.setServer v life).server v = life :=
  Function.update_self ..

theorem setServer_of_ne {w : ℕ} (hw : w ≠ v) (s : CogServerNode) (life : ServerLife) :
    (s.setServer v life).server w = s.server w :=
  Function.update_of_ne hw ..

/-- The loop handles the server of the next member: what it does to it is recorded there. -/
theorem Sound.handles (h : Sound s) (hl : (s.loop l).executing) {pc : MainLoopPc}
    {life : ServerLife} (hp : s.member p = some v) (hpc : pc.executing) (hnodup : pc.todo.Nodup)
    (hcreator : life.creator = (s.server v).creator)
    (hlife : life.stopped = (if pc.hasStopped p then [l] else []) ∧
      life.deleted = (if pc.hasDeleted p then [l] else []))
    (hsame : ∀ q ≠ p, pc.hasStopped q = (s.loop l).hasStopped q ∧
      pc.hasDeleted q = (s.loop l).hasDeleted q)
    (hclear : ∀ todo, pc ≠ .clear todo) : Sound ((s.setServer v life).goto l pc) := by
  refine h.loop_to hl hpc hnodup ?_ ?_ ?_ fun todo hc => absurd hc (hclear todo)
  · intro w
    by_cases hw : w = v
    · subst hw
      rwa [setServer_self]
    · rw [setServer_of_ne hw]
  · intro q w hq
    by_cases hw : w = v
    · subst hw
      obtain rfl := h.distinct p q w hp hq
      rwa [setServer_self]
    · have hqp : q ≠ p := by
        rintro rfl
        exact hw (Option.some.inj (hq.symm.trans hp))
      have hold := h.life q w hq
      rw [h.own hl hq] at hold
      obtain ⟨hstopped, hdeleted⟩ := hsame q hqp
      rw [setServer_of_ne hw, hstopped, hdeleted]
      exact hold
  · intro w hw
    have hne : w ≠ v := by
      rintro rfl
      exact hw p hp
    exact setServer_of_ne hne s life

/-- The loop passes over a member that holds no server. -/
theorem Sound.passes (h : Sound s) (hl : (s.loop l).executing) {pc : MainLoopPc}
    (hnone : s.member p = none) (hpc : pc.executing) (hnodup : pc.todo.Nodup)
    (hsame : ∀ q ≠ p, pc.hasStopped q = (s.loop l).hasStopped q ∧
      pc.hasDeleted q = (s.loop l).hasDeleted q)
    (hclear : ∀ todo, pc ≠ .clear todo) : Sound (s.goto l pc) := by
  refine h.goto hl hpc hnodup ?_ fun todo hc => absurd hc (hclear todo)
  intro q w hq
  apply hsame
  rintro rfl
  cases hnone.symm.trans hq

/-- The servers of a loop that is about to end have all been stopped and deleted, and the members
forget them one by one. -/
theorem Sound.clears (h : Sound s) {todo : List ServerPort} (hpc : s.loop l = .clear (p :: todo)) :
    Sound { s.goto l (.clear todo) with member := Function.update s.member p none } := by
  have hl : (s.loop l).executing := by rw [hpc]; rfl
  have hkept : ∀ q v, Function.update s.member p none q = some v → q ≠ p ∧ s.member q = some v := by
    intro q v hq
    by_cases hqp : q = p
    · subst hqp
      simp at hq
    · rw [Function.update_of_ne hqp] at hq
      exact ⟨hqp, hq⟩
  have hlife : ∀ v q, s.member q = some v →
      (s.server v).stopped = [(s.server v).creator] ∧
        (s.server v).deleted = [(s.server v).creator] := by
    intro v q hq
    have hold := h.life q v hq
    rw [h.own hl hq, hpc] at hold
    rw [h.own hl hq]
    exact hold
  have hnodup := h.nodup l
  rw [hpc] at hnodup
  refine ⟨?_, ?_, ?_, ?_, ?_, ?_, ?_, ?_, ?_⟩
  · intro m hm
    simpa [CogServerNode.goto, h.ne_of_future hl hm] using h.future m hm
  · intro m n hm hn
    exact h.alone m n (executing_of_update hl hm) (executing_of_update hl hn)
  · intro hstarting
    exact absurd hstarting (h.not_starting hl)
  · intro m
    by_cases hml : m = l
    · subst hml
      simpa [CogServerNode.goto, MainLoopPc.todo] using (List.nodup_cons.mp hnodup).2
    · simpa [CogServerNode.goto, hml] using h.nodup m
  · intro q v todo' hq hc
    obtain ⟨hqp, hq⟩ := hkept q v hq
    simp only [CogServerNode.goto, h.own hl hq, Function.update_self, MainLoopPc.clear.injEq] at hc
    subst hc
    have hold := h.cleared q v (p :: todo) hq (by rw [h.own hl hq, hpc])
    exact List.mem_of_ne_of_mem hqp hold
  · intro q v hq
    obtain ⟨-, hq⟩ := hkept q v hq
    refine ⟨(h.owned q v hq).1, .inl ?_⟩
    simp only [CogServerNode.goto, h.own hl hq, Function.update_self]
    rfl
  · intro q q' v hq hq'
    exact h.distinct q q' v (hkept q v hq).2 (hkept q' v hq').2
  · intro q v hq
    obtain ⟨-, hq⟩ := hkept q v hq
    have hold := hlife v q hq
    rw [h.own hl hq] at hold
    simp only [CogServerNode.goto, h.own hl hq, Function.update_self]
    exact hold
  · intro v hv hnone
    by_cases hpointed : ∃ q, s.member q = some v
    · obtain ⟨q, hq⟩ := hpointed
      exact hlife v q hq
    · exact h.dead v hv fun q hq => hpointed ⟨q, hq⟩

theorem Sound.finishes (h : Sound s) (hpc : s.loop l = .clear []) : Sound (s.goto l .finished) := by
  have hl : (s.loop l).executing := by rw [hpc]; rfl
  have hnone : ∀ p v, s.member p ≠ some v := by
    intro p v hp
    have hleft := h.cleared p v [] hp (by rw [h.own hl hp, hpc])
    cases hleft
  refine ⟨?_, ?_, ?_, ?_, ?_, ?_, h.distinct, ?_, h.dead⟩
  · intro m hm
    simpa [CogServerNode.goto, h.ne_of_future hl hm] using h.future m hm
  · intro m n hm hn
    exact h.alone m n (executing_of_update hl hm) (executing_of_update hl hn)
  · intro hstarting
    exact absurd hstarting (h.not_starting hl)
  · intro m
    by_cases hml : m = l
    · subst hml
      simp [CogServerNode.goto, MainLoopPc.todo]
    · simpa [CogServerNode.goto, hml] using h.nodup m
  · intro p v _ hp
    exact absurd hp (hnone p v)
  · intro p v hp
    exact absurd hp (hnone p v)
  · intro p v hp
    exact absurd hp (hnone p v)

theorem Sound.loop (h : Sound s) (ht : s.loopStep l = some t) : Sound t := by
  unfold loopStep at ht
  have hnodup := h.nodup l
  cases hpc : s.loop l with
  | absent | finished => simp [hpc] at ht
  | looping =>
    have hl : (s.loop l).executing := by rw [hpc]; rfl
    simp only [hpc] at ht
    split at ht
    · obtain rfl := Option.some.inj ht
      exact h.goto hl rfl List.nodup_nil (fun _ _ _ => by rw [hpc]; exact ⟨rfl, rfl⟩) nofun
    · cases ht
  | shutting draining =>
    have hl : (s.loop l).executing := by rw [hpc]; rfl
    simp only [hpc, Option.some.injEq] at ht
    subst ht
    cases draining
    · exact h.goto hl rfl List.nodup_nil (fun _ _ _ => by rw [hpc]; exact ⟨rfl, rfl⟩) nofun
    · exact h.goto hl rfl List.nodup_nil (fun _ _ _ => by rw [hpc]; exact ⟨rfl, rfl⟩) nofun
  | reset =>
    have hl : (s.loop l).executing := by rw [hpc]; rfl
    simp only [hpc, Option.some.injEq] at ht
    subst ht
    refine h.goto hl rfl (by decide) ?_ nofun
    intro p v _
    rw [hpc]
    exact ⟨by simp [MainLoopPc.hasStopped, p.mem_all], rfl⟩
  | drain =>
    have hl : (s.loop l).executing := by rw [hpc]; rfl
    simp only [hpc, Option.some.injEq] at ht
    subst ht
    refine h.goto hl rfl (by decide) ?_ nofun
    intro p v _
    rw [hpc]
    exact ⟨rfl, by simp [MainLoopPc.hasDeleted, p.mem_all]⟩
  | stop todo =>
    have hl : (s.loop l).executing := by rw [hpc]; rfl
    rw [hpc] at hnodup
    cases todo with
    | nil =>
      simp only [hpc, Option.some.injEq] at ht
      subst ht
      exact h.goto hl rfl List.nodup_nil
        (fun _ _ _ => by rw [hpc]; exact ⟨by simp [MainLoopPc.hasStopped], rfl⟩) nofun
    | cons p todo =>
      obtain ⟨hp, htodo⟩ := List.nodup_cons.mp hnodup
      simp only [hpc] at ht
      split at ht
      · rename_i v hv
        obtain rfl := Option.some.inj ht
        have hlife := h.life p v hv
        rw [h.own hl hv, hpc] at hlife
        refine h.handles hl hv rfl htodo rfl ?_ ?_ nofun
        · simp [hlife, MainLoopPc.hasStopped, MainLoopPc.hasDeleted, hp]
        · intro q hq
          rw [hpc]
          exact ⟨by simp [MainLoopPc.hasStopped, hq], rfl⟩
      · rename_i hnone
        obtain rfl := Option.some.inj ht
        refine h.passes hl hnone rfl htodo ?_ nofun
        intro q hq
        rw [hpc]
        exact ⟨by simp [MainLoopPc.hasStopped, hq], rfl⟩
  | delete todo =>
    have hl : (s.loop l).executing := by rw [hpc]; rfl
    rw [hpc] at hnodup
    cases todo with
    | nil =>
      simp only [hpc, Option.some.injEq] at ht
      subst ht
      refine h.goto hl rfl (by decide) ?_ ?_
      · intro p v _
        rw [hpc]
        exact ⟨rfl, by simp [MainLoopPc.hasDeleted]⟩
      · rintro todo he p v _
        obtain rfl := MainLoopPc.clear.inj he
        exact p.mem_all
    | cons p todo =>
      obtain ⟨hp, htodo⟩ := List.nodup_cons.mp hnodup
      simp only [hpc] at ht
      split at ht
      · rename_i v hv
        obtain rfl := Option.some.inj ht
        have hlife := h.life p v hv
        rw [h.own hl hv, hpc] at hlife
        refine h.handles hl hv rfl htodo rfl ?_ ?_ nofun
        · simp [hlife, MainLoopPc.hasStopped, MainLoopPc.hasDeleted, hp]
        · intro q hq
          rw [hpc]
          exact ⟨rfl, by simp [MainLoopPc.hasDeleted, hq]⟩
      · rename_i hnone
        obtain rfl := Option.some.inj ht
        refine h.passes hl hnone rfl htodo ?_ nofun
        intro q hq
        rw [hpc]
        exact ⟨rfl, by simp [MainLoopPc.hasDeleted, hq]⟩
  | clear todo =>
    cases todo with
    | nil =>
      simp only [hpc, Option.some.injEq] at ht
      subst ht
      exact h.finishes hpc
    | cons p todo =>
      simp only [hpc, Option.some.injEq] at ht
      subst ht
      exact h.clears hpc

theorem Sound.shutdown (h : Sound s) (ht : s.shutdownStep l = some t) : Sound t := by
  unfold shutdownStep at ht
  cases hpc : s.loop l with
  | looping | drain =>
    have hl : (s.loop l).executing := by rw [hpc]; rfl
    simp only [hpc, Option.some.injEq] at ht
    subst ht
    exact h.goto hl rfl List.nodup_nil (fun _ _ _ => by rw [hpc]; exact ⟨rfl, rfl⟩) nofun
  | absent | shutting | reset | stop | delete | clear | finished => simp [hpc] at ht

/-- A server is made for the loop that is about to start. -/
theorem Sound.newServer (h : Sound s) (hstarting : s.message.starting) (hp : s.member p = none) :
    Sound (s.newServer p) := by
  have hfresh : ∀ q v, s.member q = some v → v ≠ s.nextServer := by
    intro q v hq
    exact Nat.ne_of_lt (h.owned q v hq).1
  have hmember : ∀ q v, (s.newServer p).member q = some v →
      q = p ∧ v = s.nextServer ∨ q ≠ p ∧ v ≠ s.nextServer ∧ s.member q = some v := by
    intro q v hq
    by_cases hqp : q = p
    · subst hqp
      simp only [CogServerNode.newServer, Function.update_self, Option.some.injEq] at hq
      exact .inl ⟨rfl, hq.symm⟩
    · simp only [CogServerNode.newServer, Function.update_of_ne hqp] at hq
      exact .inr ⟨hqp, hfresh q v hq, hq⟩
  have hnew : (s.newServer p).server s.nextServer = ⟨s.nextLoop, [], []⟩ := Function.update_self ..
  have hold : ∀ v ≠ s.nextServer, (s.newServer p).server v = s.server v :=
    fun v hv => Function.update_of_ne hv ..
  have habsent : s.loop s.nextLoop = .absent := (h.future _ (Nat.le_refl _)).1
  refine ⟨h.future, h.alone, h.starting, h.nodup, ?_, ?_, ?_, ?_, ?_⟩
  · intro q v todo hq hc
    rcases hmember q v hq with ⟨rfl, rfl⟩ | ⟨-, hv, hq⟩
    · rw [hnew] at hc
      cases habsent.symm.trans hc
    · rw [hold v hv] at hc
      exact h.cleared q v todo hq hc
  · intro q v hq
    rcases hmember q v hq with ⟨rfl, rfl⟩ | ⟨-, hv, hq⟩
    · refine ⟨Nat.lt_succ_self _, .inr ⟨hstarting, ?_⟩⟩
      rw [hnew]
      rfl
    · rw [hold v hv]
      exact ⟨Nat.lt_succ_of_lt (h.owned q v hq).1, (h.owned q v hq).2⟩
  · intro q q' v hq hq'
    rcases hmember q v hq with ⟨rfl, rfl⟩ | ⟨-, hv, hq⟩
    · rcases hmember q' _ hq' with ⟨rfl, -⟩ | ⟨-, hv', -⟩
      · rfl
      · exact absurd rfl hv'
    · rcases hmember q' v hq' with ⟨-, rfl⟩ | ⟨-, -, hq'⟩
      · exact absurd rfl hv
      · exact h.distinct q q' v hq hq'
  · intro q v hq
    rcases hmember q v hq with ⟨rfl, rfl⟩ | ⟨-, hv, hq⟩
    · simp only [hnew]
      rw [show (s.newServer q).loop s.nextLoop = .absent from habsent]
      exact ⟨rfl, rfl⟩
    · simp only [hold v hv]
      exact h.life q v hq
  · intro v hv hnone
    have hne : v ≠ s.nextServer := by
      rintro rfl
      exact hnone p (Function.update_self ..)
    rw [hold v hne]
    refine h.dead v (by simp only [CogServerNode.newServer] at hv; omega) ?_
    intro q hq
    have hqp : q ≠ p := by
      rintro rfl
      cases hp.symm.trans hq
    exact hnone q ((Function.update_of_ne hqp ..).trans hq)

/-- The loop starts, with the servers that were made for it. -/
theorem Sound.spawn (h : Sound s) (hstarting : s.message.starting) {thread : Bool} {mainLoop : Option ℕ} :
    Sound { s.goto s.nextLoop .looping with
      message := .idle
      nextLoop := s.nextLoop + 1
      thread := Function.update s.thread s.nextLoop thread
      mainLoop := mainLoop } := by
  have hquiet := h.starting hstarting
  have habsent : s.loop s.nextLoop = .absent := (h.future _ (Nat.le_refl _)).1
  have hcreator : ∀ p v, s.member p = some v → (s.server v).creator = s.nextLoop := by
    intro p v hp
    rcases (h.owned p v hp).2 with hexecuting | ⟨-, hc⟩
    · rw [hquiet] at hexecuting
      cases hexecuting
    · exact hc
  have honly : ∀ m, (Function.update s.loop s.nextLoop .looping m).executing → m = s.nextLoop := by
    intro m hm
    by_contra hne
    rw [Function.update_of_ne hne, hquiet m] at hm
    cases hm
  refine ⟨?_, ?_, nofun, ?_, ?_, ?_, h.distinct, ?_, h.dead⟩
  · intro m hm
    have hne : m ≠ s.nextLoop := by
      dsimp only at hm
      omega
    simpa [CogServerNode.goto, hne] using h.future m (by dsimp only at hm; omega)
  · intro m n hm hn
    exact (honly m hm).trans (honly n hn).symm
  · intro m
    by_cases hm : m = s.nextLoop
    · subst hm
      simp [CogServerNode.goto, MainLoopPc.todo]
    · simpa [CogServerNode.goto, hm] using h.nodup m
  · intro p v todo hp hc
    simp only [CogServerNode.goto, hcreator p v hp, Function.update_self] at hc
    cases hc
  · intro p v hp
    refine ⟨(h.owned p v hp).1, .inl ?_⟩
    simp only [CogServerNode.goto, hcreator p v hp, Function.update_self]
    rfl
  · intro p v hp
    have hold := h.life p v hp
    simp only [hcreator p v hp, habsent] at hold
    simp only [CogServerNode.goto, hcreator p v hp, Function.update_self]
    exact hold

theorem Sound.message (h : Sound s) (hc : Orderly s .message) (ht : s.messageStep = some t) :
    Sound t := by
  unfold messageStep at ht
  cases hm : s.message with
  | setRunning run =>
    simp only [hm] at ht
    split at ht
    · obtain rfl := Option.some.inj ht
      refine h.message_to ?_ (by simp [hm, MessagePc.starting])
      intro hstarting
      cases run with
      | true => exact hc true hm (.inl rfl)
      | false => cases hstarting
    · rename_i hrunning
      obtain rfl := Option.some.inj ht
      refine h.message_to ?_ (by simp [hm, MessagePc.starting])
      intro _
      exact hc run hm (.inr (by simpa using hrunning))
  | enabling run todo =>
    cases todo with
    | nil =>
      simp only [hm, Option.some.injEq] at ht
      subst ht
      exact h.message_to (fun _ => h.starting (by rw [hm]; rfl)) fun _ => rfl
    | cons p todo => simp [hm] at ht
  | spawn run =>
    simp only [hm, Option.some.injEq] at ht
    subst ht
    exact h.spawn (by rw [hm]; rfl)
  | stopTest =>
    simp only [hm, Option.some.injEq] at ht
    subst ht
    split <;> exact h.message_to nofun (by simp [hm, MessagePc.starting])
  | stopping | cancelling =>
    simp only [hm, Option.some.injEq] at ht
    subst ht
    exact h.message_to nofun (by simp [hm, MessagePc.starting])
  | joining =>
    simp only [hm] at ht
    split at ht
    · split at ht
      · obtain rfl := Option.some.inj ht
        exact h.message_to nofun (by simp [hm, MessagePc.starting])
      · cases ht
    · obtain rfl := Option.some.inj ht
      exact h.message_to nofun (by simp [hm, MessagePc.starting])
  | idle => simp [hm] at ht

theorem Sound.enable (h : Sound s) {e : Enabled} (ht : s.enableStep e = some t) : Sound t := by
  unfold enableStep at ht
  split at ht
  · rename_i run p todo hm
    have hstarting : s.message.starting := by rw [hm]; rfl
    have hquiet := h.starting hstarting
    split at ht
    · obtain rfl := Option.some.inj ht
      exact h.message_to (fun _ => hquiet) fun _ => rfl
    · rename_i hnone
      cases e with
      | made =>
        obtain rfl := Option.some.inj ht
        have hnew := h.newServer hstarting (p := p) (by simpa using hnone)
        exact hnew.message_to (fun _ => hquiet) fun _ => rfl
      | noPort | throws =>
        obtain rfl := Option.some.inj ht
        exact h.message_to (fun _ => hquiet) fun _ => rfl
  · cases ht

theorem Sound.step (h : Sound s) {a : Act} (hc : Orderly s a) (ht : s.step a = some t) :
    Sound t := by
  cases a with
  | start | run | stop =>
    simp only [CogServerNode.step] at ht
    split at ht
    · rename_i hidle
      obtain rfl := Option.some.inj ht
      exact h.message_to nofun (by simp [hidle, MessagePc.starting])
    · cases ht
  | message => exact h.message hc ht
  | enable e => exact h.enable ht
  | loop l => exact h.loop ht
  | shutdown l => exact h.shutdown ht

/-- What concerns the threads is left alone. -/
structure SameThreads (s t : CogServerNode) : Prop where
  thread : t.thread = s.thread
  joined : t.joined = s.joined
  mainLoop : t.mainLoop = s.mainLoop
  message : t.message = s.message

theorem sameThreads_of_loop (ht : s.loopStep l = some t) :
    SameThreads s t ∧ t.running = s.running := by
  unfold loopStep at ht
  cases hpc : s.loop l with
  | absent | finished => simp [hpc] at ht
  | looping =>
    simp only [hpc] at ht
    split at ht
    · obtain rfl := Option.some.inj ht
      exact ⟨⟨rfl, rfl, rfl, rfl⟩, rfl⟩
    · cases ht
  | shutting | reset | drain =>
    simp only [hpc, Option.some.injEq] at ht
    subst ht
    exact ⟨⟨rfl, rfl, rfl, rfl⟩, rfl⟩
  | stop todo | delete todo =>
    cases todo with
    | nil =>
      simp only [hpc, Option.some.injEq] at ht
      subst ht
      exact ⟨⟨rfl, rfl, rfl, rfl⟩, rfl⟩
    | cons p todo =>
      simp only [hpc] at ht
      split at ht <;>
      · obtain rfl := Option.some.inj ht
        exact ⟨⟨rfl, rfl, rfl, rfl⟩, rfl⟩
  | clear todo =>
    cases todo <;>
    · simp only [hpc, Option.some.injEq] at ht
      subst ht
      exact ⟨⟨rfl, rfl, rfl, rfl⟩, rfl⟩

theorem sameThreads_of_shutdown (ht : s.shutdownStep l = some t) :
    SameThreads s t ∧ t.running = false ∧ (s.loop l).executing := by
  unfold shutdownStep at ht
  cases hpc : s.loop l with
  | looping | drain =>
    simp only [hpc, Option.some.injEq] at ht
    subst ht
    exact ⟨⟨rfl, rfl, rfl, rfl⟩, rfl, rfl⟩
  | absent | shutting | reset | stop | delete | clear | finished => simp [hpc] at ht

/-- A message that goes on and leaves the threads alone. -/
theorem Threads.message_to (h : Threads s) (hthread : t.thread = s.thread)
    (hjoined : t.joined = s.joined) (hmain : t.mainLoop = s.mainLoop)
    (hup : t.message.starting → t.running) (hfree : t.message.threading → t.mainLoop = none)
    (hsettled : t.running = false → t.mainLoop ≠ none → t.message.stops) : Threads t := by
  refine ⟨hup, ?_, hfree, hsettled⟩
  rw [hthread, hjoined, hmain]
  exact h.handle

/-- A new thread is the one that is to be joined, and no other one was. -/
theorem Threads.spawn_handle (h : Threads s) {run : Bool} (hfree : run = false → s.mainLoop = none)
    (m : ℕ) (hm : Function.update s.thread s.nextLoop (!run) m) :
    s.joined m ∨ (if run then s.mainLoop else some s.nextLoop) = some m := by
  by_cases hnew : m = s.nextLoop
  · subst hnew
    cases run with
    | true => simp at hm
    | false => exact .inr rfl
  · rw [Function.update_of_ne hnew] at hm
    cases run with
    | true => exact h.handle m hm
    | false =>
      refine .inl ((h.handle m hm).resolve_right ?_)
      rw [hfree rfl]
      exact nofun

/-- After a join no thread is left to be joined. -/
theorem Threads.join_handle (h : Threads s) (hmain : s.mainLoop = some l) (m : ℕ)
    (hm : s.thread m) : Function.update s.joined l true m ∨ none = some m := by
  left
  by_cases hml : m = l
  · subst hml
    simp
  · have hjoined := (h.handle m hm).resolve_right
      (by rw [hmain]; exact fun he => hml (Option.some.inj he).symm)
    simpa [hml] using hjoined

theorem Threads.message (h : Threads s) (ht : s.messageStep = some t) : Threads t := by
  unfold messageStep at ht
  have hsettled := h.settled
  cases hm : s.message with
  | setRunning run =>
    rw [hm] at hsettled
    simp only [hm] at ht
    split at ht
    · rename_i hrunning
      obtain rfl := Option.some.inj ht
      refine h.message_to rfl rfl rfl (fun _ => hrunning) ?_ fun hnot =>
        nomatch hrunning.symm.trans hnot
      cases run <;> exact nofun
    · rename_i hrunning
      obtain rfl := Option.some.inj ht
      refine h.message_to rfl rfl rfl (fun _ => rfl) ?_ nofun
      intro _
      by_contra hmain
      cases hsettled (by simpa using hrunning) hmain
  | enabling run todo =>
    cases todo with
    | nil =>
      have hup := h.up (by rw [hm]; rfl)
      have hfree := h.free
      rw [hm] at hfree
      simp only [hm, Option.some.injEq] at ht
      subst ht
      refine h.message_to rfl rfl rfl (fun _ => hup) ?_ fun hnot => nomatch hup.symm.trans hnot
      cases run
      · exact fun _ => hfree rfl
      · exact nofun
    | cons p todo => simp [hm] at ht
  | spawn run =>
    have hup := h.up (by rw [hm]; rfl)
    have hfree := h.free
    rw [hm] at hfree
    simp only [hm, Option.some.injEq] at ht
    subst ht
    refine ⟨nofun, ?_, nofun, fun hnot => (nomatch hup.symm.trans hnot)⟩
    exact h.spawn_handle fun hrun => hfree (by rw [hrun]; rfl)
  | stopTest =>
    rw [hm] at hsettled
    simp only [hm, Option.some.injEq] at ht
    subst ht
    split
    · exact h.message_to rfl rfl rfl nofun nofun fun _ _ => rfl
    · exact h.message_to rfl rfl rfl nofun nofun fun hnot hmain => nomatch hsettled hnot hmain
  | stopping | cancelling =>
    simp only [hm, Option.some.injEq] at ht
    subst ht
    exact h.message_to rfl rfl rfl nofun nofun fun _ _ => rfl
  | joining =>
    simp only [hm] at ht
    split at ht
    · rename_i l hmain
      split at ht
      · obtain rfl := Option.some.inj ht
        exact ⟨nofun, h.join_handle hmain, nofun, fun _ hne => absurd rfl hne⟩
      · cases ht
    · rename_i hmain
      obtain rfl := Option.some.inj ht
      exact h.message_to rfl rfl rfl nofun nofun fun _ hne => absurd hmain hne
  | idle => simp [hm] at ht

theorem Threads.enable (h : Threads s) {e : Enabled} (ht : s.enableStep e = some t) :
    Threads t := by
  unfold enableStep at ht
  split at ht
  · rename_i run p todo hm
    have hup := h.up (by rw [hm]; rfl)
    have hfree := h.free
    rw [hm] at hfree
    have hthreading : ∀ m : MessagePc, m = .enabling run todo ∨ m = .spawn run → m.threading →
        s.mainLoop = none := by
      rintro m (rfl | rfl) hth <;> cases run <;> first | exact hfree rfl | cases hth
    split at ht
    · obtain rfl := Option.some.inj ht
      exact h.message_to rfl rfl rfl (fun _ => hup) (hthreading _ (.inl rfl)) fun hnot =>
        nomatch hup.symm.trans hnot
    · cases e with
      | made | noPort =>
        obtain rfl := Option.some.inj ht
        exact h.message_to rfl rfl rfl (fun _ => hup) (hthreading _ (.inl rfl)) fun hnot =>
          nomatch hup.symm.trans hnot
      | throws =>
        obtain rfl := Option.some.inj ht
        exact h.message_to rfl rfl rfl (fun _ => hup) (hthreading _ (.inr rfl)) fun hnot =>
          nomatch hup.symm.trans hnot
  · cases ht

theorem Threads.step (h : Threads s) (hsound : Sound s) {a : Act} (hc : Orderly s a)
    (ht : s.step a = some t) : Threads t := by
  cases a with
  | start | run | stop =>
    simp only [CogServerNode.step] at ht
    split at ht
    · rename_i hidle
      obtain rfl := Option.some.inj ht
      have hsettled := h.settled
      rw [hidle] at hsettled
      exact h.message_to rfl rfl rfl nofun nofun fun hnot hmain => nomatch hsettled hnot hmain
    · cases ht
  | message => exact h.message ht
  | enable e => exact h.enable ht
  | loop l =>
    obtain ⟨hsame, hrunning⟩ := sameThreads_of_loop ht
    refine h.message_to hsame.thread hsame.joined hsame.mainLoop ?_ ?_ ?_
    · rw [hsame.message, hrunning]
      exact h.up
    · rw [hsame.message, hsame.mainLoop]
      exact h.free
    · rw [hsame.message, hrunning, hsame.mainLoop]
      exact h.settled
  | shutdown l =>
    obtain ⟨hsame, -, hl⟩ := sameThreads_of_shutdown ht
    refine h.message_to hsame.thread hsame.joined hsame.mainLoop ?_ ?_ ?_
    · rw [hsame.message]
      exact fun hstarting => absurd hstarting (hsound.not_starting hl)
    · rw [hsame.message, hsame.mainLoop]
      exact h.free
    · rw [hsame.message, hsame.mainLoop]
      exact fun _ hmain => hc.resolve_left hmain

/-- A start with a console server, from behind `set_running`, and then a stop. -/
def cycle : List Act :=
  [.enable .made, .enable .noPort, .enable .noPort, .message, .message, .stop, .message, .message,
    .message] ++
    List.replicate 15 (.loop 0) ++ [.message]

/-- The node behind `set_running`. -/
def started : CogServerNode :=
  { new with message := .enabling false [.console, .web, .mcp], running := true }

end CogServerNode

end CogServer
