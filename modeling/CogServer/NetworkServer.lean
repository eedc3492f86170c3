import CogServer.ConnectionSlots

/-! The network servers over the messages that start and stop them: the listener threads, the
sockets that they make and register, the handler threads, and the shutdown in `serverLoop`. -/
namespace CogServer

open Transition

/-- Where a listener thread is in `listen`, and the connection that it is about. -/
inductive ListenPc (ι : Type*)
  | absent | loopTest | accept
  /-- Before the second test of `_running`. -/
  | accepted (i : ι)
  | construct (i : ι)
  /-- In `set_connection`, before `add_sock`. -/
  | connect (i : ι)
  /-- Before the handler thread is made, and before it is tracked. -/
  | spawn (i : ι) | track (i : ι)
  | ended
  deriving DecidableEq, Repr

namespace ListenPc

variable {ι : Type*}

/-- The thread runs. -/
def alive : ListenPc ι → Bool
  | absent | ended => false
  | _ => true

/-- The socket that no other thread has yet. -/
def making : ListenPc ι → Option ι
  | accepted i | construct i | connect i | spawn i => some i
  | _ => none

end ListenPc

/-- A socket and its handler thread. -/
inductive HandlerPc (κ : Type*)
  | absent
  /-- The listener of a server is making the socket. -/
  | made (k : κ)
  | reading
  /-- In the destructor, before `Exit`, before `rem_sock`, and in `release_slot`. -/
  | destroy | remSock | releaseSlot
  | ended
  deriving DecidableEq, Repr

/-- A `NetworkServer`. `cancelled` is a `pthread_cancel` of its listener that is pending. -/
structure NetworkServer (ι : Type*) where
  running : Bool
  listener : ListenPc ι
  cancelled : Bool
  handlerThreads : List ι

/-- Where `serverLoop` is. The servers that are left to stop, or to join, are in the order in which
it does so. -/
inductive LoopStage (κ ι : Type*)
  | absent | looping
  /-- Before `cancel_reset`. -/
  | reset
  /-- Before the next `stop_listening`. -/
  | stop (todo : List κ)
  /-- In `network_gone` of a server, before the flag is set, and before `_sock_lock`. -/
  | gone (k : κ) (todo : List κ) | lock (k : κ) (todo : List κ)
  /-- With `_sock_lock`. -/
  | walk (k : κ) (todo : List κ) (socks : List ι)
  | cancelListener (k : κ) (todo : List κ) | join (k : κ) (todo : List κ)
  | drain
  | joinThreads (todo : List κ)
  | finished
  deriving DecidableEq, Repr

/-- Where the thread is that sends the messages. -/
inductive ControlPc (κ : Type*)
  | down
  /-- In `startServers`. -/
  | enabling (todo : List κ)
  /-- A start has returned. -/
  | up
  /-- Between the two statements of `stop`, and in the `join` of the main loop. -/
  | cancelling | joining
  deriving DecidableEq, Repr

/-- The server with its network. `exited` says that `Exit` was called on a socket since it was
registered; `stopped` only counts the calls of `network_gone` by `stop_listening`. -/
structure Network (κ ι : Type*) where
  control : ControlPc κ
  loop : LoopStage κ ι
  running : Bool
  queueCancelled : Bool
  /-- The servers that there are, the last one made first. -/
  enabled : List κ
  server : κ → NetworkServer ι
  networkGone : Bool
  sockList : List ι
  exited : ι → Bool
  slots : Slots ι
  handler : ι → HandlerPc κ
  stopped : ℕ

namespace Network

variable {κ ι : Type*}

/-- `start` goes with the servers that have a port and get it, in the order in which they are
made. -/
inductive Act (κ ι : Type*)
  | start (ks : List κ) | stop
  | control | loop
  /-- The loop leaves for its shutdown. -/
  | leave
  | accept (k : κ) (i : ι) | listen (k : κ)
  /-- A pending cancellation is acted on. -/
  | unwind (k : κ)
  /-- A constructor that waits for a slot wakes up. -/
  | wake (i : ι)
  /-- The handler thread of a socket comes to its end, whatever made it do so. -/
  | hangUp (i : ι)
  | handler (i : ι)
  /-- Some other thread calls `Exit` on a socket. -/
  | exit (i : ι)
  deriving DecidableEq, Repr

section Model

variable [DecidableEq κ] [DecidableEq ι]

def setServer (s : Network κ ι) (k : κ) (v : NetworkServer ι) : Network κ ι :=
  { s with server := Function.update s.server k v }

def setHandler (s : Network κ ι) (i : ι) (p : HandlerPc κ) : Network κ ι :=
  { s with handler := Function.update s.handler i p }

def setListener (s : Network κ ι) (k : κ) (p : ListenPc ι) : Network κ ι :=
  s.setServer k { s.server k with listener := p }

/-- `Exit`, which shuts the socket down. -/
def exitSock (s : Network κ ι) (i : ι) : Network κ ι :=
  { s with exited := Function.update s.exited i true }

/-- Nobody has `_sock_lock`. -/
def sockUnlocked (s : Network κ ι) : Bool :=
  match s.loop with
  | .walk _ _ _ => false
  | _ => true

/-- `startServers` and the main loop, and the rest of `stop` and of the message. -/
def controlStep (s : Network κ ι) : Option (Network κ ι) :=
  match s.control with
  | .enabling (k :: ks) =>
    some { s with
      control := .enabling ks
      enabled := k :: s.enabled
      server := Function.update s.server k ⟨true, .loopTest, false, []⟩ }
  | .enabling [] => some { s with control := .up, loop := .looping }
  | .cancelling => some { s with control := .joining, queueCancelled := true }
  | .joining => if s.loop = .finished then some { s with control := .down, loop := .absent } else none
  | .down | .up => none

/-- The shutdown in `serverLoop`. -/
def loopStep (s : Network κ ι) : Option (Network κ ι) :=
  match s.loop with
  | .reset => some { s with loop := .stop s.enabled, queueCancelled := false }
  | .stop [] => some { s with loop := .drain }
  | .stop (k :: ks) =>
    if (s.server k).running then
      some { s.setServer k { s.server k with running := false } with
        loop := .gone k ks
        stopped := s.stopped + 1 }
    else some { s with loop := .stop ks }
  | .gone k ks => some { s with loop := .lock k ks, networkGone := true }
  | .lock k ks => some { s with loop := .walk k ks s.sockList }
  | .walk k ks (i :: socks) => some { s.exitSock i with loop := .walk k ks socks }
  | .walk k ks [] => some { s with loop := .cancelListener k ks }
  | .cancelListener k ks =>
    some { s.setServer k { s.server k with cancelled := true } with loop := .join k ks }
  | .join k ks => if (s.server k).listener = .ended then some { s with loop := .stop ks } else none
  | .drain => some { s with loop := .joinThreads s.enabled }
  | .joinThreads [] => some { s with loop := .finished, enabled := [] }
  | .joinThreads (k :: ks) =>
    match (s.server k).handlerThreads with
    | [] => some { s with loop := .joinThreads ks }
    | i :: threads =>
      if s.handler i = .ended then some (s.setServer k { s.server k with handlerThreads := threads })
      else none
  | .absent | .looping | .finished => none

/-- A listener thread goes on. -/
def listenStep (max : ℕ) (s : Network κ ι) (k : κ) : Option (Network κ ι) :=
  match (s.server k).listener with
  | .loopTest => some (s.setListener k (if (s.server k).running then .accept else .ended))
  | .accepted i =>
    if (s.server k).running then
      (s.slots.step max (.construct i)).map fun slots =>
        { s.setListener k (.construct i) with slots := slots }
    else some (s.setListener k .ended)
  | .construct i =>
    if s.slots.pc i = .held then some (s.setListener k (.connect i))
    else (s.slots.step max (.run i)).map fun slots => { s with slots := slots }
  | .connect i =>
    if s.sockUnlocked then
      some { s.setListener k (.spawn i) with
        sockList := s.sockList ++ [i]
        exited := Function.update s.exited i false }
    else none
  | .spawn i => some ((s.setListener k (.track i)).setHandler i .reading)
  | .track i =>
    some (s.setServer k { s.server k with
      listener := .loopTest, handlerThreads := (s.server k).handlerThreads ++ [i] })
  | .absent | .accept | .ended => none

/-- A cancelled listener ends where it waits. -/
def unwindStep (max : ℕ) (s : Network κ ι) (k : κ) : Option (Network κ ι) :=
  if (s.server k).cancelled then
    match (s.server k).listener with
    | .accept => some (s.setListener k .ended)
    | .construct i => (s.slots.step max (.cancel i)).map fun slots =>
      { s.setListener k .ended with slots := slots }
    | _ => none
  else none

/-- The destructor of a socket. -/
def handlerStep (max : ℕ) (s : Network κ ι) (i : ι) : Option (Network κ ι) :=
  match s.handler i with
  | .destroy => some ((s.exitSock i).setHandler i .remSock)
  | .remSock =>
    if s.sockUnlocked then
      (s.slots.step max (.destroy i)).map fun slots =>
        { s.setHandler i .releaseSlot with sockList := s.sockList.erase i, slots := slots }
    else none
  | .releaseSlot =>
    if s.slots.pc i = .gone then some (s.setHandler i .ended)
    else (s.slots.step max (.run i)).map fun slots => { s with slots := slots }
  | .absent | .made _ | .reading | .ended => none

def step (max : ℕ) (s : Network κ ι) : Act κ ι → Option (Network κ ι)
  | .start ks =>
    -- a start of a running server returns at once, and so does a stop of one that does not run
    match s.control with
    | .down => if ks.Nodup then some { s with control := .enabling ks, running := true } else none
    | .up => some s
    | _ => none
  | .stop =>
    match s.control with
    | .up => some { s with control := .cancelling, running := false }
    | .down => some s
    | _ => none
  | .control => s.controlStep
  | .leave =>
    if s.loop = .looping ∧ (s.running = false ∨ s.queueCancelled) then some { s with loop := .reset }
    else none
  | .loop => s.loopStep
  | .accept k i =>
    if (s.server k).listener = .accept ∧ s.handler i = .absent then
      some ((s.setListener k (.accepted i)).setHandler i (.made k))
    else none
  | .listen k => s.listenStep max k
  | .unwind k => s.unwindStep max k
  | .wake i => (s.slots.step max (.wake i)).map fun slots => { s with slots := slots }
  | .hangUp i => if s.handler i = .reading then some (s.setHandler i .destroy) else none
  | .handler i => s.handlerStep max i
  | .exit i => if s.sockUnlocked ∧ i ∈ s.sockList then some (s.exitSock i) else none

/-- Before the first start. -/
def new : Network κ ι where
  control := .down
  loop := .absent
  running := false
  queueCancelled := false
  enabled := []
  server _ := ⟨false, .absent, false, []⟩
  networkGone := false
  sockList := []
  exited _ := false
  slots := .start
  handler _ := .absent
  stopped := 0

def system (κ ι : Type*) [DecidableEq κ] [DecidableEq ι] (max : ℕ) :
    System (Network κ ι) (Act κ ι) where
  init s := s = new
  step := step max

end Model

end Network

end CogServer
