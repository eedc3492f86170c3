import CogServer.Transition
import CogServer.LineDiscipline
import Mathlib.Logic.Function.Basic

/-! `recv_barrier`: the barriers that clients name by a UUID. All of it runs
under one mutex, which only the wait gives up. -/
namespace CogServer

open Transition

structure BarrierState where
  remaining : UInt8
  toExit : UInt8
  complete : Bool
  deriving DecidableEq, Repr

/-- A caller of `recv_barrier`. It waits on the entry that it found or made, and
has been notified or not; `round` only records when it came. -/
inductive CallerPc
  | out
  | waiting (n : UInt8) (uuid : Bytes) (entry round : ℕ) (notified : Bool)
  deriving DecidableEq, Repr

/-- The barriers and their callers. `barriers` says at which entry a UUID is
found, `entries` what the entries hold, `none` being an entry that was never
made or is erased. The fields from `inside` on only record what happened. -/
structure RecvBarriers (ι : Type*) where
  barriers : Bytes → Option ℕ
  entries : ℕ → Option BarrierState
  nextEntry : ℕ
  caller : ι → CallerPc
  /-- The callers that have arrived and not left. -/
  inside : Bytes → List ι
  arrived : Bytes → ℕ
  left : Bytes → ℕ
  erased : Bytes → ℕ
  /-- The calls for a UUID come in rounds, each as large as its first call says. -/
  round : Bytes → ℕ
  size : Bytes → ℕ
  arrivals : Bytes → ℕ → ℕ
  /-- A counter was lowered below zero. -/
  wrapped : Bool
  /-- A caller left before as many callers of its round as it named had arrived. -/
  early : Bool

namespace RecvBarriers

variable {ι : Type*} [DecidableEq ι]

def start : RecvBarriers ι where
  barriers _ := none
  entries _ := none
  nextEntry := 0
  caller _ := .out
  inside _ := []
  arrived _ := 0
  left _ := 0
  erased _ := 0
  round _ := 0
  size _ := 0
  arrivals _ _ := 0
  wrapped := false
  early := false

/-- The record of an arrival. A full round is followed by the next one. -/
def note (s : RecvBarriers ι) (t : ι) (n : UInt8) (u : Bytes) : RecvBarriers ι :=
  let full := s.size u ≤ s.arrivals u (s.round u)
  let r := if full then s.round u + 1 else s.round u
  { s with
    inside := Function.update s.inside u (t :: s.inside u)
    arrived := Function.update s.arrived u (s.arrived u + 1)
    round := Function.update s.round u r
    size := if full then Function.update s.size u n.toNat else s.size
    arrivals := Function.update s.arrivals u (Function.update (s.arrivals u) r (s.arrivals u r + 1)) }

/-- `try_emplace(uuid, n - 1, n)` -/
def emplace (s : RecvBarriers ι) (n : UInt8) (u : Bytes) : RecvBarriers ι :=
  { s with
    barriers := Function.update s.barriers u (some s.nextEntry)
    entries := Function.update s.entries s.nextEntry (some ⟨n - 1, n, false⟩)
    nextEntry := s.nextEntry + 1
    wrapped := s.wrapped || n = 0 }

/-- `remaining--` -/
def countDown (s : RecvBarriers ι) (id : ℕ) (st : BarrierState) : RecvBarriers ι :=
  { s with
    entries := Function.update s.entries id (some { st with remaining := st.remaining - 1 })
    wrapped := s.wrapped || st.remaining = 0 }

def notify (id : ℕ) : CallerPc → CallerPc
  | .waiting n u id' r b => .waiting n u id' r (b || id' = id)
  | .out => .out

/-- The last one to arrive completes the barrier and notifies the others. -/
def completeIfLast (s : RecvBarriers ι) (id : ℕ) : RecvBarriers ι :=
  match s.entries id with
  | some st =>
    if st.remaining = 0 ∧ st.complete = false then
      { s with
        entries := Function.update s.entries id (some { st with complete := true })
        caller := fun t => notify id (s.caller t) }
    else s
  | none => s

/-- Everyone exits; the last one cleans up. -/
def leave (s : RecvBarriers ι) (t : ι) (n : UInt8) (u : Bytes) (id r : ℕ) (st : BarrierState) :
    RecvBarriers ι :=
  let st' := { st with toExit := st.toExit - 1 }
  let last := st'.toExit = 0
  { s with
    entries := Function.update s.entries id (if last then none else some st')
    barriers := if last then Function.update s.barriers u none else s.barriers
    caller := Function.update s.caller t .out
    inside := Function.update s.inside u ((s.inside u).erase t)
    left := Function.update s.left u (s.left u + 1)
    erased := if last then Function.update s.erased u (s.erased u + 1) else s.erased
    wrapped := s.wrapped || st.toExit = 0
    early := s.early || decide (s.arrivals u r < n.toNat) }

/-- The test of `complete`: leave, or go on waiting. There is no outcome when the
entry is erased. -/
def settle (s : RecvBarriers ι) (t : ι) (n : UInt8) (u : Bytes) (id r : ℕ) :
    Option (RecvBarriers ι) :=
  (s.entries id).map fun st =>
    if st.complete then s.leave t n u id r st
    else { s with caller := Function.update s.caller t (.waiting n u id r false) }

/-- Find the entry or make it, and count the caller. -/
def arrive (s : RecvBarriers ι) (t : ι) (n : UInt8) (u : Bytes) : Option (RecvBarriers ι × ℕ) :=
  match s.barriers u with
  | none => some ((((s.note t n u).emplace n u).completeIfLast s.nextEntry), s.nextEntry)
  | some id =>
    (s.entries id).map fun st => (((s.note t n u).countDown id st).completeIfLast id, id)

/-- A call of `recv_barrier` arrives, or a waiting caller wakes up, notified or not. -/
inductive Act (ι : Type*)
  | call (t : ι) (n : UInt8) (uuid : Bytes) | wake (t : ι) | spurious (t : ι)

def step (s : RecvBarriers ι) : Act ι → Option (RecvBarriers ι)
  | .call t n u =>
    match s.caller t with
    | .out => (s.arrive t n u).bind fun x => x.1.settle t n u x.2 (x.1.round u)
    | .waiting .. => none
  | .wake t =>
    match s.caller t with
    | .waiting n u id r true => s.settle t n u id r
    | _ => none
  | .spurious t =>
    match s.caller t with
    | .waiting n u id r _ => s.settle t n u id r
    | .out => none

end RecvBarriers

/-- Any number of callers, from an empty map. -/
def recvBarrierSystem {ι : Type*} [DecidableEq ι] :
    System (RecvBarriers ι) (RecvBarriers.Act ι) where
  init s := s = RecvBarriers.start
  step := RecvBarriers.step

end CogServer
