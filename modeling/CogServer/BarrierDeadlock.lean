import CogServer.BarrierWaits
import Mathlib.Tactic.FinCases

/-! The two barriers cannot deadlock each other, as long as a global barrier is set only while the
barriers that others have begun with are clear of it. -/
namespace CogServer

open Transition

namespace GlobalBarrier

variable {ι : Type*} [DecidableEq ι] [Fintype ι] {b : GlobalBarrier ι} {busy : ι → Bool} {i : ι}

/-- Where nobody keeps the lock, a caller moves on unless its scan finds a busy shell. -/
theorem next_moves {p : BarrierPc} (hlock : b.sockLocked = false)
    (hscan : p = .scan → b.allIdle busy i) :
    ∃ c, b.next (fun _ => true) busy i p = some c ∧ c.pc i ≠ some p := by
  cases p with
  | exitScan =>
    by_cases hex : ∃ j, b.inBarrier j = true
    · exact ⟨b.goto i none, by simp [next, hlock, hex], by simp⟩
    · exact ⟨{ b.goto i (some .release) with sockLocked := true }, by simp [next, hlock, hex], by simp⟩
  | scan => exact ⟨b.goto i (some .clearIn), by simp [next, hlock, hscan rfl], by simp⟩
  | find => exact ⟨b.goto i (some .setIn), by simp [next, hlock], by simp⟩
  | setIn | setActive | clearIn | release => exact ⟨_, rfl, by simp⟩

end GlobalBarrier

namespace Traffic

variable {ι : Type*} {w u : Traffic ι} {i : ι} {N rank : Bytes → ℕ} {early : ι → Bool}
  {script : ι → List BarrierCommand}

theorem eval_of_current {c : BarrierCommand} (h : w.current i = [c]) : w.eval i = .inside c := by
  unfold current at h
  split at h <;> simp_all

/-- Where the threads of socket `i` stand when no thread can go on. -/
structure Halted (N : Bytes → ℕ) (w : Traffic ι) (i : ι) : Prop where
  net : (w.net i = .reading ∧ w.script i = []) ∨ ((∃ c, w.net i = .blocked c) ∧ w.bar.active = true)
  eval : (w.eval i = .idle ∧ w.queue i = []) ∨
    (∃ n v, w.eval i = .inside (.recv n v) ∧ w.recv.arrived v < N v) ∨
    (w.eval i = .inside .global ∧ w.bar.pc i = some .scan ∧ ¬ w.bar.allIdle w.busy i)

theorem Halted.passed (hh : Halted N w i) (h : w.eval i = .idle) : w.passed i = [] := by
  have hqueue : w.queue i = [] := by
    rcases hh.eval with ⟨-, hq⟩ | ⟨n, v, hp, -⟩ | ⟨hp, -⟩
    · exact hq
    · simp [h] at hp
    · simp [h] at hp
  rcases hh.net with ⟨hnet, -⟩ | ⟨⟨c, hnet⟩, -⟩ <;> simp [Traffic.passed, h, hqueue, hnet]

/-- What is kept back is kept back by a barrier that is set. -/
theorem Halted.active {c : BarrierCommand} (hh : Halted N w i) (h : c ∈ w.unpassed i) :
    w.bar.active = true := by
  rcases hh.net with ⟨hnet, hscript⟩ | ⟨-, hactive⟩
  · simp [unpassed, hnet, hscript] at h
  · exact hactive

variable [Fintype ι]

/-- All who are in `global_barrier` scan. -/
theorem Steady.scan (hs : Steady N rank w) (hh : Halted N w i) (h : w.bar.pc i ≠ none) :
    w.bar.pc i = some .scan := by
  have heval := eval_of_current (hs.located.bar i h)
  rcases hh.eval with ⟨hp, -⟩ | ⟨n, v, hp, -⟩ | ⟨-, hscan, -⟩
  · simp [heval] at hp
  · simp [heval] at hp
  · exact hscan

theorem Steady.setter (hs : Steady N rank w) (hh : ∀ i, Halted N w i) (h : w.bar.active = true) :
    ∃ j, w.bar.pc j = some .scan := by
  obtain ⟨j, hj⟩ := hs.flags.kept h
  refine ⟨j, hs.scan (hh j) fun hnone => ?_⟩
  rw [hs.flags.flag j] at hj
  simp [GlobalBarrier.isAt, hnone] at hj

/-- Nobody is left in `recv_barrier`: the command that it waits for would be behind one with a
UUID that comes before, or shut in by a global barrier. -/
theorem Steady.nobody_waits (hs : Steady N rank w) (hh : ∀ i, Halted N w i) (n : UInt8)
    (v : Bytes) : w.eval i ≠ .inside (.recv n v) := by
  induction hr : rank v using Nat.strong_induction_on generalizing i n v with
  | h r ih =>
    intro hp
    have hcur : w.current i = [.recv n v] := by simp [current, hp]
    have hmissing : w.recv.arrived v < N v := by
      rcases (hh i).eval with ⟨h, -⟩ | ⟨m, x, h, hlt⟩ | ⟨h, -⟩
      · simp [hp] at h
      · obtain ⟨rfl, rfl⟩ : n = m ∧ v = x := by simpa [hp] using h
        exact hlt
      · simp [hp] at h
    -- a command with the same UUID that has not arrived
    obtain ⟨k, d, hd, hname⟩ : ∃ k, ∃ d ∈ w.ahead k, d.names v = true := by
      have hsum : ∑ k, (w.ahead k).countP (BarrierCommand.names v) ≠ 0 := by
        have := hs.counted.count v
        omega
      obtain ⟨k, -, hk⟩ := Finset.exists_ne_zero_of_sum_ne_zero hsum
      obtain ⟨d, hd⟩ := List.countP_pos_iff.mp (Nat.pos_of_ne_zero hk)
      exact ⟨k, d, hd⟩
    have hclear (j : ι) (hj : w.bar.pc j = some .scan) :
        (∀ k, ∀ d ∈ w.unpassed k, d.names v = false) ∧ ∀ d ∈ w.passed j, d.names v = false := by
      have hij : i ≠ j := by
        rintro rfl
        have := hs.located.bar i (by simp [hj])
        simp [hcur] at this
      refine hs.shut j (by rw [GlobalBarrier.isAt_eq hj]; rfl) i hij (.recv n v) ?_
      rw [hcur]
      exact List.mem_append_left _ List.mem_cons_self
    rcases List.mem_append.mp hd with hpassed | hunpassed
    · rcases (hh k).eval with ⟨hk, -⟩ | ⟨m, x, hk, -⟩ | ⟨-, hscan, -⟩
      · simp [(hh k).passed hk] at hpassed
      · -- socket `k` waits for a UUID that comes before `v`
        refine ih (rank x) ?_ m x rfl hk
        have hcurk : w.current k = [.recv m x] := by simp [current, hk]
        have ho := hs.ordered k
        rw [hcurk] at ho
        obtain ⟨hfirst, -⟩ := List.pairwise_cons.mp ho
        rw [← hr]
        refine hfirst v (List.mem_filterMap.mpr ⟨d, hd, ?_⟩)
        cases d <;> simp_all [BarrierCommand.names, BarrierCommand.uuid]
      · simp [(hclear k hscan).2 d hpassed] at hname
    · obtain ⟨j, hj⟩ := hs.setter hh ((hh k).active hunpassed)
      simp [(hclear j hj).1 k d hunpassed] at hname

/-- Nobody is left in `global_barrier`. -/
theorem Steady.nobody_scans (hs : Steady N rank w) (hh : ∀ i, Halted N w i) (j : ι) :
    w.bar.pc j = none := by
  by_contra hj
  have hp := eval_of_current (hs.located.bar j hj)
  rcases (hh j).eval with ⟨h, -⟩ | ⟨n, v, h, -⟩ | ⟨-, -, hbusy⟩
  · simp [hp] at h
  · simp [hp] at h
  · refine hbusy fun k _ hflag => ?_
    rcases (hh k).eval with ⟨hk, hq⟩ | ⟨n, v, hk, -⟩ | ⟨-, hscan, -⟩
    · simp [busy, hq, hs.noted k hk]
    · exact absurd hk (hs.nobody_waits hh n v)
    · rw [hs.flags.flag k, GlobalBarrier.isAt_eq hscan] at hflag
      cases hflag

variable [DecidableEq ι]

theorem Stuck.eval_eq (hw : w.Stuck early) (h : w.evalStep i = some u) : u.eval i = w.eval i :=
  congrArg (fun s => s.eval i) (hw (.eval i) u h)

/-- In `global_barrier` a stuck thread repeats its scan. -/
theorem Stuck.bar_eq {p : BarrierPc} {b : GlobalBarrier ι} (hw : w.Stuck early)
    (heval : w.eval i = .inside .global) (hp : w.bar.pc i = some p)
    (h : w.bar.next (fun _ => true) w.busy i p = some b) : b = w.bar := by
  have hstep : w.step early (.eval i) = some { w with bar := b } := by
    simp [step, evalStep, heval, hp, GlobalBarrier.step, h]
  exact congrArg Traffic.bar (hw _ _ hstep)

theorem Stuck.unlocked (hw : w.Stuck early) (hs : Steady N rank w) : w.bar.sockLocked = false := by
  by_contra hlock
  obtain ⟨i, hi⟩ := hs.flags.locked (by simpa using hlock)
  have heval := eval_of_current (hs.located.bar i (by simp [hi]))
  have h := hw.bar_eq heval hi (b := { w.bar.goto i none with active := false, sockLocked := false }) rfl
  have hpc := congrArg (fun b => b.pc i) h
  simp [hi] at hpc

theorem Stuck.net (hw : w.Stuck early) (i : ι) : (w.net i = .reading ∧ w.script i = []) ∨
    ((∃ c, w.net i = .blocked c) ∧ w.bar.active = true) := by
  have hnet (u : Traffic ι) (h : w.netStep i = some u) : u.net i = w.net i :=
    congrArg (fun s => s.net i) (hw (.net i) u h)
  cases hp : w.net i with
  | reading =>
    cases hscript : w.script i with
    | nil => exact .inl ⟨rfl, rfl⟩
    | cons c cs =>
      have h := hnet _ (by simp only [netStep, hp, hscript]; rfl)
      simp [hp] at h
  | blocked c =>
    refine .inr ⟨⟨c, rfl⟩, ?_⟩
    by_contra hactive
    have h := hnet _ (by simp only [netStep, hp, hactive]; rfl)
    simp [hp] at h
  | pushing c =>
    have h := hnet _ (by simp only [netStep, hp]; rfl)
    simp [hp] at h

/-- A stuck thread in `recv_barrier` waits for a command that has not arrived. -/
theorem Stuck.recv {n : UInt8} {v : Bytes} (hw : w.Stuck early) (hs : Steady N rank w)
    (hp : w.eval i = .inside (.recv n v)) : w.recv.arrived v < N v := by
  by_contra hall
  have hfull : w.recv.arrived v = N v := by
    have := hs.agreed.tally.most v
    omega
  cases hc : w.recv.caller i with
  | out =>
    have h := hw.eval_eq (i := i) (u := w.goto i .returned) (by simp [evalStep, hp, hc])
    simp [hp] at h
  | waiting m x id r b =>
    have hcur := eval_of_current (hs.located.recv i m x id r b hc)
    obtain ⟨rfl, rfl⟩ : n = m ∧ v = x := by simpa [hp] using hcur
    obtain ⟨st, -, hstep⟩ := hs.agreed.wake hfull hc
    have h : w.step early (.eval i) = some { w with recv := w.recv.leave i n v id r st } := by
      simp [step, evalStep, hp, hc, hstep]
    have hcaller := congrArg (fun s => s.recv.caller i) (hw _ _ h)
    simp [RecvBarriers.leave, hc] at hcaller

theorem Stuck.halted (hw : w.Stuck early) (hs : Steady N rank w) (i : ι) : Halted N w i := by
  refine ⟨hw.net i, ?_⟩
  cases hp : w.eval i with
  | idle =>
    cases hq : w.queue i with
    | nil => exact .inl ⟨rfl, rfl⟩
    | cons c q =>
      have h := hw.eval_eq (i := i) (by simp only [evalStep, hp, hq]; rfl)
      simp [hp] at h
  | popped c =>
    have h := hw.eval_eq (i := i) (by simp only [evalStep, hp]; rfl)
    simp [hp] at h
  | started c =>
    have hcur : w.current i = [] := by simp [current, hp]
    cases c with
    | other =>
      have h := hw.eval_eq (i := i) (by simp only [evalStep, hp]; rfl)
      simp [hp] at h
    | recv n v =>
      have hahead : .recv n v ∈ w.ahead i := by simp [ahead, passed, hp]
      obtain ⟨r, hr⟩ := hs.agreed.call (hs.located.out (by simp [hcur])) (hs.counted.asAgreed hahead)
      have h := hw.eval_eq (i := i) (by simp only [evalStep, hp, hr]; rfl)
      simp [hp] at h
    | global =>
      have hpc := hs.located.absent (i := i) (by simp [hcur])
      have h := hw.eval_eq (i := i) (by simp only [evalStep, hp, GlobalBarrier.step, hpc]; rfl)
      simp [hp] at h
  | inside c =>
    cases c with
    | other => exact absurd (by simp [current, hp]) (hs.located.calls i)
    | recv n v => exact .inr (.inl ⟨n, v, rfl, hw.recv hs hp⟩)
    | global =>
      refine .inr (.inr ⟨rfl, ?_⟩)
      cases hpc : w.bar.pc i with
      | none =>
        have h := hw.eval_eq (i := i) (by simp only [evalStep, hp, hpc]; rfl)
        simp [hp] at h
      | some p =>
        by_contra hscan
        have hidle : p = .scan → w.bar.allIdle w.busy i := fun h => by simpa [h] using hscan
        obtain ⟨b, hb, hmoved⟩ := GlobalBarrier.next_moves (hw.unlocked hs) hidle
        exact hmoved (hw.bar_eq hp hpc hb ▸ hpc)
  | returned =>
    cases hdone : w.evalDone i with
    | true =>
      have h := hw.eval_eq (i := i) (by simp only [evalStep, hp, hdone]; rfl)
      simp [hp] at h
    | false =>
      have h : w.step early (.poll i) = some { w with evalDone := Function.update w.evalDone i true } := by
        simp [step, pollStep, hp, hdone]
      have hpoll := congrArg (fun s => s.evalDone i) (hw _ _ h)
      simp [hdone] at hpoll

/-- The two barriers do not deadlock each other in the runs in which the clients send the barriers
of different UUIDs in one order, and a caller sets the global barrier only while no other one is
about to release it and all commands that others have begun with are clear of it. -/
theorem barriers_progress (hp : Promised script) (ho : InOrder rank script)
    (h : Reach (trafficSystem early script) setsClear w) : ¬ w.Deadlocked early := by
  rintro ⟨⟨i, hi⟩, hw⟩
  have hs := Steady.of_reach hp ho h
  have hh := hw.halted hs
  rcases hi with hi | hi | ⟨c, hi⟩
  · refine hi (hs.located.out fun n v hcur => ?_)
    exact hs.nobody_waits hh n v (eval_of_current hcur)
  · exact hi (hs.nobody_scans hh i)
  · have hactive := (hh i).active (c := c) (by simp [unpassed, hi])
    simp [hs.flags.released fun j => hs.nobody_scans hh j] at hactive

/-- Two sockets share a barrier, the first one sends one more command, and a third socket sends a
global barrier. -/
def mixed : Fin 3 → List BarrierCommand
  | 0 => [.recv 2 [117], .other]
  | 1 => [.recv 2 [117]]
  | 2 => [.global]

/-- Two sockets share two barriers, and send them in opposite orders. -/
def crossed : Fin 3 → List BarrierCommand
  | 0 => [.recv 2 [117], .recv 2 [118]]
  | 1 => [.recv 2 [118], .recv 2 [117]]
  | 2 => []

theorem mixed_promised : Promised mixed := by
  intro i n u h
  fin_cases i <;> simp [mixed] at h <;> obtain ⟨rfl, rfl⟩ := h <;> decide

theorem crossed_promised : Promised crossed := by
  intro i n u h
  fin_cases i <;> simp [crossed] at h <;> obtain ⟨rfl, rfl⟩ | ⟨rfl, rfl⟩ := h <;> decide

/-- The network thread of a socket queues the next command. -/
def queues (i : Fin 3) : List (Act (Fin 3)) := List.replicate 3 (.net i)

/-- The eval thread of a socket goes on for some steps. -/
def runs (i : Fin 3) (n : ℕ) : List (Act (Fin 3)) := List.replicate n (.eval i)

/-- Both commands for the shared barrier get through before the global one begins. -/
def throughFirst : List (Act (Fin 3)) :=
  queues 0 ++ queues 0 ++ queues 1 ++ queues 2 ++ runs 0 3 ++ runs 2 6 ++ runs 1 2

theorem barriers_progress_two : ∃ w : Traffic (Fin 3),
    Reach (trafficSystem (fun _ => false) mixed) setsClear w ∧ w.bar.pc 2 = some .scan ∧
      w.recv.caller 0 ≠ .out ∧ ¬ w.Deadlocked fun _ => false := by
  have hx : (exec (trafficSystem (fun _ => false) mixed) (start mixed) throughFirst).map
      (fun w => (w.bar.pc 2, decide (w.recv.caller 0 ≠ .out))) = some (some .scan, true) := by decide +kernel
  obtain ⟨w, hw, h⟩ := Option.map_eq_some_iff.mp hx
  obtain ⟨hpc, hcaller⟩ := Prod.mk.inj h
  have hr : Reach (trafficSystem (fun _ => false) mixed) setsClear w :=
    Reach.of_exec (fun w a => decide (w.setsClear a)) (fun _ _ h => of_decide_eq_true h) (.init rfl)
      (by decide +kernel) hw
  have ho : InOrder (fun _ => 0) mixed := by
    intro i
    fin_cases i <;> decide
  exact ⟨w, hr, hpc, of_decide_eq_true hcaller, barriers_progress mixed_promised ho hr⟩

/-- The threads of socket `i` cannot go on. -/
def atRest (early : ι → Bool) (w : Traffic ι) (i : ι) : Bool :=
  (match w.net i with
    | .reading => decide (w.script i = [])
    | .blocked _ => w.bar.active
    | .pushing _ => false) &&
  (match w.eval i with
    | .idle => decide (w.queue i = [])
    | .inside (.recv _ _) =>
      match w.recv.caller i with
      | .waiting _ _ id _ false => (w.recv.entries id).any fun st => !st.complete
      | _ => false
    | .inside .global => decide (w.bar.pc i = some .scan ∧ w.bar.sockLocked = false ∧ ¬ w.bar.allIdle w.busy i)
    | _ => false) &&
  (w.evalDone i || !early i)

theorem stuck_of_atRest (h : ∀ i, atRest early w i = true) : w.Stuck early := by
  intro a u hu
  cases a with
  | net i =>
    have hi := h i
    simp only [step, netStep] at hu
    split at hu <;> simp_all [atRest]
  | eval i =>
    have hi := h i
    simp only [step, evalStep] at hu
    cases hp : w.eval i with
    | idle =>
      have hq : w.queue i = [] := by simp_all [atRest]
      simp [hp, hq] at hu
    | popped c | started c | returned => simp [atRest, hp] at hi
    | inside c =>
      cases c with
      | other => simp [atRest, hp] at hi
      | recv n v =>
        cases hc : w.recv.caller i with
        | out => simp [atRest, hp, hc] at hi
        | waiting m x id r b =>
          cases b with
          | true => simp [atRest, hp, hc] at hi
          | false => simp [hp, hc, RecvBarriers.step] at hu
      | global =>
        obtain ⟨hpc, hlock, hidle⟩ : w.bar.pc i = some .scan ∧ w.bar.sockLocked = false ∧
            ¬ w.bar.allIdle w.busy i := by simp_all [atRest]
        simp only [hp, hpc, reduceCtorEq, ↓reduceIte, GlobalBarrier.step, Option.bind_some, GlobalBarrier.next,
          hlock, Bool.false_eq_true, hidle, Option.map_some, Option.some.injEq] at hu
        exact hu.symm
  | poll i =>
    have hi := h i
    simp only [step, pollStep] at hu
    split at hu
    · rename_i hdone
      obtain ⟨hfalse, hret | hearly⟩ := hdone
      · simp [atRest, hret] at hi
      · simp [atRest, hfalse, hearly] at hi
    · cases hu
  | spurious i =>
    have hi := h i
    simp only [step] at hu
    split at hu
    · rename_i n v hp
      obtain ⟨t, ht, rfl⟩ := Option.map_eq_some_iff.mp hu
      cases hc : w.recv.caller i with
      | out => simp [atRest, hp, hc] at hi
      | waiting m x id r b =>
        cases b with
        | true => simp [atRest, hp, hc] at hi
        | false =>
          have hrest : (w.recv.entries id).any (fun st => !st.complete) = true := by
            simp only [atRest, hp, hc, Bool.and_eq_true] at hi
            exact hi.1.2
          simp only [RecvBarriers.step, hc] at ht
          rw [RecvBarriers.settle_same hc hrest ht]
    · cases hu

/-- Clients that keep their promise, and a run of theirs that ends in a deadlock. -/
def Deadlocks (early : Fin 3 → Bool) (script : Fin 3 → List BarrierCommand) : Prop :=
  Promised script ∧ ∃ w, Reach (trafficSystem early script) anyStep w ∧ w.Deadlocked early

/-- A list of actions after which no thread can go on, and one of them waits. -/
theorem deadlocks_of_run {script : Fin 3 → List BarrierCommand} {early : Fin 3 → Bool} (as : List (Act (Fin 3)))
    (hp : Promised script)
    (h : (exec (trafficSystem early script) (start script) as).map
      (fun w => decide ((∀ i, atRest early w i = true) ∧ w.recv.caller 0 ≠ .out)) = some true) :
    Deadlocks early script := by
  obtain ⟨w, hw, hrest⟩ := Option.map_eq_some_iff.mp h
  obtain ⟨hall, hcaller⟩ := of_decide_eq_true hrest
  exact ⟨hp, w, reach_of_exec as rfl hw, ⟨0, .inl hcaller⟩, stuck_of_atRest hall⟩

/-- The global barrier is set between the two commands of the shared barrier. -/
def shutIn : List (Act (Fin 3)) :=
  queues 0 ++ runs 0 3 ++ queues 0 ++ queues 2 ++ runs 2 6 ++ [.net 1]

def crossing : List (Act (Fin 3)) :=
  queues 0 ++ queues 0 ++ queues 1 ++ queues 1 ++ runs 0 3 ++ runs 1 3

/-- A global barrier waits for a socket that waits in `recv_barrier` for a command that the global
barrier keeps back; and two shared barriers wait for each other. Whether the poll thread notes the
end of an evaluation early does not matter. -/
theorem barriers_deadlock : Deadlocks (fun _ => false) mixed ∧ Deadlocks (fun _ => true) mixed ∧
    Deadlocks (fun _ => false) crossed ∧ Deadlocks (fun _ => true) crossed := by
  refine ⟨deadlocks_of_run shutIn mixed_promised ?_,
    deadlocks_of_run (shutIn ++ [.poll 0, .poll 2]) mixed_promised ?_,
    deadlocks_of_run crossing crossed_promised ?_,
    deadlocks_of_run (crossing ++ [.poll 0, .poll 1]) crossed_promised ?_⟩
  all_goals decide +kernel

end Traffic

end CogServer
