import CogServer.Transition
import Mathlib.Logic.Function.Basic
import Mathlib.Data.Fintype.Defs

/-! `global_barrier`: the flag that its callers share, the flag that each of them
has of its own, and the lock of the list of sockets. -/
namespace CogServer

open Transition

/-- Positions in `global_barrier`. -/
inductive BarrierPc
  | find | setIn | setActive | scan | clearIn | exitScan | release
  deriving DecidableEq, Repr

/-- Positions between setting `_in_barrier` and clearing it. -/
def BarrierPc.flagged : BarrierPc → Bool
  | .setActive | .scan | .clearIn => true
  | _ => false

/-- Positions between setting `_global_barrier_active` and clearing `_in_barrier`. -/
def BarrierPc.closing : BarrierPc → Bool
  | .scan | .clearIn => true
  | _ => false

/-- Positions behind clearing `_in_barrier`. -/
def BarrierPc.leaving : BarrierPc → Bool
  | .exitScan | .release => true
  | _ => false

theorem BarrierPc.flagged_of_closing {p : BarrierPc} (h : p.closing = true) : p.flagged = true := by
  cases p <;> simp_all [BarrierPc.closing, BarrierPc.flagged]

/-- The state that the callers share. `sockLocked` says whether a caller keeps
`_sock_lock` from one step to the next, and `pc i` is the position of the eval
thread of socket `i`, `none` outside of `global_barrier`. -/
structure GlobalBarrier (ι : Type*) where
  inBarrier : ι → Bool
  active : Bool
  sockLocked : Bool
  pc : ι → Option BarrierPc
  /-- The assertion that the caller's own socket is found failed. -/
  outOfBand : Bool

/-- A thread calls `global_barrier`, or goes on in it. The outside says which
sockets still point to their shell, and which shells are busy. -/
inductive BarrierAct (ι : Type*)
  | call (i : ι) | run (i : ι) (attached busy : ι → Bool)

namespace GlobalBarrier

variable {ι : Type*} {b c : GlobalBarrier ι} {attached busy : ι → Bool} {i j : ι}

def start : GlobalBarrier ι where
  inBarrier _ := false
  active := false
  sockLocked := false
  pc _ := none
  outOfBand := false

/-- The eval thread of socket `i` is at a position of kind `p`. -/
def isAt (b : GlobalBarrier ι) (p : BarrierPc → Bool) (i : ι) : Bool := (b.pc i).any p

/-- The scan finds all sockets idle, but for the caller's own and those that
are in a barrier themselves. -/
def allIdle (b : GlobalBarrier ι) (busy : ι → Bool) (i : ι) : Prop :=
  ∀ j, j ≠ i → b.inBarrier j = false → busy j = false

variable [DecidableEq ι]

def goto (b : GlobalBarrier ι) (i : ι) (p : Option BarrierPc) : GlobalBarrier ι :=
  { b with pc := Function.update b.pc i p }

variable [Fintype ι]

instance : Decidable (b.allIdle busy i) := inferInstanceAs (Decidable (∀ _, _))

/-- One step of a caller. A scan runs under `_sock_lock`, and so does all that
follows the clearing of `_in_barrier`. -/
def next (b : GlobalBarrier ι) (attached busy : ι → Bool) (i : ι) :
    BarrierPc → Option (GlobalBarrier ι)
  | .find =>
    if b.sockLocked then none
    else if attached i then some (b.goto i (some .setIn)) else some { b with outOfBand := true }
  | .setIn =>
    some { b.goto i (some .setActive) with inBarrier := Function.update b.inBarrier i true }
  | .setActive => some { b.goto i (some .scan) with active := true }
  | .scan =>
    -- A scan that finds a busy shell is repeated after 10 ms.
    if b.sockLocked then none
    else if b.allIdle busy i then some (b.goto i (some .clearIn)) else some b
  | .clearIn =>
    some { b.goto i (some .exitScan) with inBarrier := Function.update b.inBarrier i false }
  | .exitScan =>
    if b.sockLocked then none
    else if ∃ j, b.inBarrier j = true then some (b.goto i none)
    else some { b.goto i (some .release) with sockLocked := true }
  | .release => some { b.goto i none with active := false, sockLocked := false }

def step (b : GlobalBarrier ι) : BarrierAct ι → Option (GlobalBarrier ι)
  | .call i => if b.pc i = none then some (b.goto i (some .find)) else none
  | .run i attached busy => (b.pc i).bind (b.next attached busy i)

end GlobalBarrier

/-- Any number of callers, with any answers from the shells. -/
def globalBarrierSystem {ι : Type*} [DecidableEq ι] [Fintype ι] :
    System (GlobalBarrier ι) (BarrierAct ι) where
  init b := b = GlobalBarrier.start
  step := GlobalBarrier.step

namespace GlobalBarrier

variable {ι : Type*} {b c : GlobalBarrier ι} {attached busy : ι → Bool} {i j : ι}

/-- What holds in every run of the callers. -/
structure Flags (b : GlobalBarrier ι) : Prop where
  flag : ∀ i, b.inBarrier i = b.isAt BarrierPc.flagged i
  /-- While the barrier is set, somebody is going to test whether to release it. -/
  kept : b.active = true → ∃ i, b.inBarrier i = true ∨ b.isAt BarrierPc.leaving i = true
  locked : b.sockLocked = true → ∃ i, b.pc i = some .release

/-- What holds as long as nobody sets the barrier that another one is about to
release. -/
structure Closed (b : GlobalBarrier ι) : Prop where
  active : ∀ i, b.isAt BarrierPc.closing i = true → b.active = true
  apart : ∀ i j, b.pc i = some .release → b.isAt BarrierPc.closing j = false

/-- A caller sets the barrier while no other one is about to release it. -/
def alone (b : GlobalBarrier ι) : BarrierAct ι → Prop
  | .run i _ _ => b.pc i = some .setActive → ∀ j, b.pc j ≠ some .release
  | .call _ => True

theorem isAt_of_closing (h : b.isAt BarrierPc.closing i = true) :
    b.isAt BarrierPc.flagged i = true := by
  unfold isAt at h ⊢
  cases hp : b.pc i with
  | none => simp [hp] at h
  | some p =>
    rw [hp] at h
    exact BarrierPc.flagged_of_closing h

theorem isAt_congr {q : BarrierPc → Bool} (h : c.pc j = b.pc j) : c.isAt q j = b.isAt q j := by
  rw [isAt, isAt, h]

theorem isAt_eq {q : BarrierPc → Bool} {p : BarrierPc} (h : b.pc i = some p) :
    b.isAt q i = q p := by
  simp [isAt, h]

/-- A step that moves only caller `i`. -/
theorem Flags.move (hf : Flags b) (hframe : ∀ k, k ≠ i → c.pc k = b.pc k ∧ c.inBarrier k = b.inBarrier k)
    (hflag : c.inBarrier i = c.isAt BarrierPc.flagged i)
    (hkept : c.active = true → (c.inBarrier i = true ∨ c.isAt BarrierPc.leaving i = true) ∨
      (∃ k, k ≠ i ∧ b.inBarrier k = true) ∨
      b.active = true ∧ b.inBarrier i = false ∧ b.isAt BarrierPc.leaving i = false)
    (hlocked : c.sockLocked = true → c.pc i = some .release ∨
      b.sockLocked = true ∧ b.pc i ≠ some .release) : Flags c := by
  constructor
  · intro k
    by_cases hk : k = i
    · exact hk ▸ hflag
    · rw [(hframe k hk).2, isAt_congr (hframe k hk).1, hf.flag k]
  · intro ha
    rcases hkept ha with h | ⟨k, hk, h⟩ | ⟨hb, h1, h2⟩
    · exact ⟨i, h⟩
    · exact ⟨k, .inl ((hframe k hk).2.trans h)⟩
    · obtain ⟨k, h⟩ := hf.kept hb
      have hk : k ≠ i := by
        rintro rfl
        rcases h with h | h
        · simp [h1] at h
        · simp [h2] at h
      rw [← (hframe k hk).2, ← isAt_congr (hframe k hk).1] at h
      exact ⟨k, h⟩
  · intro hl
    rcases hlocked hl with h | ⟨hb, hi⟩
    · exact ⟨i, h⟩
    · obtain ⟨k, hk⟩ := hf.locked hb
      have hki : k ≠ i := fun h => hi (h ▸ hk)
      exact ⟨k, (hframe k hki).1.trans hk⟩

/-- A step that moves only caller `i`, which does not come to release. -/
theorem Closed.move (hc : Closed b) (hframe : ∀ k, k ≠ i → c.pc k = b.pc k)
    (hactive : c.active = b.active) (hclosing : c.isAt BarrierPc.closing i = true →
      b.isAt BarrierPc.closing i = true) (hrelease : c.pc i ≠ some .release) : Closed c := by
  have hback (k : ι) (hk : c.isAt BarrierPc.closing k = true) : b.isAt BarrierPc.closing k = true := by
    by_cases hki : k = i
    · subst hki
      exact hclosing hk
    · rwa [isAt_congr (hframe k hki)] at hk
  constructor
  · intro k hk
    exact hactive.trans (hc.active k (hback k hk))
  · intro k l hk
    by_contra hl
    have hki : k ≠ i := fun h => hrelease (h ▸ hk)
    rw [hframe k hki] at hk
    exact absurd (hc.apart k l hk) (by simp [hback l (by simpa using hl)])

/-- A step of caller `i` after which nobody keeps the barrier set. -/
theorem Closed.nobody (hframe : ∀ k, k ≠ i → c.pc k = b.pc k)
    (hi : c.isAt BarrierPc.closing i = false)
    (h : ∀ k, k ≠ i → b.isAt BarrierPc.closing k = false) : Closed c := by
  have hnone (k : ι) : c.isAt BarrierPc.closing k = false := by
    by_cases hk : k = i
    · exact hk ▸ hi
    · rw [isAt_congr (hframe k hk), h k hk]
  exact ⟨fun k hk => absurd ((hnone k).symm.trans hk) (by simp), fun _ k _ => hnone k⟩

theorem flags_start : Flags (start : GlobalBarrier ι) := by
  constructor <;> simp [start, isAt]

theorem closed_start : Closed (start : GlobalBarrier ι) := by
  constructor <;> simp [start, isAt]

attribute [local simp] BarrierPc.flagged BarrierPc.closing BarrierPc.leaving

/-- With nobody in `global_barrier` the barrier is released. -/
theorem Flags.released (hf : Flags b) (h : ∀ i, b.pc i = none) : b.active = false := by
  by_contra ha
  obtain ⟨i, hi | hi⟩ := hf.kept (by simpa using ha)
  · rw [hf.flag i, isAt, h i] at hi
    cases hi
  · simp [isAt, h i] at hi

variable [DecidableEq ι]

@[simp] theorem goto_pc (b : GlobalBarrier ι) (i : ι) (p : Option BarrierPc) :
    (b.goto i p).pc = Function.update b.pc i p := rfl

@[simp] theorem goto_inBarrier (b : GlobalBarrier ι) (i : ι) (p : Option BarrierPc) :
    (b.goto i p).inBarrier = b.inBarrier := rfl

@[simp] theorem goto_active (b : GlobalBarrier ι) (i : ι) (p : Option BarrierPc) :
    (b.goto i p).active = b.active := rfl

@[simp] theorem goto_sockLocked (b : GlobalBarrier ι) (i : ι) (p : Option BarrierPc) :
    (b.goto i p).sockLocked = b.sockLocked := rfl

theorem Flags.call (hf : Flags b) (hp : b.pc i = none) : Flags (b.goto i (some .find)) := by
  have hi : b.inBarrier i = false := by rw [hf.flag i, isAt, hp]; rfl
  refine hf.move (i := i) (fun k hk => by simp [hk]) (by simpa [isAt] using hi)
    (fun ha => .inr (.inr ⟨ha, hi, by simp [isAt, hp]⟩)) (fun hl => .inr ⟨hl, by simp [hp]⟩)

variable [Fintype ι]

/-- What a step of caller `i` leaves alone. -/
theorem next_frame {p : BarrierPc} (h : b.next attached busy i p = some c) (hj : j ≠ i) :
    c.pc j = b.pc j ∧ c.inBarrier j = b.inBarrier j := by
  cases p <;> simp only [next] at h
  case find | exitScan | scan =>
    split at h
    · cases h
    split at h <;> cases h <;> simp [hj]
  all_goals
    cases h
    simp [hj]

theorem Flags.next {p : BarrierPc} (hf : Flags b) (hp : b.pc i = some p)
    (h : b.next attached busy i p = some c) : Flags c := by
  have hframe (k : ι) (hk : k ≠ i) := next_frame h hk
  have hi : b.inBarrier i = p.flagged := by rw [hf.flag i, isAt_eq hp]
  have hleaving : b.isAt BarrierPc.leaving i = p.leaving := isAt_eq hp
  cases p <;> simp only [GlobalBarrier.next] at h
  case find =>
    split at h
    · cases h
    split at h <;> cases h
    · refine hf.move hframe (by simpa [isAt] using hi) (fun ha => .inr (.inr ⟨ha, hi, hleaving⟩))
        (fun hl => .inr ⟨hl, by simp [hp]⟩)
    · exact ⟨hf.flag, hf.kept, hf.locked⟩
  case scan =>
    split at h
    · cases h
    split at h <;> cases h
    · exact hf.move hframe (by simpa [isAt] using hi) (fun _ => .inl (.inl hi))
        (fun hl => .inr ⟨hl, by simp [hp]⟩)
    · exact hf
  case exitScan =>
    split at h
    · cases h
    rename_i hl
    split at h <;> cases h
    · rename_i hex
      obtain ⟨k, hk⟩ := hex
      have hki : k ≠ i := by
        rintro rfl
        simp [hi] at hk
      exact hf.move hframe (by simpa [isAt] using hi) (fun _ => .inr (.inl ⟨k, hki, hk⟩))
        (fun h => absurd h hl)
    · exact hf.move hframe (by simpa [isAt] using hi)
        (fun _ => .inl (.inr (by simp [isAt]))) (fun _ => .inl (by simp))
  case setIn =>
    cases h
    exact hf.move hframe (by simp [isAt]) (fun _ => .inl (.inl (by simp)))
      (fun hl => .inr ⟨hl, by simp [hp]⟩)
  case setActive =>
    cases h
    exact hf.move hframe (by simpa [isAt] using hi) (fun _ => .inl (.inl hi))
      (fun hl => .inr ⟨hl, by simp [hp]⟩)
  case clearIn =>
    cases h
    exact hf.move hframe (by simp [isAt])
      (fun _ => .inl (.inr (by simp [isAt]))) (fun hl => .inr ⟨hl, by simp [hp]⟩)
  case release =>
    cases h
    exact hf.move hframe (by simpa [isAt] using hi) (fun ha => by simp at ha) (fun hl => by simp at hl)

theorem Flags.step {a : BarrierAct ι} (hf : Flags b) (h : b.step a = some c) : Flags c := by
  cases a with
  | call i =>
    simp only [GlobalBarrier.step] at h
    split at h <;> cases h
    rename_i hp
    exact hf.call hp
  | run i attached busy =>
    obtain ⟨p, hp, h⟩ := Option.bind_eq_some_iff.mp h
    exact hf.next hp h

theorem Flags.of_reach {C : GlobalBarrier ι → BarrierAct ι → Prop}
    (h : Reach globalBarrierSystem C b) : Flags b := by
  refine h.invariant Flags ?_ fun _ _ _ _ hf _ ht => hf.step ht
  rintro _ rfl
  exact flags_start

theorem Closed.next {p : BarrierPc} (hf : Flags b) (hc : Closed b)
    (ha : p = .setActive → ∀ j, b.pc j ≠ some .release) (hp : b.pc i = some p)
    (h : b.next attached busy i p = some c) : Closed c := by
  have hframe (k : ι) (hk : k ≠ i) := (next_frame h hk).1
  have hclosing : b.isAt BarrierPc.closing i = p.closing := isAt_eq hp
  cases p <;> simp only [GlobalBarrier.next] at h
  case find =>
    split at h
    · cases h
    split at h <;> cases h
    · exact hc.move hframe rfl (by simp [isAt]) (by simp)
    · exact ⟨hc.active, hc.apart⟩
  case scan =>
    split at h
    · cases h
    split at h <;> cases h
    · exact hc.move hframe rfl (fun _ => hclosing) (by simp)
    · exact hc
  case exitScan =>
    split at h
    · cases h
    split at h <;> cases h
    · exact hc.move hframe rfl (by simp [isAt]) (by simp)
    · rename_i hex
      -- no flag is up, so nobody is between setting the barrier and clearing its flag
      refine Closed.nobody hframe (by simp [isAt]) fun k _ => ?_
      by_contra hk
      refine hex ⟨k, ?_⟩
      rw [hf.flag k]
      exact isAt_of_closing (by simpa using hk)
  case setIn =>
    cases h
    exact hc.move hframe rfl (by simp [isAt]) (by simp)
  case setActive =>
    cases h
    refine ⟨fun _ _ => rfl, fun k l hk => ?_⟩
    by_cases hki : k = i
    · subst hki
      simp at hk
    · exact absurd ((hframe k hki).symm.trans hk) (ha rfl k)
  case clearIn =>
    cases h
    exact hc.move hframe rfl (by simp [isAt]) (by simp)
  case release =>
    cases h
    exact Closed.nobody hframe (by simp [isAt]) fun k _ => hc.apart i k hp

theorem Closed.step {a : BarrierAct ι} (hf : Flags b) (hc : Closed b) (ha : alone b a)
    (h : b.step a = some c) : Closed c := by
  cases a with
  | call i =>
    simp only [GlobalBarrier.step] at h
    split at h <;> cases h
    exact hc.move (i := i) (fun k hk => by simp [hk]) rfl (by simp [isAt]) (by simp)
  | run i attached busy =>
    obtain ⟨p, hp, h⟩ := Option.bind_eq_some_iff.mp h
    exact hc.next hf (fun hs => ha (hs ▸ hp)) hp h

theorem Closed.of_reach (h : Reach globalBarrierSystem alone b) : Closed b := by
  refine h.invariant Closed ?_ fun _ _ _ hr hc ha ht => hc.step (.of_reach hr) ha ht
  rintro _ rfl
  exact closed_start

end GlobalBarrier

end CogServer
