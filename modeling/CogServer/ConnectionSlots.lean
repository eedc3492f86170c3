import CogServer.Tally
import CogServer.Transition
import Mathlib.Logic.Function.Basic

/-! The limit on the number of connections: `wait_available_slot` in the constructor of a
`ServerSocket`, and `release_slot` in its destructor. -/
namespace CogServer

open Transition Tally

/-- Where the thread is that constructs or destroys a `ServerSocket`. -/
inductive SlotPlace
  | absent
  /-- In `wait_available_slot`, before the lock, and before both halves of `_num_open_sockets++`. -/
  | enter | load | store (n : ℕ)
  /-- The three comparisons with `_max_open_sockets`, and `half_ping`. -/
  | pingTest | ping | stallTest | waitTest
  /-- In `_max_cv.wait`, and woken up. -/
  | asleep | woken
  /-- The slot is got, and the lock given back. -/
  | got | held
  /-- In `release_slot`, before the lock, and before both halves of `_num_open_sockets--`. -/
  | release | unload | unstore (n : ℕ)
  | notify | unlock | gone
  /-- The thread was cancelled in `wait_available_slot`. -/
  | lost
  deriving DecidableEq, Repr

namespace SlotPlace

/-- A constructor that waits for a slot. -/
def waits : SlotPlace → Bool
  | pingTest | ping | stallTest | waitTest | asleep | woken => true
  | _ => false

/-- A socket that holds a slot. -/
def holds : SlotPlace → Bool
  | got | held | release | unload | unstore _ => true
  | _ => false

/-- The thread has `_max_mtx`. -/
def locked : SlotPlace → Bool
  | load | store _ | pingTest | ping | stallTest | waitTest | got => true
  | unload | unstore _ | notify | unlock => true
  | _ => false

/-- What the thread has read of `_num_open_sockets`. -/
def loaded : SlotPlace → Option ℕ
  | store n | unstore n => some n
  | _ => none

/-- Whether `_num_open_sockets` counts the socket. -/
def counted (p : SlotPlace) : Bool := p.holds || p.waits || p = lost

end SlotPlace

/-- The members of the `SocketManager` that limit the connections. The counter is an `unsigned int`;
each socket that it counts has a thread or a descriptor, of which there are fewer than it can
count. -/
structure Slots (ι : Type*) where
  numOpenSockets : ℕ
  maxMtx : Option ι
  numOpenStalls : ℕ
  pc : ι → SlotPlace

namespace Slots

variable {ι : Type*}

/-- The steps of the threads; `cancel` is what `pthread_cancel` does to a thread that waits. -/
inductive Act (ι : Type*)
  | construct (i : ι) | run (i : ι) | wake (i : ι) | destroy (i : ι) | cancel (i : ι)
  deriving DecidableEq, Repr

def Act.cancels : Act ι → Bool
  | .cancel _ => true
  | _ => false

/-- `_num_open_sockets--` of an `unsigned int` -/
def decrement (n : ℕ) : ℕ := if n = 0 then 2 ^ 32 - 1 else n - 1

section Model

variable [DecidableEq ι]

def goto (s : Slots ι) (i : ι) (p : SlotPlace) : Slots ι :=
  { s with pc := Function.update s.pc i p }

def lock (s : Slots ι) (i : ι) (p : SlotPlace) : Option (Slots ι) :=
  if s.maxMtx = none then some ({ s with maxMtx := some i }.goto i p) else none

def unlocked (s : Slots ι) (i : ι) (p : SlotPlace) : Slots ι := { s with maxMtx := none }.goto i p

/-- `notify_all` -/
def notifyAll (s : Slots ι) : Slots ι :=
  { s with pc := fun i => if s.pc i = .asleep then .woken else s.pc i }

/-- The thread of `i` goes on. -/
def run (max : ℕ) (s : Slots ι) (i : ι) : Option (Slots ι) :=
  match s.pc i with
  | .enter => s.lock i .load
  | .load => some (s.goto i (.store s.numOpenSockets))
  | .store n => some ({ s with numOpenSockets := n + 1 }.goto i .pingTest)
  | .pingTest => some (s.goto i (if max ≤ s.numOpenSockets then .ping else .stallTest))
  | .ping => some (s.goto i .stallTest)
  | .stallTest =>
    let stalls := if max < s.numOpenSockets then s.numOpenStalls + 1 else s.numOpenStalls
    some ({ s with numOpenStalls := stalls }.goto i .waitTest)
  | .waitTest => some (if max < s.numOpenSockets then s.unlocked i .asleep else s.goto i .got)
  | .woken => s.lock i .waitTest
  | .got => some (s.unlocked i .held)
  | .release => s.lock i .unload
  | .unload => some (s.goto i (.unstore s.numOpenSockets))
  | .unstore n => some ({ s with numOpenSockets := decrement n }.goto i .notify)
  | .notify => some (s.notifyAll.goto i .unlock)
  | .unlock => some (s.unlocked i .gone)
  | .absent | .asleep | .held | .gone | .lost => none

/-- A cancelled thread gets the mutex again before it unwinds. -/
def cancel (s : Slots ι) (i : ι) : Option (Slots ι) :=
  match s.pc i with
  | .asleep => if s.maxMtx = none then some (s.goto i .lost) else none
  | .ping => some (s.unlocked i .lost)
  | _ => none

def step (max : ℕ) (s : Slots ι) : Act ι → Option (Slots ι)
  | .construct i => if s.pc i = .absent then some (s.goto i .enter) else none
  | .run i => s.run max i
  | .wake i => if s.pc i = .asleep then some (s.goto i .woken) else none
  | .destroy i => if s.pc i = .held then some (s.goto i .release) else none
  | .cancel i => s.cancel i

def start : Slots ι where
  numOpenSockets := 0
  maxMtx := none
  numOpenStalls := 0
  pc _ := .absent

end Model

/-- The sockets that hold a slot. -/
noncomputable def holding (s : Slots ι) : ℕ := tally s.pc fun p => p.holds

/-- The constructors that wait for one. -/
noncomputable def waiting (s : Slots ι) : ℕ := tally s.pc fun p => p.waits

/-- The sockets whose constructor was cancelled. -/
noncomputable def leaked (s : Slots ι) : ℕ := tally s.pc fun p => p = .lost

/-- The counter, the mutex that keeps its two halves together, and the limit. -/
structure Counted (max : ℕ) (s : Slots ι) : Prop where
  finite : {i | s.pc i ≠ .absent}.Finite
  mutex : ∀ i, (s.pc i).locked ↔ s.maxMtx = some i
  loaded : ∀ i n, (s.pc i).loaded = some n → n = s.numOpenSockets
  count : s.numOpenSockets = s.holding + s.waiting + s.leaked
  capped : s.holding ≤ max

variable {max : ℕ} {s t : Slots ι} {i : ι} {p : SlotPlace}

theorem Counted.finite_of (h : Counted max s) {P : SlotPlace → Prop} (hP : ¬ P .absent) :
    {i | P (s.pc i)}.Finite := by
  apply h.finite.subset
  intro i hi he
  exact hP (he ▸ hi)

theorem counted_start : Counted max (start : Slots ι) where
  finite := by simp [start]
  mutex i := by simp [start, SlotPlace.locked]
  loaded i n h := by simp [start, SlotPlace.loaded] at h
  count := by
    rw [holding, waiting, leaked, tally_eq_zero (by simp [start, SlotPlace.holds]),
      tally_eq_zero (by simp [start, SlotPlace.waits]), tally_eq_zero (by simp [start])]
    rfl
  capped := by
    rw [holding, tally_eq_zero (by simp [start, SlotPlace.holds])]
    exact Nat.zero_le max

/-- What a thread may do to the counter and to the mutex on its way to another place. -/
structure Move (max : ℕ) (s : Slots ι) (i : ι) (p : SlotPlace) (n : ℕ) (m : Option ι) : Prop where
  mutex : (p.locked ↔ m = some i) ∧ ∀ j ≠ i, m = some j ↔ s.maxMtx = some j
  loaded : ∀ k, p.loaded = some k → k = n
  stored : n = s.numOpenSockets ∨ (s.pc i).locked
  count : n + (s.pc i).counted.toNat = s.numOpenSockets + p.counted.toNat
  capped : p.holds → (s.pc i).holds ∨ (s.pc i).waits ∧ s.numOpenSockets ≤ max

theorem counted_toNat (p : SlotPlace) : p.counted.toNat =
    (if p.holds then 1 else 0) + (if p.waits then 1 else 0) + if p = .lost then 1 else 0 := by
  cases p <;> rfl

/-- Waking up all that sleep changes no count. -/
theorem Counted.notifyAll (h : Counted max s) : Counted max s.notifyAll := by
  have hpc : ∀ (f : SlotPlace → Prop), (f .woken ↔ f .asleep) →
      ∀ j, f (s.notifyAll.pc j) ↔ f (s.pc j) := by
    intro f hf j
    simp only [Slots.notifyAll]
    split
    · rename_i hj
      rw [hj]
      exact hf
    · rfl
  have hcount : ∀ (f : SlotPlace → Prop), (f .woken ↔ f .asleep) →
      tally s.notifyAll.pc f = tally s.pc f :=
    fun f hf => tally_congr (P := f) (hpc f hf)
  refine ⟨?_, ?_, ?_, ?_, ?_⟩
  · have hset : {i | s.notifyAll.pc i ≠ .absent} = {i | s.pc i ≠ .absent} :=
      Set.ext (hpc (· ≠ .absent) (by decide))
    rw [hset]
    exact h.finite
  · intro j
    exact (hpc (·.locked) (by decide) j).trans (h.mutex j)
  · intro j k hk
    exact h.loaded j k ((hpc (·.loaded = some k) Iff.rfl j).mp hk)
  · rw [holding, waiting, leaked, hcount (fun q => q.holds) (by decide),
      hcount (fun q => q.waits) (by decide),
      hcount (fun q => q = .lost) (by decide)]
    exact h.count
  · rw [holding, hcount (fun q => q.holds) (by decide)]
    exact h.capped

/-- A counter that is about to be lowered is not zero. -/
theorem Counted.pos (h : Counted max s) {n : ℕ} (hpc : s.pc i = .unstore n) : 0 < n := by
  have hn := h.loaded i n (by rw [hpc]; rfl)
  have hholds : 0 < s.holding :=
    tally_pos (P := fun q : SlotPlace => q.holds) (h.finite_of (P := fun q => q.holds) (by decide))
      (i := i) (by rw [hpc]; rfl)
  have hcount := h.count
  omega

variable [DecidableEq ι]

theorem Counted.move (h : Counted max s) {n stalls : ℕ} {m : Option ι} (hm : Move max s i p n m) :
    Counted max ⟨n, m, stalls, Function.update s.pc i p⟩ := by
  have hholds := tally_update (P := fun q => q.holds)
    (h.finite_of (P := fun q => q.holds) (by decide)) i p
  have hwaits := tally_update (P := fun q => q.waits)
    (h.finite_of (P := fun q => q.waits) (by decide)) i p
  have hlost := tally_update (P := fun q => q = .lost)
    (h.finite_of (P := fun q => q = .lost) (by decide)) i p
  have hcount := hm.count
  rw [counted_toNat, counted_toNat] at hcount
  have hold := h.count
  have hcap := h.capped
  unfold holding waiting leaked at hold
  unfold holding at hcap
  refine ⟨finite_update (P := fun q => q ≠ .absent) h.finite i p, ?_, ?_, ?_, ?_⟩
  · intro j
    dsimp only
    by_cases hj : j = i
    · subst hj
      rw [Function.update_self]
      exact hm.mutex.1
    · rw [Function.update_of_ne hj, hm.mutex.2 j hj]
      exact h.mutex j
  · intro j k hk
    dsimp only at hk ⊢
    by_cases hj : j = i
    · subst hj
      rw [Function.update_self] at hk
      exact hm.loaded k hk
    · rw [Function.update_of_ne hj] at hk
      -- only one thread has the mutex
      rcases hm.stored with hn | hlocked
      · exact (h.loaded j k hk).trans hn.symm
      · have hjlocked : (s.pc j).locked := by
          cases hp : s.pc j <;> rw [hp] at hk <;> first | rfl | cases hk
        have hsame := ((h.mutex j).mp hjlocked).symm.trans ((h.mutex i).mp hlocked)
        exact absurd (Option.some.inj hsame) hj
  · show n = tally (Function.update s.pc i p) (fun q => q.holds) +
      tally (Function.update s.pc i p) (fun q => q.waits) +
        tally (Function.update s.pc i p) fun q => q = .lost
    omega
  · show tally (Function.update s.pc i p) (fun q => q.holds) ≤ max
    by_cases hp : p.holds
    · rcases hm.capped hp with hi | ⟨hi, hle⟩
      · simp only [hp, hi, ↓reduceIte] at hholds
        omega
      · have hnot : (s.pc i).holds = false := by
          cases hpc : s.pc i <;> rw [hpc] at hi <;> first | rfl | cases hi
        have hone : 0 < tally s.pc fun q => q.waits :=
          tally_pos (P := fun q : SlotPlace => q.waits)
            (h.finite_of (P := fun q => q.waits) (by decide)) hi
        simp only [hp, hnot, Bool.false_eq_true, ↓reduceIte] at hholds
        omega
    · simp only [hp, Bool.false_eq_true, ↓reduceIte] at hholds
      omega

theorem Counted.goto (h : Counted max s) (hlock : p.locked = (s.pc i).locked)
    (hcounted : p.counted = (s.pc i).counted)
    (hloaded : ∀ n, p.loaded = some n → n = s.numOpenSockets)
    (hcap : p.holds → (s.pc i).holds ∨ (s.pc i).waits ∧ s.numOpenSockets ≤ max) :
    Counted max (s.goto i p) := by
  apply h.move
  refine ⟨⟨?_, fun _ _ => Iff.rfl⟩, hloaded, .inl rfl, by rw [hcounted], hcap⟩
  rw [hlock]
  exact h.mutex i

theorem Counted.lock (h : Counted max s) (ht : s.lock i p = some t) (hlock : p.locked)
    (hcounted : p.counted = (s.pc i).counted) (hloaded : p.loaded = none)
    (hcap : p.holds → (s.pc i).holds) : Counted max t := by
  unfold Slots.lock at ht
  split at ht
  · rename_i hfree
    obtain rfl := Option.some.inj ht
    apply h.move
    refine ⟨⟨by simp [hlock], ?_⟩, by simp [hloaded], .inl rfl, by rw [hcounted],
      fun hp => .inl (hcap hp)⟩
    intro j hj
    simp [hfree, Ne.symm hj]
  · cases ht

theorem Counted.unlocked (h : Counted max s) (hlocked : (s.pc i).locked) (hlock : p.locked = false)
    (hcounted : p.counted = (s.pc i).counted) (hloaded : p.loaded = none)
    (hcap : p.holds → (s.pc i).holds) : Counted max (s.unlocked i p) := by
  have hown := (h.mutex i).mp hlocked
  apply h.move
  refine ⟨⟨by simp [hlock], ?_⟩, by simp [hloaded], .inl rfl, by rw [hcounted],
    fun hp => .inl (hcap hp)⟩
  intro j hj
  simp [hown, Ne.symm hj]

/-- A thread that stores what it has loaded and counted. -/
theorem Counted.stored (h : Counted max s) {n : ℕ} (hlocked : (s.pc i).locked) (hlock : p.locked)
    (hcounted : n + (s.pc i).counted.toNat = s.numOpenSockets + p.counted.toNat)
    (hloaded : p.loaded = none)
    (hcap : p.holds = false) : Counted max ({ s with numOpenSockets := n }.goto i p) := by
  have hown := (h.mutex i).mp hlocked
  apply h.move
  exact ⟨⟨by simp [hlock, hown], fun _ _ => Iff.rfl⟩, by simp [hloaded], .inr hlocked, hcounted,
    by simp [hcap]⟩

theorem Counted.run (h : Counted max s) (ht : s.run max i = some t) : Counted max t := by
  unfold Slots.run at ht
  cases hpc : s.pc i with
  | enter | woken | release =>
    simp only [hpc] at ht
    exact h.lock ht rfl (by rw [hpc]; rfl) rfl (by simp [hpc, SlotPlace.holds])
  | load =>
    simp only [hpc, Option.some.injEq] at ht
    subst ht
    refine h.goto (by rw [hpc]; rfl) (by rw [hpc]; rfl) ?_ (by simp [SlotPlace.holds])
    intro n hn
    exact (Option.some.inj hn).symm
  | pingTest =>
    simp only [hpc, Option.some.injEq] at ht
    subst ht
    split <;> exact h.goto (by rw [hpc]; rfl) (by rw [hpc]; rfl) (by simp [SlotPlace.loaded])
      (by simp [SlotPlace.holds])
  | ping =>
    simp only [hpc, Option.some.injEq] at ht
    subst ht
    exact h.goto (by rw [hpc]; rfl) (by rw [hpc]; rfl) (by simp [SlotPlace.loaded])
      (by simp [SlotPlace.holds])
  | stallTest =>
    simp only [hpc, Option.some.injEq] at ht
    subst ht
    have hstalls : Counted max { s with
        numOpenStalls := if max < s.numOpenSockets then s.numOpenStalls + 1 else s.numOpenStalls } :=
      ⟨h.finite, h.mutex, h.loaded, h.count, h.capped⟩
    exact hstalls.goto (by rw [hpc]; rfl) (by rw [hpc]; rfl) (by simp [SlotPlace.loaded])
      (by simp [SlotPlace.holds])
  | waitTest =>
    simp only [hpc, Option.some.injEq] at ht
    subst ht
    split
    · exact h.unlocked (by rw [hpc]; rfl) rfl (by rw [hpc]; rfl) rfl (by simp [SlotPlace.holds])
    · rename_i hle
      -- here the slot is got: all who hold one or wait for one are within the limit
      refine h.goto (by rw [hpc]; rfl) (by rw [hpc]; rfl) (by simp [SlotPlace.loaded]) ?_
      intro _
      exact .inr ⟨by rw [hpc]; rfl, by omega⟩
  | got | unlock =>
    simp only [hpc, Option.some.injEq] at ht
    subst ht
    exact h.unlocked (by rw [hpc]; rfl) rfl (by rw [hpc]; rfl) rfl (by simp [hpc, SlotPlace.holds])
  | unload =>
    simp only [hpc, Option.some.injEq] at ht
    subst ht
    refine h.goto (by rw [hpc]; rfl) (by rw [hpc]; rfl) ?_ (by simp [hpc, SlotPlace.holds])
    intro n hn
    exact (Option.some.inj hn).symm
  | store n =>
    simp only [hpc, Option.some.injEq] at ht
    subst ht
    have hn := h.loaded i n (by rw [hpc]; rfl)
    refine h.stored (by rw [hpc]; rfl) rfl ?_ rfl rfl
    rw [hpc, hn]
    rfl
  | unstore n =>
    simp only [hpc, Option.some.injEq] at ht
    subst ht
    have hn := h.loaded i n (by rw [hpc]; rfl)
    have hpos := h.pos hpc
    refine h.stored (by rw [hpc]; rfl) rfl ?_ rfl rfl
    have hout : (SlotPlace.notify).counted.toNat = 0 := rfl
    have hin : (SlotPlace.unstore n).counted.toNat = 1 := rfl
    rw [hpc, hout, hin, decrement, if_neg (by omega)]
    omega
  | notify =>
    simp only [hpc, Option.some.injEq] at ht
    subst ht
    have hpc' : s.notifyAll.pc i = .notify := by simp [Slots.notifyAll, hpc]
    exact h.notifyAll.goto (by rw [hpc']; rfl) (by rw [hpc']; rfl) (by simp [SlotPlace.loaded])
      (by simp [SlotPlace.holds])
  | absent | asleep | held | gone | lost =>
    simp [hpc] at ht

theorem Counted.step (h : Counted max s) {a : Act ι} (ht : s.step max a = some t) :
    Counted max t := by
  cases a with
  | run i => exact h.run ht
  | construct i | wake i | destroy i =>
    simp only [Slots.step] at ht
    split at ht
    · rename_i hpc
      obtain rfl := Option.some.inj ht
      exact h.goto (by rw [hpc]; rfl) (by rw [hpc]; rfl) (by simp [SlotPlace.loaded])
        (by simp [hpc, SlotPlace.holds])
    · cases ht
  | cancel i =>
    simp only [Slots.step, Slots.cancel] at ht
    cases hpc : s.pc i with
    | asleep =>
      simp only [hpc] at ht
      split at ht
      · obtain rfl := Option.some.inj ht
        exact h.goto (by rw [hpc]; rfl) (by rw [hpc]; rfl) (by simp [SlotPlace.loaded])
          (by simp [SlotPlace.holds])
      · cases ht
    | ping =>
      simp only [hpc, Option.some.injEq] at ht
      subst ht
      exact h.unlocked (by rw [hpc]; rfl) rfl (by rw [hpc]; rfl) rfl (by simp [SlotPlace.holds])
    | _ => simp [hpc] at ht

theorem goto_lost {j : ι} (hp : p ≠ .lost) (h : (s.goto i p).pc j = .lost) : s.pc j = .lost := by
  by_cases hj : j = i
  · subst hj
    simp only [goto, Function.update_self] at h
    exact absurd h hp
  · simpa [goto, hj] using h

theorem lock_lost {j : ι} (hp : p ≠ .lost) (ht : s.lock i p = some t) (h : t.pc j = .lost) :
    s.pc j = .lost := by
  unfold lock at ht
  split at ht
  · obtain rfl := Option.some.inj ht
    exact goto_lost hp h
  · cases ht

/-- Only a cancelled thread gets lost. -/
theorem step_lost {a : Act ι} {j : ι} (ha : a.cancels = false) (ht : s.step max a = some t)
    (h : t.pc j = .lost) : s.pc j = .lost := by
  cases a with
  | cancel i => cases ha
  | construct i | wake i | destroy i =>
    simp only [step] at ht
    split at ht
    · obtain rfl := Option.some.inj ht
      exact goto_lost (by decide) h
    · cases ht
  | run i =>
    simp only [step, run] at ht
    cases hpc : s.pc i with
    | enter | woken | release =>
      simp only [hpc] at ht
      exact lock_lost (by decide) ht h
    | pingTest | waitTest =>
      simp only [hpc, Option.some.injEq] at ht
      subst ht
      split at h <;> exact goto_lost (by decide) h
    | notify =>
      simp only [hpc, Option.some.injEq] at ht
      subst ht
      have hold := goto_lost (by decide) h
      simp only [notifyAll] at hold
      split at hold
      · cases hold
      · exact hold
    | load | store n | ping | stallTest | got | unload | unstore n | unlock =>
      simp only [hpc, Option.some.injEq] at ht
      subst ht
      exact goto_lost (by simp) h
    | absent | asleep | held | gone | lost =>
      simp [hpc] at ht

def slotSystem (ι : Type*) [DecidableEq ι] (max : ℕ) : System (Slots ι) (Act ι) where
  init s := s = start
  step := step max

theorem Counted.of_reach {C : Slots ι → Act ι → Prop} (h : Reach (slotSystem ι max) C s) :
    Counted max s := by
  refine h.invariant (Counted max) ?_ ?_
  · rintro s rfl
    exact counted_start
  · intro s a t _ hs _ ht
    exact hs.step ht

/-- Where no thread is cancelled, the counter is the number of sockets that hold a slot or wait for
one, the limit is kept, and no counter is lowered below zero. -/
theorem slots_capped (h : Reach (slotSystem ι max) (fun _ a => a.cancels = false) s) :
    s.numOpenSockets = s.holding + s.waiting ∧ s.holding ≤ max ∧
      ∀ i n, s.pc i = .unstore n → 0 < n ∧ n = s.numOpenSockets := by
  have hcounted := Counted.of_reach h
  have hleaked : s.leaked = 0 := by
    apply tally_eq_zero
    refine h.invariant (fun s => ∀ i, s.pc i ≠ .lost) ?_ ?_
    · rintro s rfl i
      exact nofun
    · intro s a t _ hs ha ht i hi
      exact hs i (step_lost ha ht hi)
  refine ⟨?_, hcounted.capped, ?_⟩
  · rw [hcounted.count, hleaked, Nat.add_zero]
  · intro i n hpc
    exact ⟨hcounted.pos hpc, hcounted.loaded i n (by rw [hpc]; rfl)⟩

/-- Two sockets and one slot: the second constructor waits until the first socket is destroyed. -/
def twoSockets : List (Act Bool) :=
  [.construct false, .run false, .run false, .run false, .run false, .run false, .run false, .run false,
    .run false, .construct true, .run true, .run true, .run true, .run true, .run true, .run true,
      .run true]

theorem slots_capped_two : ∃ s, exec (slotSystem Bool 1) start twoSockets = some s ∧
    s.pc false = .held ∧ s.pc true = .asleep ∧ s.numOpenSockets = s.holding + s.waiting ∧
    s.holding ≤ 1 := by
  have hplaces : (exec (slotSystem Bool 1) start twoSockets).map (fun s => (s.pc false, s.pc true)) =
      some (.held, .asleep) := by decide
  obtain ⟨s, hs, hpc⟩ := Option.map_eq_some_iff.mp hplaces
  obtain ⟨hfirst, hsecond⟩ := Prod.mk.inj hpc
  have hcounts := slots_capped (reach_of_actions twoSockets (by decide) rfl hs)
  exact ⟨s, hs, hfirst, hsecond, hcounts.1, hcounts.2.1⟩

end Slots

end CogServer
