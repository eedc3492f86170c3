import CogServer.ConnectionSlots

/-! Constructors that wait for a slot while one is free. -/
namespace CogServer

open Transition Tally

namespace Slots

variable {ι : Type*} {max : ℕ} {s t : Slots ι} {i : ι} {p : SlotPlace}

/-- A slot is withheld: fewer sockets than allowed hold one, some constructor is blocked in
`wait_available_slot`, and all that are there sleep after their last test, with no notification to
come. -/
structure Withheld (max : ℕ) (s : Slots ι) : Prop where
  free : s.holding < max
  notified : ∀ i, s.pc i ≠ .notify
  retested : ∀ i, (s.pc i).waits → s.pc i = .asleep
  blocked : ∃ i, s.pc i = .asleep

/-- A slot that is given back brings the counter within the limit, and a constructor that brings it
over the limit is the first to wait. -/
def Roomy (max : ℕ) (s : Slots ι) (a : Act ι) : Prop :=
  ∀ i, a = .run i → (∀ n, s.pc i = .unstore n → n ≤ max + 1) ∧
    (s.pc i = .store max → ∀ j, (s.pc j).waits = false ∧ s.pc j ≠ .lost)

/-- Whoever has to wait does so because all slots are taken, or is about to be notified. -/
structure Fair (max : ℕ) (s : Slots ι) : Prop where
  held : max < s.numOpenSockets → max ≤ s.holding
  notified : ∀ i, s.pc i = .asleep → max < s.numOpenSockets ∨ ∃ j, s.pc j = .notify

theorem Fair.not_withheld (h : Fair max s) : ¬ Withheld max s := by
  intro hw
  obtain ⟨i, hi⟩ := hw.blocked
  rcases h.notified i hi with hlt | ⟨j, hj⟩
  · exact absurd (h.held hlt) (Nat.not_le.mpr hw.free)
  · exact hw.notified j hj

theorem fair_start : Fair max (start : Slots ι) where
  held h := absurd h (Nat.not_lt_zero max)
  notified i h := by cases h

/-- After `notify_all` nobody sleeps. -/
theorem notifyAll_pc (s : Slots ι) (j : ι) : s.notifyAll.pc j ≠ .asleep := by
  simp only [notifyAll]
  split
  · exact SlotPlace.noConfusion
  · rename_i hj
    exact hj

theorem holding_notifyAll (s : Slots ι) : s.notifyAll.holding = s.holding := by
  apply tally_congr (P := fun q : SlotPlace => q.holds = true)
  intro j
  simp only [notifyAll]
  split
  · rename_i hj
    rw [hj]
    exact Iff.rfl
  · exact Iff.rfl

variable [DecidableEq ι]

/-- What a thread may do to the counter on its way to another place. -/
structure FairMove (max : ℕ) (s : Slots ι) (i : ι) (p : SlotPlace) (n : ℕ) : Prop where
  held : max < n →
    max + (if (s.pc i).holds then 1 else 0) ≤ s.holding + if p.holds then 1 else 0
  lowered : max < s.numOpenSockets → max < n ∨ p = .notify
  asleep : p = .asleep → max < n
  notified : s.pc i ≠ .notify

theorem Fair.move (h : Fair max s) (hc : Counted max s) {n stalls : ℕ} {m : Option ι}
    (hm : FairMove max s i p n) : Fair max ⟨n, m, stalls, Function.update s.pc i p⟩ := by
  refine ⟨?_, ?_⟩
  · intro hn
    have hholds := tally_update (P := fun q => q.holds)
      (hc.finite_of (P := fun q => q.holds) (by decide)) i p
    have hheld := hm.held hn
    unfold holding at hheld
    show max ≤ tally (Function.update s.pc i p) fun q => q.holds
    omega
  · intro j hj
    dsimp only at hj ⊢
    -- another thread that sleeps is notified as before, or this one notifies it now
    by_cases hji : j = i
    · subst hji
      rw [Function.update_self] at hj
      exact .inl (hm.asleep hj)
    · rw [Function.update_of_ne hji] at hj
      rcases h.notified j hj with hlt | ⟨k, hk⟩
      · rcases hm.lowered hlt with hlt | rfl
        · exact .inl hlt
        · exact .inr ⟨i, Function.update_self ..⟩
      · have hki : k ≠ i := by
          rintro rfl
          exact hm.notified hk
        exact .inr ⟨k, (Function.update_of_ne hki ..).trans hk⟩

/-- The thread goes on and leaves the counter as it is. -/
theorem Fair.keep (h : Fair max s) (hc : Counted max s) {stalls : ℕ} {m : Option ι}
    (hholds : (s.pc i).holds → p.holds) (hasleep : p = .asleep → max < s.numOpenSockets)
    (hnotify : s.pc i ≠ .notify) :
    Fair max ⟨s.numOpenSockets, m, stalls, Function.update s.pc i p⟩ := by
  apply h.move hc
  refine ⟨?_, .inl, hasleep, hnotify⟩
  intro hn
  have hheld := h.held hn
  by_cases hi : (s.pc i).holds
  · simp only [hi, hholds hi, ↓reduceIte]
    omega
  · simp only [hi, Bool.false_eq_true, ↓reduceIte]
    omega

theorem Fair.lock (h : Fair max s) (hc : Counted max s) (ht : s.lock i p = some t)
    (hholds : (s.pc i).holds → p.holds) (hasleep : p ≠ .asleep) (hnotify : s.pc i ≠ .notify) :
    Fair max t := by
  unfold Slots.lock at ht
  split at ht
  · obtain rfl := Option.some.inj ht
    exact h.keep hc hholds (fun hp => absurd hp hasleep) hnotify
  · cases ht

/-- `notify_all`, after which the thread still has the mutex. -/
theorem Fair.notify (h : Fair max s) (hc : Counted max s) (hpc : s.pc i = .notify) :
    Fair max (s.notifyAll.goto i .unlock) := by
  have hpc' : s.notifyAll.pc i = .notify := by simp [notifyAll, hpc]
  refine ⟨?_, ?_⟩
  · intro hn
    have hholds := tally_update (P := fun q : SlotPlace => q.holds)
      (hc.notifyAll.finite_of (P := fun q => q.holds) (by decide)) i .unlock
    have hheld := h.held hn
    rw [← holding_notifyAll s] at hheld
    unfold holding at hheld
    have hnot : SlotPlace.notify.holds = false := rfl
    have hunlock : SlotPlace.unlock.holds = false := rfl
    simp only [hpc', hnot, hunlock, Bool.false_eq_true, ↓reduceIte, Nat.add_zero] at hholds
    show max ≤ tally (Function.update s.notifyAll.pc i .unlock) fun q : SlotPlace => q.holds
    omega
  · intro j hj
    by_cases hji : j = i
    · subst hji
      simp [goto] at hj
    · simp only [goto, Function.update_of_ne hji] at hj
      exact absurd hj (notifyAll_pc s j)

/-- The first to wait finds all slots taken. -/
theorem Fair.store (h : Fair max s) (hc : Counted max s) (hpc : s.pc i = .store s.numOpenSockets)
    (hroomy : s.numOpenSockets = max → ∀ j, (s.pc j).waits = false ∧ s.pc j ≠ .lost) :
    Fair max ({ s with numOpenSockets := s.numOpenSockets + 1 }.goto i .pingTest) := by
  apply h.move hc
  refine ⟨?_, fun hn => .inl (Nat.lt_succ_of_lt hn), by simp, by simp [hpc]⟩
  intro hn
  simp only [hpc, SlotPlace.holds, Bool.false_eq_true, ↓reduceIte]
  -- over the limit already, or over it for the first time now
  rcases Nat.lt_or_eq_of_le (Nat.le_of_lt_succ hn) with hlt | heq
  · exact h.held hlt
  · -- nobody waits and no slot is lost, so the counter counts the sockets that hold one
    have hnone := hroomy heq.symm
    have hcount := hc.count
    have hwaiting : s.waiting = 0 :=
      tally_eq_zero (P := fun q : SlotPlace => q.waits = true) fun j => by simp [(hnone j).1]
    have hleaked : s.leaked = 0 :=
      tally_eq_zero (P := fun q : SlotPlace => q = .lost) fun j => (hnone j).2
    omega

theorem Fair.run (h : Fair max s) (hc : Counted max s) (hroomy : Roomy max s (.run i))
    (ht : s.run max i = some t) : Fair max t := by
  obtain ⟨hunstore, hstore⟩ := hroomy i rfl
  unfold Slots.run at ht
  cases hpc : s.pc i with
  | enter | woken | release =>
    simp only [hpc] at ht
    exact h.lock hc ht (by simp [hpc, SlotPlace.holds]) (by simp) (by simp [hpc])
  | pingTest =>
    simp only [hpc, Option.some.injEq] at ht
    subst ht
    split <;> exact h.keep hc (by simp [hpc, SlotPlace.holds]) (by simp) (by simp [hpc])
  | load | ping | stallTest | got | unload | unlock =>
    simp only [hpc, Option.some.injEq] at ht
    subst ht
    exact h.keep hc (by simp [hpc, SlotPlace.holds]) (by simp) (by simp [hpc])
  | waitTest =>
    simp only [hpc, Option.some.injEq] at ht
    subst ht
    split
    · -- a thread goes to sleep only while the counter is over the limit
      rename_i hlt
      exact h.keep hc (by simp [hpc, SlotPlace.holds]) (fun _ => hlt) (by simp [hpc])
    · exact h.keep hc (by simp [hpc, SlotPlace.holds]) (by simp) (by simp [hpc])
  | store n =>
    simp only [hpc, Option.some.injEq] at ht
    subst ht
    obtain rfl := hc.loaded i n (by rw [hpc]; rfl)
    exact h.store hc hpc fun hn => hstore (hn ▸ hpc)
  | unstore n =>
    simp only [hpc, Option.some.injEq] at ht
    subst ht
    -- the counter is within the limit from here on, and whoever sleeps is notified next
    have hle := hunstore n hpc
    have hpos := hc.pos hpc
    apply h.move hc
    refine ⟨?_, fun _ => .inr rfl, by simp, by simp [hpc]⟩
    intro hn
    have hlow : max < decrement n := hn
    rw [decrement, if_neg (by omega)] at hlow
    omega
  | notify =>
    simp only [hpc, Option.some.injEq] at ht
    subst ht
    exact h.notify hc hpc
  | absent | asleep | held | gone | lost =>
    simp [hpc] at ht

theorem Fair.step (h : Fair max s) (hc : Counted max s) {a : Act ι} (hroomy : Roomy max s a)
    (ht : s.step max a = some t) : Fair max t := by
  cases a with
  | run i => exact h.run hc hroomy ht
  | construct i | wake i | destroy i =>
    simp only [Slots.step] at ht
    split at ht
    · rename_i hpc
      obtain rfl := Option.some.inj ht
      exact h.keep hc (by simp [hpc, SlotPlace.holds]) (by simp) (by simp [hpc])
    · cases ht
  | cancel i =>
    simp only [Slots.step, Slots.cancel] at ht
    cases hpc : s.pc i with
    | asleep =>
      simp only [hpc] at ht
      split at ht
      · obtain rfl := Option.some.inj ht
        exact h.keep hc (by simp [hpc, SlotPlace.holds]) (by simp) (by simp [hpc])
      · cases ht
    | ping =>
      simp only [hpc, Option.some.injEq] at ht
      subst ht
      exact h.keep hc (by simp [hpc, SlotPlace.holds]) (by simp) (by simp [hpc])
    | _ => simp [hpc] at ht

theorem Fair.of_reach (hr : Reach (slotSystem ι max) (Roomy max) s) : Fair max s := by
  refine hr.invariant (Fair max) ?_ ?_
  · rintro s rfl
    exact fair_start
  · intro s a t hr hs hroomy ht
    exact hs.step (Counted.of_reach hr) hroomy ht

/-- A release that leaves the counter over the limit leaves a slot free as well. -/
theorem Fair.unstore_le {n : ℕ}
    (ht : Fair max ({ s with numOpenSockets := decrement n }.goto i .notify))
    (hc : Counted max s) (hpc : s.pc i = .unstore n) : n ≤ max + 1 := by
  by_contra hlt
  have hpos := hc.pos hpc
  have hnew : decrement n = n - 1 := if_neg (by omega)
  have hheld : max ≤ tally (Function.update s.pc i .notify) fun q : SlotPlace => q.holds :=
    ht.held (by show max < decrement n; omega)
  have hholds := tally_update (P := fun q : SlotPlace => q.holds)
    (hc.finite_of (P := fun q => q.holds) (by decide)) i .notify
  -- a socket in its destructor holds its slot until the counter goes down
  have hone : (SlotPlace.unstore n).holds = true := rfl
  have hnone : SlotPlace.notify.holds = false := rfl
  simp only [hpc, hone, hnone, Bool.false_eq_true, ↓reduceIte, Nat.add_zero] at hholds
  have hcap := hc.capped
  unfold holding at hcap
  omega

/-- A constructor that waits although all slots are taken waits alone. -/
theorem Fair.store_first (ht : Fair max ({ s with numOpenSockets := max + 1 }.goto i .pingTest))
    (hc : Counted max s) (hpc : s.pc i = .store max) (j : ι) :
    (s.pc j).waits = false ∧ s.pc j ≠ .lost := by
  have hheld : max ≤ tally (Function.update s.pc i .pingTest) fun q : SlotPlace => q.holds :=
    ht.held (Nat.lt_succ_self max)
  have hholds := tally_update (P := fun q : SlotPlace => q.holds)
    (hc.finite_of (P := fun q => q.holds) (by decide)) i .pingTest
  have hnone : (SlotPlace.store max).holds = false := rfl
  have hnone' : SlotPlace.pingTest.holds = false := rfl
  simp only [hpc, hnone, hnone', Bool.false_eq_true, ↓reduceIte, Nat.add_zero] at hholds
  -- the counter is what the holders, those who wait and the lost slots come to
  have hcount := hc.count
  have hnum := hc.loaded i max (by rw [hpc]; rfl)
  unfold holding waiting leaked at hcount
  refine ⟨?_, ?_⟩
  · by_contra hj
    have hpos : 0 < tally s.pc fun q : SlotPlace => q.waits :=
      tally_pos (P := fun q : SlotPlace => q.waits)
        (hc.finite_of (P := fun q => q.waits) (by decide)) (i := j) (by simpa using hj)
    omega
  · intro hj
    have hpos : 0 < tally s.pc fun q : SlotPlace => q = .lost :=
      tally_pos (P := fun q : SlotPlace => q = .lost)
        (hc.finite_of (P := fun q => q = .lost) (by decide)) hj
    omega

/-- Only roomy steps keep all who wait from waiting for a free slot. -/
theorem Fair.roomy (ht : Fair max t) (hc : Counted max s) {a : Act ι}
    (hstep : s.step max a = some t) : Roomy max s a := by
  rintro i rfl
  simp only [Slots.step, Slots.run] at hstep
  refine ⟨?_, ?_⟩
  · intro n hpc
    simp only [hpc, Option.some.injEq] at hstep
    subst hstep
    exact ht.unstore_le hc hpc
  · intro hpc
    simp only [hpc, Option.some.injEq] at hstep
    subst hstep
    exact ht.store_first hc hpc

/-- In the runs whose steps are all roomy no slot is withheld, and no other step keeps those who
wait from waiting for a free slot. -/
theorem slot_not_withheld (hr : Reach (slotSystem ι max) (Roomy max) s) :
    ¬ Withheld max s ∧ ∀ a t, s.step max a = some t → (Fair max t ↔ Roomy max s a) := by
  have hfair := Fair.of_reach hr
  have hcounted := Counted.of_reach hr
  refine ⟨hfair.not_withheld, ?_⟩
  intro a t hstep
  exact ⟨fun ht => ht.roomy hcounted hstep, fun hroomy => hfair.step hcounted hroomy hstep⟩

/-- A constructor that gets its slot at once. -/
def enters (i : ι) : List (Act ι) := .construct i :: List.replicate 8 (.run i)

/-- A constructor that has to wait. -/
def blocks (i : ι) : List (Act ι) := .construct i :: List.replicate 7 (.run i)

/-- A destructor, from the lock to the end. -/
def leaves (i : ι) : List (Act ι) := .destroy i :: List.replicate 5 (.run i)

/-- A constructor that is woken up and tests its condition again. -/
def retests (i : ι) : List (Act ι) := List.replicate 2 (.run i)

/-- One slot and two listeners: both wait, and the one socket goes. -/
def threeSockets (i j k : ι) : List (Act ι) :=
  List.flatten [enters i, blocks j, blocks k, leaves i, retests j, retests k]

theorem slot_withheld : ∃ s, Reach (slotSystem (Fin 3) 1) anyStep s ∧ Withheld 1 s := by
  have hplaces : (exec (slotSystem (Fin 3) 1) start (threeSockets 0 1 2)).map
      (fun s => (s.pc 0, s.pc 1, s.pc 2)) = some (.gone, .asleep, .asleep) := by decide
  obtain ⟨s, hs, hpc⟩ := Option.map_eq_some_iff.mp hplaces
  simp only [Prod.mk.injEq] at hpc
  obtain ⟨h0, h1, h2⟩ := hpc
  have hall : ∀ i, s.pc i = .gone ∨ s.pc i = .asleep := by
    intro i
    match i with
    | 0 => exact .inl h0
    | 1 => exact .inr h1
    | 2 => exact .inr h2
  refine ⟨s, reach_of_exec (threeSockets 0 1 2) rfl hs, ?_, ?_, ?_, 1, h1⟩
  · -- the only slot is free, and both listeners sleep
    have hnone : s.holding = 0 := by
      apply tally_eq_zero (P := fun q : SlotPlace => q.holds = true)
      intro i
      rcases hall i with hi | hi <;> simp [hi, SlotPlace.holds]
    rw [hnone]
    exact Nat.one_pos
  · intro i
    rcases hall i with hi | hi <;> simp [hi]
  · intro i
    rcases hall i with hi | hi <;> simp [hi, SlotPlace.waits]

/-- The condition of a step, where the sockets can be listed. -/
def roomy (max : ℕ) (sockets : List ι) (s : Slots ι) : Act ι → Bool
  | .run i => (s.pc i).loaded.all (· ≤ max + 1) &&
      (s.pc i ≠ .store max || sockets.all fun j => !(s.pc j).waits && s.pc j ≠ .lost)
  | _ => true

/-- One slot and one listener: it gets the slot after the socket went. -/
def twoInTurn : List (Act Bool) :=
  List.flatten [enters false, blocks true, leaves false, List.replicate 3 (.run true)]

theorem slot_not_withheld_in_turn : ∃ s, exec (slotSystem Bool 1) start twoInTurn = some s ∧
    s.pc true = .held ∧ ¬ Withheld 1 s := by
  have hplace : (exec (slotSystem Bool 1) start twoInTurn).map (fun s => s.pc true) =
      some .held := by
    decide
  obtain ⟨s, hs, hpc⟩ := Option.map_eq_some_iff.mp hplace
  refine ⟨s, hs, hpc, (slot_not_withheld ?_).1⟩
  refine Reach.of_exec (roomy 1 [false, true]) ?_ (.init rfl) (by decide) hs
  intro s a ha i hi
  subst hi
  simp only [roomy, Bool.and_eq_true] at ha
  refine ⟨?_, ?_⟩
  · intro n hn
    simpa [hn, SlotPlace.loaded] using ha.1
  · intro hstore j
    have hall := ha.2
    simp only [hstore, List.all_cons, List.all_nil] at hall
    cases j <;> simp at hall <;> simp [hall]

end Slots

end CogServer
