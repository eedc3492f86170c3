import CogServer.BarrierFlow
import Mathlib.Algebra.Order.BigOperators.Group.Finset

/-! What holds while the commands move to the barriers: where the callers are, how many commands
of each UUID are left, in which order they come, and what a set barrier shuts in. -/
namespace CogServer

open Transition

namespace GlobalBarrier

variable {ι : Type*} [DecidableEq ι] [Fintype ι] {b c : GlobalBarrier ι} {attached busy : ι → Bool} {i k : ι}

/-- Only a caller goes on in `global_barrier`, and it alone moves. -/
theorem run_frame (h : b.step (.run i attached busy) = some c) :
    b.pc i ≠ none ∧ ∀ k, k ≠ i → c.pc k = b.pc k := by
  obtain ⟨p, hp, h⟩ := Option.bind_eq_some_iff.mp h
  exact ⟨by simp [hp], fun k hk => (next_frame h hk).1⟩

theorem call_pc (h : b.step (.call i) = some c) : c.pc = Function.update b.pc i (some .find) := by
  simp only [step] at h
  split at h <;> cases h
  rfl

/-- A caller comes to keep the barrier set by setting it. -/
theorem closing_of_run (h : b.step (.run i attached busy) = some c)
    (hk : c.isAt BarrierPc.closing k = true) :
    b.isAt BarrierPc.closing k = true ∨ k = i ∧ b.pc i = some .setActive := by
  obtain ⟨p, hp, h⟩ := Option.bind_eq_some_iff.mp h
  by_cases hki : k = i
  · subst hki
    cases p <;> simp only [next] at h
    case find | exitScan =>
      split at h
      · cases h
      split at h <;> cases h <;> simp [isAt, BarrierPc.closing, hp] at hk
    case scan | clearIn => exact .inl (isAt_eq hp)
    case setActive => exact .inr ⟨rfl, hp⟩
    all_goals
      cases h
      simp [isAt, BarrierPc.closing] at hk
  · rw [isAt_congr (next_frame h hki).1] at hk
    exact .inl hk

end GlobalBarrier

namespace Traffic

variable {ι : Type*} {w u : Traffic ι} {i k : ι} {N rank : Bytes → ℕ}

/-- The commands of socket `i` that have not called a barrier yet. -/
def ahead (w : Traffic ι) (i : ι) : List BarrierCommand := w.passed i ++ w.unpassed i

theorem Frame.ahead (hf : Frame w u i) (hk : k ≠ i) : u.ahead k = w.ahead k := by
  rw [Traffic.ahead, Traffic.ahead, hf.passed k hk, hf.unpassed k hk]

theorem Same.ahead (h : Same w u i) : u.ahead i = w.ahead i := by
  rw [Traffic.ahead, Traffic.ahead, h.passed, h.unpassed]

/-- Who is in a barrier evaluates the command that calls it. -/
structure Located (w : Traffic ι) : Prop where
  recv : ∀ i n v id r b, w.recv.caller i = .waiting n v id r b → w.current i = [.recv n v]
  bar : ∀ i, w.bar.pc i ≠ none → w.current i = [.global]
  calls : ∀ i, .other ∉ w.current i

theorem Located.out (hl : Located w) (h : ∀ n v, w.current i ≠ [.recv n v]) : w.recv.caller i = .out := by
  cases hc : w.recv.caller i with
  | out => rfl
  | waiting n v id r b => exact absurd (hl.recv i n v id r b hc) (h n v)

theorem Located.absent (hl : Located w) (h : w.current i ≠ [.global]) : w.bar.pc i = none := by
  by_contra hp
  exact h (hl.bar i hp)

/-- A step of a thread of socket `i`, after which a caller was one before or is the command
that `i` evaluates now. -/
theorem Located.move (hl : Located w) (hf : Frame w u i)
    (hrecv : ∀ k n v id r b, u.recv.caller k = .waiting n v id r b →
      (k = i ∧ u.current i = [.recv n v]) ∨ ∃ id r b, w.recv.caller k = .waiting n v id r b)
    (hbar : ∀ k, u.bar.pc k ≠ none → (k = i ∧ u.current i = [.global]) ∨ w.bar.pc k ≠ none)
    (hold : u.current i = w.current i ∨ w.recv.caller i = .out ∧ w.bar.pc i = none)
    (hcalls : .other ∉ u.current i) : Located u := by
  constructor
  · intro k n v id r b hk
    rcases hrecv k n v id r b hk with ⟨rfl, h⟩ | ⟨id', r', b', hw⟩
    · exact h
    have hcur := hl.recv k n v id' r' b' hw
    by_cases hki : k = i
    · subst hki
      rcases hold with h | ⟨h, -⟩
      · exact h.trans hcur
      · simp [h] at hw
    · exact (hf.current k hki).trans hcur
  · intro k hk
    rcases hbar k hk with ⟨rfl, h⟩ | hw
    · exact h
    have hcur := hl.bar k hw
    by_cases hki : k = i
    · subst hki
      rcases hold with h | ⟨-, h⟩
      · exact h.trans hcur
      · exact absurd h hw
    · exact (hf.current k hki).trans hcur
  · intro k
    by_cases hki : k = i
    · exact hki ▸ hcalls
    · rw [hf.current k hki]
      exact hl.calls k

/-- All the commands with a UUID have arrived or are still ahead, and they say how many they are. -/
structure Counted [Fintype ι] (N : Bytes → ℕ) (w : Traffic ι) : Prop where
  count : ∀ v, w.recv.arrived v + ∑ i, (w.ahead i).countP (BarrierCommand.names v) = N v
  sizes : ∀ i n v, .recv n v ∈ w.ahead i → n.toNat = N v

/-- Each socket evaluates its barriers in order. -/
def Ordered (rank : Bytes → ℕ) (w : Traffic ι) : Prop :=
  ∀ i, ((w.current i ++ w.ahead i).filterMap BarrierCommand.uuid).Pairwise fun u v => rank u < rank v

/-- Whoever keeps the barrier set has shut in no barrier that another socket has begun with. -/
def Shut (w : Traffic ι) : Prop := ∀ i, w.bar.isAt BarrierPc.closing i = true → w.Sealed i

/-- The poll thread has noted the end of each evaluation that is over. -/
def Noted (w : Traffic ι) : Prop := ∀ i, w.eval i = .idle → w.evalDone i = true

/-- The eval thread goes on, but not back to the queue. -/
theorem Noted.goto [DecidableEq ι] {p : EvaluationPc} (hn : Noted w)
    (heval : u.eval = Function.update w.eval i p) (hp : p ≠ .idle)
    (hdone : ∀ k, k ≠ i → u.evalDone k = w.evalDone k) : Noted u := by
  intro k hk
  by_cases hki : k = i
  · subst hki
    rw [heval, Function.update_self] at hk
    exact absurd hk hp
  · rw [heval, Function.update_of_ne hki] at hk
    exact (hdone k hki).trans (hn k hk)

/-- Fewer commands are begun with, and fewer are kept back. -/
theorem Sealed.mono (hs : w.Sealed k)
    (hbegun : ∀ j, ∀ c ∈ u.current j ++ u.passed j, c ∈ w.current j ++ w.passed j)
    (hpassed : ∀ j, ∀ c ∈ u.passed j, c ∈ w.passed j)
    (hunpassed : ∀ j, ∀ c ∈ u.unpassed j, c ∈ w.unpassed j) : u.Sealed k := by
  intro j hj c hc
  have hclear := hs j hj c (hbegun j c hc)
  cases c with
  | other | global => trivial
  | recv n v => exact ⟨fun l d hd => hclear.1 l d (hunpassed l d hd), fun d hd => hclear.2 d (hpassed k d hd)⟩

variable [Fintype ι]

/-- A call comes before its barrier is full. -/
theorem Counted.asAgreed {n : UInt8} {v : Bytes} (hc : Counted N w) (h : .recv n v ∈ w.ahead i) :
    RecvBarriers.asAgreed N w.recv (.call i n v) := by
  refine ⟨hc.sizes i n v h, ?_⟩
  have hpos : 0 < (w.ahead i).countP (BarrierCommand.names v) :=
    List.countP_pos_iff.mpr ⟨_, h, by simp [BarrierCommand.names]⟩
  have hle := Finset.single_le_sum (f := fun k => (w.ahead k).countP (BarrierCommand.names v))
    (fun _ _ => Nat.zero_le _) (Finset.mem_univ i)
  have hall := hc.count v
  omega

variable [DecidableEq ι]

/-- No step brings commands in front of others. -/
theorem Moved.sublist {a : Act ι} (hm : Moved w u a i) :
    (u.current i ++ u.ahead i).Sublist (w.current i ++ w.ahead i) ∧
    (u.ahead i).Sublist (w.ahead i) := by
  cases hm with
  | still h hbar hrecv =>
    rw [h.current, h.ahead]
    exact ⟨.refl _, .refl _⟩
  | pass hactive hcurrent hpassed hunpassed hbar hrecv =>
    have hahead : u.ahead i = w.ahead i := by simp [ahead, hpassed, hunpassed]
    rw [hcurrent, hahead]
    exact ⟨.refl _, .refl _⟩
  | drop hcurrent hpassed hunpassed hbar hrecv =>
    have hahead : w.ahead i = .other :: u.ahead i := by simp [ahead, hpassed, hunpassed]
    rw [hcurrent, hahead]
    exact ⟨.append_left (List.sublist_cons_self _ _) _, List.sublist_cons_self _ _⟩
  | leave hold hnew hout hpassed hunpassed hbar hrecv =>
    have hahead : u.ahead i = w.ahead i := by simp [ahead, hpassed, hunpassed]
    rw [hnew, hahead]
    exact ⟨List.sublist_append_right _ _, .refl _⟩
  | callRecv hold hnew hpassed hunpassed hbar hrecv | callBar hold hnew hpassed hunpassed hbar hrecv =>
    have hahead : w.ahead i = u.current i ++ u.ahead i := by simp [ahead, hnew, hpassed, hunpassed]
    rw [hold, hahead]
    exact ⟨.refl _, List.sublist_append_right _ _⟩
  | wake hcurrent h hbar hb hrecv | runBar ha heval h hbar hrecv =>
    rw [h.current, h.ahead]
    exact ⟨.refl _, .refl _⟩

theorem Ordered.step {a : Act ι} (ho : Ordered rank w) (hf : Frame w u i) (hm : Moved w u a i) :
    Ordered rank u := by
  intro k
  by_cases hki : k = i
  · subst hki
    exact (ho k).sublist (hm.sublist.1.filterMap _)
  · rw [hf.current k hki, hf.ahead hki]
    exact ho k

theorem Located.step {a : Act ι} (hl : Located w) (hf : Frame w u i) (hm : Moved w u a i) :
    Located u := by
  have hrecv (h : u.recv = w.recv) (k : ι) (n : UInt8) (v : Bytes) (id r : ℕ) (b : Bool)
      (hk : u.recv.caller k = .waiting n v id r b) :
      (k = i ∧ u.current i = [.recv n v]) ∨ ∃ id r b, w.recv.caller k = .waiting n v id r b :=
    .inr ⟨id, r, b, h ▸ hk⟩
  have hbar (h : u.bar = w.bar) (k : ι) (hk : u.bar.pc k ≠ none) :
      (k = i ∧ u.current i = [.global]) ∨ w.bar.pc k ≠ none := .inr (h ▸ hk)
  have hcalls (h : u.current i = w.current i) : .other ∉ u.current i := h ▸ hl.calls i
  cases hm with
  | still h hb hr => exact hl.move hf (hrecv hr) (hbar hb) (.inl h.current) (hcalls h.current)
  | pass _ h _ _ hb hr => exact hl.move hf (hrecv hr) (hbar hb) (.inl h) (hcalls h)
  | drop h _ _ hb hr => exact hl.move hf (hrecv hr) (hbar hb) (.inl h) (hcalls h)
  | leave hold hnew hout _ _ hb hr =>
    refine hl.move hf (hrecv hr) (hbar hb) (.inr ?_) (by simp [hnew])
    -- who returns from one barrier is not in the other one
    rcases hout with ⟨⟨n, v, rfl⟩, hout⟩ | ⟨rfl, hout⟩
    · exact ⟨hout, hl.absent (by simp [hold])⟩
    · exact ⟨hl.out (by simp [hold]), hout⟩
  | callRecv hold hnew _ _ hb hr =>
    obtain ⟨-, hcaller⟩ := RecvBarriers.call_effect hr
    refine hl.move hf (fun k m v j q b hk => ?_) (hbar hb)
      (.inr ⟨hl.out (by simp [hold]), hl.absent (by simp [hold])⟩) (by simp [hnew])
    rcases hcaller k m v j q b hk with ⟨rfl, rfl, rfl⟩ | ⟨b', hw⟩
    · exact .inl ⟨rfl, hnew⟩
    · exact .inr ⟨j, q, b', hw⟩
  | callBar hold hnew _ _ hb hr =>
    refine hl.move hf (hrecv hr) (fun k hk => ?_)
      (.inr ⟨hl.out (by simp [hold]), hl.absent (by simp [hold])⟩) (by simp [hnew])
    rw [GlobalBarrier.call_pc hb] at hk
    by_cases hki : k = i
    · exact .inl ⟨hki, hnew⟩
    · exact .inr (by simpa [hki] using hk)
  | wake _ h hbr hb hr =>
    obtain ⟨-, hcaller⟩ := RecvBarriers.wake_effect hb hr
    exact hl.move hf (fun k m v j q b hk => .inr (hcaller k m v j q b hk)) (hbar hbr) (.inl h.current)
      (hcalls h.current)
  | runBar _ _ h hb hr =>
    obtain ⟨hpc, hframe⟩ := GlobalBarrier.run_frame hb
    refine hl.move hf (hrecv hr) (fun k hk => .inr ?_) (.inl h.current) (hcalls h.current)
    by_cases hki : k = i
    · exact hki ▸ hpc
    · rwa [hframe k hki] at hk

/-- The commands of a UUID that are ahead on any socket change with those of socket `i`. -/
theorem Frame.sum_ahead (hf : Frame w u i) (p : BarrierCommand → Bool) :
    (∑ k, (u.ahead k).countP p) + (w.ahead i).countP p =
      (∑ k, (w.ahead k).countP p) + (u.ahead i).countP p := by
  have hrest : ∑ k ∈ Finset.univ.erase i, (u.ahead k).countP p =
      ∑ k ∈ Finset.univ.erase i, (w.ahead k).countP p := by
    refine Finset.sum_congr rfl fun k hk => ?_
    rw [hf.ahead (Finset.ne_of_mem_erase hk)]
  have hu := Finset.add_sum_erase Finset.univ (fun k => (u.ahead k).countP p) (Finset.mem_univ i)
  have hw := Finset.add_sum_erase Finset.univ (fun k => (w.ahead k).countP p) (Finset.mem_univ i)
  omega

/-- A step that counts the commands it takes. -/
theorem Counted.move (hc : Counted N w) (hf : Frame w u i) (hsub : (u.ahead i).Sublist (w.ahead i))
    (hcount : ∀ v, u.recv.arrived v + (u.ahead i).countP (BarrierCommand.names v) =
      w.recv.arrived v + (w.ahead i).countP (BarrierCommand.names v)) : Counted N u := by
  constructor
  · intro v
    have h := hc.count v
    have hsum := hf.sum_ahead (BarrierCommand.names v)
    have hi := hcount v
    omega
  · intro k n v hk
    by_cases hki : k = i
    · subst hki
      exact hc.sizes k n v (hsub.subset hk)
    · rw [hf.ahead hki] at hk
      exact hc.sizes k n v hk

theorem Counted.step {a : Act ι} (hc : Counted N w) (hf : Frame w u i) (hm : Moved w u a i) :
    Counted N u := by
  refine hc.move hf hm.sublist.2 fun v => ?_
  cases hm with
  | still h _ hr => rw [hr, h.ahead]
  | pass _ _ hpassed hunpassed _ hr => simp [hr, ahead, hpassed, hunpassed]
  | drop _ hpassed hunpassed _ hr => simp [hr, ahead, hpassed, hunpassed, BarrierCommand.names]
  | leave _ _ _ hpassed hunpassed _ hr => simp [hr, ahead, hpassed, hunpassed]
  | @callRecv n x _ _ hpassed hunpassed _ hr =>
    obtain ⟨harrived, -⟩ := RecvBarriers.call_effect hr
    have hahead : w.ahead i = .recv n x :: u.ahead i := by simp [ahead, hpassed, hunpassed]
    rw [harrived, hahead, List.countP_cons]
    by_cases hv : v = x
    · subst hv
      simp only [Function.update_self, BarrierCommand.names, decide_true, ↓reduceIte]
      omega
    · have hx : x ≠ v := fun h => hv h.symm
      simp [Function.update_of_ne hv, BarrierCommand.names, hx]
  | callBar _ _ hpassed hunpassed _ hr => simp [hr, ahead, hpassed, hunpassed, BarrierCommand.names]
  | wake _ h _ hb hr =>
    obtain ⟨harrived, -⟩ := RecvBarriers.wake_effect hb hr
    rw [harrived, h.ahead]
  | runBar _ _ h _ hr => rw [hr, h.ahead]

theorem agreed_step {a : Act ι} (hg : RecvBarriers.Agreed N w.recv) (hc : Counted N w)
    (hm : Moved w u a i) : RecvBarriers.Agreed N u.recv := by
  cases hm with
  | still _ _ hr | pass _ _ _ _ _ hr | drop _ _ _ _ hr | leave _ _ _ _ _ _ hr | callBar _ _ _ _ _ hr
    | runBar _ _ _ _ hr => exact hr ▸ hg
  | callRecv _ _ hpassed _ _ hr =>
    refine hg.step (hc.asAgreed (List.mem_append_left _ ?_)) hr
    rw [hpassed]
    exact List.mem_cons_self
  | wake _ _ _ hb hr =>
    rcases hb with rfl | rfl
    · exact hg.step (a := .wake i) trivial hr
    · exact hg.step (a := .spurious i) trivial hr

/-- While the barrier is set no command gets through `block_on_bar`. -/
theorem Moved.kept {a : Act ι} (hm : Moved w u a i) (hactive : w.bar.active = true) :
    (∀ c ∈ u.current i ++ u.passed i, c ∈ w.current i ++ w.passed i) ∧
    (∀ c ∈ u.passed i, c ∈ w.passed i) ∧ ∀ c ∈ u.unpassed i, c ∈ w.unpassed i := by
  cases hm with
  | still h _ _ | wake _ h _ _ _ | runBar _ _ h _ _ =>
    rw [h.current, h.passed, h.unpassed]
    exact ⟨fun _ h => h, fun _ h => h, fun _ h => h⟩
  | pass h => simp [h] at hactive
  | drop hcurrent hpassed hunpassed _ _ =>
    rw [hcurrent, hpassed, hunpassed]
    refine ⟨fun c hc => ?_, fun c hc => List.mem_cons_of_mem _ hc, fun _ h => h⟩
    exact (List.mem_append.mp hc).elim (List.mem_append_left _)
      fun hc => List.mem_append_right _ (List.mem_cons_of_mem _ hc)
  | leave _ hnew _ hpassed hunpassed _ _ =>
    rw [hnew, hpassed, hunpassed]
    exact ⟨fun c hc => List.mem_append_right _ hc, fun _ h => h, fun _ h => h⟩
  | callRecv hold hnew hpassed hunpassed _ _ | callBar hold hnew hpassed hunpassed _ _ =>
    rw [hold, hnew, hpassed, hunpassed]
    exact ⟨fun _ h => h, fun c hc => List.mem_cons_of_mem _ hc, fun _ h => h⟩

/-- What is shut in by nobody stays so while the barrier is set. -/
theorem Sealed.step {a : Act ι} (hs : w.Sealed k) (hf : Frame w u i) (hm : Moved w u a i)
    (hactive : w.bar.active = true) : u.Sealed k := by
  obtain ⟨hbegun, hpassed, hunpassed⟩ := hm.kept hactive
  refine hs.mono (fun j c hc => ?_) (fun j c hc => ?_) (fun j c hc => ?_)
  · by_cases hj : j = i
    · subst hj
      exact hbegun c hc
    · rwa [hf.current j hj, hf.passed j hj] at hc
  · by_cases hj : j = i
    · subst hj
      exact hpassed c hc
    · rwa [hf.passed j hj] at hc
  · by_cases hj : j = i
    · subst hj
      exact hunpassed c hc
    · rwa [hf.unpassed j hj] at hc

theorem Shut.step {a : Act ι} (hs : Shut w) (hclosed : w.bar.Closed) (ha : w.setsClear a)
    (hf : Frame w u i) (hm : Moved w u a i) : Shut u := by
  have hkept (k : ι) (hk : w.bar.isAt BarrierPc.closing k = true) : u.Sealed k :=
    (hs k hk).step hf hm (hclosed.active k hk)
  intro k hk
  cases hm with
  | still _ hb _ | pass _ _ _ _ hb _ | drop _ _ _ hb _ | leave _ _ _ _ _ hb _ | callRecv _ _ _ _ hb _
    | wake _ _ hb _ _ => exact hkept k (hb ▸ hk)
  | callBar _ _ _ _ hb _ =>
    refine hkept k ?_
    have hpc := GlobalBarrier.call_pc hb
    by_cases hki : k = i
    · subst hki
      simp [GlobalBarrier.isAt, hpc, BarrierPc.closing] at hk
    · rwa [GlobalBarrier.isAt_congr (b := w.bar) (by simp [hpc, hki])] at hk
  | runBar hact heval h hb _ =>
    rcases GlobalBarrier.closing_of_run hb hk with hw | ⟨rfl, hset⟩
    · exact hkept k hw
    · subst hact
      obtain ⟨-, hsealed⟩ := ha heval hset
      refine hsealed.mono (fun j c hc => ?_) (fun j c hc => ?_) (fun j c hc => ?_)
      all_goals
        by_cases hj : j = k
        · subst hj
          simpa only [h.current, h.passed, h.unpassed] using hc
        · simpa only [hf.current j hj, hf.passed j hj, hf.unpassed j hj] using hc

theorem noted_of_eval (hn : Noted w) (h : w.evalStep i = some u) : Noted u := by
  cases hp : w.eval i with
  | idle =>
    simp only [evalStep, hp] at h
    split at h <;> cases h
    exact hn.goto rfl (by simp) fun _ _ => rfl
  | popped c =>
    simp only [evalStep, hp, Option.some.injEq] at h
    subst h
    exact hn.goto rfl (by simp) fun k hk => by simp [hk]
  | started c =>
    cases c with
    | other =>
      simp only [evalStep, hp, Option.some.injEq] at h
      subst h
      exact hn.goto rfl (by simp) fun _ _ => rfl
    | recv n v | global =>
      simp only [evalStep, hp] at h
      obtain ⟨r, -, rfl⟩ := Option.map_eq_some_iff.mp h
      exact hn.goto rfl (by simp) fun _ _ => rfl
  | inside c =>
    cases c with
    | other => simp [evalStep, hp] at h
    | recv n v | global =>
      simp only [evalStep, hp] at h
      split at h
      · cases h
        exact hn.goto rfl (by simp) fun _ _ => rfl
      · obtain ⟨r, -, rfl⟩ := Option.map_eq_some_iff.mp h
        exact hn
  | returned =>
    simp only [evalStep, hp] at h
    split at h
    · rename_i hdone
      cases h
      intro k hk
      by_cases hki : k = i
      · exact hki ▸ hdone
      · exact hn k (by simpa [hki] using hk)
    · cases h

theorem Noted.step {early : ι → Bool} {a : Act ι} (hn : Noted w) (h : w.step early a = some u) :
    Noted u := by
  cases a with
  | net i =>
    simp only [Traffic.step, netStep] at h
    split at h
    case h_2 => cases h
    case h_3 => split at h <;> cases h; exact hn
    all_goals
      cases h
      exact hn
  | eval i => exact noted_of_eval hn h
  | poll i =>
    simp only [Traffic.step, pollStep] at h
    split at h <;> cases h
    intro k hk
    by_cases hki : k = i
    · subst hki
      simp
    · simpa [hki] using hn k hk
  | spurious i =>
    simp only [Traffic.step] at h
    split at h
    · obtain ⟨r, -, rfl⟩ := Option.map_eq_some_iff.mp h
      exact hn
    · cases h

/-- What holds in the runs in which the barrier is set only while all is clear of it. -/
structure Steady (N rank : Bytes → ℕ) (w : Traffic ι) : Prop where
  located : Located w
  counted : Counted N w
  ordered : Ordered rank w
  shut : Shut w
  noted : Noted w
  agreed : RecvBarriers.Agreed N w.recv
  flags : w.bar.Flags
  closed : w.bar.Closed

theorem bar_step {a : Act ι} (hflags : w.bar.Flags) (hclosed : w.bar.Closed) (ha : w.setsClear a)
    (hm : Moved w u a i) : u.bar.Flags ∧ u.bar.Closed := by
  cases hm with
  | still _ hb _ | pass _ _ _ _ hb _ | drop _ _ _ hb _ | leave _ _ _ _ _ hb _ | callRecv _ _ _ _ hb _
    | wake _ _ hb _ _ => exact hb ▸ ⟨hflags, hclosed⟩
  | callBar _ _ _ _ hb _ => exact ⟨hflags.step hb, hclosed.step (a := .call i) hflags trivial hb⟩
  | runBar hact heval _ hb _ =>
    subst hact
    exact ⟨hflags.step hb,
      hclosed.step (a := .run i (fun _ => true) w.busy) hflags (fun hset => (ha heval hset).1) hb⟩

theorem Steady.step {early : ι → Bool} {a : Act ι} (hs : Steady N rank w) (ha : w.setsClear a)
    (h : w.step early a = some u) : Steady N rank u := by
  obtain ⟨i, hf, hm⟩ := moved_of_step h
  obtain ⟨hflags, hclosed⟩ := bar_step hs.flags hs.closed ha hm
  exact ⟨hs.located.step hf hm, hs.counted.step hf hm, hs.ordered.step hf hm,
    hs.shut.step hs.closed ha hf hm, hs.noted.step h, agreed_step hs.agreed hs.counted hm, hflags, hclosed⟩

theorem steady_start {script : ι → List BarrierCommand} (hp : Promised script)
    (ho : InOrder rank script) : Steady (senders script) rank (start script) := by
  have hahead (k : ι) : (start script).ahead k = script k := rfl
  refine ⟨⟨nofun, fun k hk => absurd rfl hk, fun k => by simp [current, start]⟩,
    ⟨fun v => ?_, fun k n v hk => ?_⟩, ?_, fun k hk => ?_, fun _ _ => rfl,
    ⟨RecvBarriers.orderly_start, RecvBarriers.tally_start, RecvBarriers.members_start⟩,
    GlobalBarrier.flags_start, GlobalBarrier.closed_start⟩
  · exact Nat.zero_add _
  · exact (hp k n v hk).1
  · exact ho
  · simp [start, GlobalBarrier.start, GlobalBarrier.isAt] at hk

theorem Steady.of_reach {early : ι → Bool} {script : ι → List BarrierCommand} (hp : Promised script)
    (ho : InOrder rank script) (h : Reach (trafficSystem early script) setsClear w) :
    Steady (senders script) rank w := by
  refine h.invariant (Steady (senders script) rank) ?_ fun _ _ _ _ hs ha ht => hs.step ha ht
  rintro _ rfl
  exact steady_start hp ho

end Traffic

end CogServer
