import CogServer.BarrierTraffic

/-! What a step does to the commands on their way to the barriers. -/
namespace CogServer.Traffic

open Transition

variable {ι : Type*} {w u : Traffic ι} {i : ι}

/-- A step of a thread of socket `i` leaves the other sockets alone. -/
structure Frame (w u : Traffic ι) (i : ι) : Prop where
  current : ∀ k, k ≠ i → u.current k = w.current k
  passed : ∀ k, k ≠ i → u.passed k = w.passed k
  unpassed : ∀ k, k ≠ i → u.unpassed k = w.unpassed k

/-- The commands of socket `i` stay where they are. -/
structure Same (w u : Traffic ι) (i : ι) : Prop where
  current : u.current i = w.current i
  passed : u.passed i = w.passed i
  unpassed : u.unpassed i = w.unpassed i

theorem Frame.of_fields (heval : ∀ k, k ≠ i → u.eval k = w.eval k)
    (hnet : ∀ k, k ≠ i → u.net k = w.net k) (hqueue : ∀ k, k ≠ i → u.queue k = w.queue k)
    (hscript : ∀ k, k ≠ i → u.script k = w.script k) : Frame w u i := by
  refine ⟨fun k hk => ?_, fun k hk => ?_, fun k hk => ?_⟩
  · rw [Traffic.current, Traffic.current, heval k hk]
  · rw [Traffic.passed, Traffic.passed, heval k hk, hqueue k hk, hnet k hk]
  · rw [Traffic.unpassed, Traffic.unpassed, hnet k hk, hscript k hk]

variable [DecidableEq ι]

@[simp] theorem goto_eval (w : Traffic ι) (i : ι) (p : EvaluationPc) :
    (w.goto i p).eval = Function.update w.eval i p := rfl

/-- A step that moves the eval thread only. -/
theorem Frame.goto {p : EvaluationPc} (heval : u.eval = Function.update w.eval i p)
    (hnet : u.net = w.net) (hscript : u.script = w.script)
    (hqueue : ∀ k, k ≠ i → u.queue k = w.queue k) : Frame w u i := by
  refine .of_fields (fun k hk => ?_) (fun k _ => by rw [hnet]) hqueue fun k _ => by rw [hscript]
  rw [heval, Function.update_of_ne hk]

variable [Fintype ι]

/-- What a step of a thread of socket `i` does. -/
inductive Moved (w u : Traffic ι) (a : Act ι) (i : ι) : Prop
  /-- No command moves on. -/
  | still (h : Same w u i) (hbar : u.bar = w.bar) (hrecv : u.recv = w.recv)
  /-- A command gets through `block_on_bar`. -/
  | pass {c : BarrierCommand} (hactive : w.bar.active = false) (hcurrent : u.current i = w.current i)
      (hpassed : u.passed i = w.passed i ++ [c]) (hunpassed : w.unpassed i = c :: u.unpassed i)
      (hbar : u.bar = w.bar) (hrecv : u.recv = w.recv)
  /-- A command is evaluated that calls no barrier. -/
  | drop (hcurrent : u.current i = w.current i) (hpassed : w.passed i = .other :: u.passed i)
      (hunpassed : u.unpassed i = w.unpassed i) (hbar : u.bar = w.bar) (hrecv : u.recv = w.recv)
  /-- A command returns from its barrier. -/
  | leave {c : BarrierCommand} (hold : w.current i = [c]) (hnew : u.current i = [])
      (hout : (∃ n v, c = .recv n v) ∧ w.recv.caller i = .out ∨ c = .global ∧ w.bar.pc i = none)
      (hpassed : u.passed i = w.passed i) (hunpassed : u.unpassed i = w.unpassed i) (hbar : u.bar = w.bar)
      (hrecv : u.recv = w.recv)
  | callRecv {n : UInt8} {v : Bytes} (hold : w.current i = []) (hnew : u.current i = [.recv n v])
      (hpassed : w.passed i = .recv n v :: u.passed i) (hunpassed : u.unpassed i = w.unpassed i)
      (hbar : u.bar = w.bar) (hrecv : w.recv.step (.call i n v) = some u.recv)
  | callBar (hold : w.current i = []) (hnew : u.current i = [.global])
      (hpassed : w.passed i = .global :: u.passed i) (hunpassed : u.unpassed i = w.unpassed i)
      (hbar : w.bar.step (.call i) = some u.bar) (hrecv : u.recv = w.recv)
  | wake {n : UInt8} {v : Bytes} {b : RecvBarriers.Act ι} (hcurrent : w.current i = [.recv n v])
      (h : Same w u i) (hbar : u.bar = w.bar) (hb : b = .wake i ∨ b = .spurious i)
      (hrecv : w.recv.step b = some u.recv)
  | runBar (ha : a = .eval i) (heval : w.eval i = .inside .global) (h : Same w u i)
      (hbar : w.bar.step (.run i (fun _ => true) w.busy) = some u.bar) (hrecv : u.recv = w.recv)

/-- What the network thread does. -/
theorem moved_of_net {a : Act ι} (h : w.netStep i = some u) : Frame w u i ∧ Moved w u a i := by
  unfold netStep at h
  split at h
  · rename_i c cs hnet hscript
    cases h
    refine ⟨.of_fields (fun _ _ => rfl) (fun k hk => ?_) (fun _ _ => rfl) (fun k hk => ?_),
      .still ⟨rfl, ?_, ?_⟩ rfl rfl⟩
    · simp [hk]
    · simp [hk]
    · simp [passed, hnet]
    · simp [unpassed, hnet, hscript]
  · cases h
  · rename_i c hnet
    split at h
    · cases h
    · rename_i hactive
      cases h
      refine ⟨.of_fields (fun _ _ => rfl) (fun k hk => ?_) (fun _ _ => rfl) (fun _ _ => rfl),
        .pass (c := c) (by simpa using hactive) rfl ?_ ?_ rfl rfl⟩
      · simp [hk]
      · simp [passed, hnet]
      · simp [unpassed, hnet]
  · rename_i c hnet
    cases h
    refine ⟨.of_fields (fun _ _ => rfl) (fun k hk => ?_) (fun k hk => ?_) (fun _ _ => rfl),
      .still ⟨rfl, ?_, ?_⟩ rfl rfl⟩
    · simp [hk]
    · simp [hk]
    · simp [passed, hnet]
    · simp [unpassed, hnet]

/-- What the eval thread does. -/
theorem moved_of_eval (h : w.evalStep i = some u) : Frame w u i ∧ Moved w u (.eval i) i := by
  cases hp : w.eval i with
  | idle =>
    simp only [evalStep, hp] at h
    split at h
    · rename_i c q hqueue
      cases h
      refine ⟨.goto rfl rfl rfl fun k hk => by simp [hk], .still ⟨?_, ?_, rfl⟩ rfl rfl⟩
      · simp [current, hp]
      · simp [passed, hp, hqueue, Traffic.goto]
    · cases h
  | popped c =>
    simp only [evalStep, hp, Option.some.injEq] at h
    subst h
    refine ⟨.goto rfl rfl rfl fun _ _ => rfl, .still ⟨?_, ?_, rfl⟩ rfl rfl⟩
    · simp [current, hp]
    · simp [passed, hp, Traffic.goto]
  | started c =>
    cases c with
    | other =>
      simp only [evalStep, hp, Option.some.injEq] at h
      subst h
      refine ⟨.goto rfl rfl rfl fun _ _ => rfl, .drop ?_ ?_ rfl rfl rfl⟩
      · simp [current, hp]
      · simp [passed, hp, Traffic.goto]
    | recv n v =>
      simp only [evalStep, hp] at h
      obtain ⟨r, hr, rfl⟩ := Option.map_eq_some_iff.mp h
      refine ⟨.goto rfl rfl rfl fun _ _ => rfl, .callRecv (n := n) (v := v) ?_ ?_ ?_ rfl rfl hr⟩
      · simp [current, hp]
      · simp [current]
      · simp [passed, hp, Traffic.goto]
    | global =>
      simp only [evalStep, hp] at h
      obtain ⟨b, hb, rfl⟩ := Option.map_eq_some_iff.mp h
      refine ⟨.goto rfl rfl rfl fun _ _ => rfl, .callBar ?_ ?_ ?_ rfl hb rfl⟩
      · simp [current, hp]
      · simp [current]
      · simp [passed, hp, Traffic.goto]
  | inside c =>
    cases c with
    | other => simp [evalStep, hp] at h
    | recv n v =>
      simp only [evalStep, hp] at h
      split at h
      · rename_i hout
        cases h
        refine ⟨.goto rfl rfl rfl fun _ _ => rfl,
          .leave (c := .recv n v) ?_ ?_ (.inl ⟨⟨n, v, rfl⟩, hout⟩) ?_ rfl rfl rfl⟩
        · simp [current, hp]
        · simp [current]
        · simp [passed, hp, Traffic.goto]
      · obtain ⟨r, hr, rfl⟩ := Option.map_eq_some_iff.mp h
        refine ⟨⟨fun _ _ => rfl, fun _ _ => rfl, fun _ _ => rfl⟩,
          .wake (n := n) (v := v) ?_ ⟨rfl, rfl, rfl⟩ rfl (.inl rfl) hr⟩
        simp [current, hp]
    | global =>
      simp only [evalStep, hp] at h
      split at h
      · rename_i hout
        cases h
        refine ⟨.goto rfl rfl rfl fun _ _ => rfl,
          .leave (c := .global) ?_ ?_ (.inr ⟨rfl, hout⟩) ?_ rfl rfl rfl⟩
        · simp [current, hp]
        · simp [current]
        · simp [passed, hp, Traffic.goto]
      · obtain ⟨b, hb, rfl⟩ := Option.map_eq_some_iff.mp h
        exact ⟨⟨fun _ _ => rfl, fun _ _ => rfl, fun _ _ => rfl⟩, .runBar rfl hp ⟨rfl, rfl, rfl⟩ hb rfl⟩
  | returned =>
    simp only [evalStep, hp] at h
    split at h
    · cases h
      refine ⟨.goto rfl rfl rfl fun _ _ => rfl, .still ⟨?_, ?_, rfl⟩ rfl rfl⟩
      · simp [current, hp]
      · simp [passed, hp, Traffic.goto]
    · cases h

/-- What a step does, and on which socket. -/
theorem moved_of_step {early : ι → Bool} {a : Act ι} (h : w.step early a = some u) :
    ∃ i, Frame w u i ∧ Moved w u a i := by
  cases a with
  | net i => exact ⟨i, moved_of_net h⟩
  | eval i => exact ⟨i, moved_of_eval h⟩
  | poll i =>
    simp only [step, pollStep] at h
    split at h
    · cases h
      exact ⟨i, ⟨fun _ _ => rfl, fun _ _ => rfl, fun _ _ => rfl⟩, .still ⟨rfl, rfl, rfl⟩ rfl rfl⟩
    · cases h
  | spurious i =>
    simp only [step] at h
    split at h
    · rename_i n v hp
      obtain ⟨r, hr, rfl⟩ := Option.map_eq_some_iff.mp h
      refine ⟨i, ⟨fun _ _ => rfl, fun _ _ => rfl, fun _ _ => rfl⟩, .wake (n := n) (v := v) ?_ ⟨rfl, rfl, rfl⟩ rfl
        (.inr rfl) hr⟩
      simp [current, hp]
    · cases h

end CogServer.Traffic
