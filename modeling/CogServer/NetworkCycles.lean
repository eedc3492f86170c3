import CogServer.NetworkMoves

/-! What a stop leaves behind in the state that the network servers share, and so what the next
start finds. -/
namespace CogServer

open Transition

/-- A start has set the flag that the server runs. -/
def ControlPc.started {κ : Type*} : ControlPc κ → Bool
  | enabling _ | up => true
  | _ => false

namespace LoopStage

variable {κ ι : Type*}

/-- A server is being stopped, and `network_gone` has not set its flag. -/
def flagging : LoopStage κ ι → Bool
  | gone _ _ => true
  | _ => false

/-- A server is being stopped, and the flag is set. -/
def flagged : LoopStage κ ι → Bool
  | lock _ _ | walk _ _ _ | cancelListener _ _ | join _ _ => true
  | _ => false

/-- Before `cancel_reset`. -/
def early : LoopStage κ ι → Bool
  | looping | reset => true
  | _ => false

end LoopStage

namespace Network

variable {κ ι : Type*}

/-- The shared state is as after the very first start. -/
def Fresh (s : Network κ ι) : Prop :=
  s.networkGone = false ∧ s.queueCancelled = false ∧
    s.slots.numOpenSockets = s.slots.holding + s.slots.waiting

/-- `stop` cancels the queue before the loop resets it. -/
def InTime (s : Network κ ι) : Act κ ι → Prop
  | .control => s.control = .cancelling → s.loop.early
  | _ => True

/-- The marks of `network_gone`, and of the listeners that it is followed by the end of. -/
structure Marked (s : Network κ ι) : Prop where
  quiet : s.networkGone = false → (∀ k, (s.server k).cancelled = false) ∧ ∀ i, s.slots.pc i ≠ .lost
  counted : s.networkGone ∨ s.loop.flagging ↔ s.stopped ≠ 0
  flagged : s.loop.flagged → s.networkGone

/-- The queue is not left cancelled, and the loop runs until it is stopped. -/
structure Kept (s : Network κ ι) : Prop where
  queue : s.queueCancelled → s.control = .joining ∧ s.loop.early
  running : s.control.started → s.running
  looping : s.control = .up → s.loop = .looping

variable [DecidableEq κ] [DecidableEq ι] {max : ℕ} {s t : Network κ ι} {k : κ} {i : ι}

/-- The listeners and the handler threads change the slots by steps of theirs, and cancel only where
a cancellation is pending. -/
theorem slots_of_outside {a : Act κ ι} (ha : a.outside) (ht : s.step max a = some t) :
    t.slots = s.slots ∨
      ∃ b, s.slots.step max b = some t.slots ∧ (b.cancels → ∃ k, (s.server k).cancelled) := by
  cases outsideMove_of_step ha ht with
  | slots hslots => exact hslots
  | listener k hp hmaking hspawn hslots => exact hslots
  | handler i hold hp hlist hkept hexited hslots => exact hslots
  | accept | connect | spawn | exit => exact .inl rfl

/-- The counter of the open sockets. -/
theorem slots_counted {C : Network κ ι → Act κ ι → Prop} (h : Reach (system κ ι max) C s) :
    s.slots.Counted max := by
  refine h.invariant (fun s => s.slots.Counted max) ?_ ?_
  · rintro s rfl
    exact Slots.counted_start
  · intro s a t _ hs _ ht
    by_cases ha : a.outside
    · rcases slots_of_outside ha ht with hsame | ⟨b, hb, -⟩
      · rw [hsame]
        exact hs
      · exact hs.step hb
    · rw [(inside_of_inside (Bool.eq_false_iff.mpr ha) ht).slots]
      exact hs

theorem Marked.outside (h : Marked s) {a : Act κ ι} (ha : a.outside) (ht : s.step max a = some t) :
    Marked t := by
  have hf := frame_of_outside ha ht
  refine ⟨?_, ?_, ?_⟩
  · rw [hf.networkGone]
    intro hgone
    obtain ⟨hcancelled, hlost⟩ := h.quiet hgone
    refine ⟨?_, ?_⟩
    · intro k
      rw [(hf.served k).2.1]
      exact hcancelled k
    · rcases slots_of_outside ha ht with hsame | ⟨b, hb, hcancel⟩
      · rw [hsame]
        exact hlost
      · intro i hi
        have hb' : b.cancels = false := by
          by_contra hne
          obtain ⟨k, hk⟩ := hcancel (by simpa using hne)
          rw [hcancelled k] at hk
          cases hk
        exact hlost i (Slots.step_lost hb' hb hi)
  · rw [hf.networkGone, hf.loop, hf.stopped]
    exact h.counted
  · rw [hf.networkGone, hf.loop]
    exact h.flagged

omit [DecidableEq κ] [DecidableEq ι] in
/-- A step of the messages or the loop that leaves the marks alone. -/
theorem Marked.inside (h : Marked s) (hi : Inside s t) (hgone : t.networkGone = s.networkGone)
    (hstopped : t.stopped = s.stopped) (hflagging : t.loop.flagging = s.loop.flagging)
    (hflagged : t.loop.flagged → s.loop.flagged)
    (hcancelled : ∀ k, (t.server k).cancelled → (s.server k).cancelled) : Marked t := by
  refine ⟨?_, ?_, ?_⟩
  · rw [hgone, hi.slots]
    intro hnot
    obtain ⟨hnone, hlost⟩ := h.quiet hnot
    refine ⟨?_, hlost⟩
    intro k
    by_contra hne
    have hk := hcancelled k (by simpa using hne)
    rw [hnone k] at hk
    cases hk
  · rw [hgone, hstopped, hflagging]
    exact h.counted
  · rw [hgone]
    exact fun hf => h.flagged (hflagged hf)

omit [DecidableEq ι] in
theorem cancelled_of_server {v : NetworkServer ι} (hv : v.cancelled → (s.server k).cancelled)
    (j : κ) (hj : (Function.update s.server k v j).cancelled) : (s.server j).cancelled := by
  by_cases hjk : j = k
  · subst hjk
    rw [Function.update_self] at hj
    exact hv hj
  · rwa [Function.update_of_ne hjk] at hj

theorem Marked.loop (h : Marked s) (ht : LoopMove s t) : Marked t := by
  have hi := inside_of_loop ht
  cases ht with
  | reset hl | skip hl | join hl | stopped hl | drain hl | joined hl | finish hl =>
    exact h.inside hi rfl rfl (by rw [hl]; rfl) (fun hf => by cases hf) fun _ hk => hk
  | lock hl | walk hl | walked hl =>
    exact h.inside hi rfl rfl (by rw [hl]; rfl) (fun _ => by rw [hl]; rfl) fun _ hk => hk
  | joinThread => exact h.inside hi rfl rfl rfl id (cancelled_of_server id)
  | @stop k ks hl =>
    refine ⟨?_, ?_, fun hf => by cases hf⟩
    · intro hnot
      obtain ⟨hnone, hlost⟩ := h.quiet hnot
      refine ⟨?_, hlost⟩
      intro j
      by_contra hne
      have hj := cancelled_of_server (v := { s.server k with running := false }) id j
        ((Bool.not_eq_false _).mp hne)
      rw [hnone j] at hj
      cases hj
    · exact iff_of_true (.inr rfl) (Nat.succ_ne_zero _)
  | gone hl =>
    refine ⟨fun hnot => (by cases hnot), ?_, fun _ => rfl⟩
    exact iff_of_true (.inl rfl) (h.counted.mp (.inr (by rw [hl]; rfl)))
  | cancelListener hl =>
    -- a listener is cancelled when the flag is set
    have hgone : s.networkGone = true := h.flagged (by rw [hl]; rfl)
    refine ⟨?_, ?_, fun _ => hgone⟩
    · intro hnot
      cases hgone.symm.trans hnot
    · exact iff_of_true (.inl hgone) (h.counted.mp (.inl hgone))

omit [DecidableEq ι] in
theorem Marked.control (h : Marked s) (hs : Staged s) {a : Act κ ι} (ht : ControlMove s a t) :
    Marked t := by
  have hi := inside_of_control ht
  cases ht with
  | stays => exact h
  | start | stop | cancel => exact h.inside hi rfl rfl rfl id fun _ hk => hk
  | enable => exact h.inside hi rfl rfl rfl id (cancelled_of_server fun hk => by cases hk)
  | started hc =>
    have habsent : s.loop = .absent := hs.before.mp (by rw [hc]; rfl)
    exact h.inside hi rfl rfl (by rw [habsent]; rfl) (fun hf => by cases hf) fun _ hk => hk
  | join hc hl | leave hl =>
    exact h.inside hi rfl rfl (by rw [hl]; rfl) (fun hf => by cases hf) fun _ hk => hk

theorem Marked.step (h : Marked s) (hs : Staged s) {a : Act κ ι} (ht : s.step max a = some t) :
    Marked t := by
  by_cases ha : a.outside
  · exact h.outside ha ht
  · rcases insideMove_of_step (Bool.eq_false_iff.mpr ha) ht with hm | ⟨-, hm⟩
    · exact h.control hs hm
    · exact h.loop hm

theorem Marked.of_reach {C : Network κ ι → Act κ ι → Prop} (h : Reach (system κ ι max) C s) :
    Marked s := by
  refine h.invariant Marked ?_ ?_
  · rintro s rfl
    exact ⟨fun _ => ⟨fun _ => rfl, fun _ => nofun⟩, by simp [new, LoopStage.flagging], nofun⟩
  · intro s a t hr hs _ ht
    exact hs.step (.of_reach hr) ht

/-- What the shutdown of the loop does to the queue, and leaves alone. -/
theorem loop_keeps (ht : LoopMove s t) : t.control = s.control ∧ t.running = s.running ∧
    s.loop ≠ .looping ∧ (t.queueCancelled → s.queueCancelled ∧ s.loop ≠ .reset) := by
  cases ht with
  | reset hl => exact ⟨rfl, rfl, by simp [hl], fun hq => by cases hq⟩
  | stop hl | skip hl | gone hl | lock hl | walk hl | walked hl | cancelListener hl | join hl | stopped hl
  | drain hl | joinThread hl | joined hl | finish hl => exact ⟨rfl, rfl, by simp [hl], fun hq => ⟨hq, by simp [hl]⟩⟩

theorem Kept.loop (h : Kept s) (ht : LoopMove s t) : Kept t := by
  obtain ⟨hcontrol, hrunning, hlooping, hqueue⟩ := loop_keeps ht
  refine ⟨?_, ?_, ?_⟩
  · intro hq
    -- a cancelled queue is reset before the loop goes on
    obtain ⟨hold, hreset⟩ := hqueue hq
    have hearly := (h.queue hold).2
    cases hl : s.loop <;> rw [hl] at hearly hlooping hreset
    case looping => exact absurd rfl hlooping
    case reset => exact absurd rfl hreset
    all_goals cases hearly
  · rw [hcontrol, hrunning]
    exact h.running
  · intro hup
    rw [hcontrol] at hup
    exact absurd (h.looping hup) hlooping

omit [DecidableEq κ] [DecidableEq ι] in
/-- The queue is cancelled only where a stop waits for the loop. -/
theorem Kept.uncancelled (h : Kept s) (hc : s.control ≠ .joining) : s.queueCancelled ≠ true :=
  fun hq => hc (h.queue hq).1

omit [DecidableEq ι] in
theorem Kept.control (h : Kept s) {a : Act κ ι} (hc : InTime s a) (ht : ControlMove s a t) :
    Kept t := by
  cases ht with
  | stays => exact h
  | start hpc =>
    have hopen := h.uncancelled (by simp [hpc])
    exact ⟨fun hq => absurd hq hopen, fun _ => rfl, by simp⟩
  | enable hpc =>
    have hopen := h.uncancelled (by simp [hpc])
    have hrunning := h.running (by rw [hpc]; rfl)
    exact ⟨fun hq => absurd hq hopen, fun _ => hrunning, by simp⟩
  | started hpc =>
    have hopen := h.uncancelled (by simp [hpc])
    have hrunning := h.running (by rw [hpc]; rfl)
    exact ⟨fun hq => absurd hq hopen, fun _ => hrunning, fun _ => rfl⟩
  | stop hpc =>
    have hopen := h.uncancelled (by simp [hpc])
    exact ⟨fun hq => absurd hq hopen, fun hx => (by cases hx), by simp⟩
  | cancel hpc => exact ⟨fun _ => ⟨rfl, hc hpc⟩, fun hx => (by cases hx), by simp⟩
  | join hpc hl =>
    refine ⟨?_, fun hx => (by cases hx), by simp⟩
    intro hq
    have hearly := (h.queue hq).2
    rw [hl] at hearly
    cases hearly
  | leave hl hended =>
    refine ⟨fun hq => ⟨(h.queue hq).1, rfl⟩, h.running, ?_⟩
    intro hup
    have hup : s.control = .up := hup
    have hrunning : s.running = true := h.running (by rw [hup]; rfl)
    rcases hended with hnot | hq
    · cases hrunning.symm.trans hnot
    · exact absurd hq (h.uncancelled (by simp [hup]))

theorem Kept.step (h : Kept s) {a : Act κ ι} (hc : InTime s a) (ht : s.step max a = some t) :
    Kept t := by
  by_cases ha : a.outside
  · have hf := frame_of_outside ha ht
    refine ⟨?_, ?_, ?_⟩
    · rw [hf.queueCancelled, hf.control, hf.loop]
      exact h.queue
    · rw [hf.control, hf.running]
      exact h.running
    · rw [hf.control, hf.loop]
      exact h.looping
  · rcases insideMove_of_step (Bool.eq_false_iff.mpr ha) ht with hm | ⟨-, hm⟩
    · exact h.control hc hm
    · exact h.loop hm

theorem Kept.of_reach (h : Reach (system κ ι max) InTime s) : Kept s := by
  refine h.invariant Kept ?_ ?_
  · rintro s rfl
    exact ⟨nofun, nofun, nofun⟩
  · intro s a t _ hs hc ht
    exact hs.step hc ht

omit [DecidableEq κ] [DecidableEq ι] in
/-- While a start has returned, the flag is set exactly if a stop has stopped a network server
before. -/
theorem networkGone_iff (h : Marked s) (hlooping : s.loop = .looping) :
    s.networkGone = false ↔ s.stopped = 0 := by
  have hcounted := h.counted
  rw [hlooping] at hcounted
  simp only [LoopStage.flagging, Bool.false_eq_true, or_false] at hcounted
  rw [← not_iff_not, Bool.not_eq_false]
  exact hcounted

/-- Where no queue is cancelled behind the loop, a start finds the shared state as the first start
did if and only if no stop has stopped a network server before: the flag is never reset, and the
counter counts the sockets of cancelled listeners. -/
theorem cycles_fresh (h : Reach (system κ ι max) InTime s) (hup : s.control = .up) :
    (Fresh s ↔ s.stopped = 0) ∧ s.queueCancelled = false ∧
      (s.networkGone = false ↔ s.stopped = 0) ∧
      (s.slots.numOpenSockets = s.slots.holding + s.slots.waiting ↔ s.slots.leaked = 0) := by
  have hkept := Kept.of_reach h
  have hmarked := Marked.of_reach h
  have hgone := networkGone_iff hmarked (hkept.looping hup)
  have hcount := (slots_counted h).count
  have hqueue : s.queueCancelled = false := by
    by_contra hq
    cases hup.symm.trans (hkept.queue ((Bool.not_eq_false _).mp hq)).1
  refine ⟨⟨?_, ?_⟩, hqueue, hgone, by omega⟩
  · intro hfresh
    exact hgone.mp hfresh.1
  · intro hzero
    have hopen := hgone.mpr hzero
    have hleaked : s.slots.leaked = 0 := Tally.tally_eq_zero (hmarked.quiet hopen).2
    refine ⟨hopen, hqueue, ?_⟩
    rw [hcount, hleaked, Nat.add_zero]

/-- A start, a stop, and the loop up to its end, with one network server. -/
def cycle : List (Act Unit Unit) :=
  [.start [()], .control, .control, .listen (), .stop, .control, .leave] ++ List.replicate 6 .loop ++
    [.unwind ()] ++ List.replicate 5 .loop ++ [.control]

instance (s : Network κ ι) : (a : Act κ ι) → Decidable (InTime s a)
  | .control => inferInstanceAs (Decidable (_ → _))
  | .start _ | .stop | .loop | .leave | .accept _ _ | .listen _ | .unwind _ | .wake _ =>
    .isTrue trivial
  | .hangUp _ | .handler _ | .exit _ => .isTrue trivial

/-- A cycle without network servers leaves no marks. -/
theorem cycles_fresh_bare :
    ∃ s, exec (system Unit Unit 1) new [.start [], .control, .stop, .control, .leave, .loop, .loop, .loop, .loop,
      .control, .start [()], .control, .control] = some s ∧ s.enabled = [()] ∧ Fresh s := by
  have hplaces : (exec (system Unit Unit 1) new [.start [], .control, .stop, .control, .leave, .loop, .loop, .loop,
      .loop, .control, .start [()], .control, .control]).map
        (fun s => (s.control, s.enabled, s.stopped)) =
      some (.up, [()], 0) := by decide
  obtain ⟨s, hs, hpc⟩ := Option.map_eq_some_iff.mp hplaces
  obtain ⟨hup, hrest⟩ := Prod.mk.inj hpc
  obtain ⟨henabled, hzero⟩ := Prod.mk.inj hrest
  have hreach := Reach.of_exec (fun s a => decide (InTime s a))
    (fun _ _ h => of_decide_eq_true h) (.init rfl)
    (by decide) hs
  exact ⟨s, hs, henabled, (cycles_fresh hreach hup).1.mpr hzero⟩

/-- The second start finds the network gone. -/
theorem cycles_fresh_fails :
    ¬ ∀ s, Reach (system Unit Unit 1) anyStep s → s.control = .up → Fresh s := by
  intro h
  have hplaces : (exec (system Unit Unit 1) new (cycle ++ [.start [()], .control, .control])).map
      (fun s => (s.control, s.networkGone)) = some (.up, true) := by decide
  obtain ⟨s, hs, hpc⟩ := Option.map_eq_some_iff.mp hplaces
  obtain ⟨hup, hgone⟩ := Prod.mk.inj hpc
  cases hgone.symm.trans (h s (reach_of_exec _ rfl hs) hup).1

end Network

end CogServer
