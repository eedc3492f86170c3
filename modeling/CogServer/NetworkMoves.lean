import CogServer.NetworkServer

/-! What the threads of the network leave alone, and where its shutdown is. -/
namespace CogServer

open Transition

/-- The servers that the loop has not stopped yet. -/
def LoopStage.unstopped {κ ι : Type*} (enabled : List κ) : LoopStage κ ι → List κ
  | absent | looping | reset => enabled
  | stop todo => todo
  | gone k todo | lock k todo | walk k todo _ | cancelListener k todo | join k todo => k :: todo
  | drain | joinThreads _ | finished => []

/-- The servers whose `stop_listening` has not begun. -/
def LoopStage.untouched {κ ι : Type*} (enabled : List κ) : LoopStage κ ι → List κ
  | absent | looping | reset => enabled
  | stop todo => todo
  | gone _ todo | lock _ todo | walk _ todo _ | cancelListener _ todo | join _ todo => todo
  | drain | joinThreads _ | finished => []

/-- The servers that are left to start. -/
def ControlPc.todo {κ : Type*} : ControlPc κ → List κ
  | enabling todo => todo
  | _ => []

/-- The main loop has not been started. -/
def ControlPc.before {κ : Type*} : ControlPc κ → Bool
  | down | enabling _ => true
  | _ => false

namespace Network

variable {κ ι : Type*} {max : ℕ} {s t : Network κ ι} {k : κ} {i : ι}

/-- What the listeners and the handler threads leave alone. -/
structure Frame (s t : Network κ ι) : Prop where
  control : t.control = s.control
  loop : t.loop = s.loop
  running : t.running = s.running
  queueCancelled : t.queueCancelled = s.queueCancelled
  enabled : t.enabled = s.enabled
  networkGone : t.networkGone = s.networkGone
  stopped : t.stopped = s.stopped
  served : ∀ k, (t.server k).running = (s.server k).running ∧
    (t.server k).cancelled = (s.server k).cancelled ∧
    ((t.server k).listener.alive → (s.server k).listener.alive)

theorem frame_of_server {slots : Slots ι} {handler : ι → HandlerPc κ} {sockList : List ι}
    {exited : ι → Bool} :
    Frame s { s with slots := slots, handler := handler, sockList := sockList, exited := exited } :=
  ⟨rfl, rfl, rfl, rfl, rfl, rfl, rfl, fun _ => ⟨rfl, rfl, id⟩⟩

/-- How far the loop is with the servers, and that the message thread waits for it. -/
structure Staged (s : Network κ ι) : Prop where
  nodup : (s.control.todo ++ s.loop.unstopped s.enabled).Nodup
  alive : ∀ k, (s.server k).listener.alive → k ∈ s.loop.unstopped s.enabled
  untouched : ∀ k ∈ s.loop.untouched s.enabled, (s.server k).running
  before : s.control.before ↔ s.loop = .absent
  emptied : s.control = .down ∨ s.loop = .finished → s.enabled = []

theorem staged_new : Staged (new : Network κ ι) where
  nodup := List.nodup_nil
  alive k h := by cases h
  untouched k h := by cases h
  before := by simp [new, ControlPc.before]
  emptied _ := rfl

theorem Staged.frame (h : Staged s) (hf : Frame s t) : Staged t := by
  refine ⟨?_, ?_, ?_, ?_, ?_⟩
  · rw [hf.control, hf.loop, hf.enabled]
    exact h.nodup
  · intro k hk
    rw [hf.loop, hf.enabled]
    exact h.alive k ((hf.served k).2.2 hk)
  · intro k hk
    rw [hf.loop, hf.enabled] at hk
    rw [(hf.served k).1]
    exact h.untouched k hk
  · rw [hf.control, hf.loop]
    exact h.before
  · rw [hf.control, hf.loop, hf.enabled]
    exact h.emptied

/-- The loop goes on, with no listener that runs outside the servers that it has left. -/
theorem Staged.loop_to (h : Staged s) (hs : s.loop ≠ .absent) {stage : LoopStage κ ι}
    (hloop : t.loop = stage) (ht : stage ≠ .absent) (hcontrol : t.control = s.control)
    (hfin : stage = .finished → t.enabled = [])
    (hlistener : ∀ k, (t.server k).listener = (s.server k).listener)
    (hsub : (stage.unstopped t.enabled).Sublist (s.loop.unstopped s.enabled))
    (hstay : ∀ k ∈ s.loop.unstopped s.enabled, (s.server k).listener.alive →
      k ∈ stage.unstopped t.enabled)
    (hrunning : ∀ k ∈ stage.untouched t.enabled, (t.server k).running) : Staged t := by
  have hbefore : s.control.before ≠ true := fun hb => hs (h.before.mp hb)
  subst hloop
  refine ⟨?_, ?_, hrunning, ?_, ?_⟩
  · rw [hcontrol]
    exact h.nodup.sublist (hsub.append_left _)
  · intro k hk
    rw [hlistener] at hk
    exact hstay k (h.alive k hk) hk
  · rw [hcontrol]
    exact iff_of_false hbefore ht
  · rintro (hdown | hend)
    · rw [hcontrol] at hdown
      exact absurd (by rw [hdown]; rfl) hbefore
    · exact hfin hend

variable [DecidableEq κ]

theorem frame_of_listener {slots : Slots ι} {handler : ι → HandlerPc κ} {sockList : List ι} {exited : ι → Bool}
    {p : ListenPc ι} {threads : List ι} (hp : p.alive → (s.server k).listener.alive) :
    Frame s { s with
      server := Function.update s.server k ⟨(s.server k).running, p, (s.server k).cancelled,
        threads⟩
      slots := slots, handler := handler, sockList := sockList, exited := exited } := by
  refine ⟨rfl, rfl, rfl, rfl, rfl, rfl, rfl, ?_⟩
  intro j
  by_cases hj : j = k
  · subst hj
    simpa using hp
  · simp [hj]

/-- The actions of the listeners and the handler threads. -/
def Act.outside : Act κ ι → Bool
  | .accept _ _ | .listen _ | .unwind _ | .wake _ | .hangUp _ | .handler _ | .exit _ => true
  | .start _ | .stop | .control | .loop | .leave => false

variable [DecidableEq ι]

/-- The slots stay as they are, or go on by a step of theirs; one of them cancels only where a
cancellation is pending. -/
def SlotsMove (max : ℕ) (s : Network κ ι) (slots : Slots ι) : Prop :=
  slots = s.slots ∨ ∃ b, s.slots.step max b = some slots ∧ (b.cancels → ∃ k, (s.server k).cancelled)

/-- What a step of a listener or of a handler thread can do, by what it does to the sockets. -/
inductive OutsideMove (max : ℕ) (s : Network κ ι) : Act κ ι → Network κ ι → Prop
  | slots {a : Act κ ι} {slots : Slots ι} (hslots : s.SlotsMove max slots) :
    OutsideMove max s a { s with slots := slots }
  /-- A listener goes on with its socket, or without one. -/
  | listener {a : Act κ ι} (k : κ) {p : ListenPc ι} {threads : List ι} {slots : Slots ι}
      (hp : p.alive → (s.server k).listener.alive)
      (hmaking : p.making = none ∨ p.making = (s.server k).listener.making) (hspawn : ∀ i, p ≠ .spawn i)
      (hslots : s.SlotsMove max slots) :
    OutsideMove max s a
      { s.setServer k ⟨(s.server k).running, p, (s.server k).cancelled, threads⟩ with slots := slots }
  | accept {k : κ} {i : ι} (hl : (s.server k).listener = .accept) (hi : s.handler i = .absent) :
    OutsideMove max s (.accept k i) ((s.setListener k (.accepted i)).setHandler i (.made k))
  /-- `set_connection` registers the socket. -/
  | connect {k : κ} {i : ι} (hl : (s.server k).listener = .connect i) (hfree : s.sockUnlocked) :
    OutsideMove max s (.listen k)
      { s.setListener k (.spawn i) with
        sockList := s.sockList ++ [i]
        exited := Function.update s.exited i false }
  | spawn {k : κ} {i : ι} (hl : (s.server k).listener = .spawn i) :
    OutsideMove max s (.listen k) ((s.setListener k (.track i)).setHandler i .reading)
  /-- A handler thread on its way out, which may take its socket off the list. -/
  | handler {a : Act κ ι} (i : ι) {p : HandlerPc κ} {sockList : List ι} {slots : Slots ι}
      {exited : ι → Bool} (hold : ∀ k, s.handler i ≠ .made k) (hp : p ≠ .reading)
      (hlist : ∀ j ∈ sockList, j ∈ s.sockList) (hkept : ∀ j ≠ i, j ∈ s.sockList → j ∈ sockList)
      (hexited : ∀ j, s.exited j → exited j) (hslots : s.SlotsMove max slots) :
    OutsideMove max s a
      { s.setHandler i p with slots := slots, exited := exited, sockList := sockList }
  | exit {a : Act κ ι} (i : ι) : OutsideMove max s a (s.exitSock i)

omit [DecidableEq κ] in
theorem exited_exitSock (s : Network κ ι) (i j : ι) (hj : s.exited j) :
    (s.exitSock i).exited j := by
  by_cases hji : j = i
  · subst hji
    simp [exitSock]
  · simpa [exitSock, hji] using hj

omit [DecidableEq κ] in
theorem slotsMove_of_step {b : Slots.Act ι} {slots : Slots ι} (hb : s.slots.step max b = some slots)
    (hcancel : b.cancels = false) : s.SlotsMove max slots := by
  refine .inr ⟨b, hb, ?_⟩
  intro hcancels
  rw [hcancel] at hcancels
  cases hcancels

theorem outsideMove_of_listen (ht : s.listenStep max k = some t) :
    OutsideMove max s (.listen k) t := by
  unfold listenStep at ht
  cases hl : (s.server k).listener with
  | loopTest =>
    simp only [hl, Option.some.injEq] at ht
    subst ht
    split <;> exact .listener k (fun _ => by rw [hl]; rfl) (.inl rfl) (by simp) (.inl rfl)
  | accepted i =>
    simp only [hl] at ht
    split at ht
    · obtain ⟨slots, hslots, rfl⟩ := Option.map_eq_some_iff.mp ht
      exact .listener k (fun _ => by rw [hl]; rfl) (.inr (by rw [hl]; rfl)) (by simp)
        (slotsMove_of_step hslots rfl)
    · obtain rfl := Option.some.inj ht
      exact .listener k (fun hp => by cases hp) (.inl rfl) (by simp) (.inl rfl)
  | construct i =>
    simp only [hl] at ht
    split at ht
    · obtain rfl := Option.some.inj ht
      exact .listener k (fun _ => by rw [hl]; rfl) (.inr (by rw [hl]; rfl)) (by simp) (.inl rfl)
    · obtain ⟨slots, hslots, rfl⟩ := Option.map_eq_some_iff.mp ht
      exact .slots (slotsMove_of_step hslots rfl)
  | connect i =>
    simp only [hl] at ht
    split at ht
    · rename_i hfree
      obtain rfl := Option.some.inj ht
      exact .connect hl hfree
    · cases ht
  | spawn i =>
    simp only [hl, Option.some.injEq] at ht
    subst ht
    exact .spawn hl
  | track i =>
    simp only [hl, Option.some.injEq] at ht
    subst ht
    exact .listener k (fun _ => by rw [hl]; rfl) (.inl rfl) (by simp) (.inl rfl)
  | absent | accept | ended => simp [hl] at ht

theorem outsideMove_of_handler (ht : s.handlerStep max i = some t) :
    OutsideMove max s (.handler i) t := by
  unfold handlerStep at ht
  cases hh : s.handler i with
  | destroy =>
    simp only [hh, Option.some.injEq] at ht
    subst ht
    exact .handler i (by simp [hh]) (by simp) (fun _ hj => hj) (fun _ _ hj => hj)
      (s.exited_exitSock i) (.inl rfl)
  | remSock =>
    simp only [hh] at ht
    split at ht
    · obtain ⟨slots, hslots, rfl⟩ := Option.map_eq_some_iff.mp ht
      exact .handler i (by simp [hh]) (by simp) (fun _ hj => List.mem_of_mem_erase hj)
        (fun _ hne hj => (List.mem_erase_of_ne hne).mpr hj) (fun _ hj => hj) (slotsMove_of_step hslots rfl)
    · cases ht
  | releaseSlot =>
    simp only [hh] at ht
    split at ht
    · obtain rfl := Option.some.inj ht
      exact .handler i (by simp [hh]) (by simp) (fun _ hj => hj) (fun _ _ hj => hj) (fun _ hj => hj) (.inl rfl)
    · obtain ⟨slots, hslots, rfl⟩ := Option.map_eq_some_iff.mp ht
      exact .slots (slotsMove_of_step hslots rfl)
  | absent | made | reading | ended => simp [hh] at ht

/-- Each step of a listener or of a handler thread is one of these moves. -/
theorem outsideMove_of_step {a : Act κ ι} (ha : a.outside) (ht : s.step max a = some t) :
    OutsideMove max s a t := by
  cases a with
  | listen k => exact outsideMove_of_listen ht
  | handler i => exact outsideMove_of_handler ht
  | accept k i =>
    simp only [step] at ht
    split at ht
    · rename_i hl
      obtain rfl := Option.some.inj ht
      exact .accept hl.1 hl.2
    · cases ht
  | unwind k =>
    simp only [step, unwindStep] at ht
    split at ht
    · rename_i hcancelled
      cases hl : (s.server k).listener with
      | accept =>
        simp only [hl, Option.some.injEq] at ht
        subst ht
        exact .listener k (fun hp => by cases hp) (.inl rfl) (by simp) (.inl rfl)
      | construct i =>
        simp only [hl] at ht
        obtain ⟨slots, hslots, rfl⟩ := Option.map_eq_some_iff.mp ht
        exact .listener k (fun hp => by cases hp) (.inl rfl) (by simp)
          (.inr ⟨_, hslots, fun _ => ⟨k, hcancelled⟩⟩)
      | _ => simp [hl] at ht
    · cases ht
  | wake i =>
    obtain ⟨slots, hslots, rfl⟩ := Option.map_eq_some_iff.mp ht
    exact .slots (slotsMove_of_step hslots rfl)
  | hangUp i =>
    simp only [step] at ht
    split at ht
    · rename_i hreading
      obtain rfl := Option.some.inj ht
      exact .handler i (by simp [hreading]) (by simp) (fun _ hj => hj) (fun _ _ hj => hj) (fun _ hj => hj)
        (.inl rfl)
    · cases ht
  | exit i =>
    simp only [step] at ht
    split at ht
    · obtain rfl := Option.some.inj ht
      exact .exit i
    · cases ht
  | start | stop | control | loop | leave => cases ha

theorem frame_of_outside {a : Act κ ι} (ha : a.outside) (ht : s.step max a = some t) :
    Frame s t := by
  cases outsideMove_of_step ha ht with
  | slots | handler | exit => exact frame_of_server
  | listener k hp => exact frame_of_listener hp
  | accept hl | connect hl | spawn hl => exact frame_of_listener fun _ => by rw [hl]; rfl

/-- What the messages can do, and the thread that they are sent by. -/
inductive ControlMove (s : Network κ ι) : Act κ ι → Network κ ι → Prop
  /-- A start of a server that runs, and a stop of one that does not. -/
  | stays {a : Act κ ι} : ControlMove s a s
  | start {ks : List κ} (hc : s.control = .down) (hks : ks.Nodup) :
    ControlMove s (.start ks) { s with control := .enabling ks, running := true }
  | enable {k : κ} {ks : List κ} (hc : s.control = .enabling (k :: ks)) :
    ControlMove s .control { s with
      control := .enabling ks
      enabled := k :: s.enabled
      server := Function.update s.server k ⟨true, .loopTest, false, []⟩ }
  | started (hc : s.control = .enabling []) : ControlMove s .control { s with control := .up, loop := .looping }
  | stop (hc : s.control = .up) : ControlMove s .stop { s with control := .cancelling, running := false }
  | cancel (hc : s.control = .cancelling) :
    ControlMove s .control { s with control := .joining, queueCancelled := true }
  | join (hc : s.control = .joining) (hl : s.loop = .finished) :
    ControlMove s .control { s with control := .down, loop := .absent }
  | leave (hl : s.loop = .looping) (hended : s.running = false ∨ s.queueCancelled) :
    ControlMove s .leave { s with loop := .reset }

/-- What the shutdown in `serverLoop` can do, by where it is. -/
inductive LoopMove (s : Network κ ι) : Network κ ι → Prop
  | reset (hl : s.loop = .reset) : LoopMove s { s with loop := .stop s.enabled, queueCancelled := false }
  | stop {k : κ} {ks : List κ} (hl : s.loop = .stop (k :: ks)) (hrunning : (s.server k).running) :
    LoopMove s { s.setServer k { s.server k with running := false } with
      loop := .gone k ks
      stopped := s.stopped + 1 }
  | skip {k : κ} {ks : List κ} (hl : s.loop = .stop (k :: ks)) (hrunning : (s.server k).running = false) :
    LoopMove s { s with loop := .stop ks }
  | gone {k : κ} {ks : List κ} (hl : s.loop = .gone k ks) :
    LoopMove s { s with loop := .lock k ks, networkGone := true }
  | lock {k : κ} {ks : List κ} (hl : s.loop = .lock k ks) :
    LoopMove s { s with loop := .walk k ks s.sockList }
  | walk {k : κ} {ks : List κ} {i : ι} {socks : List ι} (hl : s.loop = .walk k ks (i :: socks)) :
    LoopMove s { s.exitSock i with loop := .walk k ks socks }
  | walked {k : κ} {ks : List κ} (hl : s.loop = .walk k ks []) :
    LoopMove s { s with loop := .cancelListener k ks }
  | cancelListener {k : κ} {ks : List κ} (hl : s.loop = .cancelListener k ks) :
    LoopMove s { s.setServer k { s.server k with cancelled := true } with loop := .join k ks }
  | join {k : κ} {ks : List κ} (hl : s.loop = .join k ks) (hended : (s.server k).listener = .ended) :
    LoopMove s { s with loop := .stop ks }
  | stopped (hl : s.loop = .stop []) : LoopMove s { s with loop := .drain }
  | drain (hl : s.loop = .drain) : LoopMove s { s with loop := .joinThreads s.enabled }
  | joinThread {k : κ} {ks : List κ} {i : ι} {threads : List ι} (hl : s.loop = .joinThreads (k :: ks))
      (hthreads : (s.server k).handlerThreads = i :: threads) (hended : s.handler i = .ended) :
    LoopMove s (s.setServer k { s.server k with handlerThreads := threads })
  | joined {k : κ} {ks : List κ} (hl : s.loop = .joinThreads (k :: ks))
      (hthreads : (s.server k).handlerThreads = []) :
    LoopMove s { s with loop := .joinThreads ks }
  | finish (hl : s.loop = .joinThreads []) : LoopMove s { s with loop := .finished, enabled := [] }

theorem controlMove_of_control (ht : s.controlStep = some t) : ControlMove s .control t := by
  unfold controlStep at ht
  cases hc : s.control with
  | enabling ks =>
    cases ks with
    | nil =>
      simp only [hc, Option.some.injEq] at ht
      exact ht ▸ .started hc
    | cons k ks =>
      simp only [hc, Option.some.injEq] at ht
      exact ht ▸ .enable hc
  | cancelling =>
    simp only [hc, Option.some.injEq] at ht
    exact ht ▸ .cancel hc
  | joining =>
    simp only [hc] at ht
    split at ht
    · rename_i hl
      obtain rfl := Option.some.inj ht
      exact .join hc hl
    · cases ht
  | down | up => simp [hc] at ht

theorem loopMove_of_step (ht : s.loopStep = some t) : LoopMove s t := by
  unfold loopStep at ht
  cases hl : s.loop with
  | reset =>
    simp only [hl, Option.some.injEq] at ht
    exact ht ▸ .reset hl
  | stop todo =>
    cases todo with
    | nil =>
      simp only [hl, Option.some.injEq] at ht
      exact ht ▸ .stopped hl
    | cons k ks =>
      simp only [hl] at ht
      split at ht <;> rename_i hrunning <;> obtain rfl := Option.some.inj ht
      · exact .stop hl hrunning
      · exact .skip hl (Bool.eq_false_iff.mpr hrunning)
  | gone k ks =>
    simp only [hl, Option.some.injEq] at ht
    exact ht ▸ .gone hl
  | lock k ks =>
    simp only [hl, Option.some.injEq] at ht
    exact ht ▸ .lock hl
  | walk k ks socks =>
    cases socks with
    | nil =>
      simp only [hl, Option.some.injEq] at ht
      exact ht ▸ .walked hl
    | cons i socks =>
      simp only [hl, Option.some.injEq] at ht
      exact ht ▸ .walk hl
  | cancelListener k ks =>
    simp only [hl, Option.some.injEq] at ht
    exact ht ▸ .cancelListener hl
  | join k ks =>
    simp only [hl] at ht
    split at ht
    · rename_i hended
      obtain rfl := Option.some.inj ht
      exact .join hl hended
    · cases ht
  | drain =>
    simp only [hl, Option.some.injEq] at ht
    exact ht ▸ .drain hl
  | joinThreads todo =>
    cases todo with
    | nil =>
      simp only [hl, Option.some.injEq] at ht
      exact ht ▸ .finish hl
    | cons k ks =>
      simp only [hl] at ht
      split at ht
      · rename_i hthreads
        obtain rfl := Option.some.inj ht
        exact .joined hl hthreads
      · rename_i hthreads
        split at ht
        · rename_i hended
          obtain rfl := Option.some.inj ht
          exact .joinThread hl hthreads hended
        · cases ht
  | absent | looping | finished => simp [hl] at ht

/-- Each other step is one of the messages, or of the loop. -/
theorem insideMove_of_step {a : Act κ ι} (ha : a.outside = false) (ht : s.step max a = some t) :
    ControlMove s a t ∨ a = .loop ∧ LoopMove s t := by
  cases a with
  | control => exact .inl (controlMove_of_control ht)
  | loop => exact .inr ⟨rfl, loopMove_of_step ht⟩
  | start ks =>
    simp only [Network.step] at ht
    split at ht
    · rename_i hc
      split at ht
      · rename_i hks
        obtain rfl := Option.some.inj ht
        exact .inl (.start hc hks)
      · cases ht
    · obtain rfl := Option.some.inj ht
      exact .inl .stays
    · cases ht
  | stop =>
    simp only [Network.step] at ht
    split at ht
    · rename_i hc
      obtain rfl := Option.some.inj ht
      exact .inl (.stop hc)
    · obtain rfl := Option.some.inj ht
      exact .inl .stays
    · cases ht
  | leave =>
    simp only [Network.step] at ht
    split at ht
    · rename_i hl
      obtain rfl := Option.some.inj ht
      exact .inl (.leave hl.1 hl.2)
    · cases ht
  | accept | listen | unwind | wake | hangUp | handler | exit => cases ha

omit [DecidableEq ι] in
theorem Staged.control (h : Staged s) {a : Act κ ι} (ht : ControlMove s a t) : Staged t := by
  have hnodup := h.nodup
  have hbefore := h.before
  cases ht with
  | stays => exact h
  | start hc hks =>
    have habsent : s.loop = .absent := hbefore.mp (by rw [hc]; rfl)
    have hempty := h.emptied (.inl hc)
    refine ⟨?_, h.alive, h.untouched, by simp [ControlPc.before, habsent], fun _ => hempty⟩
    simpa [ControlPc.todo, habsent, hempty, LoopStage.unstopped] using hks
  | started hc =>
    have habsent : s.loop = .absent := hbefore.mp (by rw [hc]; rfl)
    have halive := h.alive
    have hrunning := h.untouched
    simp only [hc, habsent, ControlPc.todo, LoopStage.unstopped] at hnodup
    simp only [habsent, LoopStage.unstopped, LoopStage.untouched] at halive hrunning
    exact ⟨hnodup, halive, hrunning, by simp [ControlPc.before], by simp⟩
  | @enable k ks hc =>
    have habsent : s.loop = .absent := hbefore.mp (by rw [hc]; rfl)
    have halive := h.alive
    have hrunning := h.untouched
    simp only [hc, habsent, ControlPc.todo, LoopStage.unstopped] at hnodup
    simp only [habsent, LoopStage.unstopped, LoopStage.untouched] at halive hrunning
    refine ⟨?_, ?_, ?_, ?_, ?_⟩
    · simpa [habsent, ControlPc.todo, LoopStage.unstopped] using List.nodup_middle.mpr hnodup
    · intro j hj
      simp only [habsent, LoopStage.unstopped, List.mem_cons]
      by_cases hjk : j = k
      · exact .inl hjk
      · simp only [Function.update_of_ne hjk] at hj
        exact .inr (halive j hj)
    · intro j hj
      simp only [habsent, LoopStage.untouched, List.mem_cons] at hj
      by_cases hjk : j = k
      · simp [hjk]
      · simp only [Function.update_of_ne hjk]
        exact hrunning j (hj.resolve_left hjk)
    · simp [ControlPc.before, habsent]
    · simp [habsent]
  | stop hc | cancel hc =>
    rw [hc] at hnodup hbefore
    refine ⟨hnodup, h.alive, h.untouched, hbefore, ?_⟩
    intro hor
    exact h.emptied (.inr (hor.resolve_left (by simp)))
  | join hc hl =>
    have hempty := h.emptied (.inr hl)
    have halive := h.alive
    simp only [hl, LoopStage.unstopped] at halive
    refine ⟨by simp [ControlPc.todo, LoopStage.unstopped, hempty], ?_, ?_,
      by simp [ControlPc.before], ?_⟩
    · intro j hj
      exact absurd (halive j hj) List.not_mem_nil
    · intro j hj
      simp [LoopStage.untouched, hempty] at hj
    · intro _
      exact hempty
  | leave hl =>
    have hrunning := h.untouched
    rw [hl] at hrunning
    exact h.loop_to (by simp [hl]) rfl (by simp) rfl (by simp) (fun _ => rfl)
      (by rw [hl]; exact List.Sublist.refl _) (by rw [hl]; exact fun j hj _ => hj) hrunning

omit [DecidableEq ι] in
theorem setServer_listener {v : NetworkServer ι} (hv : v.listener = (s.server k).listener) (j : κ) :
    ((s.setServer k v).server j).listener = (s.server j).listener := by
  by_cases hj : j = k
  · subst hj
    simpa [setServer] using hv
  · simp [setServer, hj]

theorem Staged.loop (h : Staged s) (ht : LoopMove s t) : Staged t := by
  have hnodup := (List.nodup_append.mp h.nodup).2.1
  have hrunning := h.untouched
  cases ht with
  | reset hl | gone hl | lock hl | walk hl | walked hl =>
    rw [hl] at hrunning
    exact h.loop_to (by simp [hl]) rfl (by simp) rfl (by simp) (fun _ => rfl)
      (by rw [hl]; exact List.Sublist.refl _) (by rw [hl]; exact fun k hk _ => hk) hrunning
  | @stop k ks hl =>
    rw [hl] at hrunning hnodup
    obtain ⟨hk, -⟩ := List.nodup_cons.mp hnodup
    refine h.loop_to (by simp [hl]) rfl (by simp) rfl (by simp) (setServer_listener rfl)
      (by rw [hl]; exact List.Sublist.refl _) (by rw [hl]; exact fun j hj _ => hj) ?_
    intro j hj
    have hjk : j ≠ k := fun he => hk (he ▸ hj)
    simp only [setServer, Function.update_of_ne hjk]
    exact hrunning j (List.mem_cons_of_mem _ hj)
  | skip hl hnot =>
    rw [hl] at hrunning
    cases hnot.symm.trans (hrunning _ List.mem_cons_self)
  | @cancelListener k ks hl =>
    rw [hl] at hrunning hnodup
    refine h.loop_to (by simp [hl]) rfl (by simp) rfl (by simp) (setServer_listener rfl)
      (by rw [hl]; exact List.Sublist.refl _) (by rw [hl]; exact fun j hj _ => hj) ?_
    intro j hj
    have hjk : j ≠ k := fun he => (List.nodup_cons.mp hnodup).1 (he ▸ hj)
    simp only [setServer, Function.update_of_ne hjk]
    exact hrunning j hj
  | @join k ks hl hended =>
    rw [hl] at hrunning
    refine h.loop_to (by simp [hl]) rfl (by simp) rfl (by simp) (fun _ => rfl)
      (by rw [hl]; exact List.sublist_cons_self k ks) ?_ hrunning
    intro j hj halive
    rw [hl] at hj
    rcases List.mem_cons.mp hj with rfl | hj
    · rw [hended] at halive
      cases halive
    · exact hj
  | stopped hl | drain hl | joined hl | finish hl =>
    exact h.loop_to (by simp [hl]) rfl (by simp) rfl (by simp) (fun _ => rfl) (List.nil_sublist _)
      (by rw [hl]; exact fun k hk _ => hk) (fun k hk => by cases hk)
  | joinThread hl =>
    exact h.loop_to (by simp [hl]) hl (by simp) rfl (by simp) (setServer_listener rfl) (List.nil_sublist _)
      (by rw [hl]; exact fun k hk _ => hk) (fun k hk => by cases hk)

theorem Staged.step (h : Staged s) {a : Act κ ι} (ht : s.step max a = some t) : Staged t := by
  by_cases ha : a.outside
  · exact h.frame (frame_of_outside ha ht)
  · rcases insideMove_of_step (Bool.eq_false_iff.mpr ha) ht with hm | ⟨-, hm⟩
    · exact h.control hm
    · exact h.loop hm

/-- What the messages and the loop leave alone. -/
structure Inside (s t : Network κ ι) : Prop where
  handler : t.handler = s.handler
  sockList : t.sockList = s.sockList
  slots : t.slots = s.slots
  listener : ∀ k, (t.server k).listener = (s.server k).listener ∨ (t.server k).listener = .loopTest

omit [DecidableEq ι] in
theorem inside_of_server {v : NetworkServer ι}
    (hv : v.listener = (s.server k).listener ∨ v.listener = .loopTest) (j : κ) :
    (Function.update s.server k v j).listener = (s.server j).listener ∨
      (Function.update s.server k v j).listener = .loopTest := by
  by_cases hj : j = k
  · subst hj
    rwa [Function.update_self]
  · rw [Function.update_of_ne hj]
    exact .inl rfl

omit [DecidableEq ι] in
theorem inside_of_control {a : Act κ ι} (ht : ControlMove s a t) : Inside s t := by
  cases ht with
  | enable => exact ⟨rfl, rfl, rfl, inside_of_server (.inr rfl)⟩
  | stays | start | started | stop | cancel | join | leave => exact ⟨rfl, rfl, rfl, fun _ => .inl rfl⟩

theorem inside_of_loop (ht : LoopMove s t) : Inside s t := by
  cases ht with
  | stop | cancelListener | joinThread => exact ⟨rfl, rfl, rfl, inside_of_server (.inl rfl)⟩
  | _ => exact ⟨rfl, rfl, rfl, fun _ => .inl rfl⟩

theorem inside_of_inside {a : Act κ ι} (ha : a.outside = false) (ht : s.step max a = some t) :
    Inside s t := by
  rcases insideMove_of_step ha ht with hm | ⟨-, hm⟩
  · exact inside_of_control hm
  · exact inside_of_loop hm

theorem Staged.of_reach {C : Network κ ι → Act κ ι → Prop} (h : Reach (system κ ι max) C s) :
    Staged s := by
  refine h.invariant Staged ?_ ?_
  · rintro s rfl
    exact staged_new
  · intro s a t _ hs _ ht
    exact hs.step ht

end Network

end CogServer
