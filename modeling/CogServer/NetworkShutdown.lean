import CogServer.NetworkMoves

/-! Whether the shutdown of the network reaches every connection, before it waits for the handler
threads. -/
namespace CogServer

open Transition

/-- The thread is in `set_connection`. -/
def ListenPc.connecting {ι : Type*} : ListenPc ι → Bool
  | connect _ => true
  | _ => false

namespace LoopStage

variable {κ ι : Type*}

/-- The last server has walked over the sockets, and its listener has not been joined. -/
def lastWalked : LoopStage κ ι → Bool
  | cancelListener _ [] | join _ [] => true
  | _ => false

/-- The last `stop_listening` has returned. -/
def allStopped : LoopStage κ ι → Prop
  | drain | joinThreads _ => True
  | _ => False

/-- No `network_gone` is left that would begin to walk over the sockets. -/
def walked (enabled : List κ) : LoopStage κ ι → Prop
  | absent | looping | reset => enabled = []
  | stop todo | walk _ todo _ | cancelListener _ todo | join _ todo => todo = []
  | gone _ _ | lock _ _ => False
  | drain | joinThreads _ | finished => True

/-- The sockets that are left on a walk. -/
def socks : LoopStage κ ι → List ι
  | walk _ _ socks => socks
  | _ => []

end LoopStage

namespace Network

variable {κ ι : Type*}

/-- No listener registers a socket behind the walk of the last server that is stopped. -/
def OnTime (s : Network κ ι) : Act κ ι → Prop
  | .listen k => ¬ (s.loop.lastWalked ∧ (s.server k).listener.connecting)
  | _ => True

instance (s : Network κ ι) : (a : Act κ ι) → Decidable (OnTime s a)
  | .listen _ => inferInstanceAs (Decidable (¬ _))
  | .start _ | .stop | .control | .loop | .leave | .accept _ _ | .unwind _ | .wake _ =>
    .isTrue trivial
  | .hangUp _ | .handler _ | .exit _ => .isTrue trivial

/-- `Exit` was called on each registered socket, and no handler thread that is going to be joined
reads from a socket that nobody has shut down. -/
def Reached (s : Network κ ι) : Prop :=
  (∀ i ∈ s.sockList, s.exited i) ∧
    ∀ k, ∀ i ∈ (s.server k).handlerThreads, s.handler i = .reading → s.exited i

/-- The sockets of the listeners, and those that are read from. -/
structure Wired (s : Network κ ι) : Prop where
  own : ∀ k i, (s.server k).listener.making = some i → s.handler i = .made k
  spawned : ∀ k i, (s.server k).listener = .spawn i → i ∈ s.sockList
  reading : ∀ i, s.handler i = .reading → i ∈ s.sockList

variable [DecidableEq κ] [DecidableEq ι] {max : ℕ} {s t : Network κ ι} {k : κ} {i : ι}

omit [DecidableEq ι] in
/-- A listener that makes no new socket. -/
theorem Wired.listener (h : Wired s) {v : NetworkServer ι} {slots : Slots ι}
    (hmaking : v.listener.making = none ∨ v.listener.making = (s.server k).listener.making)
    (hspawn : ∀ i, v.listener ≠ .spawn i) : Wired { s.setServer k v with slots := slots } := by
  refine ⟨?_, ?_, h.reading⟩
  · intro j i hj
    by_cases hjk : j = k
    · subst hjk
      simp only [setServer, Function.update_self] at hj
      rcases hmaking with hnone | hsame
      · rw [hnone] at hj
        cases hj
      · exact h.own j i (hsame ▸ hj)
    · simp only [setServer, Function.update_of_ne hjk] at hj
      exact h.own j i hj
  · intro j i hj
    by_cases hjk : j = k
    · subst hjk
      simp only [setServer, Function.update_self] at hj
      exact absurd hj (hspawn i)
    · simp only [setServer, Function.update_of_ne hjk] at hj
      exact h.spawned j i hj

omit [DecidableEq κ] in
/-- A handler thread that goes on, or a socket that goes off the list at its end. -/
theorem Wired.handler (h : Wired s) {p : HandlerPc κ} {slots : Slots ι} {exited : ι → Bool} {sockList : List ι}
    (hold : ∀ k, s.handler i ≠ .made k) (hp : p ≠ .reading)
    (hlist : ∀ j ≠ i, j ∈ s.sockList → j ∈ sockList) :
    Wired { s.setHandler i p with slots := slots, exited := exited, sockList := sockList } := by
  have hne : ∀ k j, s.handler j = .made k → j ≠ i := by
    rintro k j hj rfl
    exact hold k hj
  refine ⟨?_, ?_, ?_⟩
  · intro k j hj
    have hmade := h.own k j hj
    simp only [setHandler, Function.update_of_ne (hne k j hmade)]
    exact hmade
  · intro k j hj
    have hmade := h.own k j (by rw [show (s.server k).listener = _ from hj]; rfl)
    exact hlist j (hne k j hmade) (h.spawned k j hj)
  · intro j hj
    by_cases hji : j = i
    · subst hji
      simp only [setHandler, Function.update_self] at hj
      exact absurd hj hp
    · simp only [setHandler, Function.update_of_ne hji] at hj
      exact hlist j hji (h.reading j hj)

theorem Wired.accept (h : Wired s) (hi : s.handler i = .absent) :
    Wired ((s.setListener k (.accepted i)).setHandler i (.made k)) := by
  refine ⟨?_, ?_, ?_⟩
  · intro j i' hj
    by_cases hjk : j = k
    · subst hjk
      simp only [setListener, setServer, setHandler, Function.update_self, ListenPc.making,
        Option.some.injEq] at hj
      subst hj
      simp [setHandler]
    · simp only [setListener, setServer, setHandler, Function.update_of_ne hjk] at hj
      have hmade := h.own j i' hj
      have hne : i' ≠ i := by
        rintro rfl
        cases hi.symm.trans hmade
      simpa [setHandler, setListener, setServer, hne] using hmade
  · intro j i' hj
    by_cases hjk : j = k
    · subst hjk
      simp [setListener, setServer, setHandler] at hj
    · simp only [setListener, setServer, setHandler, Function.update_of_ne hjk] at hj
      exact h.spawned j i' hj
  · intro i' hi'
    by_cases hne : i' = i
    · subst hne
      simp [setHandler] at hi'
    · simp only [setListener, setServer, setHandler, Function.update_of_ne hne] at hi'
      exact h.reading i' hi'

theorem Wired.connect (h : Wired s) (hl : (s.server k).listener = .connect i) :
    Wired { s.setListener k (.spawn i) with
      sockList := s.sockList ++ [i]
      exited := Function.update s.exited i false } := by
  refine ⟨?_, ?_, ?_⟩
  · intro j i' hj
    by_cases hjk : j = k
    · subst hjk
      simp only [setListener, setServer, Function.update_self, ListenPc.making,
        Option.some.injEq] at hj
      subst hj
      exact h.own j i (by rw [hl]; rfl)
    · simp only [setListener, setServer, Function.update_of_ne hjk] at hj
      exact h.own j i' hj
  · intro j i' hj
    by_cases hjk : j = k
    · subst hjk
      simp only [setListener, setServer, Function.update_self, ListenPc.spawn.injEq] at hj
      subst hj
      simp
    · simp only [setListener, setServer, Function.update_of_ne hjk] at hj
      exact List.mem_append_left _ (h.spawned j i' hj)
  · intro i' hi'
    exact List.mem_append_left _ (h.reading i' hi')

theorem Wired.spawn (h : Wired s) (hl : (s.server k).listener = .spawn i) :
    Wired ((s.setListener k (.track i)).setHandler i .reading) := by
  have hmade := h.own k i (by rw [hl]; rfl)
  refine ⟨?_, ?_, ?_⟩
  · intro j i' hj
    by_cases hjk : j = k
    · subst hjk
      simp [setListener, setServer, setHandler, ListenPc.making] at hj
    · simp only [setListener, setServer, setHandler, Function.update_of_ne hjk] at hj
      have hother := h.own j i' hj
      -- the socket is made by this listener only
      have hne : i' ≠ i := by
        rintro rfl
        exact hjk (HandlerPc.made.inj (hother.symm.trans hmade))
      simpa [setHandler, setListener, setServer, hne] using hother
  · intro j i' hj
    by_cases hjk : j = k
    · subst hjk
      simp [setListener, setServer, setHandler] at hj
    · simp only [setListener, setServer, setHandler, Function.update_of_ne hjk] at hj
      exact h.spawned j i' hj
  · intro i' hi'
    by_cases hne : i' = i
    · subst hne
      exact h.spawned k i' hl
    · simp only [setListener, setServer, setHandler, Function.update_of_ne hne] at hi'
      exact h.reading i' hi'

omit [DecidableEq κ] [DecidableEq ι] in
theorem Wired.inside (h : Wired s) (hi : Inside s t) : Wired t := by
  refine ⟨?_, ?_, ?_⟩
  · intro k i hk
    rw [hi.handler]
    rcases hi.listener k with hsame | htest
    · exact h.own k i (hsame ▸ hk)
    · rw [htest] at hk
      cases hk
  · intro k i hk
    rw [hi.sockList]
    rcases hi.listener k with hsame | htest
    · exact h.spawned k i (hsame ▸ hk)
    · rw [htest] at hk
      cases hk
  · rw [hi.handler, hi.sockList]
    exact h.reading

theorem Wired.step (h : Wired s) {a : Act κ ι} (ht : s.step max a = some t) : Wired t := by
  by_cases ha : a.outside
  · cases outsideMove_of_step ha ht with
    | slots | exit => exact ⟨h.own, h.spawned, h.reading⟩
    | listener k hp hmaking hspawn => exact h.listener hmaking hspawn
    | accept hl hi => exact h.accept hi
    | connect hl => exact h.connect hl
    | spawn hl => exact h.spawn hl
    | handler i hold hp hlist hkept => exact h.handler hold hp hkept
  · exact h.inside (inside_of_inside (Bool.eq_false_iff.mpr ha) ht)

/-- Where no walk is to come, the registered sockets have been shut down, or are left on the
walk. -/
def Covered (s : Network κ ι) : Prop :=
  s.loop.walked s.enabled → ∀ i ∈ s.sockList, s.exited i ∨ i ∈ s.loop.socks

/-- Of the listeners and the handler threads, only `set_connection` registers a socket. -/
theorem registered_of_outside {a : Act κ ι} (ha : a.outside) (ht : s.step max a = some t) :
    (∀ i ∈ t.sockList, i ∈ s.sockList ∧ (s.exited i → t.exited i)) ∨
      ∃ k i, a = .listen k ∧ (s.server k).listener = .connect i ∧ s.sockUnlocked := by
  cases outsideMove_of_step ha ht with
  | slots | listener | accept | spawn => exact .inl fun j hj => ⟨hj, id⟩
  | connect hl hfree => exact .inr ⟨_, _, rfl, hl, hfree⟩
  | handler i hold hp hlist hkept hexited => exact .inl fun j hj => ⟨hlist j hj, hexited j⟩
  | exit i => exact .inl fun j hj => ⟨hj, s.exited_exitSock i j⟩

omit [DecidableEq κ] [DecidableEq ι] in
/-- A listener that still runs when all walks are done is the one that is being joined. -/
theorem lastWalked_of_alive (hs : Staged s) (hw : s.loop.walked s.enabled)
    (hk : (s.server k).listener.alive) (hfree : s.sockUnlocked) : s.loop.lastWalked := by
  have hmem := hs.alive k hk
  unfold sockUnlocked at hfree
  cases hl : s.loop with
  | absent | looping | reset | stop todo =>
    rw [hl] at hw hmem
    simp only [LoopStage.walked] at hw
    simp [LoopStage.unstopped, hw] at hmem
  | gone | lock =>
    rw [hl] at hw
    cases hw
  | walk => simp [hl] at hfree
  | cancelListener k todo | join k todo =>
    rw [hl] at hw
    obtain rfl : todo = [] := hw
    rfl
  | drain | joinThreads | finished =>
    rw [hl] at hmem
    cases hmem

theorem Covered.outside (h : Covered s) (hs : Staged s) {a : Act κ ι} (hc : OnTime s a)
    (ha : a.outside) (ht : s.step max a = some t) : Covered t := by
  have hf := frame_of_outside ha ht
  intro hw i hi
  rw [hf.loop, hf.enabled] at hw
  rw [hf.loop]
  rcases registered_of_outside ha ht with hold | ⟨k, j, rfl, hl, hfree⟩
  · obtain ⟨hmem, hkept⟩ := hold i hi
    rcases h hw i hmem with hexited | hleft
    · exact .inl (hkept hexited)
    · exact .inr hleft
  · have hlast := lastWalked_of_alive hs hw (by rw [hl]; rfl) hfree
    exact absurd ⟨hlast, by rw [hl]; rfl⟩ hc

omit [DecidableEq κ] [DecidableEq ι] in
/-- The loop goes on without a walk. -/
theorem Covered.loop_to (h : Covered s) (hlist : t.sockList = s.sockList)
    (hexited : t.exited = s.exited)
    (hw : t.loop.walked t.enabled → s.loop.walked s.enabled ∧ s.loop.socks = []) : Covered t := by
  intro hdone i hi
  obtain ⟨hwalked, hnone⟩ := hw hdone
  rw [hlist] at hi
  rw [hexited]
  rcases h hwalked i hi with hex | hleft
  · exact .inl hex
  · rw [hnone] at hleft
    cases hleft

theorem Covered.loop (h : Covered s) (hs : Staged s) (ht : LoopMove s t) : Covered t := by
  cases ht with
  | reset hl | walked hl | cancelListener hl | join hl =>
    exact h.loop_to rfl rfl fun hw => by rw [hl]; exact ⟨hw, rfl⟩
  | stop | gone => exact h.loop_to rfl rfl fun hw => hw.elim
  | skip hl hnot =>
    have hrunning := hs.untouched _ (by rw [hl]; exact List.mem_cons_self)
    cases hnot.symm.trans hrunning
  | lock =>
    -- the walk is to visit all that are registered
    exact fun _ i hi => .inr hi
  | @walk k ks i socks hl =>
    intro hw j hj
    have hold := h (by rw [hl]; exact hw) j hj
    rw [hl] at hold
    by_cases hji : j = i
    · subst hji
      exact .inl (by simp [exitSock])
    · rcases hold with hexited | hleft
      · exact .inl (s.exited_exitSock i j hexited)
      · exact .inr (List.mem_of_ne_of_mem hji hleft)
  | stopped hl => exact h.loop_to rfl rfl fun _ => by rw [hl]; exact ⟨rfl, rfl⟩
  | drain hl | joinThread hl | joined hl | finish hl =>
    exact h.loop_to rfl rfl fun _ => by rw [hl]; exact ⟨trivial, rfl⟩

omit [DecidableEq ι] in
theorem Covered.control (h : Covered s) (hs : Staged s) {a : Act κ ι} (ht : ControlMove s a t) :
    Covered t := by
  cases ht with
  | stays | start | stop | cancel => exact h
  | started hc =>
    have habsent : s.loop = .absent := hs.before.mp (by rw [hc]; rfl)
    exact h.loop_to rfl rfl fun hw => by rw [habsent]; exact ⟨hw, rfl⟩
  | enable hc =>
    have habsent : s.loop = .absent := hs.before.mp (by rw [hc]; rfl)
    refine h.loop_to rfl rfl ?_
    rw [habsent]
    intro hw
    cases hw
  | join hc hl => exact h.loop_to rfl rfl fun _ => by rw [hl]; exact ⟨trivial, rfl⟩
  | leave hl => exact h.loop_to rfl rfl fun hw => by rw [hl]; exact ⟨hw, rfl⟩

theorem Covered.step (h : Covered s) (hs : Staged s) {a : Act κ ι} (hc : OnTime s a)
    (ht : s.step max a = some t) : Covered t := by
  by_cases ha : a.outside
  · exact h.outside hs hc ha ht
  · rcases insideMove_of_step (Bool.eq_false_iff.mpr ha) ht with hm | ⟨-, hm⟩
    · exact h.control hs hm
    · exact h.loop hs hm

theorem Wired.of_reach {C : Network κ ι → Act κ ι → Prop} (h : Reach (system κ ι max) C s) :
    Wired s := by
  refine h.invariant Wired ?_ ?_
  · rintro s rfl
    exact ⟨nofun, nofun, nofun⟩
  · intro s a t _ hs _ ht
    exact hs.step ht

theorem Covered.of_reach (h : Reach (system κ ι max) OnTime s) : Covered s := by
  refine h.invariant Covered ?_ ?_
  · rintro s rfl _ i hi
    cases hi
  · intro s a t hr hs hc ht
    exact hs.step (.of_reach hr) hc ht

/-- In the runs in which the listener of the last server registers no socket behind the walk of its
`stop_listening`, the shutdown reaches every connection. -/
theorem shutdown_reaches (h : Reach (system κ ι max) OnTime s) (hs : s.loop.allStopped) :
    Reached s := by
  have hall : ∀ i ∈ s.sockList, s.exited i := by
    intro i hi
    have hcovered := Covered.of_reach h
    cases hl : s.loop with
    | drain | joinThreads =>
      have hor := hcovered (by rw [hl]; trivial) i hi
      rw [hl] at hor
      exact hor.resolve_right List.not_mem_nil
    | _ =>
      rw [hl] at hs
      cases hs
  refine ⟨hall, ?_⟩
  intro k i _ hreading
  exact hall i ((Wired.of_reach h).reading i hreading)

/-- A start, and a connection up to where its socket is registered. -/
def connecting : List (Act Unit Unit) :=
  [.start [()], .control, .control, .listen (), .accept () ()] ++ List.replicate 9 (.listen ())

/-- A stop, up to the walk over the sockets. -/
def stopping : List (Act Unit Unit) := [.stop, .control, .leave, .loop, .loop, .loop, .loop]

/-- The connection is registered before the walk, which shuts it down. -/
theorem shutdown_reaches_one :
    ∃ s, exec (system Unit Unit 2) new (connecting ++ [.listen (), .listen (), .listen (), .listen ()] ++ stopping ++
      [.loop, .loop, .loop, .unwind (), .loop, .loop]) = some s ∧ s.sockList = [()] ∧
        Reached s := by
  have hplaces : (exec (system Unit Unit 2) new (connecting ++ [.listen (), .listen (), .listen (), .listen ()] ++
      stopping ++ [.loop, .loop, .loop, .unwind (), .loop, .loop])).map
        (fun s => (s.loop, s.sockList)) =
      some (.drain, [()]) := by decide
  obtain ⟨s, hs, hpc⟩ := Option.map_eq_some_iff.mp hplaces
  obtain ⟨hloop, hlist⟩ := Prod.mk.inj hpc
  have hreach := Reach.of_exec (fun s a => decide (OnTime s a))
    (fun _ _ h => of_decide_eq_true h) (.init rfl)
    (by decide) hs
  exact ⟨s, hs, hlist, shutdown_reaches hreach (by rw [hloop]; trivial)⟩

/-- The connection is registered behind the walk, and its handler thread waits for the client. -/
theorem shutdown_reaches_fails :
    ¬ ∀ s, Reach (system Unit Unit 2) anyStep s → s.loop.allStopped → Reached s := by
  intro h
  have hplaces : (exec (system Unit Unit 2) new (connecting ++ stopping ++
      [.loop, .loop, .listen (), .listen (), .listen (), .listen (), .loop, .loop])).map
      (fun s => (s.loop, s.sockList, s.exited ())) = some (.drain, [()], false) := by decide
  obtain ⟨s, hs, hpc⟩ := Option.map_eq_some_iff.mp hplaces
  obtain ⟨hloop, hrest⟩ := Prod.mk.inj hpc
  obtain ⟨hlist, hexited⟩ := Prod.mk.inj hrest
  have hreached := h s (reach_of_exec _ rfl hs) (by rw [hloop]; trivial)
  have hex := hreached.1 () (by rw [hlist]; exact List.mem_cons_self)
  rw [hexited] at hex
  cases hex

end Network

end CogServer
