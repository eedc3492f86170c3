import CogServer.Shutdown

/-! What one step of the shutting server does to the requests, the connections and
the listener, and what holds in every run of it. -/
namespace CogServer

open Transition

/-- The action by which a thread of the server moves. -/
def Worker.act {ι : Type*} : Worker ι → RequestServer.Act ι
  | .handler i => .console i
  | .serverLoop => .loop

/-- `serverLoop` has reset the cancellation of the queue. -/
def LoopPc.late {ι : Type*} : LoopPc ι → Bool
  | .drainTest | .drain _ | .joinThreads | .threw => true
  | _ => false

namespace RequestServer

variable {ι : Type*} [DecidableEq ι] {C : Commands ι} {s t : RequestServer ι} {a : Act ι}

theorem processStep_threw {w : Worker ι} {p : ProcPc ι} {u : RequestServer ι}
    (h : s.processStep C w p = some (u, .threw)) : p = .pop ∧ s.requestQueue.cancelled = true := by
  cases p <;> simp only [processStep] at h
  case pop =>
    split at h <;> cases h
    rename_i hpop
    exact ⟨rfl, CancelQueue.pop_eq_cancelled.mp hpop⟩
  case lock => split at h <;> cases h
  all_goals cases h

/-- Only a line that arrives makes an idle console busy. -/
theorem step_busy {i : ι} (h : step C s a = some t) (hi : t.console i ≠ .idle) :
    s.console i ≠ .idle ∨ ∃ l, a = .line i l := by
  cases a with
  | stop =>
    cases h
    exact .inl hi
  | cancel =>
    simp only [step] at h
    split at h <;> cases h
    exact .inl hi
  | loop =>
    obtain ⟨-, -, -, hcon, -⟩ := loopStep_frame h
    exact .inl (hcon ▸ hi)
  | console j =>
    obtain ⟨-, -, -, -, hcon⟩ := consoleStep_frame h
    by_cases hj : i = j
    · subst hj
      refine .inl fun hidle => ?_
      simp [step, consoleStep, hidle] at h
    · exact .inl (hcon i hj ▸ hi)
  | line j l =>
    by_cases hj : i = j
    · exact .inr ⟨l, by rw [hj]⟩
    · simp only [step] at h
      split at h <;> cases h
      exact .inl (by simpa [goto, hj] using hi)
  | evalEnds j left =>
    simp only [step] at h
    split at h <;> cases h
    rename_i hj
    by_cases hij : i = j
    · subst hij
      exact .inl (by simp [hj])
    · exact .inl (by simpa [goto, hij] using hi)

/-- Only the server loop moves the server loop. -/
theorem step_loop (h : step C s a = some t) (ha : a ≠ .loop) : t.loop = s.loop := by
  cases a with
  | loop => exact absurd rfl ha
  | stop =>
    cases h
    rfl
  | cancel =>
    simp only [step] at h
    split at h <;> cases h
    rfl
  | console j => exact (consoleStep_frame h).2.2.2.1
  | line j l | evalEnds j left =>
    simp only [step] at h
    split at h <;> cases h
    rfl

/-- What a step does to the queue, but for `cancel`. -/
theorem step_queue (h : step C s a = some t) :
    (t.pushed = s.pushed ∧ t.requestQueue.items <:+ s.requestQueue.items) ∨
      ∃ i r k, a = .console i ∧ s.console i = .push r k ∧ t.pushed = s.pushed ++ [r] ∧
        t.requestQueue.items = s.requestQueue.items ++ [r] := by
  have hprocess {w : Worker ι} {p : ProcPc ι} {u : RequestServer ι} {n : Next ι}
      (hu : s.processStep C w p = some (u, n)) : u.requestQueue.items <:+ s.requestQueue.items := by
    cases p with
    | lock =>
      simp only [processStep] at hu
      split at hu <;> cases hu
      exact List.suffix_refl _
    | pop =>
      simp only [processStep] at hu
      split at hu <;> cases hu
      · rename_i hpop
        rw [(CancelQueue.pop_eq_item.mp hpop).2.1]
        exact List.suffix_cons _ _
      · exact List.suffix_refl _
    | size | execute r | delete r | unlock =>
      cases hu
      exact List.suffix_refl _
  have hsame {u : RequestServer ι} {P : Prop} (hp : u.pushed = s.pushed)
      (hq : u.requestQueue.items = s.requestQueue.items) :
      (u.pushed = s.pushed ∧ u.requestQueue.items <:+ s.requestQueue.items) ∨ P :=
    .inl ⟨hp, hq ▸ List.suffix_refl _⟩
  cases a with
  | stop =>
    cases h
    exact hsame rfl rfl
  | cancel =>
    simp only [step] at h
    split at h <;> cases h
    exact hsame rfl rfl
  | line j l | evalEnds j left =>
    simp only [step] at h
    split at h <;> cases h
    exact hsame rfl rfl
  | loop =>
    simp only [step] at h
    cases hp : s.loop with
    | joinThreads | threw => simp [loopStep, hp] at h
    | test | sizeTest | stepTest | drainTest | cancelReset =>
      simp only [loopStep, hp, Option.some.injEq] at h
      subst h
      exact hsame rfl rfl
    | barrier =>
      simp only [loopStep, hp] at h
      split at h
      · cases h
        exact hsame rfl rfl
      · split at h <;> cases h
        exact hsame rfl rfl
    | process p | drain p =>
      simp only [loopStep, hp, Option.map_eq_some_iff] at h
      obtain ⟨⟨u, n⟩, hu, rfl⟩ := h
      have hq := hprocess hu
      exact .inl ⟨(processStep_frame hu).pushed, hq⟩
  | console i =>
    simp only [step] at h
    cases hp : s.console i with
    | idle | eval l k | threw => simp [consoleStep, hp] at h
    | shellTest l k | reissue l k =>
      simp only [consoleStep, hp, Option.some.injEq] at h
      subst h
      exact hsame rfl rfl
    | runningTest l k | dispatch l k =>
      simp only [consoleStep, hp] at h
      split at h <;> cases h <;> exact hsame rfl rfl
    | command l k =>
      simp only [consoleStep, hp] at h
      split at h
      · cases h
        exact hsame rfl rfl
      · split at h
        · cases h
          exact hsame rfl rfl
        · split at h <;> cases h <;> exact hsame rfl rfl
    | push r k =>
      simp only [consoleStep, hp] at h
      split at h <;> cases h
      · exact hsame rfl rfl
      · rename_i q hq
        obtain ⟨-, rfl⟩ := CancelQueue.push_eq_some.mp hq
        exact .inr ⟨i, r, k, rfl, hp, rfl, rfl⟩
    | process r k p =>
      simp only [consoleStep, hp, Option.map_eq_some_iff] at h
      obtain ⟨⟨u, n⟩, hu, rfl⟩ := h
      have hq := hprocess hu
      exact .inl ⟨(processStep_frame hu).pushed, hq⟩
    | returned r k =>
      cases k <;> simp only [consoleStep, hp, Option.some.injEq] at h <;> subst h <;> exact hsame rfl rfl

/-- `Canceled` leaves `OnLine` only where a handler thread pushes or pops while the
queue is cancelled. -/
theorem step_threw {i : ι} (h : step C s a = some t) (hi : t.console i = .threw) :
    s.console i = .threw ∨ a = .console i ∧ s.requestQueue.cancelled = true ∧
      ((∃ r k, s.console i = .push r k) ∨ ∃ r k, s.console i = .process r k .pop) := by
  cases a with
  | stop =>
    cases h
    exact .inl hi
  | cancel =>
    simp only [step] at h
    split at h <;> cases h
    exact .inl hi
  | loop =>
    obtain ⟨-, -, -, hcon, -⟩ := loopStep_frame h
    exact .inl (hcon ▸ hi)
  | line j l | evalEnds j left =>
    simp only [step] at h
    split at h <;> cases h
    by_cases hij : i = j
    · simp [goto, hij] at hi
    · exact .inl (by simpa [goto, hij] using hi)
  | console j =>
    by_cases hij : i = j
    case neg => exact .inl ((consoleStep_frame h).2.2.2.2 i hij ▸ hi)
    subst hij
    simp only [step] at h
    cases hp : s.console i with
    | idle | eval l k | threw => simp [consoleStep, hp] at h
    | shellTest l k | reissue l k =>
      simp only [consoleStep, hp, Option.some.injEq] at h
      subst h
      simp only [goto, Function.update_self] at hi
      split at hi <;> cases hi
    | runningTest l k | dispatch l k =>
      simp only [consoleStep, hp] at h
      split at h <;> cases h <;> simp [goto] at hi
    | command l k =>
      simp only [consoleStep, hp] at h
      split at h
      · cases h
        simp [goto] at hi
      · split at h
        · cases h
          simp [makeRequest, goto] at hi
        · split at h <;> cases h <;> simp [makeRequest, goto] at hi
    | push r k =>
      simp only [consoleStep, hp] at h
      split at h <;> cases h
      · rename_i hq
        refine .inr ⟨rfl, ?_, .inl ⟨r, k, rfl⟩⟩
        simpa [CancelQueue.push] using hq
      · simp only [goto, Function.update_self] at hi
        split at hi <;> cases hi
    | process r k p =>
      simp only [consoleStep, hp, Option.map_eq_some_iff] at h
      obtain ⟨⟨u, n⟩, hu, rfl⟩ := h
      simp only [goto, Function.update_self] at hi
      cases n with
      | goto q => cases hi
      | done => cases hi
      | threw =>
        obtain ⟨rfl, hc⟩ := processStep_threw hu
        exact .inr ⟨rfl, hc, .inr ⟨r, k, rfl⟩⟩
    | returned r k =>
      cases k <;> simp only [consoleStep, hp, Option.some.injEq] at h <;> subst h <;> simp [goto] at hi

theorem step_cancelled (h : step C s a = some t) (ha : a ≠ .cancel) :
    t.requestQueue.cancelled = s.requestQueue.cancelled ∨
      a = .loop ∧ s.loop = .cancelReset ∧ t.requestQueue.cancelled = false := by
  cases a with
  | cancel => exact absurd rfl ha
  | stop =>
    cases h
    exact .inl rfl
  | console i => exact .inl (consoleStep_frame h).2.1
  | line i l | evalEnds i left =>
    simp only [step] at h
    split at h <;> cases h
    exact .inl rfl
  | loop =>
    simp only [step] at h
    by_cases hl : s.loop = .cancelReset
    · simp only [loopStep, hl, Option.some.injEq] at h
      subst h
      exact .inr ⟨rfl, hl, rfl⟩
    · exact .inl ((loopStep_frame h).2.1 hl)

omit [DecidableEq ι] in
/-- Where a thread is that is under the mutex. -/
theorem critical_cases {w : Worker ι} {p : ProcPc ι} (h : s.critical w = some p) :
    p ≠ .lock ∧ ((∃ i r k, w = .handler i ∧ s.console i = .process r k p) ∨
      w = .serverLoop ∧ (s.loop = .process p ∨ s.loop = .drain p)) := by
  have hp {q : ProcPc ι} (hq : q.critical = some p) : q = p ∧ p ≠ .lock := by
    cases q <;> cases hq <;> exact ⟨rfl, nofun⟩
  cases w with
  | handler i =>
    cases hc : s.console i <;> simp only [critical, hc, ConsolePc.critical, reduceCtorEq] at h
    case process r k q =>
      obtain ⟨rfl, hne⟩ := hp h
      exact ⟨hne, .inl ⟨i, r, k, rfl, hc⟩⟩
  | serverLoop =>
    cases hl : s.loop <;> simp only [critical, hl, LoopPc.critical, reduceCtorEq] at h
    case process q =>
      obtain ⟨rfl, hne⟩ := hp h
      exact ⟨hne, .inr ⟨rfl, .inl rfl⟩⟩
    case drain q =>
      obtain ⟨rfl, hne⟩ := hp h
      exact ⟨hne, .inr ⟨rfl, .inr rfl⟩⟩

/-- The execution of a request leaves the queue alone. -/
theorem execute_queue {w : Worker ι} {r : Request ι} (hw : s.critical w = some (.execute r))
    (h : step C s w.act = some t) :
    t.requestQueue = s.requestQueue ∧ t.critical w = some (.delete r) := by
  obtain ⟨-, ⟨i, r', k, rfl, hi⟩ | ⟨rfl, hl | hl⟩⟩ := critical_cases hw
  · simp only [Worker.act, step, consoleStep, hi, processStep, Option.map_some, Option.some.injEq] at h
    subst h
    exact ⟨rfl, by simp [critical, goto]; rfl⟩
  · simp only [Worker.act, step, loopStep, hl, processStep, Option.map_some, Option.some.injEq] at h
    subst h
    exact ⟨rfl, rfl⟩
  · simp only [Worker.act, step, loopStep, hl, processStep, Option.map_some, Option.some.injEq] at h
    subst h
    exact ⟨rfl, rfl⟩

/-- The steps of the server loop. -/
inductive LoopMove (s t : RequestServer ι) : Prop
  | serve (hs : s.loop.late = false) (ht : t.loop.late = false)
      (hq : t.loop = .cancelReset → s.running = false ∨ s.requestQueue.cancelled = true)
  | reset (hs : s.loop = .cancelReset)
      (ht : t = { s with requestQueue := s.requestQueue.cancelReset, loop := .drainTest })
  | drain (hs : s.loop = .drainTest ∨ ∃ p, s.loop = .drain p)
      (ht : t.loop = .drainTest ∨ ∃ p, t.loop = .drain p)
  | join (hs : s.loop = .drainTest) (hq : s.requestQueue.items = [])
      (ht : t = { s with loop := .joinThreads })
  | threw (hs : s.loop = .drain .pop) (hq : s.requestQueue.cancelled = true) (ht : t.loop = .threw)

theorem loopMove_of_step (h : s.loopStep C = some t) : LoopMove s t := by
  cases hp : s.loop with
  | joinThreads | threw => simp [loopStep, hp] at h
  | test =>
    simp only [loopStep, hp, Option.some.injEq] at h
    subst h
    cases hr : s.running with
    | true => exact .serve (by rw [hp]; rfl) rfl (by simp)
    | false => exact .serve (by rw [hp]; rfl) rfl fun _ => .inl hr
  | sizeTest | stepTest =>
    simp only [loopStep, hp, Option.some.injEq] at h
    subst h
    refine .serve (by rw [hp]; rfl) ?_ ?_ <;> dsimp only
    · split <;> rfl
    · split <;> simp
  | barrier =>
    simp only [loopStep, hp] at h
    split at h
    · rename_i hq
      cases h
      exact .serve (by rw [hp]; rfl) rfl fun _ => .inr hq
    · split at h <;> cases h
      exact .serve (by rw [hp]; rfl) rfl (by simp)
  | cancelReset =>
    simp only [loopStep, hp, Option.some.injEq] at h
    exact .reset hp h.symm
  | drainTest =>
    simp only [loopStep, hp, Option.some.injEq] at h
    subst h
    by_cases hz : 0 < s.requestQueue.size
    · exact .drain (.inl hp) (.inr ⟨.lock, if_pos hz⟩)
    · refine .join hp (List.length_eq_zero_iff.mp (Nat.eq_zero_of_not_pos hz)) ?_
      rw [if_neg hz]
  | process p =>
    simp only [loopStep, hp, Option.map_eq_some_iff] at h
    obtain ⟨⟨u, n⟩, hu, rfl⟩ := h
    cases n with
    | goto q | done => exact .serve (by rw [hp]; rfl) rfl (by simp)
    | threw => exact .serve (by rw [hp]; rfl) rfl fun _ => .inr (processStep_threw hu).2
  | drain p =>
    simp only [loopStep, hp, Option.map_eq_some_iff] at h
    obtain ⟨⟨u, n⟩, hu, rfl⟩ := h
    cases n with
    | goto q => exact .drain (.inr ⟨p, hp⟩) (.inr ⟨q, rfl⟩)
    | done => exact .drain (.inr ⟨p, hp⟩) (.inl rfl)
    | threw =>
      obtain ⟨rfl, hq⟩ := processStep_threw hu
      exact .threw hp hq rfl

end RequestServer

namespace NetworkedServer

variable {ι : Type*} [DecidableEq ι] {C : Commands ι} {s t : NetworkedServer ι} {a : Act ι}

/-- What a step of the server is for its requests, if it is one of theirs. -/
def Act.base : Act ι → Option (RequestServer.Act ι)
  | .line i l => some (.line i l)
  | .evalEnds i left => some (.evalEnds i left)
  | .thread w => some w.act
  | .stop => some .stop
  | .cancel => some .cancel
  | .accept _ | .leave _ | .destroy _ => none

/-- What a step does to the requests and to `stopper`: nothing, or a step of the requests,
which for the execution of a shutdown request includes the first statement of `stop`;
or it is the second statement. -/
inductive ServerMove (C : Commands ι) (s : NetworkedServer ι) (a : Act ι) :
    RequestServer ι → Option (Worker ι × Request ι) → Prop
  | stay : ServerMove C s a s.server s.stopper
  | move {b : RequestServer.Act ι} {u : RequestServer ι} (ha : a.base = some b)
      (hl : b = .loop → s.server.loop = .drainTest → s.listening = false)
      (hs : ∀ w, b = w.act → s.stopper.map Prod.fst ≠ some w) (h : s.server.step C b = some u) :
      ServerMove C s a u s.stopper
  | stop {w : Worker ι} {r : Request ι} {u : RequestServer ι} (ha : a = .thread w)
      (hs : s.stopper.map Prod.fst ≠ some w) (hw : s.server.critical w = some (.execute r))
      (hr : r.isShutdown = true) (h : s.server.step C w.act = some u) :
      ServerMove C s a { u with running := false } (some (w, r))
  | cancel {w : Worker ι} {r : Request ι} (ha : a = .thread w) (hs : s.stopper = some (w, r)) :
      ServerMove C s a { s.server with requestQueue := s.server.requestQueue.cancel } none

/-- The steps of a thread of the server. -/
inductive ThreadMove (C : Commands ι) (s : NetworkedServer ι) (w : Worker ι) (t : NetworkedServer ι) : Prop
  | stopped {r : Request ι} (hs : s.stopper = some (w, r)) (ht : t = s.stopped r)
  | gets {i : ι} {r : Request ι} {k : List Bytes} {u : RequestServer ι} (hw : w = .handler i)
      (hs : s.stopper.map Prod.fst ≠ some w) (h : s.server.consoleStep C i = some u)
      (hu : u.console i = .push r k) (ht : t = { s with server := u }.get i)
  | works {u : RequestServer ι} (hs : s.stopper.map Prod.fst ≠ some w)
      (hl : w.act = .loop → s.server.loop = .drainTest → s.listening = false)
      (h : s.server.step C w.act = some u) (hu : ∀ i r k, w = .handler i → u.console i ≠ .push r k)
      (ht : t = s.workerStep w u)
  | stopListening (hw : w = .serverLoop) (hs : s.server.loop = .drainTest)
      (ht : t = { s with listening := false })
  | join {i : ι} {rest : List ι} (hw : w = .serverLoop) (hs : s.server.loop = .joinThreads)
      (hthreads : s.handlerThreads = i :: rest) (hi : s.socket i = .closed)
      (ht : t = { s with handlerThreads := rest })
  | loopReturns (hw : w = .serverLoop) (hs : s.server.loop = .joinThreads)
      (hthreads : s.handlerThreads = []) (hr : s.returned = false)
      (ht : t = { s with returned := true })

theorem threadMove_of_step {w : Worker ι} (h : s.step C (.thread w) = some t) :
    ThreadMove C s w t := by
  have hthread (hs : s.stopper.map Prod.fst ≠ some w) (h : s.threadStep C w = some t) :
      ThreadMove C s w t := by
    cases w with
    | handler i =>
      obtain ⟨u, hu, ht⟩ := Option.map_eq_some_iff.mp h
      split at ht
      · rename_i r k hp
        exact .gets rfl hs hu hp ht.symm
      · rename_i hp
        refine .works hs nofun hu ?_ ht.symm
        rintro j r k hj hx
        cases hj
        exact hp r k hx
    | serverLoop =>
      simp only [threadStep, loopStep] at h
      split at h
      · rename_i hl
        split at h
        · rename_i hthreads
          split at h <;> cases h
          rename_i hr
          exact .loopReturns rfl hl hthreads (Bool.not_eq_true _ ▸ hr) rfl
        · rename_i hthreads
          split at h <;> cases h
          rename_i hi
          exact .join rfl hl hthreads hi rfl
      · rename_i hl
        split at h
        · cases h
          exact .stopListening rfl hl rfl
        · rename_i hlistening
          obtain ⟨u, hu, rfl⟩ := Option.map_eq_some_iff.mp h
          exact .works hs (fun _ _ => Bool.not_eq_true _ ▸ hlistening) hu nofun rfl
      · rename_i hl
        obtain ⟨u, hu, rfl⟩ := Option.map_eq_some_iff.mp h
        exact .works hs (fun _ hd => absurd hd hl) hu nofun rfl
  simp only [step] at h
  split at h
  · rename_i w' r hs
    split at h
    · rename_i hw
      cases h
      exact .stopped (hw ▸ hs) rfl
    · rename_i hw
      exact hthread (by simpa [hs] using Ne.symm hw) h
  · rename_i hs
    exact hthread (by simp [hs]) h

theorem move_of_workerStep {w : Worker ι} {u : RequestServer ι}
    (hs : s.stopper.map Prod.fst ≠ some w)
    (hl : w.act = .loop → s.server.loop = .drainTest → s.listening = false)
    (h : s.server.step C w.act = some u) :
    ServerMove C s (.thread w) (s.workerStep w u).server (s.workerStep w u).stopper := by
  have hs' : ∀ w', w.act = w'.act → s.stopper.map Prod.fst ≠ some w' := by
    intro w' hw
    cases w <;> cases w' <;> cases hw <;> exact hs
  unfold workerStep
  split
  · rename_i r hw
    split
    · exact .stop rfl hs hw ‹_› h
    · split <;> exact .move rfl hl hs' h
  · split <;> exact .move rfl hl hs' h
  · exact .move rfl hl hs' h

theorem move_of_step (h : s.step C a = some t) : ServerMove C s a t.server t.stopper := by
  cases a with
  | accept i | leave i | destroy i =>
    simp only [step] at h
    split at h <;> cases h
    exact .stay
  | line i l =>
    simp only [step] at h
    split at h
    · obtain ⟨u, hu, rfl⟩ := Option.map_eq_some_iff.mp h
      exact .move rfl nofun (fun w hw => (by cases w <;> cases hw)) hu
    · cases h
  | evalEnds i left | cancel =>
    obtain ⟨u, hu, rfl⟩ := Option.map_eq_some_iff.mp h
    exact .move rfl nofun (fun w hw => (by cases w <;> cases hw)) hu
  | stop =>
    cases h
    exact .move rfl nofun (fun w hw => (by cases w <;> cases hw)) rfl
  | thread w =>
    cases threadMove_of_step h with
    | stopped hs ht =>
      subst ht
      exact .cancel rfl hs
    | gets hw hs hu hp ht =>
      subst hw ht
      refine .move (b := .console _) rfl nofun (fun w hw => ?_) hu
      cases w <;> cases hw
      exact hs
    | works hs hl hu hp ht =>
      subst ht
      exact move_of_workerStep hs hl hu
    | stopListening _ _ ht | join _ _ _ _ ht | loopReturns _ _ _ _ ht =>
      subst ht
      exact .stay

/-- What a step does to the connections and to the listener. -/
inductive SocketMove (s t : NetworkedServer ι) (a : Act ι) : Prop
  | same (hsocket : t.socket = s.socket) (hthreads : t.handlerThreads = s.handlerThreads)
      (hlistening : t.listening = s.listening) (hreturned : t.returned = s.returned)
  | accept {i : ι} (hs : s.listening = true) (hi : s.socket i = .absent)
      (ht : t = { s with
        socket := Function.update s.socket i .reading
        handlerThreads := s.handlerThreads ++ [i] })
  | leave {i : ι} (hi : s.socket i = .reading) (hidle : s.server.console i = .idle)
      (ht : t = { s with socket := Function.update s.socket i .destructor })
  | destroy {i : ι} (hi : s.socket i = .destructor) (hu : s.useCount i = 0)
      (ht : t = { s with socket := Function.update s.socket i .closed })
  | stopListening (hs : s.server.loop = .drainTest) (ht : t = { s with listening := false })
  | join {i : ι} {rest : List ι} (hs : s.server.loop = .joinThreads)
      (hthreads : s.handlerThreads = i :: rest) (hi : s.socket i = .closed)
      (ht : t = { s with handlerThreads := rest })
  | loopReturns (ha : a = .thread .serverLoop) (hs : s.server.loop = .joinThreads)
      (hthreads : s.handlerThreads = []) (hr : s.returned = false)
      (ht : t = { s with returned := true })

theorem socketMove_of_workerStep (w : Worker ι) (u : RequestServer ι) :
    SocketMove s (s.workerStep w u) a := by
  unfold workerStep
  split
  · split
    · exact .same rfl rfl rfl rfl
    · split <;> exact .same rfl rfl rfl rfl
  · split <;> exact .same rfl rfl rfl rfl
  · exact .same rfl rfl rfl rfl

theorem socketMove_of_step (h : s.step C a = some t) : SocketMove s t a := by
  cases a with
  | accept i =>
    simp only [step] at h
    split at h <;> cases h
    rename_i hi
    exact .accept hi.1 hi.2 rfl
  | leave i =>
    simp only [step] at h
    split at h <;> cases h
    rename_i hi
    exact .leave hi.1 hi.2 rfl
  | destroy i =>
    simp only [step] at h
    split at h <;> cases h
    rename_i hi
    exact .destroy hi.1 hi.2 rfl
  | line i l =>
    simp only [step] at h
    split at h
    · obtain ⟨u, -, rfl⟩ := Option.map_eq_some_iff.mp h
      exact .same rfl rfl rfl rfl
    · cases h
  | evalEnds i left | cancel =>
    obtain ⟨u, -, rfl⟩ := Option.map_eq_some_iff.mp h
    exact .same rfl rfl rfl rfl
  | stop =>
    cases h
    exact .same rfl rfl rfl rfl
  | thread w =>
    cases threadMove_of_step h with
    | stopped _ ht | gets _ _ _ _ ht =>
      subst ht
      exact .same rfl rfl rfl rfl
    | works _ _ _ _ ht =>
      subst ht
      exact socketMove_of_workerStep _ _
    | stopListening _ hl ht => exact .stopListening hl ht
    | join _ hl hthreads hi ht => exact .join hl hthreads hi ht
    | loopReturns hw hl hthreads hr ht =>
      subst hw
      exact .loopReturns rfl hl hthreads hr ht

/-- The requests are in order, busy consoles have an open connection, and the server
loop joins the thread of every connection that is not closed. -/
structure Shutting (s : NetworkedServer ι) : Prop where
  core : s.server.Core
  consoles : s.server.Consoles
  active : ∀ i, s.server.console i ≠ .idle → s.socket i = .reading
  tracked : ∀ i, s.socket i = .reading ∨ s.socket i = .destructor → i ∈ s.handlerThreads
  opened : ∀ i ∈ s.handlerThreads, s.socket i ≠ .absent
  deaf : s.server.loop = .joinThreads → s.listening = false
  joined : s.returned = true → s.server.loop = .joinThreads ∧ s.handlerThreads = []

omit [DecidableEq ι] in
theorem shutting_start : Shutting (start : NetworkedServer ι) := by
  constructor
  case core => exact RequestServer.core_start
  case consoles => exact RequestServer.consoles_start
  all_goals simp [start, RequestServer.start]

/-- The first part of the invariant depends on the requests alone. -/
theorem core_of_move {u : RequestServer ι} {x : Option (Worker ι × Request ι)} (hs : Shutting s)
    (hm : ServerMove C s a u x) : u.Core ∧ u.Consoles := by
  cases hm with
  | stay => exact ⟨hs.core, hs.consoles⟩
  | move ha hl _ h => exact ⟨RequestServer.core_step hs.core h, RequestServer.consoles_step hs.core hs.consoles h⟩
  | stop ha hx hw hr h =>
    have hc := RequestServer.core_step hs.core h
    have hcon := RequestServer.consoles_step hs.core hs.consoles h
    exact ⟨hc.frame rfl rfl rfl rfl rfl (fun w => by cases w <;> rfl), hcon.frame rfl rfl rfl rfl rfl⟩
  | cancel ha hx =>
    exact ⟨hs.core.frame rfl rfl rfl rfl rfl (fun w => by cases w <;> rfl),
      hs.consoles.frame rfl rfl rfl rfl rfl⟩

/-- A console that is busy was busy before, or a line has just arrived. -/
theorem busy_of_move {u : RequestServer ι} {x : Option (Worker ι × Request ι)} {i : ι}
    (hm : ServerMove C s a u x) (hi : u.console i ≠ .idle) :
    s.server.console i ≠ .idle ∨ ∃ l, a = .line i l := by
  cases hm with
  | stay => exact .inl hi
  | cancel ha hx => exact .inl hi
  | move ha hl _ h =>
    refine (RequestServer.step_busy h hi).imp_right ?_
    rintro ⟨l, rfl⟩
    cases a <;> simp only [Act.base, reduceCtorEq, Option.some.injEq] at ha
    case line j l' =>
      cases ha
      exact ⟨l, rfl⟩
    case thread w => cases w <;> cases ha
  | stop ha hx hw hr h =>
    refine (RequestServer.step_busy h hi).imp_right ?_
    rintro ⟨l, hl⟩
    rename_i w _ _
    cases w <;> cases hl

theorem line_reading {i : ι} {l : Bytes} (h : s.step C (.line i l) = some t) :
    s.socket i = .reading := by
  simp only [step] at h
  split at h
  · assumption
  · cases h

/-- The end of the drain. -/
structure Joins (s : NetworkedServer ι) (a : Act ι) (u : RequestServer ι) : Prop where
  base : a.base = some .loop
  loop : s.server.loop = .drainTest
  deaf : s.listening = false
  empty : s.server.requestQueue.items = []
  eq : u = { s.server with loop := .joinThreads }

/-- The last loop of `serverLoop` joins threads until it returns; it comes after
`stop_listening`, and once the queue was empty. -/
theorem joining_of_move {u : RequestServer ι} {x : Option (Worker ι × Request ι)}
    (hm : ServerMove C s a u x) : (s.server.loop = .joinThreads → u.loop = .joinThreads) ∧
    (u.loop = .joinThreads → s.server.loop = .joinThreads ∨ Joins s a u) := by
  have hbase {b : RequestServer.Act ι} {u : RequestServer ι} (ha : a.base = some b)
      (hl : b = .loop → s.server.loop = .drainTest → s.listening = false) (h : s.server.step C b = some u) :
      (s.server.loop = .joinThreads → u.loop = .joinThreads) ∧
        (u.loop = .joinThreads → s.server.loop = .joinThreads ∨ Joins s a u) := by
    by_cases hb : b = .loop
    · subst hb
      cases RequestServer.loopMove_of_step h with
      | serve hs ht _ => exact ⟨fun hx => by simp [hx, LoopPc.late] at hs, fun hx => by simp [hx, LoopPc.late] at ht⟩
      | reset hs ht =>
        subst ht
        exact ⟨fun hx => (by cases hs.symm.trans hx), nofun⟩
      | drain hs ht =>
        constructor
        · intro hx
          rcases hs with hs | ⟨p, hs⟩ <;> cases hs.symm.trans hx
        · intro hx
          rcases ht with ht | ⟨p, ht⟩ <;> cases ht.symm.trans hx
      | join hs hq ht => exact ⟨fun _ => by rw [ht], fun _ => .inr ⟨ha, hs, hl rfl hs, hq, ht⟩⟩
      | threw hs hq ht =>
        exact ⟨fun hx => (by cases hs.symm.trans hx), fun hx => (by cases ht.symm.trans hx)⟩
    · rw [RequestServer.step_loop h hb]
      exact ⟨id, .inl⟩
  cases hm with
  | stay => exact ⟨id, .inl⟩
  | cancel ha hx => exact ⟨id, .inl⟩
  | move ha hl _ h => exact hbase ha hl h
  | stop ha hx hw hr h =>
    rename_i w r v
    have hdrain : w.act = .loop → s.server.loop ≠ .drainTest := by
      intro hb hd
      cases w with
      | handler i => cases hb
      | serverLoop => simp [RequestServer.critical, hd, LoopPc.critical] at hw
    obtain ⟨h1, h2⟩ := hbase (by rw [ha]; rfl) (fun hb hd => absurd hd (hdrain hb)) h
    refine ⟨h1, fun hl => .inl ((h2 hl).resolve_right fun hj => ?_)⟩
    exact hdrain (Option.some.inj (hj.base ▸ by rw [ha]; rfl)) hj.loop

theorem shutting_step (hs : Shutting s) (h : s.step C a = some t) : Shutting t := by
  have hm := move_of_step h
  have hj := joining_of_move hm
  obtain ⟨hcore, hconsoles⟩ := core_of_move hs hm
  have hactive : ∀ i, t.server.console i ≠ .idle → s.socket i = .reading := by
    intro i hi
    rcases busy_of_move hm hi with hi | ⟨l, rfl⟩
    · exact hs.active i hi
    · exact line_reading h
  cases socketMove_of_step h with
  | same hsocket hthreads hlistening hreturned =>
    refine ⟨hcore, hconsoles, ?_, ?_, ?_, ?_, ?_⟩
    · rw [hsocket]; exact hactive
    · rw [hsocket, hthreads]; exact hs.tracked
    · rw [hsocket, hthreads]; exact hs.opened
    · rw [hlistening]
      intro hx
      exact (hj.2 hx).elim hs.deaf Joins.deaf
    · rw [hreturned, hthreads]
      intro hx
      obtain ⟨h1, h2⟩ := hs.joined hx
      exact ⟨hj.1 h1, h2⟩
  | accept hl hi ht =>
    subst ht
    rename_i i
    refine ⟨hs.core, hs.consoles, fun j hjj => ?_, fun j hjj => ?_, fun j hjj => ?_, hs.deaf, fun hx => ?_⟩
    · by_cases hij : j = i
      · simp [hij]
      · simpa [hij] using hs.active j hjj
    · by_cases hij : j = i
      · simp [hij]
      · simp only [ne_eq, hij, not_false_eq_true, Function.update_of_ne] at hjj
        exact List.mem_append_left _ (hs.tracked j hjj)
    · by_cases hij : j = i
      · simp [hij]
      · have hjs : j ∈ s.handlerThreads :=
          (List.mem_append.mp hjj).resolve_right fun hx => hij (List.mem_singleton.mp hx)
        simpa [hij] using hs.opened j hjs
    · have := hs.deaf (hs.joined hx).1
      simp [hl] at this
  | leave hi hidle ht =>
    subst ht
    rename_i i
    refine ⟨hs.core, hs.consoles, fun j hjj => ?_, fun j hjj => ?_, fun j hjj => ?_, hs.deaf, hs.joined⟩
    · have hij : j ≠ i := by
        rintro rfl
        exact hjj hidle
      simpa [hij] using hs.active j hjj
    · by_cases hij : j = i
      · exact hij ▸ hs.tracked i (.inl hi)
      · simp only [ne_eq, hij, not_false_eq_true, Function.update_of_ne] at hjj
        exact hs.tracked j hjj
    · by_cases hij : j = i
      · simp [hij]
      · simpa [hij] using hs.opened j hjj
  | destroy hi hu ht =>
    subst ht
    rename_i i
    refine ⟨hs.core, hs.consoles, fun j hjj => ?_, fun j hjj => ?_, fun j hjj => ?_, hs.deaf, hs.joined⟩
    · have hij : j ≠ i := by
        rintro rfl
        cases (hs.active j hjj).symm.trans hi
      simpa [hij] using hs.active j hjj
    · by_cases hij : j = i
      · simp [hij] at hjj
      · simp only [ne_eq, hij, not_false_eq_true, Function.update_of_ne] at hjj
        exact hs.tracked j hjj
    · by_cases hij : j = i
      · simp [hij]
      · simpa [hij] using hs.opened j hjj
  | stopListening hl ht =>
    subst ht
    exact ⟨hs.core, hs.consoles, hs.active, hs.tracked, hs.opened, fun _ => rfl, hs.joined⟩
  | join hl hthreads hi ht =>
    subst ht
    refine ⟨hs.core, hs.consoles, hs.active, fun j hjj => ?_, fun j hjj => ?_, hs.deaf, fun hx => ?_⟩
    · have := hs.tracked j hjj
      rw [hthreads] at this
      refine (List.mem_cons.mp this).resolve_left ?_
      rintro rfl
      rcases hjj with hjj | hjj <;> cases hjj.symm.trans hi
    · exact hs.opened j (hthreads ▸ List.mem_cons_of_mem _ hjj)
    · have := (hs.joined hx).2
      simp [hthreads] at this
  | loopReturns ha hl hthreads hr ht =>
    subst ht
    exact ⟨hs.core, hs.consoles, hs.active, hs.tracked, hs.opened, hs.deaf, fun _ => ⟨hl, hthreads⟩⟩

end NetworkedServer

end CogServer
