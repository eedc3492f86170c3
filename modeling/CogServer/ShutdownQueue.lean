import CogServer.ShutdownFrames

/-! Who sees the cancellation of the request queue, and what becomes of the requests
that were in the queue when `stop` was called. -/
namespace CogServer

open Transition

namespace NetworkedServer

variable {ι : Type*} [DecidableEq ι] {C : Commands ι} {s t : NetworkedServer ι} {a : Act ι}

/-- `serverLoop` has reset the cancellation of the queue and has not returned. -/
def draining (s : NetworkedServer ι) : Bool := s.server.loop.late && !s.returned

/-- A handler thread pushes or pops. -/
def Act.usesQueue (s : NetworkedServer ι) : Act ι → Bool
  | .thread (.handler i) =>
    match s.server.console i with
    | .push _ _ | .process _ _ .pop => true
    | _ => false
  | _ => false

/-- The second statement of `stop`. -/
def Act.cancels (s : NetworkedServer ι) : Act ι → Bool
  | .cancel => true
  | .thread w => s.stopper.map Prod.fst = some w
  | _ => false

/-- The first statement of `stop`. -/
def Act.callsStop (s : NetworkedServer ι) : Act ι → Bool
  | .stop => true
  | .thread w =>
    match s.server.critical w with
    | some (.execute r) => r.isShutdown
    | _ => false
  | _ => false

/-- No handler thread pushes or pops while the queue is cancelled, no `stop` cancels it
between the reset and the return of `serverLoop`, and none is called with requests
in the queue once the drain is over. -/
def unseen (s : NetworkedServer ι) (a : Act ι) : Prop :=
  (a.usesQueue s = true → s.server.requestQueue.cancelled = false) ∧
  (a.cancels s = true → s.draining = false) ∧
  (a.callsStop s = true → s.server.loop = .joinThreads → s.returned = false →
    s.server.requestQueue.items = [])

instance (s : NetworkedServer ι) (a : Act ι) : Decidable (unseen s a) := by
  unfold unseen
  infer_instance

omit [DecidableEq ι] in
theorem draining_of_joinThreads (hl : s.server.loop = .joinThreads) (hr : s.returned = false) :
    s.draining = true := by
  simp [draining, hl, hr, LoopPc.late]

/-- What a step adds to the record of the calls of `stop`. -/
theorem queued_of_step (h : s.step C a = some t) :
    t.queuedAtStop = s.queuedAtStop ∨ a.callsStop s = true ∧
      t.queuedAtStop = s.queuedAtStop ++ s.server.requestQueue.items ∧
      t.server.requestQueue.items = s.server.requestQueue.items := by
  cases a with
  | accept i | leave i | destroy i =>
    simp only [step] at h
    split at h <;> cases h
    exact .inl rfl
  | line i l =>
    simp only [step] at h
    split at h
    · obtain ⟨u, -, rfl⟩ := Option.map_eq_some_iff.mp h
      exact .inl rfl
    · cases h
  | evalEnds i left | cancel =>
    obtain ⟨u, -, rfl⟩ := Option.map_eq_some_iff.mp h
    exact .inl rfl
  | stop =>
    cases h
    exact .inr ⟨rfl, rfl, rfl⟩
  | thread w =>
    cases threadMove_of_step h with
    | stopped _ ht | gets _ _ _ _ ht | stopListening _ _ ht | join _ _ _ _ ht | loopReturns _ _ _ _ ht =>
      subst ht
      exact .inl rfl
    | works _ _ hu _ ht =>
      subst ht
      unfold workerStep
      split
      · rename_i r hw
        have hq := (RequestServer.execute_queue hw hu).1
        split
        · rename_i hr
          refine .inr ⟨?_, by rw [hq], congrArg CancelQueue.items hq⟩
          simp only [Act.callsStop, hw, hr]
        · split <;> exact .inl rfl
      · split <;> exact .inl rfl
      · exact .inl rfl

/-- What a step does to the queue, and to the pushes that were made. -/
theorem items_of_move {u : RequestServer ι} {x : Option (Worker ι × Request ι)}
    (hm : ServerMove C s a u x) :
    (u.pushed = s.server.pushed ∧ u.requestQueue.items <:+ s.server.requestQueue.items) ∨ ∃ i r k,
    s.server.console i = .push r k ∧ u.pushed = s.server.pushed ++ [r] ∧
    u.requestQueue.items = s.server.requestQueue.items ++ [r] := by
  cases hm with
  | stay => exact .inl ⟨rfl, List.suffix_refl _⟩
  | cancel ha hx => exact .inl ⟨rfl, List.suffix_refl _⟩
  | move ha hl _ h =>
    refine (RequestServer.step_queue h).imp_right ?_
    rintro ⟨i, r, k, -, hx⟩
    exact ⟨i, r, k, hx⟩
  | stop ha hx hw hr h =>
    refine (RequestServer.step_queue h).imp_right ?_
    rintro ⟨i, r, k, -, hx⟩
    exact ⟨i, r, k, hx⟩

theorem returned_mono (h : s.step C a = some t) (hr : t.returned = false) : s.returned = false := by
  cases socketMove_of_step h with
  | same _ _ _ hx => rw [← hx, hr]
  | accept _ _ ht | leave _ _ ht | destroy _ _ ht | stopListening _ ht | join _ _ _ ht =>
    subst ht
    exact hr
  | loopReturns _ _ _ hx => exact hx

/-- The cancellation stays between `stop` and `serverLoop`. -/
structure Sheltered (s : NetworkedServer ι) : Prop where
  console : ∀ i, s.server.console i ≠ .threw
  loop : s.server.loop ≠ .threw
  reset : s.draining = true → s.server.requestQueue.cancelled = false
  queued : ∀ r ∈ s.queuedAtStop, r ∈ s.server.pushed
  emptied : s.server.loop = .joinThreads → s.returned = false →
    ∀ r ∈ s.queuedAtStop, r ∉ s.server.requestQueue.items

omit [DecidableEq ι] in
theorem sheltered_start : Sheltered (start : NetworkedServer ι) := by
  constructor <;> simp [start, RequestServer.start, draining, LoopPc.late]

theorem console_of_move {u : RequestServer ι} {x : Option (Worker ι × Request ι)} (hs : Sheltered s)
    (ha : unseen s a) (hm : ServerMove C s a u x) (i : ι) : u.console i ≠ .threw := by
  have hbase {b : RequestServer.Act ι} {u : RequestServer ι} (hb : a.base = some b)
      (h : s.server.step C b = some u) : u.console i ≠ .threw := by
    intro hi
    rcases RequestServer.step_threw h hi with hi | ⟨rfl, hq, hp⟩
    · exact hs.console i hi
    · have hw : a = .thread (.handler i) := by
        cases a <;> simp only [Act.base, reduceCtorEq, Option.some.injEq] at hb
        case thread w =>
          cases w <;> cases hb
          rfl
      have huse : a.usesQueue s = true := by
        rcases hp with ⟨r, k, hp⟩ | ⟨r, k, hp⟩ <;> simp [hw, Act.usesQueue, hp]
      have := ha.1 huse
      simp [hq] at this
  cases hm with
  | stay => exact hs.console i
  | cancel hx _ => exact hs.console i
  | move hx hl _ h => exact hbase hx h
  | stop hx _ hw hr h =>
    have hi := hbase (by rw [hx]; rfl) h
    exact hi

/-- The server loop does not throw either, and its queue stays usable. -/
theorem loop_of_move {u : RequestServer ι} {x : Option (Worker ι × Request ι)} (hs : Sheltered s)
    (ha : unseen s a) (hr : s.returned = false) (hm : ServerMove C s a u x) :
    u.loop ≠ .threw ∧ (u.loop.late = true → u.requestQueue.cancelled = false) := by
  have hlate (hl : s.server.loop.late = true) : s.draining = true := by simp [draining, hl, hr]
  have hsame (hl : s.server.loop.late = true) : s.server.requestQueue.cancelled = false :=
    hs.reset (hlate hl)
  have hbase {b : RequestServer.Act ι} {u : RequestServer ι} (hb : a.base = some b)
      (h : s.server.step C b = some u) :
      u.loop ≠ .threw ∧ (u.loop.late = true → u.requestQueue.cancelled = false) := by
    by_cases hcancel : b = .cancel
    · have hloop : u.loop = s.server.loop := RequestServer.step_loop h (by simp [hcancel])
      have hc : a.cancels s = true := by
        subst hcancel
        cases a <;> simp only [Act.base, reduceCtorEq, Option.some.injEq] at hb
        case thread w => cases w <;> cases hb
        case cancel => rfl
      rw [hloop]
      refine ⟨hs.loop, fun hl => ?_⟩
      have := (ha.2.1 hc).symm.trans (hlate hl)
      cases this
    by_cases hl : b = .loop
    · subst hl
      cases RequestServer.loopMove_of_step h with
      | serve _ ht _ => exact ⟨fun hx => by simp [hx, LoopPc.late] at ht, fun hx => by simp [hx] at ht⟩
      | reset _ ht =>
        subst ht
        exact ⟨(by simp), fun _ => rfl⟩
      | join hx hq ht =>
        subst ht
        exact ⟨(by simp), fun _ => hsame (by rw [hx]; rfl)⟩
      | threw hx hq ht =>
        have := hsame (by rw [hx]; rfl)
        simp [hq] at this
      | drain hx ht =>
        refine ⟨?_, fun _ => ?_⟩
        · intro hthrew
          rcases ht with ht | ⟨p, ht⟩ <;> cases ht.symm.trans hthrew
        · have hlate : s.server.loop.late = true := by rcases hx with hx | ⟨p, hx⟩ <;> rw [hx] <;> rfl
          have hne : s.server.loop ≠ .cancelReset := by
            intro hreset
            simp [hreset, LoopPc.late] at hlate
          rw [(RequestServer.loopStep_frame h).2.1 hne]
          exact hsame hlate
    · rw [RequestServer.step_loop h hl]
      rcases RequestServer.step_cancelled h hcancel with hq | ⟨hx, -⟩
      · rw [hq]
        exact ⟨hs.loop, hsame⟩
      · exact absurd hx hl
  cases hm with
  | stay => exact ⟨hs.loop, hsame⟩
  | cancel hx hstop =>
    refine ⟨hs.loop, fun hl => ?_⟩
    have hc : a.cancels s = true := by simp [hx, Act.cancels, hstop]
    have := (ha.2.1 hc).symm.trans (hlate hl)
    cases this
  | move hx hl _ h => exact hbase hx h
  | stop hx _ hw hr h =>
    have hu := hbase (by rw [hx]; rfl) h
    exact hu

theorem sheltered_step (hv : Shutting s) (hs : Sheltered s) (ha : unseen s a)
    (h : s.step C a = some t) : Sheltered t := by
  have hm := move_of_step h
  have hpushed : ∀ r ∈ s.server.pushed, r ∈ t.server.pushed := by
    intro r hr
    rcases items_of_move hm with ⟨hp, -⟩ | ⟨i, r', k, -, hp, -⟩ <;> rw [hp]
    · exact hr
    · exact List.mem_append_left _ hr
  have hitems : ∀ r ∈ s.server.requestQueue.items, r ∈ s.server.pushed := by
    intro r hr
    rw [hv.core.queue]
    exact List.mem_append_right _ hr
  constructor
  case console => exact console_of_move hs ha hm
  case loop =>
    cases hr : s.returned with
    | false => exact (loop_of_move hs ha hr hm).1
    | true =>
      rw [(joining_of_move hm).1 (hv.joined hr).1]
      exact nofun
  case reset =>
    intro hd
    obtain ⟨hl, hr⟩ : t.server.loop.late = true ∧ t.returned = false := by simpa [draining] using hd
    exact (loop_of_move hs ha (returned_mono h hr) hm).2 hl
  case queued =>
    intro r hr
    rcases queued_of_step h with hq | ⟨-, hq, -⟩ <;> rw [hq] at hr
    · exact hpushed r (hs.queued r hr)
    · rcases List.mem_append.mp hr with hr | hr
      · exact hpushed r (hs.queued r hr)
      · exact hpushed r (hitems r hr)
  case emptied =>
    intro hl hret r hr
    have hret' := returned_mono h hret
    rcases (joining_of_move hm).2 hl with hl' | hjoin
    · rcases queued_of_step h with hq | ⟨hstop, -, hsame⟩
      · rw [hq] at hr
        rcases items_of_move hm with ⟨-, hx⟩ | ⟨i, r', k, hi, -, hx⟩
        · exact fun hin => hs.emptied hl' hret' r hr (hx.subset hin)
        · rw [hx]
          intro hin
          rcases List.mem_append.mp hin with hin | hin
          · exact hs.emptied hl' hret' r hr hin
          · obtain rfl := List.mem_singleton.mp hin
            have hw := hv.consoles.waits i
            rw [hi] at hw
            exact hw.2.2 (hs.queued r hr)
      · rw [hsame, ha.2.2 hstop hl' hret']
        exact List.not_mem_nil
    · rw [hjoin.eq]
      show r ∉ s.server.requestQueue.items
      rw [hjoin.empty]
      exact List.not_mem_nil

theorem shutting_of_reach {D : NetworkedServer ι → Act ι → Prop}
    (h : Reach (shutdownSystem C) D s) : Shutting s := by
  apply h.invariant
  · rintro _ rfl
    exact shutting_start
  · intro s a t _ hs _ ht
    exact shutting_step hs ht

theorem sheltered_of_reach (h : Reach (shutdownSystem C) unseen s) : Sheltered s := by
  apply h.invariant
  · rintro _ rfl
    exact sheltered_start
  · intro s a t hr hs ha ht
    exact sheltered_step (shutting_of_reach hr) hs ha ht

omit [DecidableEq ι] in
/-- When the server loop has joined all threads, no console is busy. -/
theorem idle_of_joined (hv : Shutting s) (hthreads : s.handlerThreads = []) (i : ι) :
    s.server.console i = .idle := by
  by_contra hi
  have := hv.tracked i (.inl (hv.active i hi))
  simp [hthreads] at this

omit [DecidableEq ι] in
/-- While no console is busy and the server loop joins threads, nobody is in `processRequests`. -/
theorem inside_of_idle {s : RequestServer ι} (hc : s.Core) (hl : s.loop = .joinThreads)
    (hidle : ∀ i, s.console i = .idle) : s.inside = none := by
  have hm : s.mutex = none := by
    by_contra hne
    obtain ⟨w, hw⟩ := Option.ne_none_iff_exists'.mp hne
    have hcr := (hc.holder w).mp hw
    cases w with
    | serverLoop => simp [RequestServer.critical, hl, LoopPc.critical] at hcr
    | handler i => simp [RequestServer.critical, hidle i, ConsolePc.critical] at hcr
  simp [RequestServer.inside, hm]

/-- `Canceled` leaves neither `OnLine` nor `serverLoop`; and when `serverLoop` returns,
the queue is not cancelled, and whatever was in it when `stop` was called has run. -/
theorem canceled_unseen (h : Reach (shutdownSystem C) unseen s) :
    (∀ i, s.server.console i ≠ .threw) ∧ s.server.loop ≠ .threw ∧
    ∀ a t, s.step C a = some t → s.returned = false → t.returned = true →
      t.server.requestQueue.cancelled = false ∧ ∀ r ∈ t.queuedAtStop, r ∈ t.server.executed := by
  have hv := shutting_of_reach h
  have hs := sheltered_of_reach h
  refine ⟨hs.console, hs.loop, fun a t ht hr hr' => ?_⟩
  cases socketMove_of_step ht with
  | same _ _ _ hx => simp [hx, hr] at hr'
  | accept _ _ ht | leave _ _ ht | destroy _ _ ht | stopListening _ ht | join _ _ _ ht =>
    subst ht
    simp [hr] at hr'
  | loopReturns _ hl hthreads _ ht =>
    subst ht
    refine ⟨hs.reset (draining_of_joinThreads hl hr), fun r hq => ?_⟩
    have hqueue := hv.core.queue
    rw [inside_of_idle hv.core hl (idle_of_joined hv hthreads)] at hqueue
    have hmem : r ∈ s.server.executed ++ [] ++ s.server.requestQueue.items :=
      hqueue ▸ hs.queued r hq
    rw [List.append_nil] at hmem
    exact (List.mem_append.mp hmem).resolve_right (hs.emptied hl hr r hq)

/-- A server that only knows how to list its modules and how to shut down. -/
def plainCommands : Commands Unit where
  create name := if name = ascii "shutdown" ∨ name = ascii "list" then some false else none
  reply _ := []
  prompt := []

/-- The client sends these lines, and each is in the queue before the next arrives. -/
def sends (lines : List String) : List (Act Unit) :=
  .accept () :: lines.flatMap fun l => .line () (ascii l) :: List.replicate 6 (.thread (.handler ()))

/-- The server loop runs `n` steps. -/
def loops (n : ℕ) : List (Act Unit) := List.replicate n (.thread .serverLoop)

theorem canceled_unseen_list : ∃ s t : NetworkedServer Unit, ∃ r : Request Unit,
    s.step plainCommands (.thread .serverLoop) = some t ∧ t.returned = true ∧
      r.cmdName = ascii "list" ∧ r ∈ t.queuedAtStop ∧ r ∈ t.server.executed := by
  have hx : (exec (shutdownSystem plainCommands) start (sends ["shutdown", "list"] ++ loops 23 ++
      [.leave (), .destroy ()] ++ loops 1)).map
        (fun s => (s.returned, s.queuedAtStop, (s.step plainCommands (.thread .serverLoop)).map
          fun t => (t.returned, t.queuedAtStop))) =
      some (false, [⟨1, (), ascii "list", [], false⟩],
        some (true, [⟨1, (), ascii "list", [], false⟩])) := by decide +kernel
  obtain ⟨s, hs, h⟩ := Option.map_eq_some_iff.mp hx
  obtain ⟨hr, h⟩ := Prod.mk.inj h
  obtain ⟨-, h⟩ := Prod.mk.inj h
  obtain ⟨t, ht, h⟩ := Option.map_eq_some_iff.mp h
  obtain ⟨hr', hq⟩ := Prod.mk.inj h
  have hmem : (⟨1, (), ascii "list", [], false⟩ : Request Unit) ∈ t.queuedAtStop := by
    rw [hq]
    exact List.mem_singleton.mpr rfl
  have hreach : Reach (shutdownSystem plainCommands) unseen s :=
    Reach.of_exec (fun s a => decide (unseen s a)) (fun _ _ => of_decide_eq_true) (.init rfl)
      (by decide +kernel) hs
  exact ⟨s, t, _, ht, hr', rfl, hmem, ((canceled_unseen hreach).2.2 _ t ht hr hr').2 _ hmem⟩

/-- A client that asks twice for the shutdown, and then for something else, before the
first request runs: the second `stop` comes while the queue is being drained, and
`Canceled` leaves `serverLoop`. -/
theorem canceled_seen : ∃ s, Reach (shutdownSystem plainCommands) anyStep s ∧
    s.server.loop = .threw ∧ ∃ r ∈ s.queuedAtStop, r ∉ s.server.executed := by
  have hx : (exec (shutdownSystem plainCommands) start
      (sends ["shutdown", "shutdown", "list"] ++ loops 23)).map
        (fun s => (s.server.loop, s.queuedAtStop.map Request.id, s.server.executed.map Request.id)) =
      some (.threw, [1, 2, 2], [0, 1]) := by decide +kernel
  obtain ⟨s, hs, h⟩ := Option.map_eq_some_iff.mp hx
  obtain ⟨hl, h⟩ := Prod.mk.inj h
  obtain ⟨hq, he⟩ := Prod.mk.inj h
  obtain ⟨r, hr, hid⟩ : ∃ r ∈ s.queuedAtStop, r.id = 2 := List.mem_map.mp (by rw [hq]; simp)
  refine ⟨s, reach_of_exec _ rfl hs, hl, r, hr, fun hmem => ?_⟩
  have : r.id ∈ s.server.executed.map Request.id := List.mem_map_of_mem hmem
  rw [he, hid] at this
  simp at this

end NetworkedServer

end CogServer
