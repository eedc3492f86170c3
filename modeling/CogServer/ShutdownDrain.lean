import CogServer.ShutdownCounts

/-! What is pushed late is drained late: the conditions under which the shutdown loses
no request, and the invariant of the runs that meet them. -/
namespace CogServer

open Transition

namespace RequestServer

variable {ι : Type*} [DecidableEq ι] {C : Commands ι} {s t : RequestServer ι} {a : Act ι}

/-- No thread is inside `stop`, and none will be because of a request. -/
structure Quiet (C : Commands ι) (s : RequestServer ι) (stopper : Option (Worker ι × Request ι)) : Prop where
  stopping : s.stopping = 0
  stopper : stopper = none
  queued : ∀ r ∈ s.requestQueue.items, r.isShutdown = false
  popped : ∀ r, s.inside = some (.execute r) → r.isShutdown = false
  made : ∀ i, ∀ x ∈ (s.console i).toMake C, x.1 ≠ ascii "shutdown"

/-- Every request that a console is on its way to push is a shell. -/
def ShellsOnly (C : Commands ι) (s : RequestServer ι) : Prop :=
  ∀ i, ∀ x ∈ (s.console i).toMake C, x.2 = true

/-- What is in the queue will be seen by a handler thread. -/
def Attended (s : RequestServer ι) : Prop :=
  s.requestQueue.items ≠ [] → ∃ i r k p, s.console i = .process r k p ∧ p ≠ .unlock

/-- The requests that the consoles may still make, after a step of the stopped server. -/
theorem toMake_of_step (hr : s.running = false) (h : step C s a = some t) (i : ι) :
    (t.console i).toMake C ⊆ (s.console i).toMake C := by
  cases a with
  | stop =>
    cases h
    exact List.Subset.refl _
  | cancel =>
    simp only [step] at h
    split at h <;> cases h
    exact List.Subset.refl _
  | loop =>
    rw [(loopStep_frame h).2.2.2.1]
    exact List.Subset.refl _
  | console j =>
    by_cases hij : i = j
    · subst hij
      exact toMake_step hr h
    · rw [(consoleStep_frame h).2.2.2.2 i hij]
      exact List.Subset.refl _
  | line j l | evalEnds j left =>
    simp only [step] at h
    split at h <;> cases h
    rename_i hj
    by_cases hij : i = j
    · subst hij
      simp only [goto, Function.update_self, hj]
      exact List.Subset.refl _
    · simp only [goto, Function.update_of_ne hij]
      exact List.Subset.refl _

/-- No step of the requests disturbs the quiet. -/
theorem Quiet.step {stopper : Option (Worker ι × Request ι)} (hc : Core s) (hs : Quiet C s stopper)
    (hr : s.running = false) (ha : a ≠ .stop) (h : step C s a = some t) : Quiet C t stopper := by
  have hcancel : a ≠ .cancel := by
    rintro rfl
    simp [RequestServer.step, hs.stopping] at h
  have hmade : ∀ i, ∀ x ∈ (t.console i).toMake C, x.1 ≠ ascii "shutdown" :=
    fun i x hx => hs.made i x (toMake_of_step hr h i hx)
  have hqueued : ∀ r ∈ t.requestQueue.items, r.isShutdown = false := by
    intro r hr
    rcases step_queue h with ⟨-, hq⟩ | ⟨i, r', k, -, hi, -, hq⟩
    · exact hs.queued r (hq.subset hr)
    · rw [hq] at hr
      rcases List.mem_append.mp hr with hr | hr
      · exact hs.queued r hr
      · obtain rfl := List.mem_singleton.mp hr
        have := hs.made i (r.cmdName, r.isShell) (by simp [hi, ConsolePc.toMake])
        simpa [Request.isShutdown] using this
  refine ⟨(step_flags h ha hcancel).2.trans hs.stopping, hs.stopper, hqueued, fun r hin => ?_, hmade⟩
  cases insideMove_of_step hc h with
  | same hsame _ _ => exact hs.popped r (hsame ▸ hin)
  | enter _ _ ht _ => cases ht.symm.trans hin
  | work ha hw hu ht hq =>
    rename_i w p u n
    rw [ht] at hin
    cases p with
    | pop =>
      simp only [processStep] at hu
      split at hu <;> cases hu
      · rename_i r' q hpop
        cases hin
        exact hs.queued r (by rw [(CancelQueue.pop_eq_item.mp hpop).2.1]; exact List.mem_cons_self)
      · cases hin
    | lock =>
      simp only [processStep] at hu
      split at hu <;> cases hu
      cases hin
    | size =>
      cases hu
      simp only [Next.critical] at hin
      split at hin <;> cases hin
    | execute r' | delete r' | unlock =>
      cases hu
      cases hin

/-- Only its own thread moves a console that is busy with something other than its shell. -/
theorem console_of_step {i : ι} (h : step C s a = some t) (ha : a ≠ .console i)
    (hidle : s.console i ≠ .idle) (heval : ∀ l k, s.console i ≠ .eval l k) :
    t.console i = s.console i := by
  cases a with
  | stop =>
    cases h
    rfl
  | cancel =>
    simp only [step] at h
    split at h <;> cases h
    rfl
  | loop => rw [(loopStep_frame h).2.2.2.1]
  | console j =>
    refine (consoleStep_frame h).2.2.2.2 i ?_
    rintro rfl
    exact ha rfl
  | line j l =>
    simp only [step] at h
    split at h <;> cases h
    rename_i hj
    have hij : i ≠ j := by
      rintro rfl
      exact hidle hj
    simp [goto, hij]
  | evalEnds j left =>
    simp only [step] at h
    split at h <;> cases h
    rename_i l k hj
    have hij : i ≠ j := by
      rintro rfl
      exact heval l k hj
    simp [goto, hij]

/-- While there is something in the queue, a thread in `processRequests` stays there. -/
theorem process_goes {w : Worker ι} {p : ProcPc ι} {u : RequestServer ι} {n : Next ι}
    (h : s.processStep C w p = some (u, n)) (hp : p ≠ .unlock)
    (hq : s.requestQueue.cancelled = false) (hne : u.requestQueue.items ≠ []) :
    ∃ q, n = .goto q ∧ q ≠ .unlock := by
  cases p with
  | unlock => exact absurd rfl hp
  | lock =>
    simp only [processStep] at h
    split at h <;> cases h
    exact ⟨_, rfl, (by simp)⟩
  | pop =>
    simp only [processStep] at h
    split at h <;> cases h
    · exact ⟨_, rfl, (by simp)⟩
    · rename_i hpop
      have := CancelQueue.pop_eq_cancelled.mp hpop
      simp [hq] at this
  | size =>
    cases h
    have hpos : 0 < s.requestQueue.size := List.length_pos_iff.mpr hne
    exact ⟨.pop, by rw [if_pos hpos], (by simp)⟩
  | execute r | delete r =>
    cases h
    exact ⟨_, rfl, (by simp)⟩

/-- What a handler thread finds in the queue it does not leave there. -/
theorem Attended.step (hs : Attended s) (hq : s.requestQueue.cancelled = false)
    (hshells : ShellsOnly C s) (h : step C s a = some t) : Attended t := by
  intro hne
  rcases step_queue h with ⟨-, hitems⟩ | ⟨i, r, k, rfl, hi, -, -⟩
  · obtain ⟨i, r, k, p, hi, hp⟩ := hs (fun hz => hne (List.suffix_nil.mp (hz ▸ hitems)))
    by_cases ha : a = .console i
    · subst ha
      simp only [RequestServer.step, consoleStep, hi, Option.map_eq_some_iff] at h
      obtain ⟨⟨u, n⟩, hu, rfl⟩ := h
      obtain ⟨q, rfl, hq'⟩ := process_goes hu hp hq hne
      exact ⟨i, r, k, q, by simp [goto], hq'⟩
    · refine ⟨i, r, k, p, ?_, hp⟩
      rw [console_of_step h ha (by simp [hi]) (by simp [hi]), hi]
  · have hshell : r.isShell = true := hshells i (r.cmdName, r.isShell) (by simp [hi, ConsolePc.toMake])
    refine ⟨i, r, k, .lock, ?_, (by simp)⟩
    simp only [RequestServer.step, consoleStep, hi, CancelQueue.push, hq, Bool.false_eq_true, ↓reduceIte,
      Option.some.injEq, hshell] at h
    subst h
    simp [goto]

end RequestServer

namespace NetworkedServer

variable {ι : Type*} [DecidableEq ι] {C : Commands ι} {s t : NetworkedServer ι} {a : Act ι}

/-- The cancellation is unseen; `serverLoop` resets it when no `stop` is in progress or to come;
and it ends the drain when no console is on its way to push anything but a shell. -/
def orderly (C : Commands ι) (s : NetworkedServer ι) (a : Act ι) : Prop :=
  unseen s a ∧
  (a = .thread .serverLoop → s.server.loop = .cancelReset → s.server.Quiet C s.stopper) ∧
  (a = .stop → s.draining = false) ∧
  (a = .thread .serverLoop → s.server.loop = .drainTest → s.listening = false →
    s.server.requestQueue.items = [] → s.server.ShellsOnly C)

/-- The end of the shutdown. -/
structure Orderly (C : Commands ι) (s : NetworkedServer ι) : Prop where
  quiet : s.draining = true → s.server.Quiet C s.stopper
  shells : s.server.loop = .joinThreads → s.returned = false → s.server.ShellsOnly C
  attended : s.server.loop = .joinThreads → s.returned = false → s.server.Attended
  finished : s.returned = true → s.server.requestQueue.items = []

theorem unseen_of_reach (h : Reach (shutdownSystem C) (orderly C) s) :
    Reach (shutdownSystem C) unseen s :=
  h.mono fun _ _ => And.left

/-- In the quiet nothing but steps of the requests happens to the requests. -/
theorem move_of_quiet {u : RequestServer ι} {x : Option (Worker ι × Request ι)} (hv : Shutting s)
    (hs : s.server.Quiet C s.stopper) (hm : ServerMove C s a u x) :
    x = s.stopper ∧ (u = s.server ∨ ∃ b, a.base = some b ∧ s.server.step C b = some u) := by
  cases hm with
  | stay => exact ⟨rfl, .inl rfl⟩
  | move ha _ _ h => exact ⟨rfl, .inr ⟨_, ha, h⟩⟩
  | cancel _ hx =>
    rw [hs.stopper] at hx
    cases hx
  | stop _ _ hw hr _ =>
    have := hs.popped _ (hv.core.inside_eq hw).2
    simp [hr] at this

omit [DecidableEq ι] in
theorem stop_of_base (h : a.base = some .stop) : a = .stop := by
  cases a <;> simp only [Act.base, reduceCtorEq, Option.some.injEq] at h
  case stop => rfl
  case thread w => cases w <;> cases h

omit [DecidableEq ι] in
theorem loop_of_base (h : a.base = some .loop) : a = .thread .serverLoop := by
  cases a <;> simp only [Act.base, reduceCtorEq, Option.some.injEq] at h
  case thread w =>
    cases w <;> cases h
    rfl

omit [DecidableEq ι] in
theorem running_of_draining [DecidableEq ι] {D : NetworkedServer ι → Act ι → Prop}
    (hr : Reach (shutdownSystem C) D s) (hd : s.draining = true) : s.server.running = false := by
  obtain ⟨hl, -⟩ : s.server.loop.late = true ∧ s.returned = false := by simpa [draining] using hd
  exact running_of_reach hr (.inr (.inr (.inr (.inr hl))))

omit [DecidableEq ι] in
theorem draining_of_late (hl : s.server.loop.late = true) (hr : s.returned = false) :
    s.draining = true := by
  simp [draining, hl, hr]

/-- The quiet begins with the reset and lasts. -/
theorem quiet_of_move {u : RequestServer ι} {x : Option (Worker ι × Request ι)}
    (hr : Reach (shutdownSystem C) unseen s) (hs : Orderly C s) (ha : orderly C s a)
    (hret : s.returned = false) (hm : ServerMove C s a u x) (hu : u.loop.late = true) :
    u.Quiet C x := by
  have hv := shutting_of_reach hr
  by_cases hlate : s.server.loop.late = true
  · have hd := draining_of_late hlate hret
    have hq := hs.quiet hd
    obtain ⟨rfl, rfl | ⟨b, hb, h⟩⟩ := move_of_quiet hv hq hm
    · exact hq
    · refine hq.step hv.core (running_of_draining hr hd) ?_ h
      rintro rfl
      have := (ha.2.2.1 (stop_of_base hb)).symm.trans hd
      cases this
  · have hloop {b : RequestServer.Act ι} {v : RequestServer ι} (h : s.server.step C b = some v)
        (hv : v.loop.late = true) : b = .loop ∧ s.server.loop = .cancelReset ∧
          v = { s.server with requestQueue := s.server.requestQueue.cancelReset, loop := .drainTest } := by
      by_cases hb : b = .loop
      · subst hb
        cases RequestServer.loopMove_of_step h with
        | serve _ ht _ => simp [hv] at ht
        | reset hx ht => exact ⟨rfl, hx, ht⟩
        | join hx _ _ => simp [hx, LoopPc.late] at hlate
        | threw hx _ _ => simp [hx, LoopPc.late] at hlate
        | drain hx _ => rcases hx with hx | ⟨p, hx⟩ <;> simp [hx, LoopPc.late] at hlate
      · rw [RequestServer.step_loop h hb] at hv
        exact absurd hv hlate
    cases hm with
    | stay => exact absurd hu hlate
    | cancel _ _ => exact absurd hu hlate
    | stop ha' hx' hw hshut h =>
      rename_i w r v
      obtain ⟨hb, hx, -⟩ := hloop h hu
      cases w with
      | handler i => cases hb
      | serverLoop => simp [RequestServer.critical, hx, LoopPc.critical] at hw
    | move hb _ _ h =>
      obtain ⟨rfl, hx, rfl⟩ := hloop h hu
      have hq := ha.2.1 (loop_of_base hb) hx
      have hin : RequestServer.inside { s.server with
          requestQueue := s.server.requestQueue.cancelReset, loop := .drainTest } = s.server.inside := by
        refine RequestServer.inside_congr rfl fun w => ?_
        cases w with
        | handler i => rfl
        | serverLoop =>
          simp only [RequestServer.critical, hx]
          rfl
      exact ⟨hq.stopping, hq.stopper, hq.queued, fun r hr => hq.popped r (hin ▸ hr), hq.made⟩

theorem orderly_step (hr : Reach (shutdownSystem C) unseen s) (hs : Orderly C s)
    (ha : orderly C s a) (h : s.step C a = some t) : Orderly C t := by
  have hv := shutting_of_reach hr
  have hm := move_of_step h
  have hjoin (hl : t.server.loop = .joinThreads) (hret : t.returned = false) :
      t.server.ShellsOnly C ∧ t.server.Attended := by
    have hret := returned_mono h hret
    rcases (joining_of_move hm).2 hl with hl' | hj
    · have hd := draining_of_joinThreads hl' hret
      obtain ⟨-, hu | ⟨b, hb, hu⟩⟩ := move_of_quiet hv (hs.quiet hd) hm
      · rw [hu]
        exact ⟨hs.shells hl' hret, hs.attended hl' hret⟩
      · have hmake := RequestServer.toMake_of_step (running_of_draining hr hd) hu
        exact ⟨fun i x hx => hs.shells hl' hret i x (hmake i hx),
          (hs.attended hl' hret).step ((sheltered_of_reach hr).reset hd) (hs.shells hl' hret) hu⟩
    · have hshells := ha.2.2.2 (loop_of_base hj.base) hj.loop hj.deaf hj.empty
      rw [hj.eq]
      exact ⟨hshells, fun hne => absurd hj.empty hne⟩
  refine ⟨fun hd => ?_, fun hl hret => (hjoin hl hret).1, fun hl hret => (hjoin hl hret).2, fun hret => ?_⟩
  · obtain ⟨hl, hret⟩ : t.server.loop.late = true ∧ t.returned = false := by simpa [draining] using hd
    exact quiet_of_move hr hs ha (returned_mono h hret) hm hl
  · cases hret' : s.returned with
    | true =>
      have hempty := hs.finished hret'
      rcases items_of_move hm with ⟨-, hx⟩ | ⟨i, r, k, hi, -, -⟩
      · rw [hempty] at hx
        exact List.suffix_nil.mp hx
      · cases hi.symm.trans (idle_of_joined hv (hv.joined hret').2 i)
    | false =>
      cases socketMove_of_step h with
      | same _ _ _ hx => simp [hx, hret'] at hret
      | accept _ _ ht | leave _ _ ht | destroy _ _ ht | stopListening _ ht | join _ _ _ ht =>
        subst ht
        simp [hret'] at hret
      | loopReturns _ hl hthreads _ ht =>
        subst ht
        by_contra hne
        obtain ⟨i, r, k, p, hi, -⟩ := hs.attended hl hret' hne
        cases hi.symm.trans (idle_of_joined hv hthreads i)

theorem orderly_of_reach (h : Reach (shutdownSystem C) (orderly C) s) : Orderly C s := by
  apply h.invariant
  · rintro _ rfl
    constructor <;> simp [start, RequestServer.start, draining, LoopPc.late]
  · intro s a t hr hs ha ht
    exact orderly_step (unseen_of_reach hr) hs ha ht

/-- When `serverLoop` has returned, every request was executed and deleted once. -/
theorem drained_of_returned (h : Reach (shutdownSystem C) (orderly C) s)
    (hret : s.returned = true) : s.server.pushed.Nodup ∧ s.server.executed = s.server.pushed ∧
    s.server.deleted = s.server.pushed := by
  have hv := shutting_of_reach h
  obtain ⟨hl, hthreads⟩ := hv.joined hret
  have hin := inside_of_idle hv.core hl (idle_of_joined hv hthreads)
  have hq := hv.core.queue
  have hd := hv.core.deleted
  rw [hin, (orderly_of_reach h).finished hret, Option.elim_none, List.append_nil,
    List.append_nil] at hq
  rw [hin, Option.elim_none, List.append_nil] at hd
  exact ⟨hv.consoles.nodup, hq.symm, (hq.trans hd).symm⟩

end NetworkedServer

end CogServer
