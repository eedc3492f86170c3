import CogServer.ShutdownQueue

/-! What the steps under the mutex do, which consoles are still on their way to a push,
and the use counts of the consoles. -/
namespace CogServer

open Transition

/-- The command of the request that `OnLine` makes of a line, and whether it is a shell. -/
def Commands.request {ι : Type*} (C : Commands ι) (l : Bytes) : Option (Bytes × Bool) :=
  match simpleTokenize l with
  | [] => none
  | cmdName :: _ =>
    match C.create cmdName with
    | some isShell => some (cmdName, isShell)
    | none => (C.create (ascii "help")).map fun isShell => (ascii "help", isShell)

/-- The requests that a console is on its way to push, if it is past its test of
`running` and will not pass another one. -/
def ConsolePc.toMake {ι : Type*} (C : Commands ι) : ConsolePc ι → List (Bytes × Bool)
  | .idle | .threw => []
  | .push r k => (r.cmdName, r.isShell) :: k.filterMap C.request
  | .dispatch l k =>
    match CogServer.dispatch l with
    | .telnet _ => k.filterMap C.request
    | _ => (l :: k).filterMap C.request
  | .reissue l k | .command l k => (l :: k).filterMap C.request
  | .shellTest _ k | .eval _ k | .runningTest _ k | .process _ k _ | .returned _ k =>
    k.filterMap C.request

theorem Worker.act_injective {ι : Type*} {w w' : Worker ι} (h : w.act = w'.act) : w = w' := by
  cases w <;> cases w' <;> cases h <;> rfl

namespace RequestServer

variable {ι : Type*} [DecidableEq ι] {C : Commands ι} {s t : RequestServer ι} {a : Act ι}

/-- Once the server has stopped, a console only ever forgets requests that it might make. -/
theorem toMake_step {i : ι} (hr : s.running = false) (h : s.consoleStep C i = some t) :
    (t.console i).toMake C ⊆ (s.console i).toMake C := by
  cases hp : s.console i with
  | idle | eval l k | threw => simp [consoleStep, hp] at h
  | shellTest l k =>
    simp only [consoleStep, hp, Option.some.injEq] at h
    subst h
    simp only [goto, Function.update_self]
    split <;> exact List.Subset.refl _
  | reissue l k =>
    simp only [consoleStep, hp, Option.some.injEq] at h
    subst h
    simp only [goto, Function.update_self]
    split
    · simp only [ConsolePc.toMake, List.filterMap_cons]
      split
      · exact List.Subset.refl _
      · exact List.subset_cons_self _ _
    · exact List.Subset.refl _
  | runningTest l k =>
    simp only [consoleStep, hp, hr, Bool.false_eq_true, ↓reduceIte, Option.some.injEq] at h
    subst h
    simp only [goto, Function.update_self]
    exact List.Subset.refl _
  | dispatch l k =>
    simp only [consoleStep, hp] at h
    split at h <;> rename_i hd <;> cases h <;>
      simp only [goto, Function.update_self, ConsolePc.toMake, hd] <;> exact List.Subset.refl _
  | command l k =>
    simp only [consoleStep, hp] at h
    have hk : k.filterMap C.request ⊆ (l :: k).filterMap C.request := by
      simp only [List.filterMap_cons]
      split
      · exact List.Subset.refl _
      · exact List.subset_cons_self _ _
    have hmade {c : Bytes} {b : Bool} (hc : C.request l = some (c, b)) :
        (c, b) :: k.filterMap C.request ⊆ (l :: k).filterMap C.request := by
      simp only [List.filterMap_cons, hc]
      exact List.Subset.refl _
    split at h
    · cases h
      simp only [goto, Function.update_self]
      exact hk
    · rename_i cmdName params htok
      split at h
      · rename_i isShell hc
        cases h
        have hreq : C.request l = some (cmdName, isShell) := by simp only [Commands.request, htok, hc]
        simp only [makeRequest, goto, Function.update_self]
        exact hmade hreq
      · rename_i hc
        split at h <;> cases h
        · rename_i isShell hhelp
          have hreq : C.request l = some (ascii "help", isShell) := by
            simp only [Commands.request, htok, hc, hhelp, Option.map_some]
          simp only [makeRequest, goto, Function.update_self]
          exact hmade hreq
        · simp only [goto, Function.update_self]
          exact hk
  | push r k =>
    have hk : k.filterMap C.request ⊆ (ConsolePc.push r k).toMake C := List.subset_cons_self _ _
    simp only [consoleStep, hp] at h
    split at h <;> cases h
    · simp only [goto, Function.update_self]
      exact List.nil_subset _
    · simp only [goto, Function.update_self]
      split <;> exact hk
  | process r k p =>
    simp only [consoleStep, hp, Option.map_eq_some_iff] at h
    obtain ⟨⟨u, n⟩, -, rfl⟩ := h
    simp only [goto, Function.update_self]
    cases n with
    | goto q | done => exact List.Subset.refl _
    | threw => exact List.nil_subset _
  | returned r k =>
    cases k <;> simp only [consoleStep, hp, Option.some.injEq] at h <;> subst h <;>
      simp only [goto, Function.update_self] <;> exact List.Subset.refl _

/-- What a step does to the thread under the mutex. -/
inductive InsideMove (C : Commands ι) (s : RequestServer ι) (a : Act ι) (t : RequestServer ι) : Prop
  | same (hin : t.inside = s.inside) (hpop : ∀ w p, a = w.act → s.critical w ≠ some p)
      (hq : (t.requestQueue.items = s.requestQueue.items ∧
          ∀ i r k, a = .console i → s.console i = .push r k → s.requestQueue.cancelled = true) ∨
        ∃ i r k, a = .console i ∧ s.console i = .push r k ∧
          t.requestQueue.items = s.requestQueue.items ++ [r])
  | enter (hlock : a = .loop ∨ ∃ i r k, a = .console i ∧ s.console i = .process r k .lock)
      (hs : s.inside = none) (ht : t.inside = some .size) (hq : t.requestQueue = s.requestQueue)
  | work {w : Worker ι} {p : ProcPc ι} {u : RequestServer ι} {n : Next ι} (ha : a = w.act)
      (hw : s.critical w = some p) (hu : s.processStep C w p = some (u, n))
      (ht : t.inside = n.critical) (hq : t.requestQueue = u.requestQueue)

omit [DecidableEq ι] in
theorem inside_congr (hm : t.mutex = s.mutex) (hcr : ∀ w, t.critical w = s.critical w) :
    t.inside = s.inside := by
  unfold inside
  rw [hm, funext hcr]

/-- The thread that works under the mutex keeps it until it unlocks or throws. -/
theorem inside_of_process {w : Worker ι} {p : ProcPc ι} {u : RequestServer ι} {n : Next ι}
    (hc : Core s) (hw : s.critical w = some p) (hu : s.processStep C w p = some (u, n))
    (hm : t.mutex = u.mutex) (hcr : t.critical w = n.critical) : t.inside = n.critical := by
  have hms := (hc.inside_eq hw).1
  have hkeep (hu : u.mutex = s.mutex) : t.inside = n.critical := by
    rw [inside, hm, hu, hms, Option.bind_some, hcr]
  have hleave (hu : u.mutex = none) (hn : n.critical = none) : t.inside = n.critical := by
    rw [inside, hm, hu, hn, Option.bind_none]
  cases p with
  | lock => exact absurd hw (critical_ne_lock s w)
  | pop =>
    simp only [processStep] at hu
    split at hu <;> cases hu
    · exact hkeep rfl
    · exact hleave rfl rfl
  | unlock =>
    cases hu
    exact hleave rfl rfl
  | size | execute r | delete r =>
    cases hu
    exact hkeep rfl

theorem insideMove_of_console {i : ι} (hc : Core s) (h : s.consoleStep C i = some t) :
    InsideMove C s (.console i) t := by
  obtain ⟨-, -, -, hloop, hcon⟩ := consoleStep_frame h
  have hother (w : Worker ι) (hw : w ≠ .handler i) : t.critical w = s.critical w := by
    cases w with
    | serverLoop => simp only [critical, hloop]
    | handler j => simp only [critical, hcon j (fun hj => hw (by rw [hj]))]
  have hsame (hm : t.mutex = s.mutex) (hi : (t.console i).critical = none)
      (hi' : (s.console i).critical = none)
      (hq : (t.requestQueue.items = s.requestQueue.items ∧
          ∀ r k, s.console i = .push r k → s.requestQueue.cancelled = true) ∨
        ∃ r k, s.console i = .push r k ∧ t.requestQueue.items = s.requestQueue.items ++ [r]) :
      InsideMove C s (.console i) t := by
    refine .same (inside_congr hm fun w => ?_) (fun w p ha => ?_) (hq.imp ?_ ?_)
    · by_cases hw : w = .handler i
      · subst hw
        exact hi.trans hi'.symm
      · exact hother w hw
    · cases w with
      | serverLoop => cases ha
      | handler j =>
        cases ha
        simp [critical, hi']
    · rintro ⟨hitems, hpush⟩
      refine ⟨hitems, fun j r k ha => ?_⟩
      cases ha
      exact hpush r k
    · rintro ⟨r, k, hr⟩
      exact ⟨i, r, k, rfl, hr⟩
  have hstay (hm : t.mutex = s.mutex) (hi : (t.console i).critical = none)
      (hi' : (s.console i).critical = none)
      (hitems : t.requestQueue.items = s.requestQueue.items)
      (hpush : ∀ r k, s.console i ≠ .push r k) : InsideMove C s (.console i) t :=
    hsame hm hi hi' (.inl ⟨hitems, fun r k hr => absurd hr (hpush r k)⟩)
  cases hp : s.console i with
  | idle | eval l k | threw => simp [consoleStep, hp] at h
  | shellTest l k | reissue l k =>
    simp only [consoleStep, hp, Option.some.injEq] at h
    subst h
    refine hstay rfl ?_ (by rw [hp]; rfl) rfl (by simp [hp])
    simp only [goto, Function.update_self]
    split <;> rfl
  | runningTest l k | dispatch l k =>
    simp only [consoleStep, hp] at h
    split at h <;> cases h <;>
      exact hstay rfl (by simp [goto]; rfl) (by rw [hp]; rfl) rfl (by simp [hp])
  | command l k =>
    have hi' : (s.console i).critical = none := by rw [hp]; rfl
    simp only [consoleStep, hp] at h
    split at h
    · cases h
      exact hstay rfl (by simp [goto]; rfl) hi' rfl (by simp [hp])
    · split at h
      · cases h
        exact hstay rfl (by simp [makeRequest, goto]; rfl) hi' rfl (by simp [hp])
      · split at h <;> cases h
        · exact hstay rfl (by simp [makeRequest, goto]; rfl) hi' rfl (by simp [hp])
        · exact hstay rfl (by simp [goto]; rfl) hi' rfl (by simp [hp])
  | push r k =>
    simp only [consoleStep, hp] at h
    split at h <;> cases h
    · rename_i hq
      refine hsame rfl (by simp [goto]; rfl) (by rw [hp]; rfl) (.inl ⟨rfl, fun _ _ _ => ?_⟩)
      simpa [CancelQueue.push] using hq
    · rename_i q hq
      obtain ⟨-, rfl⟩ := CancelQueue.push_eq_some.mp hq
      refine hsame rfl ?_ (by rw [hp]; rfl) (.inr ⟨r, k, hp, rfl⟩)
      simp only [goto, Function.update_self]
      split <;> rfl
  | process r k p =>
    simp only [consoleStep, hp, Option.map_eq_some_iff] at h
    obtain ⟨⟨u, n⟩, hu, rfl⟩ := h
    by_cases hlock : p = .lock
    · subst hlock
      simp only [processStep] at hu
      split at hu <;> cases hu
      rename_i hnone
      refine .enter (.inr ⟨i, r, k, rfl, hp⟩) (by simp [inside, hnone]) ?_ rfl
      simp [inside, goto, critical, ConsolePc.critical, ProcPc.critical]
    · have hw : s.critical (.handler i) = some p := by
        rw [critical, hp]
        cases p with
        | lock => exact absurd rfl hlock
        | _ => rfl
      refine .work rfl hw hu (inside_of_process hc hw hu rfl ?_) rfl
      rw [critical_goto, if_pos rfl]
      cases n <;> rfl
  | returned r k =>
    cases k <;> simp only [consoleStep, hp, Option.some.injEq] at h <;> subst h <;>
      exact hstay rfl (by simp [goto]; rfl) (by rw [hp]; rfl) rfl (by simp [hp])

theorem insideMove_of_loop (hc : Core s) (h : s.loopStep C = some t) : InsideMove C s .loop t := by
  obtain ⟨-, -, -, hcon, -⟩ := loopStep_frame h
  have hsame (hm : t.mutex = s.mutex) (hi : t.loop.critical = none) (hi' : s.loop.critical = none)
      (hq : t.requestQueue.items = s.requestQueue.items) : InsideMove C s .loop t := by
    refine .same (inside_congr hm fun w => ?_) (fun w p ha => ?_) (.inl ⟨hq, nofun⟩)
    · cases w with
      | serverLoop => exact hi.trans hi'.symm
      | handler j => simp only [critical, hcon]
    · cases w with
      | handler j => cases ha
      | serverLoop => simp [critical, hi']
  cases hp : s.loop with
  | joinThreads | threw => simp [loopStep, hp] at h
  | test | sizeTest | stepTest | drainTest =>
    simp only [loopStep, hp, Option.some.injEq] at h
    subst h
    refine hsame rfl ?_ (by rw [hp]; rfl) rfl
    dsimp only
    split <;> rfl
  | cancelReset =>
    simp only [loopStep, hp, Option.some.injEq] at h
    subst h
    exact hsame rfl rfl (by rw [hp]; rfl) rfl
  | barrier =>
    simp only [loopStep, hp] at h
    split at h
    · cases h
      exact hsame rfl rfl (by rw [hp]; rfl) rfl
    · split at h <;> cases h
      exact hsame rfl rfl (by rw [hp]; rfl) rfl
  | process p | drain p =>
    simp only [loopStep, hp, Option.map_eq_some_iff] at h
    obtain ⟨⟨u, n⟩, hu, rfl⟩ := h
    by_cases hlock : p = .lock
    · subst hlock
      simp only [processStep] at hu
      split at hu <;> cases hu
      rename_i hnone
      refine .enter (.inl rfl) (by simp [inside, hnone]) ?_ rfl
      simp [inside, critical, LoopPc.critical, ProcPc.critical]
    · have hw : s.critical .serverLoop = some p := by
        rw [critical, hp]
        cases p with
        | lock => exact absurd rfl hlock
        | _ => rfl
      refine .work (w := .serverLoop) rfl hw hu (inside_of_process hc hw hu rfl ?_) rfl
      cases n <;> rfl

theorem insideMove_of_step (hc : Core s) (h : step C s a = some t) : InsideMove C s a t := by
  cases a with
  | console i => exact insideMove_of_console hc h
  | loop => exact insideMove_of_loop hc h
  | stop =>
    cases h
    exact .same rfl (fun w p ha => (by cases w <;> cases ha)) (.inl ⟨rfl, (by simp)⟩)
  | cancel =>
    simp only [step] at h
    split at h <;> cases h
    exact .same rfl (fun w p ha => (by cases w <;> cases ha)) (.inl ⟨rfl, (by simp)⟩)
  | line i l | evalEnds i left =>
    simp only [step] at h
    split at h <;> cases h
    rename_i hi
    refine .same (inside_congr rfl fun w => ?_) (fun w p ha => (by cases w <;> cases ha)) (.inl ⟨rfl, (by simp)⟩)
    rw [critical_goto]
    split
    · rename_i hw
      subst hw
      simp only [critical, hi]
      rfl
    · cases w <;> rfl

/-- A console that neither is under the mutex nor waits for it leaves alone who is inside. -/
theorem inside_of_lone {i : ι} (hc : Core s) (h : s.consoleStep C i = some t)
    (hcr : s.critical (.handler i) = none) (hlock : ∀ r k, s.console i ≠ .process r k .lock) :
    t.inside = s.inside ∧
      ((t.requestQueue.items = s.requestQueue.items ∧
          ∀ r k, s.console i = .push r k → s.requestQueue.cancelled = true) ∨
        ∃ r k, s.console i = .push r k ∧ t.requestQueue.items = s.requestQueue.items ++ [r]) := by
  cases insideMove_of_console hc h with
  | same hin _ hq =>
    refine ⟨hin, ?_⟩
    rcases hq with ⟨hq, hpush⟩ | ⟨j, r, k, hj, hx, hq⟩
    · exact .inl ⟨hq, fun r k => hpush i r k rfl⟩
    · cases hj
      exact .inr ⟨r, k, hx, hq⟩
  | enter hstart =>
    rcases hstart with hx | ⟨j, r, k, hj, hx⟩
    · cases hx
    · cases hj
      exact absurd hx (hlock r k)
  | work hj hx =>
    obtain rfl := Worker.act_injective (w := .handler i) hj
    cases hcr.symm.trans hx

theorem step_flags (h : step C s a = some t) (hstop : a ≠ .stop) (hcancel : a ≠ .cancel) :
    t.running = s.running ∧ t.stopping = s.stopping := by
  cases a with
  | stop => exact absurd rfl hstop
  | cancel => exact absurd rfl hcancel
  | loop =>
    obtain ⟨h1, -, h2, -⟩ := loopStep_frame h
    exact ⟨h1, h2⟩
  | console i =>
    obtain ⟨h1, -, h2, -⟩ := consoleStep_frame h
    exact ⟨h1, h2⟩
  | line i l | evalEnds i left =>
    simp only [step] at h
    split at h <;> cases h
    exact ⟨rfl, rfl⟩

/-- A server whose `stop` has been called, or whose loop has seen that it was. -/
def Halting (s : RequestServer ι) (stopper : Option (Worker ι × Request ι)) : Prop :=
  s.requestQueue.cancelled = true ∨ 0 < s.stopping ∨ stopper ≠ none ∨
    s.loop = .cancelReset ∨ s.loop.late = true

end RequestServer

namespace NetworkedServer

variable {ι : Type*} [DecidableEq ι] {C : Commands ι} {s t : NetworkedServer ι} {a : Act ι}

theorem halting_of_move {u : RequestServer ι} {x : Option (Worker ι × Request ι)}
    (hs : s.server.Halting s.stopper → s.server.running = false) (hm : ServerMove C s a u x)
    (hu : u.Halting x) : u.running = false := by
  cases hm with
  | stay => exact hs hu
  | cancel ha hx => exact hs (.inr (.inr (.inl (by simp [hx]))))
  | stop ha hx hw hr h => rfl
  | move ha hl hne h =>
    rename_i b
    by_cases hstop : b = .stop
    · subst hstop
      cases h
      rfl
    by_cases hcancel : b = .cancel
    · subst hcancel
      simp only [RequestServer.step] at h
      split at h <;> cases h
      rename_i hpos
      exact hs (.inr (.inl hpos))
    obtain ⟨hrun, hstopping⟩ := RequestServer.step_flags h hstop hcancel
    rw [hrun]
    rcases hu with hq | hpos | hx | hloop
    · rcases RequestServer.step_cancelled h hcancel with hsame | ⟨-, -, hreset⟩
      · exact hs (.inl (hsame ▸ hq))
      · simp [hq] at hreset
    · exact hs (.inr (.inl (hstopping ▸ hpos)))
    · exact hs (.inr (.inr (.inl hx)))
    · by_cases hb : b = .loop
      · subst hb
        cases RequestServer.loopMove_of_step h with
        | serve hs' ht hreset =>
          rcases hloop with hloop | hloop
          · exact (hreset hloop).elim id fun hq => hs (.inl hq)
          · simp [hloop] at ht
        | reset hs' ht => exact hs (.inr (.inr (.inr (.inl hs'))))
        | drain hs' ht =>
          refine hs (.inr (.inr (.inr (.inr ?_))))
          rcases hs' with hs' | ⟨p, hs'⟩ <;> rw [hs'] <;> rfl
        | join hs' hq ht => exact hs (.inr (.inr (.inr (.inr (by rw [hs']; rfl)))))
        | threw hs' hq ht => exact hs (.inl hq)
      · rw [RequestServer.step_loop h hb] at hloop
        exact hs (.inr (.inr (.inr hloop)))

/-- Once `stop` has been called the server is not running, and so it is when the
server loop resets the queue and drains it. -/
theorem running_of_reach {D : NetworkedServer ι → Act ι → Prop} (h : Reach (shutdownSystem C) D s) :
    s.server.Halting s.stopper → s.server.running = false := by
  apply h.invariant (fun s => s.server.Halting s.stopper → s.server.running = false)
  · rintro _ rfl
    simp [start, RequestServer.start, RequestServer.Halting, LoopPc.late, CancelQueue.empty]
  · intro s a t _ hs _ ht
    exact halting_of_move hs (move_of_step ht)

/-- The request of a worker that has not let go of its console yet. -/
def heldBy (stopper : Option (Worker ι × Request ι)) : ProcPc ι → List (Request ι)
  | .execute r => [r]
  | .delete r => if r.leaves && stopper.isNone then [] else [r]
  | _ => []

/-- The requests that have been pushed and hold their console. -/
def holding (s : NetworkedServer ι) : List (Request ι) :=
  s.server.inside.elim [] (heldBy s.stopper) ++ s.server.requestQueue.items

/-- A request that has got its console and is about to be pushed. -/
def pushing : ConsolePc ι → ℕ
  | .push _ _ => 1
  | _ => 0

/-- The use counts, and the thread that is inside `stop`. -/
structure Counted (s : NetworkedServer ι) : Prop where
  uses : ∀ i, s.useCount i = s.holding.countP (fun r => r.console = i) + pushing (s.server.console i)
  stopper : ∀ w r, s.stopper = some (w, r) →
    s.server.critical w = some (.delete r) ∧ r.isShutdown = true

omit [DecidableEq ι] in
theorem leaves_of_isShutdown {r : Request ι} (h : r.isShutdown = true) : r.leaves = true := by
  have hc : r.cmdName = ascii "shutdown" := by simpa [Request.isShutdown] using h
  rw [Request.leaves, hc]
  decide +kernel

theorem counted_start : Counted (start : NetworkedServer ι) := by
  constructor <;>
    simp [start, RequestServer.start, holding, pushing, RequestServer.inside, CancelQueue.empty]

/-- A thread that does not move stays where it is. -/
theorem critical_of_step {b : RequestServer.Act ι} {u : RequestServer ι} {w : Worker ι}
    (h : s.server.step C b = some u) (hb : b ≠ w.act) (hw : s.server.critical w ≠ none) :
    u.critical w = s.server.critical w := by
  cases w with
  | serverLoop =>
    have hl := RequestServer.step_loop h hb
    simp only [RequestServer.critical, hl]
  | handler i =>
    cases b with
    | stop =>
      cases h
      rfl
    | cancel =>
      simp only [RequestServer.step] at h
      split at h <;> cases h
      rfl
    | loop =>
      obtain ⟨-, -, -, hcon, -⟩ := RequestServer.loopStep_frame h
      simp only [RequestServer.critical, hcon]
    | console j =>
      have hij : i ≠ j := by
        rintro rfl
        exact hb rfl
      simp only [RequestServer.critical, (RequestServer.consoleStep_frame h).2.2.2.2 i hij]
    | line j l | evalEnds j left =>
      simp only [RequestServer.step] at h
      split at h <;> cases h
      rename_i hj
      rw [RequestServer.critical_goto]
      split
      · rename_i hij
        cases hij
        simp [RequestServer.critical, hj, ConsolePc.critical] at hw
      · rfl

/-- The thread that is inside `stop` stays there until its own next step. -/
theorem stopper_of_move {u : RequestServer ι} {x : Option (Worker ι × Request ι)} (hs : Counted s)
    (hm : ServerMove C s a u x) {w : Worker ι} {r : Request ι} (hw : x = some (w, r)) :
    u.critical w = some (.delete r) ∧ r.isShutdown = true := by
  cases hm with
  | stay => exact hs.stopper w r hw
  | cancel ha hx => cases hw
  | stop ha hx hcr hr h =>
    cases hw
    have hu := (RequestServer.execute_queue hcr h).2
    refine ⟨?_, hr⟩
    cases w <;> exact hu
  | move ha hl hx h =>
    obtain ⟨hcr, hr⟩ := hs.stopper w r hw
    refine ⟨(critical_of_step h ?_ (by simp [hcr])).trans hcr, hr⟩
    intro hb
    exact hx w hb (by simp [hw])

/-- Two threads are not under the mutex at once, so whoever works there is not inside
`stop`, and nobody else is. -/
theorem stopper_eq_none (hv : Shutting s) (hs : Counted s) {w : Worker ι} {p : ProcPc ι}
    (hx : s.stopper.map Prod.fst ≠ some w) (hw : s.server.critical w = some p) :
    s.stopper = none := by
  cases hstop : s.stopper with
  | none => rfl
  | some x =>
    obtain ⟨w', r⟩ := x
    have h1 := (hv.core.inside_eq (hs.stopper w' r hstop).1).1
    have h2 := (hv.core.inside_eq hw).1
    cases h1.symm.trans h2
    simp [hstop] at hx

theorem command_of_push {i : ι} {s u : RequestServer ι} {r : Request ι} {k : List Bytes}
    (h : s.consoleStep C i = some u) (hu : u.console i = .push r k) :
    ∃ l k', s.console i = .command l k' := by
  cases hp : s.console i with
  | idle | eval l k | threw => simp [RequestServer.consoleStep, hp] at h
  | command l k => exact ⟨l, k, rfl⟩
  | shellTest l k | reissue l k =>
    simp only [RequestServer.consoleStep, hp, Option.some.injEq] at h
    subst h
    simp only [RequestServer.goto, Function.update_self] at hu
    split at hu <;> cases hu
  | runningTest l k | dispatch l k =>
    simp only [RequestServer.consoleStep, hp] at h
    split at h <;> cases h <;> simp [RequestServer.goto] at hu
  | push r k =>
    simp only [RequestServer.consoleStep, hp] at h
    split at h <;> cases h
    · simp [RequestServer.goto] at hu
    · simp only [RequestServer.goto, Function.update_self] at hu
      split at hu <;> cases hu
  | process r k p =>
    simp only [RequestServer.consoleStep, hp, Option.map_eq_some_iff] at h
    obtain ⟨⟨v, n⟩, -, rfl⟩ := h
    cases n <;> simp [RequestServer.goto] at hu
  | returned r k =>
    cases k <;> simp only [RequestServer.consoleStep, hp, Option.some.injEq] at h <;> subst h <;>
      simp [RequestServer.goto] at hu

omit [DecidableEq ι] in
theorem pushing_eq_zero {p : ConsolePc ι} (h : ∀ r k, p ≠ .push r k) : pushing p = 0 := by
  cases p with
  | push r k => exact absurd rfl (h r k)
  | _ => rfl

/-- A thread that works and does not push leaves alone which consoles are about to. -/
theorem pushing_of_step {w : Worker ι} {u : RequestServer ι} (h : s.server.step C w.act = some u)
    (hs : ∀ i r k, w = .handler i → s.server.console i ≠ .push r k)
    (hu : ∀ i r k, w = .handler i → u.console i ≠ .push r k) (i : ι) :
    pushing (u.console i) = pushing (s.server.console i) := by
  cases w with
  | serverLoop => rw [(RequestServer.loopStep_frame h).2.2.2.1]
  | handler j =>
    by_cases hij : i = j
    · subst hij
      rw [pushing_eq_zero fun r k => hu i r k rfl, pushing_eq_zero fun r k => hs i r k rfl]
    · rw [(RequestServer.consoleStep_frame h).2.2.2.2 i hij]

omit [DecidableEq ι] in
/-- What a push does to the count of the requests that hold a console. -/
theorem countP_push [DecidableEq ι] {held items : List (Request ι)} {r : Request ι} {i : ι}
    (hi : r.console = i) (j : ι) :
    (held ++ (items ++ [r])).countP (fun r => r.console = j) =
      (held ++ items).countP (fun r => r.console = j) + if j = i then 1 else 0 := by
  rw [← List.append_assoc, List.countP_append, List.countP_singleton]
  by_cases hj : j = i
  · simp [hj, hi]
  · have : r.console ≠ j := by rw [hi]; exact Ne.symm hj
    simp [hj, this]

theorem workerStep_of_none {w : Worker ι} {u : RequestServer ι} (h : s.server.critical w = none) :
    s.workerStep w u = { s with server := u } := by
  simp only [workerStep, h]

/-- The use counts after a step that is no thread's. -/
theorem uses_other {b : RequestServer.Act ι} {u : RequestServer ι} (hv : Shutting s) (hs : Counted s)
    (hb : ∀ w : Worker ι, b ≠ w.act) (h : s.server.step C b = some u)
    (hp : ∀ i, pushing (u.console i) = pushing (s.server.console i)) (i : ι) :
    s.useCount i = (u.inside.elim [] (heldBy s.stopper) ++ u.requestQueue.items).countP
      (fun r => r.console = i) + pushing (u.console i) := by
  rw [hp, hs.uses i, holding]
  cases RequestServer.insideMove_of_step hv.core h with
  | same hin _ hq =>
    rcases hq with ⟨hq, -⟩ | ⟨j, _, _, hx, -⟩
    · rw [hin, hq]
    · exact absurd hx (hb (.handler j))
  | enter hlock _ _ _ =>
    rcases hlock with hx | ⟨j, _, _, hx, -⟩
    · exact absurd hx (hb .serverLoop)
    · exact absurd hx (hb (.handler j))
  | work hx => exact absurd hx (hb _)

/-- The use counts after a step under the mutex. -/
theorem uses_work {w : Worker ι} {p : ProcPc ι} {u v : RequestServer ι} {n : RequestServer.Next ι}
    (hv : Shutting s) (hs : Counted s) (hx : s.stopper.map Prod.fst ≠ some w)
    (hw : s.server.critical w = some p) (hp : s.server.processStep C w p = some (v, n))
    (hin : u.inside = n.critical) (hq : u.requestQueue = v.requestQueue)
    (hpush : ∀ i, pushing (u.console i) = pushing (s.server.console i)) (i : ι) :
    (s.workerStep w u).useCount i = (s.workerStep w u).holding.countP (fun r => r.console = i) +
      pushing ((s.workerStep w u).server.console i) := by
  have hstop := stopper_eq_none hv hs hx hw
  have hu := hs.uses i
  rw [holding, (hv.core.inside_eq hw).2, Option.elim_some, hstop] at hu
  -- the steps that leave the use counts alone
  have hplain (hws : s.workerStep w u = { s with server := u })
      (hheld : n.critical.elim [] (heldBy none) ++ v.requestQueue.items =
        heldBy none p ++ s.server.requestQueue.items) :
      (s.workerStep w u).useCount i = (s.workerStep w u).holding.countP (fun r => r.console = i) +
        pushing ((s.workerStep w u).server.console i) := by
    rw [hws]
    show s.useCount i = (u.inside.elim [] (heldBy s.stopper) ++ u.requestQueue.items).countP _ +
      pushing (u.console i)
    rw [hin, hq, hstop, hheld, hpush, hu]
  -- the steps that let go of the console of `r`
  have hput {r : Request ι} (hws : s.workerStep w u = { s with server := u }.put r.console)
      (hold : heldBy none p = [r]) (hnew : n.critical.elim [] (heldBy none) = [])
      (hitems : v.requestQueue.items = s.server.requestQueue.items) :
      (s.workerStep w u).useCount i = (s.workerStep w u).holding.countP (fun r => r.console = i) +
        pushing ((s.workerStep w u).server.console i) := by
    rw [hold, List.singleton_append, List.countP_cons] at hu
    rw [hws]
    show Function.update s.useCount r.console (s.useCount r.console - 1) i =
      (u.inside.elim [] (heldBy s.stopper) ++ u.requestQueue.items).countP _ + pushing (u.console i)
    rw [hin, hq, hstop, hnew, hitems, hpush, List.nil_append]
    by_cases hi : i = r.console
    · subst hi
      rw [Function.update_self, hu]
      simp
    · rw [Function.update_of_ne hi, hu]
      simp [Ne.symm hi]
  cases p with
  | lock => exact absurd hw (RequestServer.critical_ne_lock s.server w)
  | size =>
    cases hp
    refine hplain (by simp only [workerStep, hw]) ?_
    split <;> rfl
  | pop =>
    refine hplain (by simp only [workerStep, hw]) ?_
    simp only [RequestServer.processStep] at hp
    split at hp <;> cases hp
    · rename_i hpop
      rw [(CancelQueue.pop_eq_item.mp hpop).2.1]
      rfl
    · rfl
  | execute r =>
    cases hp
    by_cases hshut : r.isShutdown = true
    · have hws : s.workerStep w u = { s with
          server := { u with running := false }
          stopper := some (w, r)
          queuedAtStop := s.queuedAtStop ++ u.requestQueue.items } := by
        simp only [workerStep, hw, hshut, ↓reduceIte]
      rw [hws]
      have hin' : ({ u with running := false } : RequestServer ι).inside = u.inside :=
        RequestServer.inside_congr rfl fun w => by cases w <;> rfl
      show s.useCount i = ((RequestServer.inside { u with running := false }).elim [] (heldBy (some (w, r))) ++
        u.requestQueue.items).countP _ + pushing (u.console i)
      have hheld : heldBy (some (w, r)) (.delete r) = [r] := by simp [heldBy]
      have hcr : (RequestServer.Next.goto (ProcPc.delete r)).critical = some (.delete r) := rfl
      rw [hin', hin, hq, hpush, hu, hcr, Option.elim_some, hheld]
      rfl
    · by_cases hleaves : r.leaves = true
      · exact hput (by simp only [workerStep, hw, hshut, hleaves, ↓reduceIte, Bool.false_eq_true]) rfl
          (by simp [RequestServer.Next.critical, ProcPc.critical, heldBy, hleaves]) rfl
      · exact hplain (by simp only [workerStep, hw, hshut, hleaves, ↓reduceIte, Bool.false_eq_true])
          (by simp [RequestServer.Next.critical, ProcPc.critical, heldBy, hleaves, RequestServer.execute,
            RequestServer.send])
  | delete r =>
    cases hp
    by_cases hleaves : r.leaves = true
    · exact hplain (by simp only [workerStep, hw, hleaves, ↓reduceIte])
        (by simp [RequestServer.Next.critical, ProcPc.critical, heldBy, hleaves, RequestServer.delete,
          RequestServer.send])
    · exact hput (r := r) (by simp only [workerStep, hw, hleaves, ↓reduceIte, Bool.false_eq_true])
        (by simp [heldBy, hleaves]) rfl rfl
  | unlock =>
    cases hp
    exact hplain (by simp only [workerStep, hw]) rfl

/-- The use counts after the end of the `stop` in a request. -/
theorem uses_stopped (hv : Shutting s) (hs : Counted s) {w : Worker ι} {r : Request ι}
    (hstop : s.stopper = some (w, r)) (i : ι) :
    (s.stopped r).useCount i = (s.stopped r).holding.countP (fun r => r.console = i) +
      pushing ((s.stopped r).server.console i) := by
  obtain ⟨hw, hshut⟩ := hs.stopper w r hstop
  have hu := hs.uses i
  have hheld : heldBy (some (w, r)) (.delete r) = [r] := by simp [heldBy]
  have hlets : heldBy none (.delete r) = [] := by simp [heldBy, leaves_of_isShutdown hshut]
  have hin : ({ s.server with requestQueue := s.server.requestQueue.cancel } : RequestServer ι).inside =
      s.server.inside := RequestServer.inside_congr rfl fun w => by cases w <;> rfl
  rw [holding, (hv.core.inside_eq hw).2, Option.elim_some, hstop, hheld, List.singleton_append,
    List.countP_cons] at hu
  show Function.update s.useCount r.console (s.useCount r.console - 1) i =
    ((RequestServer.inside { s.server with requestQueue := s.server.requestQueue.cancel }).elim []
      (heldBy none) ++ s.server.requestQueue.items).countP _ + pushing (s.server.console i)
  rw [hin, (hv.core.inside_eq hw).2, Option.elim_some, hlets, List.nil_append]
  by_cases hi : i = r.console
  · subst hi
    rw [Function.update_self, hu]
    simp
  · rw [Function.update_of_ne hi, hu]
    simp [Ne.symm hi]

/-- The use counts after a console has made a request. -/
theorem uses_gets (hv : Shutting s) (hs : Counted s) {j : ι} {r : Request ι} {k : List Bytes}
    {u : RequestServer ι} (hu : s.server.consoleStep C j = some u) (hp : u.console j = .push r k) (i : ι) :
    Function.update s.useCount j (s.useCount j + 1) i =
      (u.inside.elim [] (heldBy s.stopper) ++ u.requestQueue.items).countP (fun r => r.console = i) +
        pushing (u.console i) := by
  obtain ⟨l, k', hcommand⟩ := command_of_push hu hp
  have hcr : s.server.critical (.handler j) = none := by
    simp [RequestServer.critical, hcommand, ConsolePc.critical]
  obtain ⟨hin, hq⟩ := RequestServer.inside_of_lone hv.core hu hcr (by simp [hcommand])
  have hitems : u.requestQueue.items = s.server.requestQueue.items := by
    rcases hq with ⟨hq, -⟩ | ⟨r', k', hx, -⟩
    · exact hq
    · cases hcommand.symm.trans hx
  rw [hin, hitems, ← holding]
  by_cases hi : i = j
  · subst hi
    rw [Function.update_self, hs.uses i, hp, hcommand]
    rfl
  · rw [Function.update_of_ne hi, hs.uses i, (RequestServer.consoleStep_frame hu).2.2.2.2 i hi]

/-- The use counts after a console has pushed its request. -/
theorem uses_pushes (hv : Shutting s) (hs : Counted s) {j : ι} {r : Request ι} {k : List Bytes}
    {u : RequestServer ι} (hopen : s.server.requestQueue.cancelled = false)
    (hu : s.server.consoleStep C j = some u) (hj : s.server.console j = .push r k)
    (hp : ∀ r k, u.console j ≠ .push r k) (i : ι) :
    s.useCount i =
      (u.inside.elim [] (heldBy s.stopper) ++ u.requestQueue.items).countP (fun r => r.console = i) +
        pushing (u.console i) := by
  have hcr : s.server.critical (.handler j) = none := by
    simp [RequestServer.critical, hj, ConsolePc.critical]
  have hcon : r.console = j := by
    have hw := hv.consoles.waits j
    rw [hj] at hw
    exact hw.1
  obtain ⟨hin, hq⟩ := RequestServer.inside_of_lone hv.core hu hcr (by simp [hj])
  rcases hq with ⟨-, hcancelled⟩ | ⟨r', k', hx, hitems⟩
  · cases hopen.symm.trans (hcancelled r k hj)
  · cases hj.symm.trans hx
    rw [hin, hitems, countP_push hcon, hs.uses i, holding]
    by_cases hi : i = j
    · subst hi
      rw [if_pos rfl, hj, pushing_eq_zero hp]
      rfl
    · rw [if_neg hi, (RequestServer.consoleStep_frame hu).2.2.2.2 i hi, Nat.add_zero]

/-- The use counts after any other step of a worker. -/
theorem uses_works (hv : Shutting s) (hs : Counted s) {w : Worker ι} {u : RequestServer ι}
    (hstop : s.stopper.map Prod.fst ≠ some w) (hu : s.server.step C w.act = some u)
    (hpush : ∀ j r k, w = .handler j → s.server.console j ≠ .push r k)
    (hp : ∀ j r k, w = .handler j → u.console j ≠ .push r k) (i : ι) :
    (s.workerStep w u).useCount i = (s.workerStep w u).holding.countP (fun r => r.console = i) +
      pushing ((s.workerStep w u).server.console i) := by
  have hsame := pushing_of_step hu hpush hp
  -- outside of the mutex the worker changes neither who is inside nor the queue
  have hplain (hcr : s.server.critical w = none)
      (hheld : u.inside.elim [] (heldBy s.stopper) ++ u.requestQueue.items = s.holding) :
      (s.workerStep w u).useCount i = (s.workerStep w u).holding.countP (fun r => r.console = i) +
        pushing ((s.workerStep w u).server.console i) := by
    rw [workerStep_of_none hcr]
    show s.useCount i = (u.inside.elim [] (heldBy s.stopper) ++ u.requestQueue.items).countP _ +
      pushing (u.console i)
    rw [hheld, hsame, hs.uses i]
  cases RequestServer.insideMove_of_step hv.core hu with
  | same hin hpop hq =>
    have hcr : s.server.critical w = none := by
      cases hcr : s.server.critical w with
      | none => rfl
      | some p => exact absurd hcr (hpop w p rfl)
    apply hplain hcr
    rcases hq with ⟨hq, -⟩ | ⟨j, r, k, hj, hx, -⟩
    · rw [hin, hq, holding]
    · exact absurd hx (hpush j r k (Worker.act_injective hj))
  | enter _ hnone hsome hq =>
    have hcr : s.server.critical w = none := by
      by_contra hx
      obtain ⟨p, hp⟩ := Option.ne_none_iff_exists'.mp hx
      cases hnone.symm.trans (hv.core.inside_eq hp).2
    apply hplain hcr
    rw [hsome, hq, holding, hnone]
    rfl
  | work hw hcr hx hin hq =>
    obtain rfl := Worker.act_injective hw
    exact uses_work hv hs hstop hcr hx hin hq hsame i

theorem counted_step (hv : Shutting s) (hs : Counted s) (ha : unseen s a)
    (h : s.step C a = some t) : Counted t := by
  refine ⟨fun i => ?_, fun w r hw => stopper_of_move hs (move_of_step h) hw⟩
  cases a with
  | accept j | leave j | destroy j =>
    simp only [step] at h
    split at h <;> cases h
    exact hs.uses i
  | line j l =>
    simp only [step] at h
    split at h
    · obtain ⟨u, hu, rfl⟩ := Option.map_eq_some_iff.mp h
      refine uses_other hv hs (fun w hw => by cases w <;> cases hw) hu (fun i' => ?_) i
      simp only [RequestServer.step] at hu
      split at hu <;> cases hu
      rename_i hidle
      by_cases hi : i' = j
      · simp [RequestServer.goto, hi, hidle, pushing]
      · simp [RequestServer.goto, hi]
    · cases h
  | evalEnds j left =>
    obtain ⟨u, hu, rfl⟩ := Option.map_eq_some_iff.mp h
    refine uses_other hv hs (fun w hw => by cases w <;> cases hw) hu (fun i' => ?_) i
    simp only [RequestServer.step] at hu
    split at hu <;> cases hu
    rename_i heval
    by_cases hi : i' = j
    · simp [RequestServer.goto, hi, heval, pushing]
    · simp [RequestServer.goto, hi]
  | stop =>
    cases h
    exact uses_other (C := C) hv hs (b := .stop) (fun w hw => by cases w <;> cases hw) rfl (fun _ => rfl) i
  | cancel =>
    obtain ⟨u, hu, rfl⟩ := Option.map_eq_some_iff.mp h
    refine uses_other hv hs (fun w hw => by cases w <;> cases hw) hu (fun i' => ?_) i
    simp only [RequestServer.step] at hu
    split at hu <;> cases hu
    rfl
  | thread w =>
    cases threadMove_of_step h with
    | stopListening _ _ ht | join _ _ _ _ ht | loopReturns _ _ _ _ ht =>
      subst ht
      exact hs.uses i
    | stopped hstop ht =>
      subst ht
      exact uses_stopped hv hs hstop i
    | gets hw hstop hu hp ht =>
      subst ht
      exact uses_gets hv hs hu hp i
    | works hstop hl hu hp ht =>
      subst ht
      by_cases hpush : ∃ j r k, w = .handler j ∧ s.server.console j = .push r k
      · obtain ⟨j, r, k, rfl, hj⟩ := hpush
        have hopen : s.server.requestQueue.cancelled = false := ha.1 (by simp [Act.usesQueue, hj])
        have hcr : s.server.critical (.handler j) = none := by
          simp [RequestServer.critical, hj, ConsolePc.critical]
        rw [workerStep_of_none hcr]
        exact uses_pushes hv hs hopen hu hj (fun r k => hp j r k rfl) i
      · exact uses_works hv hs hstop hu (fun j r k hw hx => hpush ⟨j, r, k, hw, hx⟩) hp i

theorem counted_of_reach (h : Reach (shutdownSystem C) unseen s) : Counted s := by
  apply h.invariant
  · rintro _ rfl
    exact counted_start
  · intro s a t hr hs ha ht
    exact counted_step (shutting_of_reach hr) hs ha ht

end NetworkedServer

end CogServer
