import CogServer.RequestManager

/-! Requests run once each and in order, one at a time, and a console has its
shell before it reads on. -/
namespace CogServer

open Transition

/-- The position of a thread in `processRequests`, if it holds the mutex. -/
def ProcPc.critical {ι : Type*} : ProcPc ι → Option (ProcPc ι)
  | .lock => none
  | p => some p

/-- The request that is popped and not yet executed. -/
def ProcPc.executing {ι : Type*} : ProcPc ι → List (Request ι)
  | .execute r => [r]
  | _ => []

def ProcPc.deleting {ι : Type*} : ProcPc ι → List (Request ι)
  | .delete r => [r]
  | _ => []

def ConsolePc.critical {ι : Type*} : ConsolePc ι → Option (ProcPc ι)
  | .process _ _ p => p.critical
  | _ => none

def LoopPc.critical {ι : Type*} : LoopPc ι → Option (ProcPc ι)
  | .process p | .drain p => p.critical
  | _ => none

/-- Positions of the server loop while nobody calls `stop`. -/
def LoopPc.serving {ι : Type*} : LoopPc ι → Bool
  | .test | .barrier | .sizeTest | .stepTest | .process _ => true
  | _ => false

namespace RequestServer

variable {ι : Type*} {C : Commands ι} {s t u : RequestServer ι}

def critical (s : RequestServer ι) : Worker ι → Option (ProcPc ι)
  | .handler i => (s.console i).critical
  | .serverLoop => s.loop.critical

/-- The position of whoever holds the mutex. -/
def inside (s : RequestServer ι) : Option (ProcPc ι) := s.mutex.bind s.critical

/-- The queue and the mutex. -/
structure Core (s : RequestServer ι) : Prop where
  holder : ∀ w, s.mutex = some w ↔ s.critical w ≠ none
  queue : s.pushed =
    s.executed ++ (s.inside.elim [] ProcPc.executing) ++ s.requestQueue.items
  deleted : s.executed = s.deleted ++ s.inside.elim [] ProcPc.deleting
  popping : s.inside = some .pop → s.requestQueue.items ≠ []

theorem core_start : Core (start : RequestServer ι) := by
  constructor <;> simp [start, inside, critical, CancelQueue.empty]
  intro w
  cases w <;> simp [ConsolePc.critical, LoopPc.critical]

/-- A step outside the mutex. -/
theorem Core.frame (hc : Core s) (hq : t.requestQueue.items = s.requestQueue.items)
    (hm : t.mutex = s.mutex) (hp : t.pushed = s.pushed) (he : t.executed = s.executed)
    (hd : t.deleted = s.deleted) (hcr : ∀ w, t.critical w = s.critical w) : Core t := by
  have hi : t.inside = s.inside := by
    unfold inside
    rw [hm, funext hcr]
  constructor
  · intro w; rw [hm, hcr]; exact hc.holder w
  · rw [hp, he, hi, hq]; exact hc.queue
  · rw [he, hd, hi]; exact hc.deleted
  · rw [hi, hq]; exact hc.popping

/-- A push puts the request behind all others. -/
theorem Core.push (hc : Core s) {r : Request ι} {q : CancelQueue (Request ι)}
    (hq : s.requestQueue.push r = some q) (htq : t.requestQueue = q) (hm : t.mutex = s.mutex)
    (hp : t.pushed = s.pushed ++ [r]) (he : t.executed = s.executed) (hd : t.deleted = s.deleted)
    (hcr : ∀ w, t.critical w = s.critical w) : Core t := by
  have hi : t.inside = s.inside := by
    unfold inside
    rw [hm, funext hcr]
  obtain ⟨-, rfl⟩ := CancelQueue.push_eq_some.mp hq
  constructor
  · intro w; rw [hm, hcr]; exact hc.holder w
  · rw [hp, he, hi, htq, hc.queue]; simp
  · rw [he, hd, hi]; exact hc.deleted
  · rw [htq]; simp

/-- The position after a step. -/
def Next.critical : Next ι → Option (ProcPc ι)
  | .goto p => p.critical
  | .done | .threw => none

/-- A position under the mutex is the holder's position. -/
theorem Core.inside_eq (hc : Core s) {w : Worker ι} {p : ProcPc ι} (h : s.critical w = some p) :
    s.mutex = some w ∧ s.inside = some p := by
  have hm : s.mutex = some w := (hc.holder w).mpr (by simp [h])
  exact ⟨hm, by rw [inside, hm, Option.bind_some, h]⟩

/-- What its holder has in its hands stands between the executed requests and the queue. -/
theorem Core.queue_at (hc : Core s) {w : Worker ι} {p : ProcPc ι} (h : s.critical w = some p) :
    s.pushed = s.executed ++ p.executing ++ s.requestQueue.items := by
  have hq := hc.queue
  rwa [(hc.inside_eq h).2] at hq

theorem Core.deleted_at (hc : Core s) {w : Worker ι} {p : ProcPc ι} (h : s.critical w = some p) :
    s.executed = s.deleted ++ p.deleting := by
  have hd := hc.deleted
  rwa [(hc.inside_eq h).2] at hd

/-- The invariant for a thread that stays under the mutex. -/
theorem Core.stay (hc : Core s) {w : Worker ι} {p q : ProcPc ι} (hw : s.critical w = some p)
    (hm : t.mutex = s.mutex) (hcr : t.critical w = some q)
    (hcr' : ∀ w', w' ≠ w → t.critical w' = s.critical w')
    (hq : t.pushed = t.executed ++ q.executing ++ t.requestQueue.items)
    (hd : t.executed = t.deleted ++ q.deleting)
    (hpop : q = .pop → t.requestQueue.items ≠ []) : Core t := by
  obtain ⟨hms, -⟩ := hc.inside_eq hw
  have hi : t.inside = some q := by rw [inside, hm, hms, Option.bind_some, hcr]
  constructor
  · intro w'
    rw [hm]
    by_cases h : w' = w
    · subst h
      simp [hms, hcr]
    · rw [hcr' w' h]
      exact hc.holder w'
  · rw [hi]; exact hq
  · rw [hi]; exact hd
  · rw [hi]
    intro h
    exact hpop (Option.some.inj h)

/-- The invariant for a thread that leaves the mutex with nothing in its hands. -/
theorem Core.release (hc : Core s) {w : Worker ι} {p : ProcPc ι} (hw : s.critical w = some p)
    (hx : p.executing = []) (hy : p.deleting = []) (hm : t.mutex = none)
    (hcr : t.critical w = none) (hcr' : ∀ w', w' ≠ w → t.critical w' = s.critical w')
    (hq : t.requestQueue.items = s.requestQueue.items) (hp : t.pushed = s.pushed)
    (he : t.executed = s.executed) (hd : t.deleted = s.deleted) : Core t := by
  obtain ⟨hms, -⟩ := hc.inside_eq hw
  have hti : t.inside = none := by simp [inside, hm]
  have hqs := hc.queue_at hw
  have hds := hc.deleted_at hw
  rw [hx] at hqs
  rw [hy] at hds
  constructor
  · intro w'
    rw [hm]
    by_cases h : w' = w
    · subst h
      simp [hcr]
    · have : s.critical w' = none := by
        by_contra hx'
        exact h (Option.some.inj (((hc.holder w').mpr hx').symm.trans hms))
      simp [hcr' w' h, this]
  · rw [hp, he, hti, hq]
    exact hqs
  · rw [he, hd, hti]
    exact hds
  · simp [hti]

variable [DecidableEq ι]

/-- What a step in `processRequests` does to the queue and the mutex; `t` is
the state in which the thread is at its new position. -/
theorem Core.process (hc : Core s) {w : Worker ι} {p : ProcPc ι} {n : Next ι}
    (hw : s.critical w = p.critical) (h : s.processStep C w p = some (u, n))
    (hq : t.requestQueue = u.requestQueue) (hm : t.mutex = u.mutex) (hp : t.pushed = u.pushed)
    (he : t.executed = u.executed) (hd : t.deleted = u.deleted) (hcr : t.critical w = n.critical)
    (hcr' : ∀ w', w' ≠ w → t.critical w' = s.critical w') : Core t := by
  cases p with
  | lock =>
    simp only [processStep] at h
    split at h <;> cases h
    rename_i hnone
    have hnow (w' : Worker ι) : s.critical w' = none := by
      by_contra hx
      have := (hc.holder w').mpr hx
      simp [hnone] at this
    have hi : s.inside = none := by simp [inside, hnone]
    have hti : t.inside = some .size := by simp [inside, hm, hcr, Next.critical, ProcPc.critical]
    have hqs := hc.queue
    have hds := hc.deleted
    rw [hi] at hqs hds
    constructor
    · intro w'
      rw [hm]
      by_cases hx : w' = w
      · subst hx
        simp [hcr, Next.critical, ProcPc.critical]
      · simp [hcr' w' hx, hnow, Ne.symm hx]
    · rw [hp, he, hti, hq]
      exact hqs
    · rw [he, hd, hti]
      exact hds
    · simp [hti]
  | unlock =>
    cases h
    exact hc.release hw rfl rfl hm hcr hcr' (by rw [hq]) hp he hd
  | size =>
    have hqs := hc.queue_at hw
    have hds := hc.deleted_at hw
    cases h
    by_cases hz : 0 < s.requestQueue.size
    · rw [if_pos hz] at hcr
      refine hc.stay hw hm hcr hcr' ?_ ?_ ?_
      · rw [hp, he, hq]; exact hqs
      · rw [he, hd]; exact hds
      · rw [hq]
        exact fun _ => List.length_pos_iff.mp hz
    · rw [if_neg hz] at hcr
      refine hc.stay hw hm hcr hcr' ?_ ?_ (by simp)
      · rw [hp, he, hq]; exact hqs
      · rw [he, hd]; exact hds
  | pop =>
    have hqs := hc.queue_at hw
    have hds := hc.deleted_at hw
    simp only [processStep] at h
    split at h <;> cases h
    · rename_i r q hpop
      obtain ⟨-, hitems, -⟩ := CancelQueue.pop_eq_item.mp hpop
      rw [hitems] at hqs
      refine hc.stay hw hm hcr hcr' ?_ ?_ (by simp)
      · rw [hp, he, hq]
        simpa [ProcPc.executing] using hqs
      · rw [he, hd]; exact hds
    · exact hc.release hw rfl rfl hm hcr hcr' (by rw [hq]) hp he hd
  | execute r =>
    have hqs := hc.queue_at hw
    have hds := hc.deleted_at hw
    cases h
    refine hc.stay hw hm hcr hcr' ?_ ?_ (by simp)
    · rw [hp, he, hq]
      simpa [execute, send, ProcPc.executing] using hqs
    · rw [he, hd]
      simpa [execute, send, ProcPc.deleting] using hds
  | delete r =>
    have hqs := hc.queue_at hw
    have hds := hc.deleted_at hw
    cases h
    refine hc.stay hw hm hcr hcr' ?_ ?_ (by simp)
    · rw [hp, he, hq]
      simpa [delete, send, ProcPc.executing] using hqs
    · rw [he, hd]
      simpa [delete, send, ProcPc.deleting] using hds

/-- What a step in `processRequests` leaves alone, and what it does to shells. -/
structure ProcessFrame (s u : RequestServer ι) : Prop where
  running : u.running = s.running
  cancelled : u.requestQueue.cancelled = s.requestQueue.cancelled
  stopping : u.stopping = s.stopping
  console : u.console = s.console
  loop : u.loop = s.loop
  nextId : u.nextId = s.nextId
  pushed : u.pushed = s.pushed
  shell : ∀ i, s.shell i = true → u.shell i = true
  executed : s.executed ⊆ u.executed
  installed : ∀ r ∈ u.executed, r ∈ s.executed ∨ (r.isShell = true → u.shell r.console = true)

theorem processStep_frame {w : Worker ι} {p : ProcPc ι} {n : Next ι}
    (h : s.processStep C w p = some (u, n)) : ProcessFrame s u := by
  cases p with
  | lock =>
    simp only [processStep] at h
    split at h <;> cases h
    constructor <;> simp_all
  | pop =>
    simp only [processStep] at h
    split at h <;> cases h
    · rename_i hpop
      obtain ⟨hs, -, hu⟩ := CancelQueue.pop_eq_item.mp hpop
      constructor <;> simp_all
    · constructor <;> simp_all
  | size | unlock =>
    cases h
    constructor <;> simp_all
  | delete r =>
    cases h
    constructor <;> simp_all [delete, send]
  | execute r =>
    cases h
    constructor <;> simp only [execute, send]
    case shell =>
      intro i hi
      split
      · by_cases h : i = r.console <;> simp [h, hi]
      · exact hi
    case executed => exact List.subset_append_left _ _
    case installed =>
      intro r' hr'
      rcases List.mem_append.mp hr' with h | h
      · exact .inl h
      · obtain rfl := List.mem_singleton.mp h
        exact .inr fun hs => by simp [hs]

/-- Nobody calls `stop`. -/
def unstopped (_ : RequestServer ι) (a : Act ι) : Prop := a ≠ .stop

@[simp] theorem critical_goto (s : RequestServer ι) (i : ι) (p : ConsolePc ι) (w : Worker ι) :
    (s.goto i p).critical w = if w = .handler i then p.critical else s.critical w := by
  cases w with
  | serverLoop => simp [goto, critical]
  | handler j => by_cases h : j = i <;> simp [goto, critical, h]

/-- A console moves outside the mutex. -/
theorem Core.move (hc : Core s) {i : ι} {p : ConsolePc ι} (hi : (s.console i).critical = none)
    (hp : p.critical = none) : Core (s.goto i p) := by
  refine hc.frame rfl rfl rfl rfl rfl fun w => ?_
  rw [critical_goto]
  split
  · rename_i h
    rw [h, hp]
    exact hi.symm
  · rfl

theorem Core.send (hc : Core s) (i : ι) (m : List Bytes) : Core (s.send i m) :=
  hc.frame rfl rfl rfl rfl rfl fun w => by cases w <;> rfl

/-- While nobody calls `stop`. -/
structure Serving (s : RequestServer ι) : Prop where
  running : s.running = true
  stopping : s.stopping = 0
  uncancelled : s.requestQueue.cancelled = false
  loop : s.loop.serving = true

/-- A console's thread moves only itself. -/
theorem consoleStep_frame {i : ι} (h : s.consoleStep C i = some t) :
    t.running = s.running ∧ t.requestQueue.cancelled = s.requestQueue.cancelled ∧
      t.stopping = s.stopping ∧ t.loop = s.loop ∧ ∀ j, j ≠ i → t.console j = s.console j := by
  cases hp : s.console i with
  | idle | eval l k | threw => simp [consoleStep, hp] at h
  | shellTest l k | reissue l k =>
    simp only [consoleStep, hp, Option.some.injEq] at h
    subst h
    exact ⟨rfl, rfl, rfl, rfl, fun j hj => Function.update_of_ne hj _ _⟩
  | runningTest l k =>
    simp only [consoleStep, hp] at h
    split at h <;> cases h <;> exact ⟨rfl, rfl, rfl, rfl, fun j hj => Function.update_of_ne hj _ _⟩
  | push r k =>
    simp only [consoleStep, hp] at h
    split at h <;> cases h
    · exact ⟨rfl, rfl, rfl, rfl, fun j hj => Function.update_of_ne hj _ _⟩
    · rename_i q hq
      obtain ⟨hc, rfl⟩ := CancelQueue.push_eq_some.mp hq
      exact ⟨rfl, hc.symm, rfl, rfl, fun j hj => Function.update_of_ne hj _ _⟩
  | dispatch l k =>
    simp only [consoleStep, hp] at h
    split at h <;> cases h <;> exact ⟨rfl, rfl, rfl, rfl, fun j hj => Function.update_of_ne hj _ _⟩
  | command l k =>
    simp only [consoleStep, hp] at h
    split at h
    · cases h
      exact ⟨rfl, rfl, rfl, rfl, fun j hj => Function.update_of_ne hj _ _⟩
    · split at h
      · cases h
        exact ⟨rfl, rfl, rfl, rfl, fun j hj => Function.update_of_ne hj _ _⟩
      · split at h <;> cases h <;> exact ⟨rfl, rfl, rfl, rfl, fun j hj => Function.update_of_ne hj _ _⟩
  | process r k p =>
    simp only [consoleStep, hp, Option.map_eq_some_iff] at h
    obtain ⟨⟨u, n⟩, hu, rfl⟩ := h
    have hf := processStep_frame hu
    refine ⟨hf.running, hf.cancelled, hf.stopping, hf.loop, fun j hj => ?_⟩
    exact (Function.update_of_ne hj _ _).trans (by rw [hf.console])
  | returned r k =>
    cases k <;> simp only [consoleStep, hp, Option.some.injEq] at h <;> subst h <;>
      exact ⟨rfl, rfl, rfl, rfl, fun j hj => Function.update_of_ne hj _ _⟩

/-- The server loop moves no console. -/
theorem loopStep_frame (h : s.loopStep C = some t) :
    t.running = s.running ∧
      (s.loop ≠ .cancelReset → t.requestQueue.cancelled = s.requestQueue.cancelled) ∧
      t.stopping = s.stopping ∧ t.console = s.console ∧
      t.nextId = s.nextId ∧ t.pushed = s.pushed ∧ (∀ i, s.shell i = true → t.shell i = true) ∧
      s.executed ⊆ t.executed ∧
      ∀ r ∈ t.executed, r ∈ s.executed ∨ (r.isShell = true → t.shell r.console = true) := by
  cases hp : s.loop with
  | joinThreads | threw => simp [loopStep, hp] at h
  | test | sizeTest | stepTest | drainTest =>
    simp only [loopStep, hp, Option.some.injEq] at h
    subst h
    exact ⟨rfl, fun _ => rfl, rfl, rfl, rfl, rfl, fun _ hi => hi, fun _ hr => hr, fun r hr => .inl hr⟩
  | cancelReset =>
    simp only [loopStep, hp, Option.some.injEq] at h
    subst h
    exact ⟨rfl, fun hx => absurd rfl hx, rfl, rfl, rfl, rfl, fun _ hi => hi, fun _ hr => hr, fun r hr => .inl hr⟩
  | barrier =>
    simp only [loopStep, hp] at h
    split at h
    · cases h
      exact ⟨rfl, fun _ => rfl, rfl, rfl, rfl, rfl, fun _ hi => hi, fun _ hr => hr, fun r hr => .inl hr⟩
    · split at h <;> cases h
      exact ⟨rfl, fun _ => rfl, rfl, rfl, rfl, rfl, fun _ hi => hi, fun _ hr => hr, fun r hr => .inl hr⟩
  | process p | drain p =>
    simp only [loopStep, hp, Option.map_eq_some_iff] at h
    obtain ⟨⟨u, n⟩, hu, rfl⟩ := h
    have hf := processStep_frame hu
    exact ⟨hf.running, fun _ => hf.cancelled, hf.stopping, hf.console, hf.nextId, hf.pushed, hf.shell, hf.executed,
      hf.installed⟩

theorem core_console (hc : Core s) {i : ι} (h : s.consoleStep C i = some t) : Core t := by
  cases hp : s.console i with
  | idle | eval l k | threw => simp [consoleStep, hp] at h
  | shellTest l k | reissue l k =>
    simp only [consoleStep, hp, Option.some.injEq] at h
    subst h
    refine hc.move (by rw [hp]; rfl) ?_
    split <;> rfl
  | runningTest l k =>
    simp only [consoleStep, hp] at h
    split at h <;> cases h
    · exact hc.move (by rw [hp]; rfl) rfl
    · have hc : Core { s with exited := Function.update s.exited i true } :=
        hc.frame rfl rfl rfl rfl rfl fun w => by cases w <;> rfl
      exact hc.move (by rw [hp]; rfl) rfl
  | dispatch l k =>
    simp only [consoleStep, hp] at h
    split at h <;> cases h <;> exact (hc.send _ _).move (by simp [RequestServer.send, hp]; rfl) rfl
  | command l k =>
    simp only [consoleStep, hp] at h
    have hmake (u : RequestServer ι) (hu : Core u) (hui : (u.console i).critical = none) (c ps b) :
        Core (u.makeRequest i c ps b k) := by
      have hu' : Core { u with nextId := u.nextId + 1 } :=
        hu.frame rfl rfl rfl rfl rfl fun w => by cases w <;> rfl
      exact hu'.move hui rfl
    split at h
    · cases h
      exact (hc.send _ _).move (by simp [RequestServer.send, hp]; rfl) rfl
    · split at h
      · cases h
        exact hmake s hc (by rw [hp]; rfl) _ _ _
      · split at h <;> cases h
        · exact hmake _ (hc.send _ _) (by simp [RequestServer.send, hp]; rfl) _ _ _
        · exact (hc.send _ _).move (by simp [RequestServer.send, hp]; rfl) rfl
  | push r k =>
    simp only [consoleStep, hp] at h
    split at h <;> cases h
    · exact hc.move (by rw [hp]; rfl) rfl
    · rename_i q hq
      refine hc.push hq rfl rfl rfl rfl rfl fun w => ?_
      rw [critical_goto]
      split
      · rename_i hw
        rw [hw]
        show _ = (s.console i).critical
        rw [hp]
        split <;> rfl
      · cases w <;> rfl
  | process r k p =>
    simp only [consoleStep, hp, Option.map_eq_some_iff] at h
    obtain ⟨⟨u, n⟩, hu, rfl⟩ := h
    have hf := processStep_frame hu
    refine hc.process (w := .handler i) (p := p) (by simp [critical, hp, ConsolePc.critical]) hu rfl
      rfl rfl rfl rfl ?_ ?_
    · rw [critical_goto, if_pos rfl]
      cases n <;> rfl
    · intro w' hw
      rw [critical_goto, if_neg hw]
      cases w' <;> simp [critical, hf.console, hf.loop]
  | returned r k =>
    cases k with
    | nil =>
      simp only [consoleStep, hp, Option.some.injEq] at h
      subst h
      exact hc.move (by rw [hp]; rfl) rfl
    | cons l k =>
      simp only [consoleStep, hp, Option.some.injEq] at h
      subst h
      exact hc.move (by rw [hp]; rfl) rfl

omit [DecidableEq ι] in
/-- The server loop moves outside the mutex. -/
theorem Core.moveLoop (hc : Core s) {p : LoopPc ι} (hs : s.loop.critical = none)
    (hp : p.critical = none) : Core { s with loop := p } := by
  refine hc.frame rfl rfl rfl rfl rfl fun w => ?_
  cases w with
  | handler i => rfl
  | serverLoop => exact hp.trans hs.symm

theorem core_loop (hc : Core s) (h : s.loopStep C = some t) : Core t := by
  cases hp : s.loop with
  | joinThreads | threw => simp [loopStep, hp] at h
  | test | sizeTest | stepTest | drainTest =>
    simp only [loopStep, hp, Option.some.injEq] at h
    subst h
    refine hc.moveLoop (by rw [hp]; rfl) ?_
    split <;> rfl
  | barrier =>
    simp only [loopStep, hp] at h
    split at h
    · cases h
      exact hc.moveLoop (by rw [hp]; rfl) rfl
    · split at h <;> cases h
      exact hc.moveLoop (by rw [hp]; rfl) rfl
  | cancelReset =>
    simp only [loopStep, hp, Option.some.injEq] at h
    subst h
    have hc' : Core { s with requestQueue := s.requestQueue.cancelReset } :=
      hc.frame rfl rfl rfl rfl rfl fun w => by cases w <;> rfl
    exact hc'.moveLoop (show s.loop.critical = none by rw [hp]; rfl) rfl
  | process p | drain p =>
    simp only [loopStep, hp, Option.map_eq_some_iff] at h
    obtain ⟨⟨u, n⟩, hu, rfl⟩ := h
    have hf := processStep_frame hu
    refine hc.process (w := .serverLoop) (p := p) (by simp [critical, hp, LoopPc.critical]) hu
      rfl rfl rfl rfl rfl ?_ ?_
    · cases n <;> rfl
    · intro w' hw
      cases w' with
      | serverLoop => exact absurd rfl hw
      | handler j => simp [critical, hf.console]

/-- The queue and the mutex are in order whoever moves, `stop` included. -/
theorem core_step {a : Act ι} (hc : Core s) (h : step C s a = some t) : Core t := by
  cases a with
  | loop => exact core_loop hc h
  | console i => exact core_console hc h
  | stop =>
    cases h
    exact hc.frame rfl rfl rfl rfl rfl fun w => by cases w <;> rfl
  | cancel =>
    simp only [step] at h
    split at h <;> cases h
    exact hc.frame rfl rfl rfl rfl rfl fun w => by cases w <;> rfl
  | line i l =>
    simp only [step] at h
    split at h <;> cases h
    rename_i hi
    exact hc.move (by rw [hi]; rfl) rfl
  | evalEnds i left =>
    simp only [step] at h
    split at h <;> cases h
    rename_i hi
    have hc : Core { s with shell := Function.update s.shell i (s.shell i && !left) } :=
      hc.frame rfl rfl rfl rfl rfl fun w => by cases w <;> rfl
    exact hc.move (by rw [hi]; rfl) rfl

theorem serving_loop (hs : Serving s) (h : s.loopStep C = some t) : t.loop.serving = true := by
  have hv := hs.loop
  cases hp : s.loop with
  | cancelReset | drainTest | drain p | joinThreads | threw => simp [hp, LoopPc.serving] at hv
  | test =>
    simp only [loopStep, hp, Option.some.injEq] at h
    subst h
    simp [hs.running, LoopPc.serving]
  | barrier =>
    simp only [loopStep, hp, hs.uncancelled, Bool.false_eq_true, ↓reduceIte] at h
    split at h <;> cases h
    rfl
  | sizeTest | stepTest =>
    simp only [loopStep, hp, Option.some.injEq] at h
    subst h
    dsimp only
    split <;> rfl
  | process p =>
    simp only [loopStep, hp, Option.map_eq_some_iff] at h
    obtain ⟨⟨u, n⟩, hu, rfl⟩ := h
    have hn : n ≠ .threw := by
      rintro rfl
      cases p <;> simp only [processStep] at hu
      case pop =>
        split at hu <;> cases hu
        rename_i hpop
        have := CancelQueue.pop_eq_cancelled.mp hpop
        simp [hs.uncancelled] at this
      case lock => split at hu <;> cases hu
      all_goals cases hu
    cases n <;> first | rfl | exact absurd rfl hn

theorem serving_step {a : Act ι} (hs : Serving s) (ha : unstopped s a) (h : step C s a = some t) :
    Serving t := by
  cases a with
  | stop => exact absurd rfl ha
  | cancel => simp [step, hs.stopping] at h
  | loop =>
    obtain ⟨h1, h2, h3, -⟩ := loopStep_frame h
    have hne : s.loop ≠ .cancelReset := by
      intro hx
      have := hs.loop
      simp [hx, LoopPc.serving] at this
    exact ⟨h1.trans hs.running, h3.trans hs.stopping, (h2 hne).trans hs.uncancelled, serving_loop hs h⟩
  | console i =>
    obtain ⟨h1, h2, h3, h4, -⟩ := consoleStep_frame h
    exact ⟨h1.trans hs.running, h3.trans hs.stopping, h2.trans hs.uncancelled, by rw [h4]; exact hs.loop⟩
  | line i l | evalEnds i left =>
    simp only [step] at h
    split at h <;> cases h
    exact ⟨hs.running, hs.stopping, hs.uncancelled, hs.loop⟩

/-- A console and the request that it is busy with. -/
def Waits (s : RequestServer ι) (i : ι) : ConsolePc ι → Prop
  | .push r _ => r.console = i ∧ r.id < s.nextId ∧ r ∉ s.pushed
  | .process r _ p =>
    r.console = i ∧ r.isShell = true ∧ r ∈ s.pushed ∧ (r ∈ s.executed → s.shell i = true) ∧
      (p = .unlock → r ∈ s.executed)
  | .returned (some r) _ => r ∈ s.executed ∧ s.shell i = true
  | _ => True

/-- The requests and the consoles that they belong to. -/
structure Consoles (s : RequestServer ι) : Prop where
  ids : ∀ r ∈ s.pushed, r.id < s.nextId
  nodup : s.pushed.Nodup
  waits : ∀ i, Waits s i (s.console i)

omit [DecidableEq ι] in
theorem consoles_start : Consoles (start : RequestServer ι) := by
  constructor <;> simp [start, Waits]

omit [DecidableEq ι] in
/-- What a console waits for survives the steps of the others. -/
theorem Waits.frame {i : ι} {p : ConsolePc ι} (hw : Waits s i p) (hid : s.nextId ≤ t.nextId)
    (hpush : ∀ r ∈ t.pushed, r ∈ s.pushed ∨ r.console ≠ i)
    (hpush' : s.pushed ⊆ t.pushed) (hsh : s.shell i = true → t.shell i = true)
    (hex : s.executed ⊆ t.executed)
    (hin : ∀ r ∈ t.executed, r ∈ s.executed ∨ (r.isShell = true → t.shell r.console = true)) :
    Waits t i p := by
  cases p with
  | push r k =>
    obtain ⟨h1, h2, h3⟩ := hw
    exact ⟨h1, by omega, fun hr => (hpush r hr).elim h3 (fun h => h h1)⟩
  | process r k p =>
    obtain ⟨h1, h2, h3, h4, h5⟩ := hw
    refine ⟨h1, h2, hpush' h3, fun hr => ?_, fun hp => hex (h5 hp)⟩
    rcases hin r hr with h | h
    · exact hsh (h4 h)
    · exact h1 ▸ h h2
  | returned r k =>
    cases r with
    | none => trivial
    | some r => exact ⟨hex hw.1, hsh hw.2⟩
  | _ => trivial

/-- What a step of a console does to the requests and the shells. -/
theorem consoleStep_requests {i : ι} (h : s.consoleStep C i = some t) :
    s.nextId ≤ t.nextId ∧
      (t.pushed = s.pushed ∨ ∃ r k, s.console i = .push r k ∧ t.pushed = s.pushed ++ [r]) ∧
      (∀ j, s.shell j = true → t.shell j = true) ∧ s.executed ⊆ t.executed ∧
      ∀ r ∈ t.executed, r ∈ s.executed ∨ (r.isShell = true → t.shell r.console = true) := by
  have hsame {u : RequestServer ι} {P : Prop} (h1 : s.nextId ≤ u.nextId) (h2 : u.pushed = s.pushed)
      (h3 : u.shell = s.shell) (h4 : u.executed = s.executed) :
      s.nextId ≤ u.nextId ∧ (u.pushed = s.pushed ∨ P) ∧
        (∀ j, s.shell j = true → u.shell j = true) ∧ s.executed ⊆ u.executed ∧
        ∀ r ∈ u.executed, r ∈ s.executed ∨ (r.isShell = true → u.shell r.console = true) := by
    rw [h2, h3, h4]
    exact ⟨h1, .inl rfl, fun _ hj => hj, fun _ hr => hr, fun r hr => .inl hr⟩
  cases hp : s.console i with
  | idle | eval l k | threw => simp [consoleStep, hp] at h
  | shellTest l k | reissue l k =>
    simp only [consoleStep, hp, Option.some.injEq] at h
    subst h
    exact hsame (Nat.le_refl _) rfl rfl rfl
  | runningTest l k =>
    simp only [consoleStep, hp] at h
    split at h <;> cases h <;> exact hsame (Nat.le_refl _) rfl rfl rfl
  | dispatch l k =>
    simp only [consoleStep, hp] at h
    split at h <;> cases h <;> exact hsame (Nat.le_refl _) rfl rfl rfl
  | command l k =>
    simp only [consoleStep, hp] at h
    split at h
    · cases h
      exact hsame (Nat.le_refl _) rfl rfl rfl
    · split at h
      · cases h
        exact hsame (Nat.le_succ _) rfl rfl rfl
      · split at h <;> cases h
        · exact hsame (Nat.le_succ _) rfl rfl rfl
        · exact hsame (Nat.le_refl _) rfl rfl rfl
  | push r k =>
    simp only [consoleStep, hp] at h
    split at h <;> cases h
    · exact hsame (Nat.le_refl _) rfl rfl rfl
    · exact ⟨Nat.le_refl _, .inr ⟨r, k, rfl, rfl⟩, fun _ hj => hj, fun _ hr => hr, fun r hr => .inl hr⟩
  | process r k p =>
    simp only [consoleStep, hp, Option.map_eq_some_iff] at h
    obtain ⟨⟨u, n⟩, hu, rfl⟩ := h
    have hf := processStep_frame hu
    exact ⟨Nat.le_of_eq hf.nextId.symm, .inl hf.pushed, hf.shell, hf.executed, hf.installed⟩
  | returned r k =>
    cases k <;> simp only [consoleStep, hp, Option.some.injEq] at h <;> subst h <;>
      exact hsame (Nat.le_refl _) rfl rfl rfl

/-- `processRequests` returns from its last position only. -/
theorem unlock_of_done {w : Worker ι} {p : ProcPc ι} (hu : s.processStep C w p = some (u, .done)) :
    p = .unlock := by
  cases p <;> simp only [processStep] at hu
  case unlock => rfl
  case lock | pop => split at hu <;> cases hu
  all_goals cases hu

/-- When it leaves its loop, all that was pushed is executed. -/
theorem Core.executed_of_unlock (hc : Core s) {w : Worker ι} {p : ProcPc ι} {r : Request ι}
    (hw : s.critical w = p.critical) (hu : s.processStep C w p = some (u, .goto .unlock))
    (hr : r ∈ s.pushed) : r ∈ s.executed := by
  cases p <;> simp only [processStep] at hu
  case size =>
    -- the queue was empty, and it is this worker that has the mutex
    have hz : s.requestQueue.items = [] := by
      by_contra hz
      have hz : 0 < s.requestQueue.size := List.length_pos_iff.mpr hz
      rw [if_pos hz] at hu
      cases hu
    have hq := hc.queue_at hw
    simpa [hq, hz, ProcPc.executing] using hr
  case lock | pop => split at hu <;> cases hu
  all_goals cases hu

/-- What console `i` itself waits for after its own step. -/
theorem waits_self {i : ι} (hc : Core s) (hs : Consoles s) (h : s.consoleStep C i = some t) :
    Waits t i (t.console i) := by
  have hw := hs.waits i
  cases hp : s.console i with
  | idle | eval l k | threw => simp [consoleStep, hp] at h
  | shellTest l k | reissue l k =>
    simp only [consoleStep, hp, Option.some.injEq] at h
    subst h
    simp only [goto, Function.update_self]
    split <;> trivial
  | runningTest l k | dispatch l k =>
    simp only [consoleStep, hp] at h
    split at h <;> cases h <;> simp [goto, Waits]
  | command l k =>
    have hfresh (c ps b) : (⟨s.nextId, i, c, ps, b⟩ : Request ι) ∉ s.pushed := by
      intro hr
      have := hs.ids _ hr
      simp at this
    simp only [consoleStep, hp] at h
    split at h
    · cases h
      simp [goto, Waits]
    · split at h
      · cases h
        simp [makeRequest, goto, Waits, hfresh]
      · split at h <;> cases h
        · simp [makeRequest, goto, send, Waits, hfresh]
        · simp [goto, Waits]
  | push r k =>
    rw [hp] at hw
    simp only [consoleStep, hp] at h
    split at h <;> cases h
    · simp [goto, Waits]
    · simp only [goto, Function.update_self]
      split
      · rename_i hsh
        refine ⟨hw.1, hsh, by simp, fun hr => ?_, nofun⟩
        refine absurd ?_ hw.2.2
        rw [hc.queue, List.append_assoc]
        exact List.mem_append_left _ hr
      · trivial
  | process r k p =>
    rw [hp] at hw
    obtain ⟨h1, h2, h3, h4, h5⟩ := hw
    simp only [consoleStep, hp, Option.map_eq_some_iff] at h
    obtain ⟨⟨u, n⟩, hu, rfl⟩ := h
    have hf := processStep_frame hu
    simp only [goto, Function.update_self]
    have hex (hr : r ∈ u.executed) : u.shell i = true := by
      rcases hf.installed r hr with h | h
      · exact hf.shell i (h4 h)
      · exact h1 ▸ h h2
    cases n with
    | threw => trivial
    | done =>
      obtain rfl := unlock_of_done hu
      have hr : r ∈ u.executed := hf.executed (h5 rfl)
      exact ⟨hr, hex hr⟩
    | goto q =>
      refine ⟨h1, h2, hf.pushed ▸ h3, hex, ?_⟩
      rintro rfl
      exact hf.executed (hc.executed_of_unlock (by simp [critical, hp, ConsolePc.critical]) hu h3)
  | returned r k =>
    cases k <;> simp only [consoleStep, hp, Option.some.injEq] at h <;> subst h <;>
      simp [goto, Waits]

omit [DecidableEq ι] in
/-- A step that touches neither requests nor consoles. -/
theorem Consoles.frame (hs : Consoles s) (hid : t.nextId = s.nextId) (hp : t.pushed = s.pushed)
    (he : t.executed = s.executed) (hsh : t.shell = s.shell) (hcon : t.console = s.console) :
    Consoles t := by
  refine ⟨by rw [hp, hid]; exact hs.ids, hp ▸ hs.nodup, fun i => ?_⟩
  rw [hcon]
  exact (hs.waits i).frame (Nat.le_of_eq hid.symm) (fun r hr => .inl (hp ▸ hr))
    (hp ▸ List.Subset.refl _) (fun h => by rw [hsh]; exact h) (he ▸ List.Subset.refl _)
    (fun r hr => .inl (he ▸ hr))

theorem consoles_step {a : Act ι} (hc : Core s) (hs : Consoles s) (h : step C s a = some t) :
    Consoles t := by
  cases a with
  | stop =>
    cases h
    exact hs.frame rfl rfl rfl rfl rfl
  | cancel =>
    simp only [step] at h
    split at h <;> cases h
    exact hs.frame rfl rfl rfl rfl rfl
  | loop =>
    obtain ⟨-, -, -, h1, h2, h3, h4, h5, h6⟩ := loopStep_frame h
    refine ⟨by rw [h3, h2]; exact hs.ids, h3 ▸ hs.nodup, fun i => ?_⟩
    rw [h1]
    exact (hs.waits i).frame (Nat.le_of_eq h2.symm) (fun r hr => .inl (h3 ▸ hr))
      (h3 ▸ List.Subset.refl _) (h4 i) h5 h6
  | console i =>
    obtain ⟨h1, h2, h3, h4, h5⟩ := consoleStep_requests h
    obtain ⟨-, -, -, -, h6⟩ := consoleStep_frame h
    have hw := hs.waits i
    have hpush : s.pushed ⊆ t.pushed := by
      rcases h2 with h2 | ⟨r, k, -, h2⟩ <;> rw [h2]
      · exact List.Subset.refl _
      · exact List.subset_append_left _ _
    constructor
    case ids =>
      intro r hr
      rcases h2 with h2 | ⟨r', k, hp, h2⟩
      · have := hs.ids r (h2 ▸ hr)
        omega
      · rw [hp] at hw
        rw [h2] at hr
        rcases List.mem_append.mp hr with hr | hr
        · have := hs.ids r hr
          omega
        · rw [List.mem_singleton.mp hr]
          have := hw.2.1
          omega
    case nodup =>
      rcases h2 with h2 | ⟨r', k, hp, h2⟩ <;> rw [h2]
      · exact hs.nodup
      · rw [hp] at hw
        exact List.nodup_append.mpr ⟨hs.nodup, List.pairwise_singleton _ _, fun a ha b hb hab =>
          hw.2.2 (List.mem_singleton.mp hb ▸ hab ▸ ha)⟩
    case waits =>
      intro j
      by_cases hj : j = i
      · subst hj
        exact waits_self hc hs h
      · rw [h6 j hj]
        refine (hs.waits j).frame h1 (fun r hr => ?_) hpush (h3 j) h4 h5
        rcases h2 with h2 | ⟨r', k, hp, h2⟩
        · exact .inl (h2 ▸ hr)
        · rw [hp] at hw
          rw [h2] at hr
          rcases List.mem_append.mp hr with hr | hr
          · exact .inl hr
          · refine .inr ?_
            rw [List.mem_singleton.mp hr, hw.1]
            exact Ne.symm hj
  | line i l =>
    simp only [step] at h
    split at h <;> cases h
    refine ⟨hs.ids, hs.nodup, fun j => ?_⟩
    by_cases hj : j = i
    · simp [goto, hj, Waits]
    · have hw := hs.waits j
      simpa [goto, hj] using hw.frame (t := s.goto i _) (Nat.le_refl _) (fun _ hr => .inl hr)
        (List.Subset.refl _) id (List.Subset.refl _) (fun _ hr => .inl hr)
  | evalEnds i left =>
    simp only [step] at h
    split at h <;> cases h
    rename_i l k hi
    refine ⟨hs.ids, hs.nodup, fun j => ?_⟩
    by_cases hj : j = i
    · simp [goto, hj, Waits]
    · have hw := (hs.waits j).frame (t := { s with
          shell := Function.update s.shell i (s.shell i && !left) }.goto i (.returned none k))
        (Nat.le_refl _) (fun _ hr => .inl hr) (List.Subset.refl _)
        (fun hsh => by simpa [goto, hj] using hsh) (List.Subset.refl _) (fun _ hr => .inl hr)
      simpa [goto, hj] using hw

theorem invariant_of_reach (h : Reach (requestSystem C) unstopped s) :
    Core s ∧ Serving s ∧ Consoles s := by
  refine h.invariant (fun s => Core s ∧ Serving s ∧ Consoles s) ?_ ?_
  · rintro _ rfl
    exact ⟨core_start, ⟨rfl, rfl, rfl, rfl⟩, consoles_start⟩
  · rintro s a t - ⟨hc, hv, hs⟩ ha ht
    exact ⟨core_step hc ht, serving_step hv ha ht, consoles_step hc hs ht⟩

/-- The threads of the server, and nothing that a client or `stop` does. -/
def serverSide (_ : RequestServer ι) (a : Act ι) : Prop := a = .loop ∨ ∃ i, a = .console i

/-- Everything that was pushed has been executed and deleted. -/
def Drained (s : RequestServer ι) : Prop := s.executed = s.pushed ∧ s.deleted = s.pushed

end RequestServer

/-- How far a thread under the mutex is from the next pop. The thread that is
about to unlock has not seen what was pushed since its last test. -/
def ProcPc.rank {ι : Type*} : ProcPc ι → ℕ
  | .unlock => 25
  | .lock => 16
  | .execute _ => 8
  | .delete _ => 7
  | .size => 4
  | .pop => 3

/-- How far the server loop is from the mutex. -/
def LoopPc.rank {ι : Type*} : LoopPc ι → ℕ
  | .test => 20
  | .barrier => 19
  | .sizeTest => 18
  | .stepTest => 17
  | .process p => p.rank
  | _ => 0

namespace RequestServer

variable {ι : Type*} [DecidableEq ι] {C : Commands ι} {s t u : RequestServer ι}

/-- What is left to do for whoever holds the mutex, or for the server loop. -/
def rank (s : RequestServer ι) : ℕ :=
  30 * s.requestQueue.items.length + s.inside.elim s.loop.rank ProcPc.rank

omit [DecidableEq ι] in
theorem critical_ne_lock (s : RequestServer ι) (w : Worker ι) : s.critical w ≠ some .lock := by
  have hp (p : ProcPc ι) : p.critical ≠ some .lock := by cases p <;> simp [ProcPc.critical]
  cases w with
  | handler i => cases h : s.console i <;> simp [critical, h, ConsolePc.critical, hp]
  | serverLoop => cases h : s.loop <;> simp [critical, h, LoopPc.critical, hp]

/-- Under the mutex a thread always gets on. -/
theorem processStep_advance {w : Worker ι} {p : ProcPc ι} (hc : Core s) (hw : s.critical w = some p)
    (hq : s.requestQueue.cancelled = false) (hg : ¬ Drained s) :
    ∃ u n, s.processStep C w p = some (u, n) ∧ (n.critical = none → u.mutex = none) ∧
      30 * u.requestQueue.items.length + (n.critical.elim 20 ProcPc.rank) <
        30 * s.requestQueue.items.length + p.rank := by
  obtain ⟨hm, hi⟩ := hc.inside_eq hw
  have hqs := hc.queue
  have hds := hc.deleted
  rw [hi] at hqs hds
  cases p with
  | lock => exact absurd hw (critical_ne_lock s w)
  | unlock => exact ⟨_, _, rfl, fun _ => rfl, by simp [Next.critical, ProcPc.rank]⟩
  | size =>
    have hz : 0 < s.requestQueue.size := by
      refine List.length_pos_iff.mpr fun hz => hg ?_
      rw [hz] at hqs
      have hqs : s.pushed = s.executed := by simpa [ProcPc.executing] using hqs
      have hds : s.executed = s.deleted := by simpa [ProcPc.deleting] using hds
      exact ⟨hqs.symm, (hqs.trans hds).symm⟩
    refine ⟨_, _, rfl, ?_, ?_⟩ <;> simp [hz, Next.critical, ProcPc.critical, ProcPc.rank]
  | pop =>
    cases hz : s.requestQueue.items with
    | nil => exact absurd hz (hc.popping hi)
    | cons r rest =>
      have hpop : s.requestQueue.pop = .item r { s.requestQueue with items := rest } := by
        simp [CancelQueue.pop, hq, hz]
      refine ⟨_, _, by simp only [processStep, hpop]; rfl, ?_, ?_⟩
      · simp [Next.critical, ProcPc.critical]
      · simp only [Next.critical, ProcPc.critical, Option.elim_some, ProcPc.rank, List.length_cons]
        omega
  | execute r | delete r =>
    refine ⟨_, _, rfl, ?_, ?_⟩ <;>
      simp [execute, delete, send, Next.critical, ProcPc.critical, ProcPc.rank]

omit [DecidableEq ι] in
/-- The rank after a step of the thread that holds the mutex. -/
theorem rank_lt {w : Worker ι} {p : ProcPc ι} {n : Next ι} (hc : Core s) (hv : Serving t)
    (ht : Core t) (hw : s.critical w = some p) (htw : t.critical w = n.critical)
    (hq : t.requestQueue = u.requestQueue) (hm : t.mutex = u.mutex)
    (hn : n.critical = none → u.mutex = none)
    (hlt : 30 * u.requestQueue.items.length + (n.critical.elim 20 ProcPc.rank) <
      30 * s.requestQueue.items.length + p.rank) : rank t < rank s := by
  obtain ⟨-, hi⟩ := hc.inside_eq hw
  unfold rank
  rw [hi, hq]
  cases hx : n.critical with
  | none =>
    have hnone : t.mutex = none := hm.trans (hn hx)
    have hloop : t.loop.rank ≤ 20 := by
      have hcr : t.loop.critical = none := by
        by_contra h
        have := (ht.holder .serverLoop).mpr h
        simp [hnone] at this
      have := hv.loop
      cases h : t.loop with
      | process p => cases p <;> simp_all [LoopPc.critical, ProcPc.critical, LoopPc.rank, ProcPc.rank]
      | _ => simp [LoopPc.rank]
    rw [hx] at hlt
    simp only [inside, hnone, Option.bind_none, Option.elim_none, Option.elim_some] at hlt ⊢
    omega
  | some q =>
    obtain ⟨-, hti⟩ := ht.inside_eq (htw.trans hx)
    rw [hx] at hlt
    simpa only [hti, Option.elim_some] using hlt

/-- Until everything is executed and deleted, some thread of the server gets on. -/
theorem drain_advance (hr : Reach (requestSystem C) unstopped s) (hg : ¬ Drained s) :
    ∃ t, Path (requestSystem C) serverSide s t ∧ t.pushed = s.pushed ∧ rank t < rank s := by
  obtain ⟨hc, hv, hs⟩ := invariant_of_reach hr
  have hstep {a : Act ι} {t : RequestServer ι} (ha : unstopped s a) (ht : step C s a = some t) :
      Core t ∧ Serving t := ⟨core_step hc ht, serving_step hv ha ht⟩
  cases hm : s.mutex with
  | some w =>
    obtain ⟨p, hp⟩ := Option.ne_none_iff_exists'.mp ((hc.holder w).mp hm)
    obtain ⟨u, n, hu, hn, hlt⟩ := processStep_advance (C := C) hc hp hv.uncancelled hg
    have hf := processStep_frame hu
    cases w with
    | handler i =>
      obtain ⟨r, k, hi⟩ : ∃ r k, s.console i = .process r k p := by
        cases h : s.console i <;> simp only [critical, h, ConsolePc.critical, reduceCtorEq] at hp
        case process r k p' => cases p' <;> simp_all [ProcPc.critical]
      have ht : step C s (.console i) = some (u.goto i (match n with
          | .goto q => .process r k q | .done => .returned (some r) k | .threw => .threw)) := by
        simp only [step, consoleStep, hi, hu, Option.map_some]
        cases n <;> rfl
      obtain ⟨htc, htv⟩ := hstep (by simp [unstopped]) ht
      refine ⟨_, .single (.inr ⟨i, rfl⟩) ht, hf.pushed, rank_lt hc htv htc hp ?_ rfl rfl hn hlt⟩
      rw [critical_goto, if_pos rfl]
      cases n <;> rfl
    | serverLoop =>
      obtain hi : s.loop = .process p := by
        have := hv.loop
        cases h : s.loop <;> simp only [critical, h, LoopPc.critical, LoopPc.serving, reduceCtorEq] at hp this
        case process p' => cases p' <;> simp_all [ProcPc.critical]
      have ht : step C s .loop = some { u with loop := match n with
          | .goto q => .process q | .done => .sizeTest | .threw => .cancelReset } := by
        simp only [step, loopStep, hi, hu, Option.map_some]
        cases n <;> rfl
      obtain ⟨htc, htv⟩ := hstep (by simp [unstopped]) ht
      refine ⟨_, .single (.inl rfl) ht, hf.pushed, rank_lt hc htv htc hp ?_ rfl rfl hn hlt⟩
      cases n <;> rfl
  | none =>
    have hi : s.inside = none := by simp [inside, hm]
    have hz : s.requestQueue.items ≠ [] := by
      intro hz
      have hq := hc.queue
      have hd := hc.deleted
      rw [hi, hz] at hq
      rw [hi] at hd
      have hq : s.pushed = s.executed := by simpa using hq
      have hd : s.executed = s.deleted := by simpa using hd
      exact hg ⟨hq.symm, (hq.trans hd).symm⟩
    have hsz : 0 < s.requestQueue.size := List.length_pos_iff.mpr hz
    have hsv := hv.loop
    cases hl : s.loop <;> simp only [hl, LoopPc.serving, Bool.false_eq_true] at hsv
    case process p =>
      have hcr : s.critical .serverLoop = none := by
        by_contra h
        have := (hc.holder .serverLoop).mpr h
        simp [hm] at this
      obtain rfl : p = .lock := by
        cases p <;> simp_all [critical, LoopPc.critical, ProcPc.critical]
      refine ⟨{ s with mutex := some .serverLoop, loop := .process .size }, .single (.inl rfl) ?_, rfl, ?_⟩
      · simp [requestSystem, step, loopStep, hl, processStep, hm]
      · simp [rank, inside, critical, LoopPc.critical, ProcPc.critical, hm, hl, LoopPc.rank,
          ProcPc.rank]
    case barrier =>
      refine ⟨{ s with loop := .sizeTest }, .single (.inl rfl) ?_, rfl, ?_⟩
      · simp [requestSystem, step, loopStep, hl, hv.uncancelled, hz]
      · simp [rank, inside, hm, hl, LoopPc.rank]
    case test =>
      refine ⟨{ s with loop := .barrier }, .single (.inl rfl) ?_, rfl, ?_⟩
      · simp [requestSystem, step, loopStep, hl, hv.running]
      · simp [rank, inside, hm, hl, LoopPc.rank]
    case sizeTest =>
      refine ⟨{ s with loop := .stepTest }, .single (.inl rfl) ?_, rfl, ?_⟩
      · simp [requestSystem, step, loopStep, hl, hsz]
      · simp [rank, inside, hm, hl, LoopPc.rank]
    case stepTest =>
      refine ⟨{ s with loop := .process .lock }, .single (.inl rfl) ?_, rfl, ?_⟩
      · simp [requestSystem, step, loopStep, hl, hsz]
      · simp [rank, inside, hm, hl, LoopPc.rank, ProcPc.rank]

/-- Requests run once each, in the order of their pushes and one at a time; a pop
in `processRequests` never blocks; when `OnLine` returns from a command that is
a shell, the request has run and the console has its shell; and the server can
always bring everything that was pushed to an end. -/
theorem requests_in_order (hr : Reach (requestSystem C) unstopped s) :
    s.pushed.Nodup ∧ s.executed <+: s.pushed ∧ s.deleted <+: s.executed ∧
    s.executed.length ≤ s.deleted.length + 1 ∧
    (∀ w w' p p', s.critical w = some p → s.critical w' = some p' → w = w') ∧
    (∀ w, s.critical w = some .pop → ∃ r q, s.requestQueue.pop = .item r q) ∧
    (∀ i r k, s.console i = .returned (some r) k → r ∈ s.executed ∧ s.shell i = true) ∧
    ∃ t, Path (requestSystem C) serverSide s t ∧ t.pushed = s.pushed ∧ Drained t := by
  obtain ⟨hc, hv, hs⟩ := invariant_of_reach hr
  refine ⟨hs.nodup, ?_, ?_, ?_, ?_, ?_, ?_, ?_⟩
  · rw [hc.queue, List.append_assoc]
    exact List.prefix_append _ _
  · rw [hc.deleted]
    exact List.prefix_append _ _
  · rw [hc.deleted, List.length_append]
    have : (s.inside.elim [] ProcPc.deleting).length ≤ 1 := by
      cases s.inside with
      | none => simp
      | some p => cases p <;> simp [ProcPc.deleting]
    omega
  · intro w w' p p' h h'
    exact Option.some.inj ((hc.inside_eq h).1.symm.trans (hc.inside_eq h').1)
  · intro w h
    cases hz : s.requestQueue.items with
    | nil => exact absurd hz (hc.popping (hc.inside_eq h).2)
    | cons r rest => exact ⟨r, ⟨rest, false⟩, by simp [CancelQueue.pop, hv.uncancelled, hz]⟩
  · intro i r k h
    have hw := hs.waits i
    rw [h] at hw
    exact hw
  · refine (Path.progress (fun u => Reach (requestSystem C) unstopped u ∧ u.pushed = s.pushed)
      Drained rank ?_ s ⟨hr, rfl⟩).imp fun t ht => ⟨ht.1, ht.2.1.2, ht.2.2⟩
    rintro u ⟨hu, hup⟩ hg
    obtain ⟨t, hp, htp, hlt⟩ := drain_advance hu hg
    refine ⟨t, hp, ⟨hp.reach ?_ hu, htp.trans hup⟩, hlt⟩
    rintro _ _ (rfl | ⟨i, rfl⟩) <;> simp [unstopped]

/-- A server that only knows the scheme shell. -/
def schemeOnly : Commands Unit where
  create name := if name = ascii "scm" then some true else none
  reply _ := []
  prompt := []

/-- The server loop runs the request while the console waits for the mutex. -/
def loopIsFaster : List (Act Unit) :=
  .line () (ascii "scm") :: List.flatten
    [List.replicate 5 (.console ()), List.replicate 11 .loop, List.replicate 3 (.console ())]

theorem requests_in_order_scheme :
    ∃ t, exec (requestSystem schemeOnly) start loopIsFaster = some t ∧
      ⟨0, (), ascii "scm", [], true⟩ ∈ t.executed ∧ t.shell () = true := by
  have hx : (exec (requestSystem schemeOnly) start loopIsFaster).map (fun t => t.console ()) =
      some (.returned (some ⟨0, (), ascii "scm", [], true⟩) []) := by decide +kernel
  obtain ⟨t, ht, hi⟩ := Option.map_eq_some_iff.mp hx
  have hr : Reach (requestSystem schemeOnly) unstopped t :=
    reach_of_actions loopIsFaster (by simp [loopIsFaster]) rfl ht
  exact ⟨t, ht, (requests_in_order hr).2.2.2.2.2.2.1 () _ _ hi⟩

end RequestServer

end CogServer
