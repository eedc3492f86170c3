import CogServer.ShutdownDrain

/-! `serverLoop` returns: once it has reset the queue, the threads that there are bring the
shutdown to its end, with every request executed. -/
namespace CogServer

open Transition

/-- How far a thread in `processRequests` is from the next request or from the end. -/
def ProcPc.cost {ι : Type*} : ProcPc ι → ℕ
  | .execute _ => 12
  | .delete _ => 11
  | .lock => 9
  | .size => 8
  | .pop => 7
  | .unlock => 4

/-- How far a console is from reading on, in a server that is not running. -/
def ConsolePc.cost {ι : Type*} : ConsolePc ι → ℕ
  | .idle | .threw => 0
  | .returned _ k => 1 + 200 * k.length
  | .eval _ k => 2 + 200 * k.length
  | .runningTest _ k => 3 + 200 * k.length
  | .shellTest _ k => 4 + 200 * k.length
  | .process _ k p => 10 + p.cost + 200 * k.length
  | .push _ k => 70 + 200 * k.length
  | .command _ k => 71 + 200 * k.length
  | .reissue _ k => 72 + 200 * k.length
  | .dispatch _ k => 205 + 200 * k.length

namespace RequestServer

variable {ι : Type*} [DecidableEq ι] {C : Commands ι} {s t : RequestServer ι}

/-- The cost after a step in `processRequests`. -/
def Next.cost : Next ι → ℕ
  | .goto p => 10 + p.cost
  | .done | .threw => 1

/-- A thread gets on in `processRequests`, unless another one is there. -/
theorem process_advance {w : Worker ι} {p : ProcPc ι} (hc : Core s) (hw : s.critical w = p.critical)
    (hq : s.requestQueue.cancelled = false) (hm : s.mutex = none ∨ s.mutex = some w) :
    ∃ u n, s.processStep C w p = some (u, n) ∧ n ≠ .threw ∧ (u.mutex = none ∨ u.mutex = some w) ∧
      40 * u.requestQueue.items.length + n.cost < 40 * s.requestQueue.items.length + (10 + p.cost) := by
  cases p with
  | lock =>
    have hnone : s.mutex = none := by
      refine hm.resolve_right fun hx => ?_
      exact (hc.holder w).mp hx hw
    exact ⟨_, _, if_pos hnone, (by simp), .inr rfl, by simp [Next.cost, ProcPc.cost]⟩
  | size =>
    refine ⟨s, .goto (if 0 < s.requestQueue.size then .pop else .unlock), rfl, (by simp), hm, ?_⟩
    simp only [Next.cost]
    split <;> simp [ProcPc.cost]
  | pop =>
    cases hz : s.requestQueue.items with
    | nil => exact absurd hz (hc.popping (hc.inside_eq hw).2)
    | cons r rest =>
      have hpop : s.requestQueue.pop = .item r { s.requestQueue with items := rest } := by
        simp [CancelQueue.pop, hq, hz]
      refine ⟨{ s with requestQueue := { s.requestQueue with items := rest } }, .goto (.execute r),
        by simp only [processStep, hpop], (by simp), hm, ?_⟩
      simp only [Next.cost, ProcPc.cost, List.length_cons]
      omega
  | execute r =>
    exact ⟨s.execute C r, .goto (.delete r), rfl, (by simp), hm, by simp [Next.cost, ProcPc.cost, execute, send]⟩
  | delete r => exact ⟨s.delete C r, .goto .size, rfl, (by simp), hm, by simp [Next.cost, ProcPc.cost, delete, send]⟩
  | unlock =>
    exact ⟨{ s with mutex := none }, .done, rfl, (by simp), .inl rfl, by simp [Next.cost, ProcPc.cost]⟩

/-- What console `i` has before it, with what is in the queue. -/
def effort (s : RequestServer ι) (i : ι) : ℕ :=
  40 * s.requestQueue.items.length + (s.console i).cost

omit [DecidableEq ι] in
theorem effort_lt {i : ι} (hq : t.requestQueue.items = s.requestQueue.items)
    (hc : (t.console i).cost < (s.console i).cost) : t.effort i < s.effort i := by
  unfold effort
  rw [hq]
  omega

/-- A console whose server is not running gets on, unless it waits for its shell. -/
theorem handler_advance {i : ι} (hc : Core s) (hr : s.running = false)
    (hq : s.requestQueue.cancelled = false) (hm : s.mutex = none ∨ s.mutex = some (.handler i))
    (hidle : s.console i ≠ .idle) (hthrew : s.console i ≠ .threw)
    (heval : ∀ l k, s.console i ≠ .eval l k) : ∃ u, s.consoleStep C i = some u ∧
    (u.mutex = none ∨ u.mutex = some (.handler i)) ∧ u.effort i < s.effort i := by
  cases hp : s.console i with
  | idle => exact absurd hp hidle
  | threw => exact absurd hp hthrew
  | eval l k => exact absurd hp (heval l k)
  | shellTest l k =>
    refine ⟨s.goto i (if s.shell i then .eval l k else .runningTest l k), by simp only [consoleStep, hp],
      hm, effort_lt rfl ?_⟩
    simp only [goto, Function.update_self, hp]
    split <;> simp [ConsolePc.cost]
  | reissue l k =>
    refine ⟨s.goto i (if s.shell i then .shellTest l k else .command l k), by simp only [consoleStep, hp],
      hm, effort_lt rfl ?_⟩
    simp only [goto, Function.update_self, hp]
    split <;> simp [ConsolePc.cost]
  | runningTest l k =>
    refine ⟨{ s with exited := Function.update s.exited i true }.goto i (.returned none k),
      by simp only [consoleStep, hp, hr, Bool.false_eq_true, ↓reduceIte], hm, effort_lt rfl ?_⟩
    simp [goto, hp, ConsolePc.cost]
  | dispatch l k =>
    cases hd : CogServer.dispatch l with
    | telnet sent =>
      refine ⟨(s.send i (sent ++ [C.prompt])).goto i (.returned none k), by simp only [consoleStep, hp, hd],
        hm, effort_lt rfl ?_⟩
      simp [goto, hp, ConsolePc.cost]
    | enter sent command =>
      refine ⟨(s.send i sent).goto i (.shellTest command (l :: k)), by simp only [consoleStep, hp, hd],
        hm, effort_lt rfl ?_⟩
      simp [goto, hp, ConsolePc.cost]
      omega
    | command sent =>
      refine ⟨(s.send i sent).goto i (.command l k), by simp only [consoleStep, hp, hd], hm,
        effort_lt rfl ?_⟩
      simp [goto, hp, ConsolePc.cost]
  | command l k =>
    have hmake (u : RequestServer ι) (hu : s.consoleStep C i = some u) (hum : u.mutex = s.mutex)
        (huq : u.requestQueue = s.requestQueue)
        (hup : (∃ r, u.console i = .push r k) ∨ u.console i = .returned none k) :
        ∃ u, s.consoleStep C i = some u ∧ (u.mutex = none ∨ u.mutex = some (.handler i)) ∧
          u.effort i < s.effort i := by
      refine ⟨u, hu, hum ▸ hm, effort_lt (congrArg CancelQueue.items huq) ?_⟩
      rcases hup with ⟨r, hup⟩ | hup <;> simp [hup, hp, ConsolePc.cost]
    cases htok : simpleTokenize l with
    | nil =>
      exact hmake ((s.send i [C.prompt]).goto i (.returned none k)) (by simp only [consoleStep, hp, htok])
        rfl rfl (.inr (by simp [goto]))
    | cons cmdName params =>
      cases hcreate : C.create cmdName with
      | some isShell =>
        exact hmake (s.makeRequest i cmdName params isShell k) (by simp only [consoleStep, hp, htok, hcreate])
          rfl rfl (.inl ⟨_, by simp [makeRequest, goto]; rfl⟩)
      | none =>
        cases hhelp : C.create (ascii "help") with
        | some isShell =>
          exact hmake ((s.send i [notFound cmdName]).makeRequest i (ascii "help") params isShell k)
            (by simp only [consoleStep, hp, htok, hcreate, hhelp]) rfl rfl
            (.inl ⟨_, by simp [makeRequest, goto]; rfl⟩)
        | none =>
          exact hmake ((s.send i [notFound cmdName, C.prompt]).goto i (.returned none k))
            (by simp only [consoleStep, hp, htok, hcreate, hhelp]) rfl rfl (.inr (by simp [goto]))
  | push r k =>
    refine ⟨{ s with
        requestQueue := ⟨s.requestQueue.items ++ [r], s.requestQueue.cancelled⟩
        pushed := s.pushed ++ [r] }.goto i (if r.isShell then .process r k .lock else .returned none k),
      ?_, hm, ?_⟩
    · simp only [consoleStep, hp, CancelQueue.push, hq, Bool.false_eq_true, ↓reduceIte]
    · simp only [effort, goto, Function.update_self, hp, List.length_append, List.length_singleton]
      split <;> simp only [ConsolePc.cost, ProcPc.cost] <;> omega
  | process r k p =>
    obtain ⟨u, n, hu, hn, hum, hlt⟩ := process_advance (C := C) (w := .handler i) (p := p) hc
      (by simp [critical, hp, ConsolePc.critical]) hq hm
    cases n with
    | threw => exact absurd rfl hn
    | goto q =>
      refine ⟨u.goto i (.process r k q), by simp only [consoleStep, hp, hu, Option.map_some], hum, ?_⟩
      simp only [effort, goto, Function.update_self, hp, ConsolePc.cost, Next.cost] at hlt ⊢
      omega
    | done =>
      refine ⟨u.goto i (.returned (some r) k), by simp only [consoleStep, hp, hu, Option.map_some], hum, ?_⟩
      simp only [effort, goto, Function.update_self, hp, ConsolePc.cost, Next.cost] at hlt ⊢
      omega
  | returned r k =>
    cases k with
    | nil =>
      refine ⟨s.goto i .idle, by simp only [consoleStep, hp], hm, effort_lt rfl ?_⟩
      simp [goto, hp, ConsolePc.cost]
    | cons l k =>
      refine ⟨s.goto i (.reissue l k), by simp only [consoleStep, hp], hm, effort_lt rfl ?_⟩
      simp [goto, hp, ConsolePc.cost]
      omega

/-- How far the server loop is from joining threads, while nobody else moves. -/
def loopEffort (s : RequestServer ι) : ℕ :=
  40 * s.requestQueue.items.length +
    match s.loop with
    | .drainTest => if s.requestQueue.items = [] then 1 else 10
    | .drain .unlock => if s.requestQueue.items = [] then 4 else 14
    | .drain p => p.cost
    | _ => 0

/-- The server loop gets on with its drain, unless a handler thread is in `processRequests`. -/
theorem loop_advance (hc : Core s) (hq : s.requestQueue.cancelled = false)
    (hm : s.mutex = none ∨ s.mutex = some .serverLoop)
    (hl : s.loop = .drainTest ∨ ∃ p, s.loop = .drain p) :
    ∃ u, s.loopStep C = some u ∧ (u.mutex = none ∨ u.mutex = some .serverLoop) ∧
      u.loopEffort < s.loopEffort := by
  rcases hl with hl | ⟨p, hl⟩
  · refine ⟨{ s with loop := if 0 < s.requestQueue.size then .drain .lock else .joinThreads },
      by simp only [loopStep, hl], hm, ?_⟩
    by_cases hz : s.requestQueue.items = []
    · simp [loopEffort, hl, hz, CancelQueue.size]
    · have hpos : 0 < s.requestQueue.size := List.length_pos_iff.mpr hz
      simp [loopEffort, hl, hz, hpos, ProcPc.cost]
  · have hw : s.critical .serverLoop = p.critical := by simp [critical, hl, LoopPc.critical]
    have hgo (u : RequestServer ι) (hu : s.loopStep C = some u)
        (hum : u.mutex = none ∨ u.mutex = some .serverLoop) (hlt : u.loopEffort < s.loopEffort) :
        ∃ u, s.loopStep C = some u ∧ (u.mutex = none ∨ u.mutex = some .serverLoop) ∧
          u.loopEffort < s.loopEffort := ⟨u, hu, hum, hlt⟩
    cases p with
    | lock =>
      have hnone : s.mutex = none := hm.resolve_right fun hx => (hc.holder _).mp hx hw
      exact hgo { s with mutex := some .serverLoop, loop := .drain .size }
        (by simp only [loopStep, hl, processStep, hnone, ↓reduceIte, Option.map_some]) (.inr rfl)
        (by simp [loopEffort, hl, ProcPc.cost])
    | size =>
      refine hgo { s with loop := .drain (if 0 < s.requestQueue.size then .pop else .unlock) }
        (by simp only [loopStep, hl, processStep, Option.map_some]) hm ?_
      by_cases hz : s.requestQueue.items = []
      · simp [loopEffort, hl, hz, CancelQueue.size, ProcPc.cost]
      · have hpos : 0 < s.requestQueue.size := List.length_pos_iff.mpr hz
        simp [loopEffort, hl, hpos, ProcPc.cost]
    | pop =>
      cases hz : s.requestQueue.items with
      | nil => exact absurd hz (hc.popping (hc.inside_eq hw).2)
      | cons r rest =>
        have hpop : s.requestQueue.pop = .item r { s.requestQueue with items := rest } := by
          simp [CancelQueue.pop, hq, hz]
        refine hgo { s with
            requestQueue := { s.requestQueue with items := rest }
            loop := .drain (.execute r) }
          (by simp only [loopStep, hl, processStep, hpop, Option.map_some]) hm ?_
        simp only [loopEffort, hl, hz, ProcPc.cost, List.length_cons]
        omega
    | execute r =>
      exact hgo { s.execute C r with loop := .drain (.delete r) }
        (by simp only [loopStep, hl, processStep, Option.map_some]) hm
        (by simp [loopEffort, hl, ProcPc.cost, execute, send])
    | delete r =>
      exact hgo { s.delete C r with loop := .drain .size }
        (by simp only [loopStep, hl, processStep, Option.map_some]) hm
        (by simp [loopEffort, hl, ProcPc.cost, delete, send])
    | unlock =>
      refine hgo { s with mutex := none, loop := .drainTest }
        (by simp only [loopStep, hl, processStep, Option.map_some]) (.inl rfl) ?_
      simp only [loopEffort, hl]
      split <;> omega

end RequestServer

namespace NetworkedServer

variable {ι : Type*} [DecidableEq ι] {C : Commands ι} {s t : NetworkedServer ι} {a : Act ι}

/-- What the threads of the server do by themselves: shells end their evaluations and clients
leave, but nobody connects, sends a line or calls `stop`. -/
def own (_ : NetworkedServer ι) : Act ι → Prop
  | .thread _ | .evalEnds _ _ | .leave _ | .destroy _ => True
  | .accept _ | .line _ _ | .stop | .cancel => False

/-- Steps of the threads that keep to the conditions. -/
def tidy (C : Commands ι) (s : NetworkedServer ι) (a : Act ι) : Prop := own s a ∧ orderly C s a

/-- A run that meets the conditions and has come to the shutdown part of `serverLoop`. -/
structure Ending (C : Commands ι) (s : NetworkedServer ι) : Prop where
  reach : Reach (shutdownSystem C) (orderly C) s
  draining : s.draining = true

theorem Ending.quiet (h : Ending C s) : s.server.Quiet C s.stopper :=
  (orderly_of_reach h.reach).quiet h.draining

theorem Ending.uncancelled (h : Ending C s) : s.server.requestQueue.cancelled = false :=
  (sheltered_of_reach (unseen_of_reach h.reach)).reset h.draining

omit [DecidableEq ι] in
theorem Ending.late [DecidableEq ι] (h : Ending C s) :
    s.server.loop.late = true ∧ s.returned = false := by
  simpa [NetworkedServer.draining] using h.draining

/-- In the quiet a thread moves the requests, and does not call `stop`. -/
theorem thread_of_quiet {w : Worker ι} {u : RequestServer ι} (hv : Shutting s)
    (hq : s.server.Quiet C s.stopper) (h : s.server.step C w.act = some u)
    (hloop : w = .serverLoop → s.server.loop = .drainTest → s.listening = false) : ∃ t,
    s.step C (.thread w) = some t ∧ t.server = u ∧ t.socket = s.socket ∧
    t.handlerThreads = s.handlerThreads ∧ t.listening = s.listening ∧ t.returned = s.returned := by
  have hworker : (s.workerStep w u).server = u ∧ (s.workerStep w u).socket = s.socket ∧
      (s.workerStep w u).handlerThreads = s.handlerThreads ∧
      (s.workerStep w u).listening = s.listening ∧ (s.workerStep w u).returned = s.returned := by
    unfold workerStep
    split
    · rename_i r hw
      have hshut := hq.popped r (hv.core.inside_eq hw).2
      rw [if_neg (by simp [hshut])]
      split <;> exact ⟨rfl, rfl, rfl, rfl, rfl⟩
    · split <;> exact ⟨rfl, rfl, rfl, rfl, rfl⟩
    · exact ⟨rfl, rfl, rfl, rfl, rfl⟩
  have hstep : s.step C (.thread w) = s.threadStep C w := by simp only [step, hq.stopper]
  rw [hstep]
  cases w with
  | handler i =>
    have hcon : s.server.consoleStep C i = some u := h
    simp only [threadStep, handlerStep, hcon, Option.map_some, Option.some.injEq]
    refine ⟨_, rfl, ?_⟩
    split
    · exact ⟨rfl, rfl, rfl, rfl, rfl⟩
    · exact hworker
  | serverLoop =>
    have hgo : s.server.loopStep C = some u := h
    refine ⟨s.workerStep .serverLoop u, ?_, hworker⟩
    simp only [threadStep, loopStep]
    split
    · rename_i hl
      simp [RequestServer.loopStep, hl] at hgo
    · rename_i hl
      rw [if_neg (by simp [hloop rfl hl]), hgo]
      rfl
    · rw [hgo]
      rfl

/-- A thread may move in the quiet, but the server loop may not end the drain too early. -/
theorem orderly_of_quiet (h : Ending C s) (w : Worker ι)
    (hend : w = .serverLoop → s.server.loop = .drainTest → s.server.ShellsOnly C) :
    orderly C s (.thread w) := by
  have hv := shutting_of_reach h.reach
  have hq := h.quiet
  refine ⟨⟨fun _ => h.uncancelled, fun hc => ?_, fun hc => ?_⟩, fun _ hl => hq, nofun, fun hw hl _ _ => ?_⟩
  · simp [Act.cancels, hq.stopper] at hc
  · simp only [Act.callsStop] at hc
    split at hc
    · rename_i r hw
      have := hq.popped r (hv.core.inside_eq hw).2
      simp [hc] at this
    · cases hc
  · cases hw
    exact hend rfl hl

/-- The other steps of the threads' own meet the conditions anyway. -/
theorem orderly_of_own (ha : own s a) (hw : ∀ w, a ≠ .thread w) : orderly C s a := by
  cases a with
  | thread w => exact absurd rfl (hw w)
  | accept i | line i l | stop | cancel => exact ha.elim
  | evalEnds i left | leave i | destroy i => exact ⟨⟨nofun, nofun, nofun⟩, nofun, nofun, nofun⟩

theorem Ending.step (h : Ending C s) (ha : orderly C s a) (ht : s.step C a = some t)
    (hl : t.server.loop.late = true) (hr : t.returned = false) : Ending C t :=
  ⟨.step h.reach ha ht, draining_of_late hl hr⟩

/-- What the other consoles keep while one handler thread runs. -/
structure Alone (s t : NetworkedServer ι) (i : ι) : Prop where
  console : ∀ j, j ≠ i → t.server.console j = s.server.console j
  loop : t.server.loop = s.server.loop
  handlerThreads : t.handlerThreads = s.handlerThreads

/-- The handler thread that is in `processRequests`, or any while nobody is, finishes its
`OnLine` by itself. -/
theorem handler_idles {i : ι} (h : Ending C s)
    (hm : s.server.mutex = none ∨ s.server.mutex = some (.handler i)) :
    ∃ t, Path (shutdownSystem C) (tidy C) s t ∧ Ending C t ∧ Alone s t i ∧
      t.server.mutex = none ∧ t.server.console i = .idle := by
  have hadvance (u : NetworkedServer ι) (hu : Ending C u ∧ Alone s u i ∧
      (u.server.mutex = none ∨ u.server.mutex = some (.handler i))) (hi : u.server.console i ≠ .idle) :
      ∃ t, Path (shutdownSystem C) (tidy C) u t ∧ (Ending C t ∧ Alone s t i ∧
        (t.server.mutex = none ∨ t.server.mutex = some (.handler i))) ∧
        t.server.effort i < u.server.effort i := by
    obtain ⟨he, hal, hm⟩ := hu
    obtain ⟨hlate, hret⟩ := he.late
    have hv := shutting_of_reach he.reach
    by_cases heval : ∃ l k, u.server.console i = .eval l k
    · obtain ⟨l, k, heval⟩ := heval
      have hown : own u (.evalEnds i false) := trivial
      have horder : orderly C u (.evalEnds i false) := orderly_of_own hown (by simp)
      have hstep : u.step C (.evalEnds i false) = some { u with server := { u.server with
          shell := Function.update u.server.shell i (u.server.shell i && !false) }.goto i (.returned none k) } := by
        simp only [step, RequestServer.step, heval, Option.map_some]
      refine ⟨_, .single ⟨hown, horder⟩ hstep, ⟨he.step horder hstep hlate hret, ?_, hm⟩, ?_⟩
      · refine ⟨fun j hj => ?_, hal.loop, hal.handlerThreads⟩
        rw [← hal.console j hj]
        exact Function.update_of_ne hj _ _
      · refine RequestServer.effort_lt rfl ?_
        simp [RequestServer.goto, heval, ConsolePc.cost]
    · have hthrew := (sheltered_of_reach (unseen_of_reach he.reach)).console i
      obtain ⟨v, hv', hvm, hlt⟩ := RequestServer.handler_advance (C := C) hv.core
        (running_of_draining he.reach he.draining) he.uncancelled hm hi hthrew
        fun l k hx => heval ⟨l, k, hx⟩
      obtain ⟨-, -, -, hloop, hcon⟩ := RequestServer.consoleStep_frame hv'
      obtain ⟨t, ht, rfl, -, hthreads, -, hret'⟩ :=
        thread_of_quiet (w := .handler i) hv he.quiet hv' (by simp)
      have horder := orderly_of_quiet he (.handler i) (by simp)
      refine ⟨t, .single (a := .thread (.handler i)) ⟨trivial, horder⟩ ht,
        ⟨he.step horder ht (hloop ▸ hlate) (hret'.trans hret), ?_, hvm⟩, hlt⟩
      exact ⟨fun j hj => (hcon j hj).trans (hal.console j hj), hloop.trans hal.loop,
        hthreads.trans hal.handlerThreads⟩
  obtain ⟨t, hp, ⟨he, hal, hm⟩, hi⟩ := Path.progress _ (fun u => u.server.console i = .idle)
    (fun u => u.server.effort i) hadvance s ⟨h, ⟨fun _ _ => rfl, rfl, rfl⟩, hm⟩
  refine ⟨t, hp, he, hal, hm.resolve_right fun hx => ?_, hi⟩
  have := ((shutting_of_reach he.reach).core.holder _).mp hx
  simp [RequestServer.critical, hi, ConsolePc.critical] at this

/-- A step of the drain. -/
theorem drain_advance (h : Ending C s)
    (hm : s.server.mutex = none ∨ s.server.mutex = some .serverLoop)
    (hl : s.server.loop = .drainTest ∨ ∃ p, s.server.loop = .drain p)
    (hend : s.server.loop = .drainTest → s.listening = false ∧ s.server.ShellsOnly C) : ∃ t,
    Path (shutdownSystem C) (tidy C) s t ∧ Ending C t ∧ t.handlerThreads = s.handlerThreads ∧
    t.server.console = s.server.console ∧ t.listening = s.listening ∧
    (t.server.mutex = none ∨ t.server.mutex = some .serverLoop) ∧
    t.server.loopEffort < s.server.loopEffort := by
  have hv := shutting_of_reach h.reach
  obtain ⟨u, hu, hum, hlt⟩ := RequestServer.loop_advance (C := C) hv.core h.uncancelled hm hl
  have hlate : u.loop.late = true := by
    cases RequestServer.loopMove_of_step hu with
    | serve hs _ _ => rcases hl with hl | ⟨p, hl⟩ <;> simp [hl, LoopPc.late] at hs
    | reset hs _ => rcases hl with hl | ⟨p, hl⟩ <;> cases hs.symm.trans hl
    | drain _ ht => rcases ht with ht | ⟨p, ht⟩ <;> rw [ht] <;> rfl
    | join _ _ ht => rw [ht]; rfl
    | threw _ _ ht => rw [ht]; rfl
  obtain ⟨t, ht, rfl, -, hthreads, hlis, hret⟩ :=
    thread_of_quiet (w := .serverLoop) hv h.quiet hu fun _ hx => (hend hx).1
  have horder := orderly_of_quiet h .serverLoop fun _ hx => (hend hx).2
  obtain ⟨-, -, -, hcon, -⟩ := RequestServer.loopStep_frame hu
  exact ⟨t, .single (a := .thread .serverLoop) ⟨trivial, horder⟩ ht,
    h.step horder ht hlate (hret.trans h.late.2), hthreads, hcon, hlis, hum, hlt⟩

/-- Whoever is in `processRequests` comes out. -/
theorem mutex_freed (h : Ending C s) : ∃ t, Path (shutdownSystem C) (tidy C) s t ∧ Ending C t ∧
    t.handlerThreads = s.handlerThreads ∧ t.server.mutex = none := by
  cases hm : s.server.mutex with
  | none => exact ⟨s, .refl s, h, rfl, hm⟩
  | some w =>
    cases w with
    | handler i =>
      obtain ⟨t, hp, he, hal, hm, -⟩ := handler_idles h (.inr hm)
      exact ⟨t, hp, he, hal.handlerThreads, hm⟩
    | serverLoop =>
      have hadvance (u : NetworkedServer ι) (hu : Ending C u ∧ u.handlerThreads = s.handlerThreads ∧
          (u.server.mutex = none ∨ u.server.mutex = some .serverLoop)) (hne : u.server.mutex ≠ none) :
          ∃ t, Path (shutdownSystem C) (tidy C) u t ∧ (Ending C t ∧ t.handlerThreads = s.handlerThreads ∧
            (t.server.mutex = none ∨ t.server.mutex = some .serverLoop)) ∧
            t.server.loopEffort < u.server.loopEffort := by
        obtain ⟨he, hthreads, hm⟩ := hu
        have hcr := ((shutting_of_reach he.reach).core.holder _).mp (hm.resolve_left hne)
        have hl : ∃ p, u.server.loop = .drain p := by
          have hlate := he.late.1
          cases hx : u.server.loop <;>
            simp [RequestServer.critical, hx, LoopPc.critical, LoopPc.late] at hcr hlate ⊢
        obtain ⟨t, hp, he, hthreads', -, -, hm, hlt⟩ := drain_advance he hm (.inr hl) fun hx => by
          obtain ⟨p, hp⟩ := hl
          cases hp.symm.trans hx
        exact ⟨t, hp, ⟨he, hthreads'.trans hthreads, hm⟩, hlt⟩
      obtain ⟨t, hp, ⟨he, hthreads, -⟩, hm⟩ := Path.progress _ (fun u => u.server.mutex = none)
        (fun u => u.server.loopEffort) hadvance s ⟨h, rfl, .inr hm⟩
      exact ⟨t, hp, he, hthreads, hm⟩

/-- All consoles get to where they read on. -/
theorem consoles_idle (h : Ending C s) : ∃ t, Path (shutdownSystem C) (tidy C) s t ∧ Ending C t ∧
    t.server.mutex = none ∧ ∀ i, t.server.console i = .idle := by
  obtain ⟨s', hp', he', hthreads', hm'⟩ := mutex_freed h
  have hlist (L : List ι) : ∃ t, Path (shutdownSystem C) (tidy C) s' t ∧ Ending C t ∧
      t.handlerThreads = s'.handlerThreads ∧ t.server.mutex = none ∧ ∀ i ∈ L, t.server.console i = .idle := by
    induction L with
    | nil => exact ⟨s', .refl s', he', rfl, hm', nofun⟩
    | cons i L ih =>
      obtain ⟨u, hp, he, hthreads, hm, hidle⟩ := ih
      obtain ⟨t, hq, he, hal, hm, hi⟩ := handler_idles (i := i) he (.inl hm)
      refine ⟨t, hp.trans hq, he, hal.handlerThreads.trans hthreads, hm, fun j hj => ?_⟩
      by_cases hij : j = i
      · rw [hij, hi]
      · rw [hal.console j hij]
        exact hidle j ((List.mem_cons.mp hj).resolve_left hij)
  obtain ⟨t, hp, he, hthreads, hm, hidle⟩ := hlist s'.handlerThreads
  refine ⟨t, hp'.trans hp, he, hm, fun i => ?_⟩
  by_contra hi
  have hv := shutting_of_reach he.reach
  exact hi (hidle i (hthreads ▸ hv.tracked i (.inl (hv.active i hi))))

omit [DecidableEq ι] in
theorem shellsOnly_of_idle {s : RequestServer ι} (hidle : ∀ i, s.console i = .idle) :
    s.ShellsOnly C := by
  intro i x hx
  rw [hidle i] at hx
  cases hx

/-- While no console is busy, the server loop ends its drain. -/
theorem drain_ends (h : Ending C s) (hm : s.server.mutex = none)
    (hidle : ∀ i, s.server.console i = .idle) : ∃ t, Path (shutdownSystem C) (tidy C) s t ∧
    Ending C t ∧ t.server.loop = .joinThreads ∧ ∀ i, t.server.console i = .idle := by
  have hadvance (u : NetworkedServer ι) (hu : Ending C u ∧ (∀ i, u.server.console i = .idle) ∧
      (u.server.mutex = none ∨ u.server.mutex = some .serverLoop)) (hl : u.server.loop ≠ .joinThreads) :
      ∃ t, Path (shutdownSystem C) (tidy C) u t ∧ (Ending C t ∧ (∀ i, t.server.console i = .idle) ∧
        (t.server.mutex = none ∨ t.server.mutex = some .serverLoop)) ∧
        t.server.loopEffort + t.listening.toNat < u.server.loopEffort + u.listening.toNat := by
    obtain ⟨he, hidle, hm⟩ := hu
    have hshells : u.server.ShellsOnly C := shellsOnly_of_idle hidle
    by_cases hstop : u.server.loop = .drainTest ∧ u.listening = true
    · obtain ⟨hd, hlistening⟩ := hstop
      have horder := orderly_of_quiet he .serverLoop fun _ _ => hshells
      have hstep : u.step C (.thread .serverLoop) = some { u with listening := false } := by
        simp only [step, he.quiet.stopper, threadStep, loopStep, hd, hlistening, ↓reduceIte]
      refine ⟨_, .single (a := .thread .serverLoop) ⟨trivial, horder⟩ hstep,
        ⟨he.step horder hstep he.late.1 he.late.2, hidle, hm⟩, ?_⟩
      simp [hlistening]
    · have hl' : u.server.loop = .drainTest ∨ ∃ p, u.server.loop = .drain p := by
        have hlate := he.late.1
        have hthrew := (sheltered_of_reach (unseen_of_reach he.reach)).loop
        cases hx : u.server.loop <;> simp_all [LoopPc.late]
      obtain ⟨t, hp, he, -, hcon, hlis, hm, hlt⟩ := drain_advance he hm hl' fun hx =>
        ⟨by simpa [hx] using hstop, hshells⟩
      refine ⟨t, hp, ⟨he, fun i => by rw [hcon, hidle i], hm⟩, ?_⟩
      rw [hlis]
      omega
  obtain ⟨t, hp, ⟨he, hidle, -⟩, hl⟩ := Path.progress _ (fun u => u.server.loop = .joinThreads)
    (fun u => u.server.loopEffort + u.listening.toNat) hadvance s ⟨h, hidle, .inl hm⟩
  exact ⟨t, hp, he, hl, hidle⟩

/-- Once the drain is over and no console is busy, no request holds a console. -/
theorem uses_eq_zero (h : Ending C s) (hl : s.server.loop = .joinThreads)
    (hidle : ∀ i, s.server.console i = .idle) (i : ι) : s.useCount i = 0 := by
  have hempty : s.server.requestQueue.items = [] := by
    by_contra hne
    obtain ⟨j, r, k, p, hj, -⟩ := (orderly_of_reach h.reach).attended hl h.late.2 hne
    cases hj.symm.trans (hidle j)
  rw [(counted_of_reach (unseen_of_reach h.reach)).uses i, holding,
    inside_of_idle (shutting_of_reach h.reach).core hl hidle, hempty, hidle i]
  rfl

/-- How many steps the server loop needs to join its threads. -/
def joinEffort (s : NetworkedServer ι) : ℕ :=
  4 * s.handlerThreads.length +
    match s.handlerThreads with
    | [] => 0
    | i :: _ => match s.socket i with
      | .reading => 2
      | .destructor => 1
      | _ => 0

/-- The server loop joins its threads. -/
theorem threads_join (h : Ending C s) (hl : s.server.loop = .joinThreads)
    (hidle : ∀ i, s.server.console i = .idle) :
    ∃ t, Path (shutdownSystem C) (tidy C) s t ∧ Reach (shutdownSystem C) (orderly C) t ∧
      t.returned = true := by
  have hadvance (u : NetworkedServer ι) (hu : Ending C u ∧ u.server.loop = .joinThreads ∧
      ∀ i, u.server.console i = .idle) (hthreads : u.handlerThreads ≠ []) :
      ∃ t, Path (shutdownSystem C) (tidy C) u t ∧ (Ending C t ∧ t.server.loop = .joinThreads ∧
        ∀ i, t.server.console i = .idle) ∧ t.joinEffort < u.joinEffort := by
    obtain ⟨he, hl, hidle⟩ := hu
    obtain ⟨i, rest, hthreads⟩ := List.exists_cons_of_ne_nil hthreads
    have hgo {a : Act ι} {t : NetworkedServer ι} (ha : orderly C u a) (hown : own u a)
        (ht : u.step C a = some t) (hserver : t.server = u.server) (hret : t.returned = u.returned)
        (hlt : t.joinEffort < u.joinEffort) :
        ∃ t, Path (shutdownSystem C) (tidy C) u t ∧ (Ending C t ∧ t.server.loop = .joinThreads ∧
          ∀ i, t.server.console i = .idle) ∧ t.joinEffort < u.joinEffort := by
      refine ⟨t, .single ⟨hown, ha⟩ ht, ⟨he.step ha ht ?_ (hret.trans he.late.2), ?_, ?_⟩, hlt⟩
      · rw [hserver]
        exact he.late.1
      · rw [hserver]
        exact hl
      · rw [hserver]
        exact hidle
    cases hsocket : u.socket i with
    | absent => exact absurd hsocket ((shutting_of_reach he.reach).opened i (by simp [hthreads]))
    | reading =>
      refine hgo (a := .leave i) (t := { u with socket := Function.update u.socket i .destructor })
        (orderly_of_own trivial (by simp)) trivial
        (by simp only [step, hsocket, hidle i, and_self, ↓reduceIte]) rfl rfl ?_
      simp [joinEffort, hthreads, hsocket]
    | destructor =>
      refine hgo (a := .destroy i) (t := { u with socket := Function.update u.socket i .closed })
        (orderly_of_own trivial (by simp)) trivial
        (by simp only [step, hsocket, uses_eq_zero he hl hidle i, and_self, ↓reduceIte]) rfl rfl ?_
      simp [joinEffort, hthreads, hsocket]
    | closed =>
      refine hgo (a := .thread .serverLoop) (t := { u with handlerThreads := rest })
        (orderly_of_quiet he _ fun _ hx => absurd hx (by simp [hl])) trivial
        (by simp only [step, he.quiet.stopper, threadStep, loopStep, hl, hthreads, hsocket, ↓reduceIte])
        rfl rfl ?_
      simp only [joinEffort, hthreads, hsocket, List.length_cons]
      cases rest with
      | nil => simp
      | cons j rest =>
        simp only [List.length_cons]
        cases u.socket j <;> simp <;> omega
  obtain ⟨t, hp, ⟨he, hl, -⟩, hthreads⟩ := Path.progress _ (fun u => u.handlerThreads = [])
    joinEffort hadvance s ⟨h, hl, hidle⟩
  have horder := orderly_of_quiet he .serverLoop fun _ hx => absurd hx (by simp [hl])
  have hstep : t.step C (.thread .serverLoop) = some { t with returned := true } := by
    simp only [step, he.quiet.stopper, threadStep, loopStep, hl, hthreads, he.late.2, Bool.false_eq_true,
      ↓reduceIte]
  exact ⟨_, hp.tail (a := .thread .serverLoop) ⟨trivial, horder⟩ hstep, .step he.reach horder hstep, rfl⟩

/-- Where `serverLoop` has returned, every request has been executed and deleted once; and
from its reset of the queue on, whatever the consoles are doing, the threads that there
are bring it to its return, so that no destructor is left waiting. -/
theorem shutdown_drains (h : Reach (shutdownSystem C) (orderly C) s) :
    (s.returned = true → s.server.pushed.Nodup ∧ s.server.executed = s.server.pushed ∧
      s.server.deleted = s.server.pushed) ∧
    (s.server.loop.late = true → ∃ t, Path (shutdownSystem C) own s t ∧ t.returned = true ∧
      t.server.executed = t.server.pushed ∧ t.server.deleted = t.server.pushed ∧
      ∀ i, t.socket i ≠ .destructor) := by
  have hend {t : NetworkedServer ι} (hp : Path (shutdownSystem C) own s t)
      (hr : Reach (shutdownSystem C) (orderly C) t) (hret : t.returned = true) :
      ∃ t, Path (shutdownSystem C) own s t ∧ t.returned = true ∧ t.server.executed = t.server.pushed ∧
        t.server.deleted = t.server.pushed ∧ ∀ i, t.socket i ≠ .destructor := by
    obtain ⟨-, hexecuted, hdeleted⟩ := drained_of_returned hr hret
    refine ⟨t, hp, hret, hexecuted, hdeleted, fun i hi => ?_⟩
    have hv := shutting_of_reach hr
    have := hv.tracked i (.inr hi)
    simp [(hv.joined hret).2] at this
  refine ⟨drained_of_returned h, fun hl => ?_⟩
  cases hret : s.returned with
  | true => exact hend (.refl s) h hret
  | false =>
    have hs : Ending C s := ⟨h, draining_of_late hl hret⟩
    obtain ⟨t1, hp1, he1, hm1, hidle1⟩ := consoles_idle hs
    obtain ⟨t2, hp2, he2, hl2, hidle2⟩ := drain_ends he1 hm1 hidle1
    obtain ⟨t3, hp3, hr3, hret3⟩ := threads_join he2 hl2 hidle2
    exact hend (((hp1.trans hp2).trans hp3).mono fun _ _ => And.left) hr3 hret3

section Runs

/-- A check of the conditions on one step, for one console. -/
def keepsOrder (s : NetworkedServer Unit) (a : Act Unit) : Bool :=
  decide (unseen s a) &&
  decide (a = .stop → s.draining = false) &&
  decide (a = .thread .serverLoop → s.server.loop = .cancelReset →
    s.server.stopping = 0 ∧ s.stopper = none ∧ s.server.requestQueue.items = [] ∧ s.server.mutex = none ∧
      ∀ x ∈ (s.server.console ()).toMake plainCommands, x.1 ≠ ascii "shutdown") &&
  decide (a = .thread .serverLoop → s.server.loop ≠ .drainTest)

theorem orderly_of_keepsOrder (s : NetworkedServer Unit) (a : Act Unit)
    (h : keepsOrder s a = true) : orderly plainCommands s a := by
  simp only [keepsOrder, Bool.and_eq_true, decide_eq_true_eq] at h
  obtain ⟨⟨⟨h1, h2⟩, h3⟩, h4⟩ := h
  refine ⟨h1, fun ha hl => ?_, h2, fun ha hl => absurd hl (h4 ha)⟩
  obtain ⟨hstopping, hstopper, hitems, hmutex, hmake⟩ := h3 ha hl
  refine ⟨hstopping, hstopper, by simp [hitems], fun r hin => ?_, fun _ => hmake⟩
  simp [RequestServer.inside, hmutex] at hin

/-- `stop` comes after the console's test of `running`, and the request is pushed during the
drain. -/
def latePush : List (Act Unit) :=
  [.accept (), .line () (ascii "list"), .thread (.handler ()), .thread (.handler ()), .stop, .cancel] ++
    loops 2 ++ List.replicate 3 (.thread (.handler ()))

theorem shutdown_drains_late : ∃ s : NetworkedServer Unit, s.server.pushed.length = 1 ∧
    s.server.executed = [] ∧ ∃ t, Path (shutdownSystem plainCommands) own s t ∧ t.returned = true ∧
      t.server.executed = t.server.pushed ∧ t.server.deleted = t.server.pushed ∧
      ∀ i, t.socket i ≠ .destructor := by
  have hx : (exec (shutdownSystem plainCommands) start latePush).map
      (fun s => (s.server.pushed.length, s.server.executed, s.server.loop)) = some (1, [], .drainTest) := by
    decide +kernel
  obtain ⟨s, hs, h⟩ := Option.map_eq_some_iff.mp hx
  obtain ⟨hpushed, h⟩ := Prod.mk.inj h
  obtain ⟨hexecuted, hl⟩ := Prod.mk.inj h
  have hreach : Reach (shutdownSystem plainCommands) (orderly plainCommands) s :=
    Reach.of_exec keepsOrder orderly_of_keepsOrder (.init rfl) (by decide +kernel) hs
  exact ⟨s, hpushed, hexecuted, (shutdown_drains hreach).2 (by rw [hl]; rfl)⟩

/-- The handler thread waits in `~ConsoleSocket`, and `serverLoop` waits for it, for ever. -/
def Hung (s : NetworkedServer Unit) : Prop :=
  ∀ t, Path (shutdownSystem plainCommands) anyStep s t →
    t.returned = false ∧ t.socket () = .destructor ∧ t.useCount () ≠ 0 ∧ t.server.executed = []

/-- The same, but the request is pushed after the drain. -/
def latePushMissed : List (Act Unit) :=
  [.accept (), .line () (ascii "list"), .thread (.handler ()), .thread (.handler ()), .stop, .cancel] ++
    loops 4 ++ List.replicate 4 (.thread (.handler ())) ++ [.leave ()]

/-- Nothing can happen here but further calls of `stop`. -/
structure Stuck (s : NetworkedServer Unit) : Prop where
  console : s.server.console () = .idle
  loop : s.server.loop = .joinThreads
  stopper : s.stopper = none
  socket : s.socket () = .destructor
  useCount : s.useCount () = 1
  listening : s.listening = false
  handlerThreads : s.handlerThreads = [()]
  returned : s.returned = false
  executed : s.server.executed = []

theorem stuck_step {s t : NetworkedServer Unit} {a : Act Unit} (hs : Stuck s)
    (h : s.step plainCommands a = some t) : Stuck t := by
  cases a with
  | accept i => simp [step, hs.listening] at h
  | line i l => simp [step, hs.socket] at h
  | evalEnds i left => simp [step, RequestServer.step, hs.console] at h
  | leave i => simp [step, hs.socket] at h
  | destroy i => simp [step, hs.useCount] at h
  | stop =>
    cases h
    exact ⟨hs.console, hs.loop, hs.stopper, hs.socket, hs.useCount, hs.listening, hs.handlerThreads,
      hs.returned, hs.executed⟩
  | cancel =>
    obtain ⟨u, hu, rfl⟩ := Option.map_eq_some_iff.mp h
    simp only [RequestServer.step] at hu
    split at hu <;> cases hu
    exact ⟨hs.console, hs.loop, hs.stopper, hs.socket, hs.useCount, hs.listening, hs.handlerThreads,
      hs.returned, hs.executed⟩
  | thread w =>
    cases w with
    | handler i =>
      simp [step, hs.stopper, threadStep, handlerStep, RequestServer.consoleStep, hs.console] at h
    | serverLoop =>
      simp [step, hs.stopper, threadStep, loopStep, hs.loop, hs.handlerThreads, hs.socket] at h

/-- A console that has tested `running` before `stop`, and pushes its request when the drain
has seen an empty queue. -/
theorem shutdown_hangs : ∃ s, Reach (shutdownSystem plainCommands) anyStep s ∧
    s.server.pushed.length = 1 ∧ s.server.loop = .joinThreads ∧ Hung s := by
  have hx : (exec (shutdownSystem plainCommands) start latePushMissed).map (fun s => decide
      (s.server.pushed.length = 1 ∧ s.server.console () = .idle ∧ s.server.loop = .joinThreads ∧
        s.stopper = none ∧ s.socket () = .destructor ∧ s.useCount () = 1 ∧ s.listening = false ∧
        s.handlerThreads = [()] ∧ s.returned = false ∧ s.server.executed = [])) = some true := by
    decide +kernel
  obtain ⟨s, hs, h⟩ := Option.map_eq_some_iff.mp hx
  obtain ⟨hpushed, h1, h2, h3, h4, h5, h6, h7, h8, h9⟩ := of_decide_eq_true h
  refine ⟨s, reach_of_exec _ rfl hs, hpushed, h2, fun t hp => ?_⟩
  have ht := hp.invariant Stuck (fun _ _ _ hs _ h => stuck_step hs h) ⟨h1, h2, h3, h4, h5, h6, h7, h8, h9⟩
  exact ⟨ht.returned, ht.socket, by simp [ht.useCount], ht.executed⟩

end Runs

end NetworkedServer

end CogServer
