import CogServer.CommandWords
import CogServer.RequestOrder
import CogServer.TelnetLines

/-! The command lines of a console, from the bytes on the wire to the requests that are executed, while
other consoles and the server loop run beside it. -/
namespace CogServer

open Transition Telnet CommandWords

/-- The server, and the lines that each console's `handle_connection` has still to pass to `OnLine`. -/
structure ConsoleFeeds (ι : Type*) where
  server : RequestServer ι
  todo : ι → List Bytes

namespace ConsoleFeeds

variable {ι : Type*} [DecidableEq ι]

def step (C : Commands ι) (x : ConsoleFeeds ι) (a : RequestServer.Act ι) : Option (ConsoleFeeds ι) :=
  match a with
  | .line i l =>
    match x.todo i with
    | [] => none
    | line :: rest =>
      if l = line then (x.server.step C (.line i l)).map fun server => ⟨server, Function.update x.todo i rest⟩
      else none
  | a => (x.server.step C a).map fun server => { x with server }

end ConsoleFeeds

/-- Consoles whose connections have these lines. -/
def feedSystem {ι : Type*} [DecidableEq ι] (C : Commands ι) (feeds : ι → List Bytes) :
    System (ConsoleFeeds ι) (RequestServer.Act ι) where
  init x := x = ⟨RequestServer.start, feeds⟩
  step := ConsoleFeeds.step C

namespace Commands

variable {ι : Type*} (C : Commands ι)

/-- The requests that the words of a line ask for: an unknown command is one for help. -/
def requested : List Bytes → List (Bytes × List Bytes)
  | [] => []
  | cmdName :: params =>
    match C.create cmdName with
    | some _ => [(cmdName, params)]
    | none =>
      match C.create (ascii "help") with
      | some _ => [(ascii "help", params)]
      | none => []

/-- No shell is behind the command. -/
def Replies (q : Bytes × List Bytes) : Prop := C.create q.1 = some false

/-- A line that is no telnet command, and does not ask for a shell. -/
structure CommandLine (l : Bytes) : Prop where
  dispatched : ∃ sent, dispatch l = .command sent
  replies : ∀ q ∈ C.requested (simpleTokenize l), C.Replies q

end Commands

/-- The requests of a console, among others. -/
def requestsOf {ι : Type*} [DecidableEq ι] (i : ι) (rs : List (Request ι)) : List (Bytes × List Bytes) :=
  (rs.filter (·.console = i)).map fun r => (r.cmdName, r.parameters)

namespace RequestServer

variable {ι : Type*} [DecidableEq ι] {C : Commands ι} {s : RequestServer ι}

/-- The server can always bring everything that was pushed to an end. -/
theorem drained_of_reach (hr : Reach (requestSystem C) unstopped s) :
    ∃ t, Path (requestSystem C) serverSide s t ∧ t.pushed = s.pushed ∧ Drained t := by
  have hadvance (u : RequestServer ι) (hu : Reach (requestSystem C) unstopped u ∧ u.pushed = s.pushed)
      (hg : ¬ Drained u) : ∃ t, Path (requestSystem C) serverSide u t ∧
        (Reach (requestSystem C) unstopped t ∧ t.pushed = s.pushed) ∧ rank t < rank u := by
    obtain ⟨t, hp, htp, hlt⟩ := drain_advance hu.1 hg
    refine ⟨t, hp, ⟨hp.reach ?_ hu.1, htp.trans hu.2⟩, hlt⟩
    rintro _ _ (rfl | ⟨i, rfl⟩) <;> simp [unstopped]
  obtain ⟨t, hpath, ⟨-, htp⟩, hdrained⟩ := Path.progress _ Drained rank hadvance s ⟨hr, rfl⟩
  exact ⟨t, hpath, htp, hdrained⟩

omit [DecidableEq ι] in
/-- A request goes to the end of the queue. -/
theorem Serving.push (hs : Serving s) (r : Request ι) :
    s.requestQueue.push r = some ⟨s.requestQueue.items ++ [r], false⟩ :=
  CancelQueue.push_eq_some.mpr ⟨hs.uncancelled, rfl⟩

end RequestServer

namespace ConsoleFeeds

variable {ι : Type*} [DecidableEq ι] {C : Commands ι} {feeds : ι → List Bytes}
  {x y : ConsoleFeeds ι} {i : ι}

/-- What the thread of a console has of a line whose request is not yet in the queue. -/
def handed (C : Commands ι) : ConsolePc ι → List (Bytes × List Bytes)
  | .shellTest l _ | .runningTest l _ | .dispatch l _ | .command l _ => C.requested (simpleTokenize l)
  | .push r _ => [(r.cmdName, r.parameters)]
  | _ => []

/-- Where the thread of a console is with command lines. -/
def Commanding (C : Commands ι) (i : ι) : ConsolePc ι → Prop
  | .idle => True
  | .shellTest l k | .runningTest l k | .dispatch l k | .command l k => k = [] ∧ C.CommandLine l
  | .push r k => k = [] ∧ r.console = i ∧ r.isShell = false
  | .returned shell k => shell = none ∧ k = []
  | _ => False

/-- Nothing of the command lines of console `i` gets lost, and nothing is made up. -/
structure Ledger (C : Commands ι) (feeds : ι → List Bytes) (i : ι) (x : ConsoleFeeds ι) : Prop where
  shell : x.server.shell i = false
  plain : ∀ r ∈ x.server.pushed, r.console = i → r.isShell = false
  commanding : Commanding C i (x.server.console i)
  lines : ∀ l ∈ x.todo i, C.CommandLine l
  balance : requestsOf i x.server.pushed ++ handed C (x.server.console i) ++
    (x.todo i).flatMap (fun l => C.requested (simpleTokenize l)) =
      (feeds i).flatMap fun l => C.requested (simpleTokenize l)

theorem requestsOf_append (i : ι) (rs rs' : List (Request ι)) :
    requestsOf i (rs ++ rs') = requestsOf i rs ++ requestsOf i rs' := by
  rw [requestsOf, List.filter_append, List.map_append]
  rfl

theorem requestsOf_other {r : Request ι} (h : r.console ≠ i) : requestsOf i [r] = [] := by
  rw [requestsOf, List.filter_cons_of_neg (by simpa using h)]
  rfl

theorem requestsOf_own {r : Request ι} (h : r.console = i) : requestsOf i [r] = [(r.cmdName, r.parameters)] := by
  rw [requestsOf, List.filter_cons_of_pos (by simpa using h)]
  rfl

/-- A request for a shell of console `i` is waiting, or being executed. -/
def Pending (s : RequestServer ι) (i : ι) : Prop :=
  ∃ r ∈ s.pushed, r ∉ s.executed ∧ r.console = i ∧ r.isShell = true

/-- A step of a thread in `processRequests` gives shells only to consoles that wait for one. -/
theorem processStep_shell {s u : RequestServer ι} {w : Worker ι} {p : ProcPc ι} {n : RequestServer.Next ι}
    (hc : RequestServer.Core s) (hnodup : s.pushed.Nodup) (hw : s.critical w = p.critical)
    (h : s.processStep C w p = some (u, n)) (i : ι) : u.shell i = s.shell i ∨ Pending s i := by
  cases p with
  | lock =>
    simp only [RequestServer.processStep] at h
    split at h <;> cases h
    exact .inl rfl
  | pop =>
    simp only [RequestServer.processStep] at h
    split at h <;> cases h <;> exact .inl rfl
  | size | unlock | delete r =>
    cases h
    exact .inl rfl
  | execute r =>
    cases h
    simp only [RequestServer.execute, RequestServer.send]
    by_cases hshell : r.isShell = true
    · rw [if_pos hshell]
      by_cases hi : i = r.console
      · -- the request was popped, so it is behind all that are executed
        have hqueue := hc.queue_at hw
        have hmem : r ∈ s.pushed := by
          rw [hqueue]
          exact List.mem_append_left _ (List.mem_append_right _ List.mem_cons_self)
        have hnew : r ∉ s.executed := by
          rw [hqueue, List.append_assoc] at hnodup
          intro hr
          exact (List.nodup_append.mp hnodup).2.2 r hr r (List.mem_append_left _ List.mem_cons_self) rfl
        exact .inr ⟨r, hmem, hnew, hi.symm, hshell⟩
      · exact .inl (Function.update_of_ne hi ..)
    · rw [if_neg hshell]
      exact .inl rfl

theorem Ledger.notPending (hl : Ledger C feeds i x) : ¬ Pending x.server i := by
  rintro ⟨r, hr, -, hi, hshell⟩
  rw [hl.plain r hr hi] at hshell
  cases hshell

/-- The steps of the other threads. -/
theorem Ledger.frame (hl : Ledger C feeds i x) (hshell : y.server.shell i = x.server.shell i)
    (hpushed : y.server.pushed = x.server.pushed ∨
      ∃ r : Request ι, r.console ≠ i ∧ y.server.pushed = x.server.pushed ++ [r])
    (hconsole : y.server.console i = x.server.console i) (htodo : y.todo i = x.todo i) :
    Ledger C feeds i y := by
  refine ⟨hshell.trans hl.shell, ?_, hconsole ▸ hl.commanding, htodo ▸ hl.lines, ?_⟩
  · intro r hr hi
    rcases hpushed with hp | ⟨r', hr', hp⟩
    · exact hl.plain r (hp ▸ hr) hi
    · rcases List.mem_append.mp (hp ▸ hr) with hr | hr
      · exact hl.plain r hr hi
      · exact absurd (List.mem_singleton.mp hr ▸ hi) hr'
  · rw [hconsole, htodo, ← hl.balance]
    rcases hpushed with hp | ⟨r', hr', hp⟩
    · rw [hp]
    · rw [hp, requestsOf_append, requestsOf_other hr', List.append_nil]

/-- The way of a command line from `OnLine` into the queue. -/
theorem consoleStep_commanding {s t : RequestServer ι} (hs : RequestServer.Serving s) (hshell : s.shell i = false)
    (hc : Commanding C i (s.console i)) (h : s.consoleStep C i = some t) :
    Commanding C i (t.console i) ∧ t.shell i = false ∧
      requestsOf i t.pushed ++ handed C (t.console i) = requestsOf i s.pushed ++ handed C (s.console i) ∧
      ∀ r ∈ t.pushed, r ∈ s.pushed ∨ r.isShell = false := by
  have hgoto (u : RequestServer ι) (p : ConsolePc ι) : (u.goto i p).console i = p := Function.update_self ..
  cases hp : s.console i with
  | idle | eval l k | threw => simp [RequestServer.consoleStep, hp] at h
  | reissue l k | process r k p =>
    rw [hp] at hc
    exact hc.elim
  | shellTest l k =>
    rw [hp] at hc
    obtain ⟨rfl, hl⟩ := hc
    simp only [RequestServer.consoleStep, hp, hshell, Bool.false_eq_true, ↓reduceIte, Option.some.injEq] at h
    subst h
    rw [hgoto]
    exact ⟨⟨rfl, hl⟩, hshell, rfl, fun r hr => .inl hr⟩
  | runningTest l k =>
    rw [hp] at hc
    obtain ⟨rfl, hl⟩ := hc
    simp only [RequestServer.consoleStep, hp, hs.running, ↓reduceIte, Option.some.injEq] at h
    subst h
    rw [hgoto]
    exact ⟨⟨rfl, hl⟩, hshell, rfl, fun r hr => .inl hr⟩
  | dispatch l k =>
    rw [hp] at hc
    obtain ⟨rfl, hl⟩ := hc
    obtain ⟨sent, hd⟩ := hl.dispatched
    simp only [RequestServer.consoleStep, hp, hd, Option.some.injEq] at h
    subst h
    rw [hgoto]
    exact ⟨⟨rfl, hl⟩, hshell, rfl, fun r hr => .inl hr⟩
  | command l k =>
    rw [hp] at hc
    obtain ⟨rfl, hl⟩ := hc
    have hreplies := hl.replies
    simp only [RequestServer.consoleStep, hp] at h
    cases hw : simpleTokenize l with
    | nil =>
      simp only [hw, Option.some.injEq] at h
      subst h
      rw [hgoto]
      exact ⟨⟨rfl, rfl⟩, hshell, by simp only [handed, hw]; rfl, fun r hr => .inl hr⟩
    | cons cmdName params =>
      simp only [hw] at h hreplies
      cases hcreate : C.create cmdName with
      | some isShell =>
        have hrequested : C.requested (cmdName :: params) = [(cmdName, params)] := by
          simp only [Commands.requested, hcreate]
        obtain rfl : isShell = false := by
          have hreply := hreplies (cmdName, params) (hrequested ▸ List.mem_singleton_self _)
          exact Option.some.inj (hcreate.symm.trans hreply)
        simp only [hcreate, Option.some.injEq] at h
        subst h
        rw [RequestServer.makeRequest, hgoto]
        exact ⟨⟨rfl, rfl, rfl⟩, hshell, by simp only [handed, hw, hrequested]; rfl, fun r hr => .inl hr⟩
      | none =>
        cases hhelp : C.create (ascii "help") with
        | some isShell =>
          have hrequested : C.requested (cmdName :: params) = [(ascii "help", params)] := by
            simp only [Commands.requested, hcreate, hhelp]
          obtain rfl : isShell = false := by
            have hreply := hreplies (ascii "help", params) (hrequested ▸ List.mem_singleton_self _)
            exact Option.some.inj (hhelp.symm.trans hreply)
          simp only [hcreate, hhelp, Option.some.injEq] at h
          subst h
          rw [RequestServer.makeRequest, hgoto]
          exact ⟨⟨rfl, rfl, rfl⟩, hshell, by simp only [handed, hw, hrequested]; rfl, fun r hr => .inl hr⟩
        | none =>
          have hrequested : C.requested (cmdName :: params) = [] := by
            simp only [Commands.requested, hcreate, hhelp]
          simp only [hcreate, hhelp, Option.some.injEq] at h
          subst h
          rw [hgoto]
          exact ⟨⟨rfl, rfl⟩, hshell, by simp only [handed, hw, hrequested]; rfl, fun r hr => .inl hr⟩
  | push r k =>
    rw [hp] at hc
    obtain ⟨rfl, hi, hplain⟩ := hc
    simp only [RequestServer.consoleStep, hp, hs.push r, hplain, Bool.false_eq_true, ↓reduceIte,
      Option.some.injEq] at h
    subst h
    rw [hgoto]
    refine ⟨⟨rfl, rfl⟩, hshell, ?_, ?_⟩
    · change requestsOf i (s.pushed ++ [r]) ++ [] = _
      rw [requestsOf_append, requestsOf_own hi, List.append_nil]
      rfl
    -- the one new request is no shell
    · intro r' hr'
      rcases List.mem_append.mp hr' with hr' | hr'
      · exact .inl hr'
      · exact .inr (List.mem_singleton.mp hr' ▸ hplain)
  | returned shell k =>
    rw [hp] at hc
    obtain ⟨rfl, rfl⟩ := hc
    simp only [RequestServer.consoleStep, hp, Option.some.injEq] at h
    subst h
    rw [hgoto]
    exact ⟨trivial, hshell, rfl, fun r hr => .inl hr⟩

/-- The thread of another console. -/
theorem consoleStep_other {s t : RequestServer ι} {j : ι} (hc : RequestServer.Core s)
    (hw : RequestServer.Consoles s) (hj : j ≠ i) (h : s.consoleStep C j = some t) :
    (t.shell i = s.shell i ∨ Pending s i) ∧ t.console i = s.console i ∧
      (t.pushed = s.pushed ∨ ∃ r : Request ι, r.console ≠ i ∧ t.pushed = s.pushed ++ [r]) := by
  obtain ⟨-, hpushed, -⟩ := RequestServer.consoleStep_requests h
  obtain ⟨-, -, -, -, hconsole⟩ := RequestServer.consoleStep_frame h
  -- only a thread in `processRequests` touches the shells of other consoles
  refine ⟨?_, hconsole i hj.symm, ?_⟩
  · cases hp : s.console j with
    | process r k p =>
      simp only [RequestServer.consoleStep, hp, Option.map_eq_some_iff] at h
      obtain ⟨⟨u, n⟩, hu, rfl⟩ := h
      have hcritical : s.critical (.handler j) = p.critical := by
        simp [RequestServer.critical, hp, ConsolePc.critical]
      have hshell := processStep_shell hc hw.nodup hcritical hu i
      exact hshell
    | idle | eval l k | threw => simp [RequestServer.consoleStep, hp] at h
    | shellTest l k | reissue l k =>
      simp only [RequestServer.consoleStep, hp, Option.some.injEq] at h
      subst h
      exact .inl rfl
    | runningTest l k | dispatch l k =>
      simp only [RequestServer.consoleStep, hp] at h
      split at h <;> cases h <;> exact .inl rfl
    | command l k =>
      simp only [RequestServer.consoleStep, hp] at h
      split at h
      · cases h
        exact .inl rfl
      · split at h
        · cases h
          exact .inl rfl
        · split at h <;> cases h <;> exact .inl rfl
    | push r k =>
      simp only [RequestServer.consoleStep, hp] at h
      split at h <;> cases h <;> exact .inl rfl
    | returned r k =>
      cases k <;> simp only [RequestServer.consoleStep, hp, Option.some.injEq] at h <;> subst h <;> exact .inl rfl
  · rcases hpushed with hsame | ⟨r, k, hp, hpush⟩
    · exact .inl hsame
    · have hwait := hw.waits j
      rw [hp] at hwait
      exact .inr ⟨r, hwait.1 ▸ hj, hpush⟩

/-- The server loop. -/
theorem loopStep_other {s t : RequestServer ι} (hc : RequestServer.Core s) (hnodup : s.pushed.Nodup)
    (h : s.loopStep C = some t) (i : ι) : t.shell i = s.shell i ∨ Pending s i := by
  cases hp : s.loop with
  | process p | drain p =>
    simp only [RequestServer.loopStep, hp, Option.map_eq_some_iff] at h
    obtain ⟨⟨u, n⟩, hu, rfl⟩ := h
    have hcritical : s.critical .serverLoop = p.critical := by
      simp [RequestServer.critical, hp, LoopPc.critical]
    have hshell := processStep_shell hc hnodup hcritical hu i
    exact hshell
  | barrier =>
    simp only [RequestServer.loopStep, hp] at h
    split at h
    · cases h
      exact .inl rfl
    · split at h <;> cases h
      exact .inl rfl
  | joinThreads | threw => simp [RequestServer.loopStep, hp] at h
  | test | sizeTest | stepTest | cancelReset | drainTest =>
    simp only [RequestServer.loopStep, hp, Option.some.injEq] at h
    subst h
    exact .inl rfl

/-- A step is one of the server, and reads a line only where the connection has one. -/
theorem step_server {a : RequestServer.Act ι} (h : step C x a = some y) : x.server.step C a = some y.server ∧
    ((∃ i l rest, a = .line i l ∧ x.todo i = l :: rest ∧ y.todo = Function.update x.todo i rest) ∨
      (∀ i l, a ≠ .line i l) ∧ y.todo = x.todo) := by
  cases a with
  | line i l =>
    simp only [step] at h
    split at h
    · cases h
    · next line rest htodo =>
      split at h
      · next hl =>
        obtain ⟨server, hserver, rfl⟩ := Option.map_eq_some_iff.mp h
        exact ⟨hserver, .inl ⟨i, l, rest, rfl, hl ▸ htodo, rfl⟩⟩
      · cases h
  | evalEnds | console | loop | stop | cancel =>
    simp only [step] at h
    obtain ⟨server, hserver, rfl⟩ := Option.map_eq_some_iff.mp h
    exact ⟨hserver, .inr ⟨nofun, rfl⟩⟩

theorem server_of_reach {D : RequestServer ι → RequestServer.Act ι → Prop}
    (h : Reach (feedSystem C feeds) (fun x a => D x.server a) x) : Reach (requestSystem C) D x.server := by
  induction h with
  | init hi => exact hi ▸ .init rfl
  | step _ hc ht ih => exact .step ih hc (step_server ht).1

/-- A line that console `i` reads. -/
theorem Ledger.line {l : Bytes} {rest : List Bytes} (hl : Ledger C feeds i x) (htodo : x.todo i = l :: rest)
    (h : x.server.step C (.line i l) = some y.server) (hy : y.todo i = rest) : Ledger C feeds i y := by
  cases hp : x.server.console i <;> simp only [RequestServer.step, hp, reduceCtorEq] at h
  obtain ⟨hfirst, hrest⟩ := List.forall_mem_cons.mp (htodo ▸ hl.lines)
  have hconsole : y.server.console i = .shellTest l [] := by
    rw [← Option.some.inj h]
    exact Function.update_self ..
  have hsame : y.server.shell = x.server.shell ∧ y.server.pushed = x.server.pushed := by
    rw [← Option.some.inj h]
    exact ⟨rfl, rfl⟩
  refine ⟨hsame.1 ▸ hl.shell, hsame.2 ▸ hl.plain, ?_, hy ▸ hrest, ?_⟩
  · rw [hconsole]
    exact ⟨rfl, hfirst⟩
  · have hbalance := hl.balance
    -- the line goes over from what is to be read to what the thread has
    rw [hp, htodo, List.flatMap_cons] at hbalance
    rw [hconsole, hsame.2, hy, ← hbalance]
    simp only [handed, List.append_nil, List.append_assoc]

theorem ledger_step {a : RequestServer.Act ι} (hr : Reach (requestSystem C) RequestServer.unstopped x.server)
    (hl : Ledger C feeds i x) (ha : a ≠ .stop) (h : step C x a = some y) : Ledger C feeds i y := by
  obtain ⟨hc, hs, hw⟩ := RequestServer.invariant_of_reach hr
  obtain ⟨hserver, ⟨j, l, rest, rfl, htodo, hy⟩ | ⟨hline, hy⟩⟩ := step_server h
  · by_cases hj : j = i
    · subst hj
      exact hl.line htodo hserver (by rw [hy, Function.update_self])
    · have hy' : y.todo i = x.todo i := by rw [hy, Function.update_of_ne (Ne.symm hj)]
      cases hp : x.server.console j <;> simp only [RequestServer.step, hp, reduceCtorEq] at hserver
      have hsame : y.server.shell = x.server.shell ∧ y.server.pushed = x.server.pushed ∧
          y.server.console i = x.server.console i := by
        rw [← Option.some.inj hserver]
        exact ⟨rfl, rfl, Function.update_of_ne (Ne.symm hj) ..⟩
      exact hl.frame (congrFun hsame.1 i) (.inl hsame.2.1) hsame.2.2 hy'
  · have htodo : y.todo i = x.todo i := congrFun hy i
    cases a with
    | line j l => exact absurd rfl (hline j l)
    | stop => exact absurd rfl ha
    | cancel =>
      simp only [RequestServer.step] at hserver
      split at hserver
      · have hsame : y.server.shell = x.server.shell ∧ y.server.pushed = x.server.pushed ∧
            y.server.console = x.server.console := by
          rw [← Option.some.inj hserver]
          exact ⟨rfl, rfl, rfl⟩
        exact hl.frame (congrFun hsame.1 i) (.inl hsame.2.1) (congrFun hsame.2.2 i) htodo
      · cases hserver
    | loop =>
      obtain ⟨-, -, -, hconsole, -, hpushed, -⟩ := RequestServer.loopStep_frame hserver
      have hshell := (loopStep_other hc hw.nodup hserver i).resolve_right hl.notPending
      exact hl.frame hshell (.inl hpushed) (congrFun hconsole i) htodo
    | evalEnds j left =>
      cases hp : x.server.console j <;> simp only [RequestServer.step, hp, reduceCtorEq] at hserver
      -- console `i` is never in a shell
      have hj : i ≠ j := by
        rintro rfl
        exact (hp ▸ hl.commanding : Commanding C i (.eval _ _)).elim
      have hsame : y.server.shell i = x.server.shell i ∧ y.server.pushed = x.server.pushed ∧
          y.server.console i = x.server.console i := by
        rw [← Option.some.inj hserver]
        exact ⟨Function.update_of_ne hj .., rfl, Function.update_of_ne hj ..⟩
      exact hl.frame hsame.1 (.inl hsame.2.1) hsame.2.2 htodo
    | console j =>
      by_cases hj : j = i
      · subst hj
        obtain ⟨hcommanding, hshell, hbalance, hplain⟩ :=
          consoleStep_commanding hs hl.shell hl.commanding hserver
        refine ⟨hshell, ?_, hcommanding, htodo ▸ hl.lines, ?_⟩
        · intro r hr hi
          exact (hplain r hr).elim (fun hr => hl.plain r hr hi) id
        · rw [hbalance, htodo]
          exact hl.balance
      · obtain ⟨hshell, hconsole, hpushed⟩ := consoleStep_other hc hw hj hserver
        exact hl.frame (hshell.resolve_right hl.notPending) hpushed hconsole htodo

theorem ledger_of_reach (hlines : ∀ l ∈ feeds i, C.CommandLine l)
    (h : Reach (feedSystem C feeds) (fun x a => RequestServer.unstopped x.server a) x) : Ledger C feeds i x := by
  induction h with
  | init hi =>
    obtain rfl := hi
    exact ⟨rfl, nofun, trivial, hlines, rfl⟩
  | step hr hc ht ih => exact ledger_step (server_of_reach hr) ih hc ht

omit [DecidableEq ι] in
/-- The lines that spell some commands ask for them. -/
theorem requested_written {cmds : List (List Bytes)} {ls : List Bytes} (h : List.Forall₂ Written cmds ls) :
    ls.flatMap (fun l => C.requested (simpleTokenize l)) = cmds.flatMap C.requested := by
  induction h with
  | nil => rfl
  | cons hline _ ih => rw [List.flatMap_cons, List.flatMap_cons, ih, hline.simpleTokenize]

/-- Without lines the server keeps to itself. -/
theorem path_lift {s : RequestServer ι} (hp : Path (requestSystem C) RequestServer.serverSide x.server s) :
    Path (feedSystem C feeds) (fun x a => RequestServer.serverSide x.server a) x { x with server := s } := by
  generalize hs : x.server = s₀ at hp
  induction hp generalizing x with
  | refl s =>
    subst hs
    exact .refl x
  | @head s t u a hc ht hp ih =>
    subst hs
    have hstep : (feedSystem C feeds).step x a = some { x with server := t } := by
      rcases hc with rfl | ⟨j, rfl⟩
      · exact congrArg (Option.map fun server => { x with server }) ht
      · exact congrArg (Option.map fun server => { x with server }) ht
    exact .head hc hstep (@ih { x with server := t } rfl)

/-- A server that knows two commands and a shell. -/
def smallCommands : Commands Bool where
  create name :=
    if name = ascii "help" ∨ name = ascii "list" then some false
    else if name = ascii "scm" then some true else none
  reply r := r.cmdName
  prompt := ascii "> "

/-- Two lines, the second of them cut and with an unknown command. -/
def twoLines : List Chunk :=
  [⟨false, ascii "list \"a b\"\nfo", by decide⟩, ⟨false, ascii "o x\x0d\n", by decide⟩]

/-- The other console asks for a shell. -/
def twoFeeds (i : Bool) : List Bytes :=
  if i then [ascii "scm"] else [ascii "list \"a b\"", ascii "foo x"]

end ConsoleFeeds

end CogServer
