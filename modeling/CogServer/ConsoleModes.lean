import CogServer.ConsoleCommands

/-! The lines of a console that goes in and out of its shells: with all other threads beside it, it is
a terminal that takes one line after the other. -/
namespace CogServer

open Transition Telnet

/-- What becomes of a line: requests that are pushed, and calls of `eval`. -/
inductive ConsoleEvent
  | ask (cmdName : Bytes) (parameters : List Bytes)
  | eval (line : Bytes)
  deriving DecidableEq, Repr

/-- The requests among them. -/
def asked (es : List ConsoleEvent) : List (Bytes × List Bytes) :=
  es.filterMap fun
    | .ask cmdName parameters => some (cmdName, parameters)
    | .eval _ => none

namespace Commands

variable {ι : Type*} (C : Commands ι)

/-- The requests of a command line. -/
def asks (l : Bytes) : List ConsoleEvent :=
  (C.requested (simpleTokenize l)).map fun q => .ask q.1 q.2

/-- One of them is a shell. -/
def opens (l : Bytes) : Bool :=
  (C.requested (simpleTokenize l)).any fun q => C.create q.1 == some true

/-- `OnLine` on its own: whether the console has a shell, the line, what becomes of it, and whether the
console has a shell after that. -/
inductive TakesLine : Bool → Bytes → List ConsoleEvent → Bool → Prop
  /-- The user may leave the shell with the line. -/
  | eval (l : Bytes) (left : Bool) : TakesLine true l [.eval l] (!left)
  | telnet {l : Bytes} {sent : List Bytes} (h : dispatch l = .telnet sent) : TakesLine false l [] false
  | command {l : Bytes} {sent : List Bytes} (h : dispatch l = .command sent) :
      TakesLine false l (C.asks l) (C.opens l)
  /-- The inner `OnLine` gets a shell, and the line is given to it. -/
  | opened {l cmd : Bytes} {sent : List Bytes} {es es' : List ConsoleEvent} {b : Bool}
      (h : dispatch l = .enter sent cmd) (hcmd : TakesLine false cmd es true)
      (hl : TakesLine true l es' b) : TakesLine false l (es ++ es') b
  /-- Without a shell the line is taken for a command. -/
  | refused {l cmd : Bytes} {sent : List Bytes} {es : List ConsoleEvent}
      (h : dispatch l = .enter sent cmd) (hcmd : TakesLine false cmd es false) :
      TakesLine false l (es ++ C.asks l) (C.opens l)

/-- A terminal that takes the lines one after the other, from a console without a shell. -/
inductive Plays : List Bytes → List ConsoleEvent → Bool → Prop
  | nil : Plays [] [] false
  | snoc {ls : List Bytes} {l : Bytes} {es es' : List ConsoleEvent} {b b' : Bool} (h : Plays ls es b)
      (hl : C.TakesLine b l es' b') : Plays (ls ++ [l]) (es ++ es') b'

end Commands

/-- Consoles with their feeds, and for each one what has become of its lines. -/
structure ConsoleLog (ι : Type*) where
  feeds : ConsoleFeeds ι
  log : ι → List ConsoleEvent

namespace RequestServer

variable {ι : Type*}

/-- What the next step of console `i` makes of its line. -/
def events (s : RequestServer ι) (i : ι) : List ConsoleEvent :=
  match s.console i with
  | .shellTest l _ => if s.shell i then [.eval l] else []
  | .push r _ => if s.requestQueue.cancelled then [] else [.ask r.cmdName r.parameters]
  | _ => []

end RequestServer

namespace ConsoleLog

variable {ι : Type*} [DecidableEq ι]

def step (C : Commands ι) (x : ConsoleLog ι) (a : RequestServer.Act ι) : Option (ConsoleLog ι) :=
  (x.feeds.step C a).map fun feeds =>
    match a with
    | .console i => ⟨feeds, Function.update x.log i (x.log i ++ x.feeds.server.events i)⟩
    | _ => { x with feeds }

end ConsoleLog

/-- The consoles of `feedSystem`, with a record of what becomes of their lines. -/
def logSystem {ι : Type*} [DecidableEq ι] (C : Commands ι) (feeds : ι → List Bytes) :
    System (ConsoleLog ι) (RequestServer.Act ι) where
  init x := x = ⟨⟨RequestServer.start, feeds⟩, fun _ => []⟩
  step := ConsoleLog.step C

namespace Commands

variable {ι : Type*} (C : Commands ι)

/-- The line goes to the shell that an inner `OnLine` has got, or is a command. -/
def Reissues : Bool → Bytes → List ConsoleEvent → Bool → Prop
  | true, l, es, b => C.TakesLine true l es b
  | false, l, es, b => es = C.asks l ∧ b = C.opens l

/-- What may still become of the lines whose `OnLine` waits for an inner one. -/
def Returns : List Bytes → Bool → List ConsoleEvent → Bool → Prop
  | [], b, es, b' => es = [] ∧ b' = b
  | l :: outer, b, es, b' =>
    ∃ es₁ b₁ es₂, C.Reissues b l es₁ b₁ ∧ Returns outer b₁ es₂ b' ∧ es = es₁ ++ es₂

end Commands

namespace ConsolePc

variable {ι : Type*}

/-- The lines whose `OnLine` waits for the one that runs. -/
def outer : ConsolePc ι → List Bytes
  | .idle | .threw => []
  | .shellTest _ k | .eval _ k | .runningTest _ k | .dispatch _ k | .reissue _ k | .command _ k
  | .push _ k | .process _ k _ | .returned _ k => k

/-- What may still become of the line whose `OnLine` runs; `b` says whether the console has a shell. -/
def Own (C : Commands ι) (b : Bool) : ConsolePc ι → List ConsoleEvent → Bool → Prop
  | .shellTest l _, es, b' => C.TakesLine b l es b'
  | .runningTest l _, es, b' | .dispatch l _, es, b' => C.TakesLine false l es b'
  | .reissue l _, es, b' => C.Reissues b l es b'
  | .command l _, es, b' => es = C.asks l ∧ b' = C.opens l
  | .push r _, es, b' => es = [.ask r.cmdName r.parameters] ∧ b' = r.isShell
  | .process _ _ _, es, b' => es = [] ∧ b' = true
  | .eval _ _, es, _ => es = []
  | .idle, es, b' | .returned _ _, es, b' => es = [] ∧ b' = b
  | .threw, _, _ => False

/-- What may still become of the lines that the console has read. -/
def Ahead (C : Commands ι) (b : Bool) (p : ConsolePc ι) (es : List ConsoleEvent) (b' : Bool) : Prop :=
  ∃ es₁ b₁ es₂, p.Own C b es₁ b₁ ∧ C.Returns p.outer b₁ es₂ b' ∧ es = es₁ ++ es₂

/-- Where the console has a shell, and where it has none. -/
def Mode (b : Bool) : ConsolePc ι → Prop
  | .eval _ _ => b = true
  | .runningTest _ _ | .dispatch _ _ | .command _ _ | .push _ _ => b = false
  | .threw => False
  | _ => True

end ConsolePc

namespace Commands

variable {ι : Type*} {C : Commands ι} {l : Bytes}

theorem asks_nothing (h : C.requested (simpleTokenize l) = []) : C.asks l = [] ∧ C.opens l = false := by
  rw [asks, opens, h]
  exact ⟨rfl, rfl⟩

theorem asks_request {cmdName : Bytes} {params : List Bytes} {isShell : Bool}
    (h : C.requested (simpleTokenize l) = [(cmdName, params)]) (hcreate : C.create cmdName = some isShell) :
    C.asks l = [.ask cmdName params] ∧ C.opens l = isShell := by
  rw [asks, opens, h, List.any_cons, hcreate]
  exact ⟨rfl, by cases isShell <;> rfl⟩

theorem dispatch_enter {sent : List Bytes} {cmd : Bytes} (h : dispatch l = .enter sent cmd) :
    cmd = ascii "scm" ∨ cmd = ascii "json" := by
  unfold dispatch at h
  generalize (if byteAt l 0 = iac ∧ l.length < 40 then handleTelnetIac l else (false, [])) = r at h
  obtain ⟨handled, sent'⟩ := r
  dsimp only at h
  split_ifs at h
  · exact .inl (Dispatch.enter.inj h).2.symm
  · exact .inr (Dispatch.enter.inj h).2.symm

/-- Any line is taken: the inner one asks for a shell, and is a command. -/
theorem exists_takesLine (C : Commands ι) (b : Bool) (l : Bytes) : ∃ es b', C.TakesLine b l es b' := by
  cases b with
  | true => exact ⟨_, _, .eval l false⟩
  | false =>
    cases h : dispatch l with
    | telnet sent => exact ⟨_, _, .telnet h⟩
    | command sent => exact ⟨_, _, .command h⟩
    | enter sent cmd =>
      -- neither `scm` nor `json` starts with a bracket, so the inner line goes no deeper
      have hcmd : ∃ sent, dispatch cmd = .command sent := by
        rcases dispatch_enter h with rfl | rfl
        · exact ⟨[], by decide⟩
        · exact ⟨[], by decide⟩
      obtain ⟨_, hcmd⟩ := hcmd
      have htakes := TakesLine.command (C := C) hcmd
      cases hopens : C.opens cmd with
      | true => exact ⟨_, _, .opened h (hopens ▸ htakes) (.eval l false)⟩
      | false => exact ⟨_, _, .refused h (hopens ▸ htakes)⟩

theorem exists_reissues (C : Commands ι) (b : Bool) (l : Bytes) : ∃ es b', C.Reissues b l es b' := by
  cases b with
  | true => exact exists_takesLine C true l
  | false => exact ⟨_, _, rfl, rfl⟩

theorem exists_returns (C : Commands ι) (outer : List Bytes) (b : Bool) :
    ∃ es b', C.Returns outer b es b' := by
  induction outer generalizing b with
  | nil => exact ⟨_, _, rfl, rfl⟩
  | cons l outer ih =>
    obtain ⟨es, b₁, hl⟩ := exists_reissues C b l
    obtain ⟨es', b', houter⟩ := ih b₁
    exact ⟨_, _, es, b₁, es', hl, houter, rfl⟩

end Commands

namespace ConsolePc

variable {ι : Type*} {C : Commands ι} {p q : ConsolePc ι} {b b' b₂ : Bool} {es : List ConsoleEvent}

theorem exists_ahead (C : Commands ι) (hm : p.Mode b) : ∃ es b', p.Ahead C b es b' := by
  have hown : ∃ es b', p.Own C b es b' := by
    cases p with
    | shellTest l k => exact Commands.exists_takesLine C b l
    | runningTest l k | dispatch l k => exact Commands.exists_takesLine C false l
    | reissue l k => exact Commands.exists_reissues C b l
    | eval l k => exact ⟨_, true, rfl⟩
    | command | push | process | idle | returned => exact ⟨_, _, rfl, rfl⟩
    | threw => exact hm.elim
  obtain ⟨es, b₁, hown⟩ := hown
  obtain ⟨es', b', houter⟩ := Commands.exists_returns C p.outer b₁
  exact ⟨_, _, es, b₁, es', hown, houter, rfl⟩

/-- A step within one `OnLine`: `es'` has become of its line. -/
theorem Ahead.within {es' : List ConsoleEvent} (ha : q.Ahead C b' es b₂) (houter : q.outer = p.outer)
    (hown : ∀ es b₁, q.Own C b' es b₁ → p.Own C b (es' ++ es) b₁) : p.Ahead C b (es' ++ es) b₂ := by
  obtain ⟨es₁, b₁, es₂, hq, hk, rfl⟩ := ha
  exact ⟨_, b₁, es₂, hown es₁ b₁ hq, houter ▸ hk, (List.append_assoc ..).symm⟩

end ConsolePc

namespace ConsoleLog

variable {ι : Type*} [DecidableEq ι] {C : Commands ι} {s t : RequestServer ι} {i : ι}

/-- What a step of the console leaves ahead was ahead before, after what it makes of its line. -/
def Follows (C : Commands ι) (i : ι) (s t : RequestServer ι) : Prop :=
  (t.console i).Mode (t.shell i) ∧ ∀ es b, (t.console i).Ahead C (t.shell i) es b →
    (s.console i).Ahead C (s.shell i) (s.events i ++ es) b

/-- A step within one `OnLine`. -/
theorem follows_goto {p : ConsolePc ι} {es' : List ConsoleEvent} (hevents : s.events i = es')
    (hshell : t.shell i = s.shell i) (hmode : p.Mode (s.shell i)) (houter : p.outer = (s.console i).outer)
    (hown : ∀ es b, p.Own C (s.shell i) es b → (s.console i).Own C (s.shell i) (es' ++ es) b) :
    Follows C i s (t.goto i p) := by
  have hgoto : (t.goto i p).console i = p := Function.update_self ..
  rw [Follows, hgoto, hevents, show (t.goto i p).shell i = s.shell i from hshell]
  exact ⟨hmode, fun es b ha => ha.within houter hown⟩

/-- A line with a bracket waits for the command that gets it a shell. -/
theorem follows_enter {l cmd : Bytes} {sent : List Bytes} {k : List Bytes} (hp : s.console i = .dispatch l k)
    (hm : s.shell i = false) (hd : dispatch l = .enter sent cmd) :
    Follows C i s ((s.send i sent).goto i (.shellTest cmd (l :: k))) := by
  have hgoto : ((s.send i sent).goto i (.shellTest cmd (l :: k))).console i = .shellTest cmd (l :: k) :=
    Function.update_self ..
  have hevents : s.events i = [] := by rw [RequestServer.events, hp]
  rw [Follows, hgoto, hevents, hp]
  refine ⟨trivial, ?_⟩
  rintro es b ⟨es₁, b₁, es₂, hcmd, ⟨es₃, b₃, es₄, hl, hk, rfl⟩, rfl⟩
  have hcmd : C.TakesLine false cmd es₁ b₁ := hm ▸ hcmd
  rw [List.nil_append, ← List.append_assoc]
  -- the command of the inner line has made a shell, or there is none of this name
  cases b₁ with
  | true => exact ⟨_, b₃, es₄, .opened hd hcmd hl, hk, rfl⟩
  | false =>
    obtain ⟨rfl, rfl⟩ := hl
    exact ⟨_, _, es₄, .refused hd hcmd, hk, rfl⟩

/-- A command line, up to the push. -/
theorem follows_command {l : Bytes} {k : List Bytes} (hp : s.console i = .command l k) (hm : s.shell i = false)
    (h : s.consoleStep C i = some t) : Follows C i s t := by
  have hevents : s.events i = [] := by rw [RequestServer.events, hp]
  have houter : (s.console i).outer = k := by rw [hp]; rfl
  -- the two ways on: back without a request, and to the push of one
  have hreturned (hasks : C.asks l = [] ∧ C.opens l = false) (es : List ConsoleEvent) (b : Bool)
      (hown : es = [] ∧ b = s.shell i) : (s.console i).Own C (s.shell i) ([] ++ es) b := by
    rw [hp]
    obtain ⟨rfl, rfl⟩ := hown
    exact ⟨hasks.1.symm, hm.trans hasks.2.symm⟩
  have hpush {cmdName : Bytes} {params : List Bytes} {isShell : Bool} (es : List ConsoleEvent) (b : Bool)
      (hasks : C.asks l = [.ask cmdName params] ∧ C.opens l = isShell)
      (hown : es = [.ask cmdName params] ∧ b = isShell) :
      (s.console i).Own C (s.shell i) ([] ++ es) b := by
    rw [hp]
    obtain ⟨rfl, rfl⟩ := hown
    exact ⟨hasks.1.symm, hasks.2.symm⟩
  simp only [RequestServer.consoleStep, hp] at h
  cases hw : simpleTokenize l with
  | nil =>
    simp only [hw, Option.some.injEq] at h
    subst h
    have hasks : C.asks l = [] ∧ C.opens l = false := Commands.asks_nothing (by rw [hw]; rfl)
    exact follows_goto hevents rfl trivial houter.symm (hreturned hasks)
  | cons cmdName params =>
    simp only [hw] at h
    cases hcreate : C.create cmdName with
    | some isShell =>
      simp only [hcreate, Option.some.injEq] at h
      subst h
      have hasks : C.asks l = [.ask cmdName params] ∧ C.opens l = isShell :=
        Commands.asks_request (by simp only [hw, Commands.requested, hcreate]) hcreate
      exact follows_goto hevents rfl hm houter.symm fun es b => hpush es b hasks
    | none =>
      cases hhelp : C.create (ascii "help") with
      | some isShell =>
        simp only [hcreate, hhelp, Option.some.injEq] at h
        subst h
        have hasks : C.asks l = [.ask (ascii "help") params] ∧ C.opens l = isShell :=
          Commands.asks_request (by simp only [hw, Commands.requested, hcreate, hhelp]) hhelp
        exact follows_goto hevents rfl hm houter.symm fun es b => hpush es b hasks
      | none =>
        simp only [hcreate, hhelp, Option.some.injEq] at h
        subst h
        have hasks : C.asks l = [] ∧ C.opens l = false :=
          Commands.asks_nothing (by simp only [hw, Commands.requested, hcreate, hhelp])
        exact follows_goto hevents rfl trivial houter.symm (hreturned hasks)

/-- Only a cancelled queue throws. -/
theorem not_threw {u : RequestServer ι} {w : Worker ι} {p : ProcPc ι}
    (hs : RequestServer.Serving s) :
    s.processStep C w p ≠ some (u, .threw) := by
  intro h
  cases p <;> simp only [RequestServer.processStep] at h
  case pop =>
    split at h
    · cases h
    · next hpop =>
      rw [CancelQueue.pop_eq_cancelled, hs.uncancelled] at hpop
      cases hpop
    · cases h
  case lock => split at h <;> cases h
  all_goals cases h

omit [DecidableEq ι] in
theorem events_push {r : Request ι} {k : List Bytes} (hs : RequestServer.Serving s)
    (hp : s.console i = .push r k) : s.events i = [.ask r.cmdName r.parameters] := by
  rw [RequestServer.events, hp]
  exact if_neg (by rw [hs.uncancelled]; exact Bool.false_ne_true)

/-- Each step of the console is a part of what it does on its own. -/
theorem consoleStep_follows (hs : RequestServer.Serving s) (hm : (s.console i).Mode (s.shell i))
    (hw : RequestServer.Waits t i (t.console i)) (h : s.consoleStep C i = some t) : Follows C i s t := by
  cases hp : s.console i with
  | idle | eval l k | threw => simp [RequestServer.consoleStep, hp] at h
  | command l k => exact follows_command hp (hp ▸ hm : ConsolePc.Mode _ (.command l k)) h
  | shellTest l k =>
    simp only [RequestServer.consoleStep, hp, Option.some.injEq] at h
    subst h
    cases hshell : s.shell i with
    | true =>
      have hevents : s.events i = [.eval l] := by rw [RequestServer.events, hp]; exact if_pos hshell
      refine follows_goto hevents rfl hshell (by rw [hp]; rfl) ?_
      rintro _ b rfl
      rw [hp, hshell, ← Bool.not_not b]
      exact .eval l (!b)
    | false =>
      have hevents : s.events i = [] := by
        rw [RequestServer.events, hp]
        exact if_neg (by rw [hshell]; exact Bool.false_ne_true)
      refine follows_goto hevents rfl hshell (by rw [hp]; rfl) fun es b hown => ?_
      rw [hp, hshell]
      exact hown
  | runningTest l k =>
    rw [hp] at hm
    have hevents : s.events i = [] := by rw [RequestServer.events, hp]
    simp only [RequestServer.consoleStep, hp, hs.running, ↓reduceIte, Option.some.injEq] at h
    subst h
    exact follows_goto hevents rfl hm (by rw [hp]; rfl) fun es b hown => hp ▸ hown
  | dispatch l k =>
    rw [hp] at hm
    have hevents : s.events i = [] := by rw [RequestServer.events, hp]
    simp only [RequestServer.consoleStep, hp] at h
    cases hd : dispatch l with
    | telnet sent =>
      simp only [hd, Option.some.injEq] at h
      subst h
      refine follows_goto hevents rfl trivial (by rw [hp]; rfl) ?_
      rintro _ _ ⟨rfl, rfl⟩
      rw [hp, show s.shell i = false from hm]
      exact .telnet hd
    | enter sent cmd =>
      simp only [hd, Option.some.injEq] at h
      subst h
      exact follows_enter hp hm hd
    | command sent =>
      simp only [hd, Option.some.injEq] at h
      subst h
      refine follows_goto hevents rfl hm (by rw [hp]; rfl) ?_
      rintro _ _ ⟨rfl, rfl⟩
      rw [hp]
      exact .command hd
  | reissue l k =>
    have hevents : s.events i = [] := by rw [RequestServer.events, hp]
    simp only [RequestServer.consoleStep, hp, Option.some.injEq] at h
    subst h
    cases hshell : s.shell i with
    | true =>
      refine follows_goto hevents rfl trivial (by rw [hp]; rfl) fun es b hown => ?_
      rw [hp, hshell]
      rw [hshell] at hown
      exact hown
    | false =>
      refine follows_goto hevents rfl hshell (by rw [hp]; rfl) fun es b hown => ?_
      rw [hp, hshell]
      exact hown
  | push r k =>
    rw [hp] at hm
    have hevents := events_push hs hp
    simp only [RequestServer.consoleStep, hp, hs.push r, Option.some.injEq] at h
    subst h
    cases hr : r.isShell with
    | true =>
      refine follows_goto hevents rfl trivial (by rw [hp]; rfl) ?_
      rintro _ _ ⟨rfl, rfl⟩
      rw [hp]
      exact ⟨rfl, hr.symm⟩
    | false =>
      refine follows_goto hevents rfl trivial (by rw [hp]; rfl) ?_
      rintro _ _ ⟨rfl, rfl⟩
      rw [hp]
      exact ⟨rfl, (show s.shell i = false from hm).trans hr.symm⟩
  | process r k p =>
    have hevents : s.events i = [] := by rw [RequestServer.events, hp]
    simp only [RequestServer.consoleStep, hp, Option.map_eq_some_iff] at h
    obtain ⟨⟨u, n⟩, hu, rfl⟩ := h
    have hgoto (q : ConsolePc ι) : (u.goto i q).console i = q := Function.update_self ..
    rw [Follows, hevents, hp]
    rw [hgoto] at hw ⊢
    cases n with
    | goto q => exact ⟨trivial, fun es b ha => ha⟩
    | done =>
      refine ⟨trivial, fun es b ha => ?_⟩
      rw [show (u.goto i (.returned (some r) k)).shell i = true from hw.2] at ha
      exact ha
    | threw => exact absurd hu (not_threw hs)
  | returned r k =>
    have hevents : s.events i = [] := by rw [RequestServer.events, hp]
    cases k with
    | nil =>
      simp only [RequestServer.consoleStep, hp, Option.some.injEq] at h
      subst h
      exact follows_goto hevents rfl trivial (by rw [hp]; rfl) fun es b hown => hp ▸ hown
    | cons l k =>
      simp only [RequestServer.consoleStep, hp, Option.some.injEq] at h
      subst h
      have hgoto : (s.goto i (.reissue l k)).console i = .reissue l k := Function.update_self ..
      rw [Follows, hgoto, hevents, hp]
      exact ⟨trivial, fun es b ha => ⟨[], _, es, ⟨rfl, rfl⟩, ha, rfl⟩⟩

omit [DecidableEq ι] in
theorem asked_events (hp : ∀ r k, s.console i ≠ .push r k) : asked (s.events i) = [] := by
  unfold RequestServer.events
  split
  · split <;> rfl
  · next r k hpush => exact absurd hpush (hp r k)
  · rfl

/-- A request is pushed when it is asked for. -/
theorem consoleStep_asked (hs : RequestServer.Serving s) (hw : RequestServer.Consoles s)
    (h : s.consoleStep C i = some t) :
    requestsOf i t.pushed = requestsOf i s.pushed ++ asked (s.events i) := by
  by_cases hp : ∃ r k, s.console i = .push r k
  · obtain ⟨r, k, hp⟩ := hp
    have hwait := hw.waits i
    rw [hp] at hwait
    simp only [RequestServer.consoleStep, hp, hs.push r, Option.some.injEq] at h
    subst h
    rw [events_push hs hp]
    exact (ConsoleFeeds.requestsOf_append i s.pushed [r]).trans
      (congrArg _ (ConsoleFeeds.requestsOf_own hwait.1))
  · have hother (r : Request ι) (k : List Bytes) : s.console i ≠ .push r k := fun h => hp ⟨r, k, h⟩
    obtain ⟨-, hsame | ⟨r, k, hpush, -⟩, -⟩ := RequestServer.consoleStep_requests h
    · rw [hsame, asked_events hother, List.append_nil]
    · exact absurd hpush (hother r k)

/-- The console is in `processRequests` as long as one of its requests for a shell is not executed. -/
def Entered (i : ι) (s : RequestServer ι) : Prop :=
  ∀ r ∈ s.pushed, r.console = i → r.isShell = true →
    r ∈ s.executed ∨ ∃ k p, s.console i = .process r k p

theorem consoleStep_entered (he : Entered i s) (hs : RequestServer.Serving s)
    (hw : RequestServer.Waits t i (t.console i)) (h : s.consoleStep C i = some t) : Entered i t := by
  obtain ⟨-, hpushed, -, hexecuted, -⟩ := RequestServer.consoleStep_requests h
  intro r hr hi hshell
  rcases hpushed with hsame | ⟨r', k, hp, hpush⟩
  · rcases he r (hsame ▸ hr) hi hshell with hdone | ⟨k, p, hp⟩
    · exact .inl (hexecuted hdone)
    · simp only [RequestServer.consoleStep, hp, Option.map_eq_some_iff] at h
      obtain ⟨⟨u, n⟩, hu, rfl⟩ := h
      have hgoto (q : ConsolePc ι) : (u.goto i q).console i = q := Function.update_self ..
      rw [hgoto] at hw ⊢
      cases n with
      | goto q => exact .inr ⟨k, q, rfl⟩
      | done => exact .inl hw.1
      | threw => exact absurd hu (not_threw hs)
  · rcases List.mem_append.mp (hpush ▸ hr) with hr | hr
    · rcases he r hr hi hshell with hdone | ⟨k, p, hp'⟩
      · exact .inl (hexecuted hdone)
      · rw [hp] at hp'
        cases hp'
    · obtain rfl := List.mem_singleton.mp hr
      simp only [RequestServer.consoleStep, hp, hs.push r, hshell, ↓reduceIte, Option.some.injEq] at h
      subst h
      exact .inr ⟨k, .lock, Function.update_self ..⟩

/-- What the lines of console `i` have become, and what is ahead of it, is a play of the terminal. -/
structure Terminal (C : Commands ι) (feeds : ι → List Bytes) (i : ι) (x : ConsoleLog ι) : Prop where
  mode : (x.feeds.server.console i).Mode (x.feeds.server.shell i)
  plays : ∃ done, feeds i = done ++ x.feeds.todo i ∧ ∀ es b,
    (x.feeds.server.console i).Ahead C (x.feeds.server.shell i) es b → C.Plays done (x.log i ++ es) b
  entered : Entered i x.feeds.server
  asked : asked (x.log i) = requestsOf i x.feeds.server.pushed

variable {feeds : ι → List Bytes} {x y : ConsoleLog ι}

/-- The steps of the other threads. -/
theorem Terminal.frame (ht : Terminal C feeds i x)
    (hshell : y.feeds.server.shell i = x.feeds.server.shell i ∨ ConsoleFeeds.Pending x.feeds.server i)
    (hpushed : y.feeds.server.pushed = x.feeds.server.pushed ∨
      ∃ r : Request ι, r.console ≠ i ∧ y.feeds.server.pushed = x.feeds.server.pushed ++ [r])
    (hexecuted : x.feeds.server.executed ⊆ y.feeds.server.executed)
    (hconsole : y.feeds.server.console i = x.feeds.server.console i)
    (htodo : y.feeds.todo i = x.feeds.todo i) (hlog : y.log i = x.log i) : Terminal C feeds i y := by
  have hmode : (x.feeds.server.console i).Mode (y.feeds.server.shell i) ∧ ∀ es b,
      (x.feeds.server.console i).Ahead C (y.feeds.server.shell i) es b →
        (x.feeds.server.console i).Ahead C (x.feeds.server.shell i) es b := by
    rcases hshell with hsame | ⟨r, hr, hnew, hi, hisShell⟩
    · rw [hsame]
      exact ⟨ht.mode, fun es b ha => ha⟩
    · -- it waits for this request, and will have its shell in any case
      obtain ⟨k, p, hp⟩ := (ht.entered r hr hi hisShell).resolve_left hnew
      rw [hp]
      exact ⟨trivial, fun es b ha => ha⟩
  obtain ⟨done, hdone, hplays⟩ := ht.plays
  refine ⟨hconsole ▸ hmode.1, ⟨done, htodo ▸ hdone, fun es b ha => ?_⟩, ?_, ?_⟩
  · rw [hconsole] at ha
    rw [hlog]
    exact hplays es b (hmode.2 es b ha)
  · intro r hr hi hisShell
    rw [hconsole]
    have hold : r ∈ x.feeds.server.pushed := by
      rcases hpushed with hp | ⟨r', hr', hp⟩
      · exact hp ▸ hr
      · refine (List.mem_append.mp (hp ▸ hr)).resolve_right fun hlast => hr' ?_
        exact List.mem_singleton.mp hlast ▸ hi
    exact (ht.entered r hold hi hisShell).imp_left fun hdone => hexecuted hdone
  · rw [hlog, ht.asked]
    rcases hpushed with hp | ⟨r', hr', hp⟩
    · rw [hp]
    · rw [hp, ConsoleFeeds.requestsOf_append, ConsoleFeeds.requestsOf_other hr', List.append_nil]

/-- A line that console `i` reads. -/
theorem Terminal.line {l : Bytes} {rest : List Bytes} (ht : Terminal C feeds i x)
    (htodo : x.feeds.todo i = l :: rest) (h : x.feeds.server.step C (.line i l) = some y.feeds.server)
    (hrest : y.feeds.todo i = rest) (hlog : y.log = x.log) : Terminal C feeds i y := by
  cases hp : x.feeds.server.console i <;> simp only [RequestServer.step, hp, reduceCtorEq] at h
  have hconsole : y.feeds.server.console i = .shellTest l [] := by
    rw [← Option.some.inj h]
    exact Function.update_self ..
  have hsame : y.feeds.server.shell = x.feeds.server.shell ∧ y.feeds.server.pushed = x.feeds.server.pushed ∧
      y.feeds.server.executed = x.feeds.server.executed := by
    rw [← Option.some.inj h]
    exact ⟨rfl, rfl, rfl⟩
  obtain ⟨done, hdone, hplays⟩ := ht.plays
  have hbefore := hplays [] (x.feeds.server.shell i)
    (by rw [hp]; exact ⟨[], _, [], ⟨rfl, rfl⟩, ⟨rfl, rfl⟩, rfl⟩)
  rw [List.append_nil] at hbefore
  refine ⟨by rw [hconsole]; trivial, ⟨done ++ [l], ?_, ?_⟩, ?_, ?_⟩
  · rw [hdone, htodo, hrest, List.append_assoc]
    rfl
  · intro es b ha
    rw [hconsole, hsame.1] at ha
    obtain ⟨es₁, b₁, _, htakes, ⟨rfl, rfl⟩, rfl⟩ := ha
    rw [hlog, List.append_nil]
    exact hbefore.snoc htakes
  · intro r hr hi hshell
    rw [hsame.2.1] at hr
    rcases ht.entered r hr hi hshell with hexecuted | ⟨k, p, hprocess⟩
    · exact .inl (hsame.2.2 ▸ hexecuted)
    · rw [hp] at hprocess
      cases hprocess
  · rw [hlog, hsame.2.1, ht.asked]

/-- The shell of console `i` returns. -/
theorem Terminal.evalEnds {left : Bool} (ht : Terminal C feeds i x)
    (h : x.feeds.server.step C (.evalEnds i left) = some y.feeds.server) (htodo : y.feeds.todo = x.feeds.todo)
    (hlog : y.log = x.log) : Terminal C feeds i y := by
  cases hp : x.feeds.server.console i <;> simp only [RequestServer.step, hp, reduceCtorEq] at h
  rename_i l k
  have hconsole : y.feeds.server.console i = .returned none k := by
    rw [← Option.some.inj h]
    exact Function.update_self ..
  have hsame : y.feeds.server.pushed = x.feeds.server.pushed ∧
      y.feeds.server.executed = x.feeds.server.executed := by
    rw [← Option.some.inj h]
    exact ⟨rfl, rfl⟩
  obtain ⟨done, hdone, hplays⟩ := ht.plays
  refine ⟨by rw [hconsole]; trivial, ⟨done, by rw [htodo]; exact hdone, fun es b ha => ?_⟩, ?_, ?_⟩
  · rw [hconsole] at ha
    obtain ⟨_, b₁, es₂, ⟨rfl, -⟩, hk, rfl⟩ := ha
    rw [hlog]
    exact hplays es b (by rw [hp]; exact ⟨[], b₁, es, rfl, hk, rfl⟩)
  · intro r hr hi hshell
    rw [hsame.1] at hr
    rcases ht.entered r hr hi hshell with hexecuted | ⟨k, p, hprocess⟩
    · exact .inl (hsame.2 ▸ hexecuted)
    · rw [hp] at hprocess
      cases hprocess
  · rw [hlog, hsame.1, ht.asked]

/-- A step is one of `feedSystem`, with the events of the console whose thread runs. -/
theorem step_feeds {a : RequestServer.Act ι} (h : step C x a = some y) : x.feeds.step C a = some y.feeds ∧
    ((∃ j, a = .console j ∧ y.log = Function.update x.log j (x.log j ++ x.feeds.server.events j)) ∨
      (∀ j, a ≠ .console j) ∧ y.log = x.log) := by
  obtain ⟨feeds, hfeeds, rfl⟩ := Option.map_eq_some_iff.mp h
  cases a with
  | console j => exact ⟨hfeeds, .inl ⟨j, rfl, rfl⟩⟩
  | line | evalEnds | loop | stop | cancel => exact ⟨hfeeds, .inr ⟨nofun, rfl⟩⟩

theorem terminal_step {a : RequestServer.Act ι}
    (hr : Reach (requestSystem C) RequestServer.unstopped x.feeds.server) (ht : Terminal C feeds i x)
    (ha : a ≠ .stop) (h : step C x a = some y) : Terminal C feeds i y := by
  -- the cases are the threads: the console itself moves on, the others only frame it
  obtain ⟨hc, hs, hw⟩ := RequestServer.invariant_of_reach hr
  obtain ⟨hfeeds, hlog⟩ := step_feeds h
  obtain ⟨hserver, hread⟩ := ConsoleFeeds.step_server hfeeds
  cases a with
  | stop => exact absurd rfl ha
  | line j l =>
    have hlog : y.log = x.log := by simpa using hlog
    obtain ⟨j, l, rest, he, htodo, hy⟩ | ⟨hline, -⟩ := hread
    · cases he
      by_cases hj : j = i
      · subst hj
        exact ht.line htodo hserver (by rw [hy, Function.update_self]) hlog
      · cases hp : x.feeds.server.console j <;> simp only [RequestServer.step, hp, reduceCtorEq] at hserver
        rw [Option.some.injEq] at hserver
        refine ht.frame ?_ (.inl ?_) ?_ ?_ ?_ (congrFun hlog i)
        · exact .inl (by rw [← hserver]; rfl)
        · rw [← hserver]; rfl
        · rw [← hserver]; exact List.Subset.refl _
        · rw [← hserver]; exact Function.update_of_ne (Ne.symm hj) ..
        · rw [hy]; exact Function.update_of_ne (Ne.symm hj) ..
    · exact absurd rfl (hline j l)
  | evalEnds j left =>
    have hlog : y.log = x.log := by simpa using hlog
    have htodo : y.feeds.todo = x.feeds.todo := by simpa using hread
    by_cases hj : j = i
    · subst hj
      exact ht.evalEnds hserver htodo hlog
    · cases hp : x.feeds.server.console j <;> simp only [RequestServer.step, hp, reduceCtorEq] at hserver
      rw [Option.some.injEq] at hserver
      refine ht.frame ?_ (.inl ?_) ?_ ?_ (congrFun htodo i) (congrFun hlog i)
      · exact .inl (by rw [← hserver]; exact Function.update_of_ne (Ne.symm hj) ..)
      · rw [← hserver]; rfl
      · rw [← hserver]; exact List.Subset.refl _
      · rw [← hserver]; exact Function.update_of_ne (Ne.symm hj) ..
  | cancel =>
    have hlog : y.log = x.log := by simpa using hlog
    have htodo : y.feeds.todo = x.feeds.todo := by simpa using hread
    simp only [RequestServer.step] at hserver
    split at hserver
    · rw [Option.some.injEq] at hserver
      refine ht.frame (.inl ?_) (.inl ?_) ?_ ?_ (congrFun htodo i) (congrFun hlog i)
      · rw [← hserver]
      · rw [← hserver]
      · rw [← hserver]; exact List.Subset.refl _
      · rw [← hserver]
    · cases hserver
  | loop =>
    have hlog : y.log = x.log := by simpa using hlog
    have htodo : y.feeds.todo = x.feeds.todo := by simpa using hread
    obtain ⟨-, -, -, hconsole, -, hpushed, -, hexecuted, -⟩ := RequestServer.loopStep_frame hserver
    exact ht.frame (ConsoleFeeds.loopStep_other hc hw.nodup hserver i) (.inl hpushed) hexecuted
      (congrFun hconsole i) (congrFun htodo i) (congrFun hlog i)
  | console j =>
    have hlog : y.log = Function.update x.log j (x.log j ++ x.feeds.server.events j) := by simpa using hlog
    have htodo : y.feeds.todo = x.feeds.todo := by simpa using hread
    by_cases hj : j = i
    · subst hj
      have hwaits := (RequestServer.consoles_step hc hw hserver).waits j
      obtain ⟨hmode, hahead⟩ := consoleStep_follows hs ht.mode hwaits hserver
      obtain ⟨done, hdone, hplays⟩ := ht.plays
      have hown : y.log j = x.log j ++ x.feeds.server.events j := by rw [hlog, Function.update_self]
      refine ⟨hmode, ⟨done, by rw [htodo]; exact hdone, fun es b ha => ?_⟩,
        consoleStep_entered ht.entered hs hwaits hserver, ?_⟩
      · rw [hown, List.append_assoc]
        exact hplays _ b (hahead es b ha)
      · rw [hown, consoleStep_asked hs hw hserver, ← ht.asked]
        exact List.filterMap_append
    · obtain ⟨hshell, hconsole, hpushed⟩ := ConsoleFeeds.consoleStep_other hc hw hj hserver
      obtain ⟨-, -, -, hexecuted, -⟩ := RequestServer.consoleStep_requests hserver
      exact ht.frame hshell hpushed hexecuted hconsole (congrFun htodo i)
        (by rw [hlog]; exact Function.update_of_ne (Ne.symm hj) ..)

theorem server_of_reach
    (h : Reach (logSystem C feeds) (fun x a => RequestServer.unstopped x.feeds.server a) x) :
    Reach (requestSystem C) RequestServer.unstopped x.feeds.server := by
  induction h with
  | init hi => exact hi ▸ .init rfl
  | step _ hc ht ih => exact .step ih hc (ConsoleFeeds.step_server (step_feeds ht).1).1

theorem terminal_of_reach
    (h : Reach (logSystem C feeds) (fun x a => RequestServer.unstopped x.feeds.server a) x) :
    Terminal C feeds i x := by
  induction h with
  | init hi =>
    obtain rfl := hi
    refine ⟨trivial, ⟨[], rfl, ?_⟩, nofun, rfl⟩
    rintro es b ⟨_, _, _, ⟨rfl, rfl⟩, ⟨rfl, rfl⟩, rfl⟩
    exact .nil
  | step hr hc ht ih => exact terminal_step (server_of_reach hr) ih hc ht

/-- One console uses the scheme shell, the other one lists the modules. -/
def bracketFeeds (i : Bool) : List Bytes :=
  if i then [ascii "list"] else [ascii "(f)", ascii ".", ascii "list"]

/-- The first console executes the request of the other one on its way to the shell. -/
def bracketRun : List (RequestServer.Act Bool) :=
  List.flatten [[.line true (ascii "list")], List.replicate 6 (.console true), [.line false (ascii "(f)")],
    List.replicate 22 (.console false), [.evalEnds false false, .console false, .line false (ascii "."),
    .console false, .evalEnds false true, .console false, .line false (ascii "list")],
    List.replicate 6 (.console false)]

end ConsoleLog

end CogServer
