import CogServer.ShellFrames
import CogServer.ShellLines

/-! The shells that are derived from the generic one: the top shell overrides its line discipline
and its interrupt, and the python shell its `eval`. -/
namespace CogServer

open Transition

inductive ShellKind
  | scheme | json | sexpr | mcp | top | python
  deriving DecidableEq, Repr

/-- A shell of some kind. The network thread is in a call of `eval` that has still to pass `todo` to
`GenericShell::eval`, or, if `selfie`, to set `self_destruct` again. The last three fields record
what happened: the lines given to `eval`, what was passed to `GenericShell::eval`, and whether the
latest call came to `user_interrupt`. -/
structure KindShell (σ : Type*) where
  base : Shell σ
  pendingLines : Bytes
  todo : List Bytes
  selfie : Bool
  lines : List Bytes
  handed : List Bytes
  interrupted : Bool
  deriving DecidableEq, Repr

namespace PythonShell

/-- What is left of a line without its comment and trailing blanks. -/
def trimmed (expr : Bytes) : Bytes :=
  ((expr.takeWhile (· ≠ 35)).reverse.dropWhile fun c => c = blank || c = 9).reverse

/-- The line starts a multi-line construct. -/
def opensBlock (expr : Bytes) : Bool := (trimmed expr).getLast? = some 58

/-- What `PythonShell::eval` passes on of a line, and what `_pending_lines` is then. -/
def accumulate (pendingLines expr : Bytes) : List Bytes × Bytes :=
  if pendingLines ≠ [] then
    let lines := pendingLines ++ (expr ++ [newline])
    if expr = [] then ([lines], []) else ([], lines)
  else if opensBlock expr then ([], expr ++ [newline])
  else ([expr], [])

/-- What it passes on when the shell is about to end. -/
def flush (pendingLines : Bytes) : List Bytes :=
  (if pendingLines ≠ [] then [pendingLines] else []) ++ [[]]

example : accumulate [] (ascii "def f(x):  # x") = ([], ascii "def f(x):  # x\n") := by decide
example : accumulate (ascii "def f(x):\n") [] = ([ascii "def f(x):\n\n"], []) := by decide

end PythonShell

namespace KindShell

variable {σ : Type*}

/-- A shell on its socket before the first line reaches it. -/
def fresh (v : σ) : KindShell σ := ⟨Shell.fresh v, [], [], false, [], [], false⟩

/-- `eval`, up to its first call of `GenericShell::eval`. -/
def eval (k : ShellKind) (s : KindShell σ) (l : Bytes) : Option (KindShell σ) :=
  if s.base.net ≠ .idle ∨ s.todo ≠ [] ∨ s.selfie then none
  else
    let t := { s with lines := s.lines ++ [l], interrupted := false }
    match k with
    | .python =>
      let r := PythonShell.accumulate s.pendingLines l
      let base := { s.base with selfDestruct := false }
      -- No run comes here with the flag set: the generic `eval` deletes the shell before.
      if s.base.selfDestruct then
        some { t with
          base, todo := r.1 ++ PythonShell.flush r.2, pendingLines := [], selfie := true }
      else some { t with base, todo := r.1, pendingLines := r.2 }
    | _ => some { t with todo := [l] }

/-- The network thread between the calls of `GenericShell::eval`. -/
def hand (s : KindShell σ) : Option (KindShell σ) :=
  match s.todo with
  | e :: todo =>
    (s.base.evalLine e).map fun base => { s with base, todo, handed := s.handed ++ [e] }
  | [] =>
    if s.selfie then some { s with base := { s.base with selfDestruct := true }, selfie := false }
    else none

/-- A step of the network thread inside `GenericShell`, with what the top shell overrides. -/
def callStep (E : GenericEval σ) (cmd : σ → σ) (cfg : ShellConfig) (k : ShellKind) (b : Shell σ) :
    Option (Shell σ) :=
  match k, b.net with
  | .top, .discipline _ => { b with evaluator := cmd b.evaluator }.netStep E cfg
  | .top, .act (.interrupt _) => (b.netStep E cfg).map fun t => { t with selfDestruct := true }
  | _, _ => b.netStep E cfg

/-- The network thread. -/
def netStep (E : GenericEval σ) (cmd : σ → σ) (cfg : ShellConfig) (k : ShellKind)
    (s : KindShell σ) : Option (KindShell σ) :=
  if s.base.net = .idle then s.hand
  else (callStep E cmd cfg k s.base).map fun base =>
    { s with base, interrupted := s.interrupted || base.net = .junk }

/-- One step. -/
def step (E : GenericEval σ) (cmd : σ → σ) (cfg : ShellConfig) (k : ShellKind) (s : KindShell σ)
    (a : Shell.Act) : Option (KindShell σ) :=
  if s.base.escaped then none
  else match a with
  | .line l => s.eval k l
  | .close => if s.todo ≠ [] ∨ s.selfie then none else s.base.close.map fun base => { s with base }
  | .net => s.netStep E cmd cfg k
  | .unbar | .eval | .work | .ret | .poll => (s.base.step E cfg a).map fun base => { s with base }

end KindShell

/-- The runs of a shell of some kind. `cmd` is that of `TopEval`. -/
def kindSystem {σ : Type*} (E : GenericEval σ) (cmd : σ → σ) (cfg : ShellConfig) (k : ShellKind)
    (ready : σ → Prop) : System (KindShell σ) Shell.Act where
  init s := ∃ v, ready v ∧ s = KindShell.fresh v
  step := KindShell.step E cmd cfg k

namespace Shell

variable {σ : Type*} {E : GenericEval σ} {cfg : ShellConfig} {s t : Shell σ}

/-- The threads of the evaluator are on their way, or there. -/
def Starting (s : Shell σ) : Prop := s.evl = .enter ∨ s.pol = .enter ∨ s.initDone = true

/-- How many turns of these threads `_init_done` is away. -/
def initTurns (s : Shell σ) : ℕ :=
  if s.initDone then 0 else if s.pol = .enter then 1 else 2

theorem initTurns_le (hi : s.initDone = true → t.initDone = true)
    (hp : s.pol = .enter → t.pol = .enter ∨ t.initDone = true) : t.initTurns ≤ s.initTurns := by
  unfold initTurns
  by_cases ht : t.initDone = true
  · rw [if_pos ht]
    exact Nat.zero_le _
  · rw [if_neg ht, if_neg (mt hi ht)]
    by_cases he : s.pol = .enter
    · rw [if_pos he, if_pos ((hp he).resolve_right ht)]
    · rw [if_neg he]
      split <;> omega

/-- What the threads of the evaluator leave alone. -/
structure OtherFrame (s t : Shell σ) : Prop where
  net : t.net = s.net
  pushed : t.pushed = s.pushed
  selfDestruct : t.selfDestruct = s.selfDestruct
  items : t.evalque.items <:+ s.evalque.items
  starting : s.Starting → t.Starting
  initTurns : t.initTurns ≤ s.initTurns

theorem evalLoop_items (h : s.evalLoop E cfg = some t) : t.evalque.items <:+ s.evalque.items := by
  cases he : s.evl with
  | off | running | exited => simp [evalLoop, he] at h
  | pop | drainPop =>
    simp only [evalLoop, he] at h
    cases hpop : s.evalque.pop with
    | item e q =>
      rw [hpop, Option.some.injEq] at h
      subst h
      rw [(CancelQueue.pop_eq_item.mp hpop).2.1]
      exact List.suffix_cons e q.items
    | cancelled =>
      rw [hpop, Option.some.injEq] at h
      subst h
      exact List.suffix_rfl
    | blocked =>
      rw [hpop] at h
      cases h
  | drainPoll p | lastPoll p =>
    simp only [evalLoop, he, Option.map_eq_some_iff] at h
    obtain ⟨⟨u, q⟩, hu, rfl⟩ := h
    exact (pollAndSend_frame hu).1.evalque ▸ List.suffix_rfl
  | startEval d e | wakePop | wakeStart e | wakeEnd | whileNotDone | joinPoll =>
    simp only [evalLoop, he, wakePoll] at h
    split at h <;> cases h <;> exact List.suffix_rfl
  | enter | beginEval d e | call d e | caught | unlockPoll | loopTest | cancelReset | drainSize
  | drainTest | drainReset | lastTest | setShell | dropEval =>
    simp only [evalLoop, he, Option.some.injEq] at h
    subst h
    exact List.suffix_rfl

theorem evalLoop_other (h : s.evalLoop E cfg = some t) : OtherFrame s t := by
  have hf := evalLoop_frame h
  have hpol : s.pol = .enter → t.pol = .enter := by
    intro hp
    rw [hf.pol, hp, ite_self]
  refine ⟨hf.net, hf.pushed, hf.selfDestruct, evalLoop_items h, ?_,
    initTurns_le hf.initDone.trans (.inl ∘ hpol)⟩
  rintro (he | hp | hi)
  · exact .inr (.inl (hf.pol.trans (if_pos he)))
  · exact .inr (.inl (hpol hp))
  · exact .inr (.inr (hf.initDone.trans hi))

theorem pollLoop_starting (h : s.pollLoop E cfg = some t)
    (hs : s.pol = .enter ∨ s.initDone = true) : t.initDone = true := by
  cases hp : s.pol with
  | off | exited => simp [pollLoop, hp] at h
  | enter | test | wait | unlock | lastTest =>
    simp only [pollLoop, hp, Option.some.injEq] at h
    subst h
    first | rfl | exact hs.resolve_left (by simp [hp])
  | lock =>
    simp only [pollLoop, hp] at h
    split at h <;> cases h
    exact hs.resolve_left (by simp [hp])
  | first p | second p | last p =>
    simp only [pollLoop, hp, Option.map_eq_some_iff] at h
    obtain ⟨⟨u, q⟩, hu, rfl⟩ := h
    exact (pollAndSend_frame hu).2.2.2.1.trans (hs.resolve_left (by simp [hp]))

theorem pollLoop_other (h : s.pollLoop E cfg = some t) : OtherFrame s t := by
  obtain ⟨hf, hevl⟩ := pollLoop_frame h
  refine ⟨hf.net, hf.pushed, hf.selfDestruct, hf.evalque ▸ List.suffix_rfl, ?_,
    initTurns_le (fun hi => pollLoop_starting h (.inr hi))
      fun hp => .inr (pollLoop_starting h (.inl hp))⟩
  rintro (he | hs)
  · exact .inl (hevl.trans he)
  · exact .inr (.inr (pollLoop_starting h hs))

theorem evalReturn_other (h : s.evalReturn E = some t) : OtherFrame s t := by
  cases he : s.evl <;> simp only [evalReturn, he, reduceCtorEq] at h
  case running d e =>
    have hstart : s.Starting → s.pol = .enter ∨ s.initDone = true :=
      fun hs => hs.resolve_left (by simp [he])
    split at h <;> cases d <;> cases h <;>
      exact ⟨rfl, rfl, rfl, List.suffix_rfl, fun hs => .inr (hstart hs), le_rfl⟩

theorem evalWork_other (h : s.evalWork E = some t) : OtherFrame s t := by
  simp only [evalWork] at h
  split at h <;> cases h
  exact ⟨rfl, rfl, rfl, List.suffix_rfl, id, le_rfl⟩

theorem step_other {a : Act} (ha : a = .eval ∨ a = .work ∨ a = .ret ∨ a = .poll)
    (h : step E cfg s a = some t) : OtherFrame s t := by
  unfold step at h
  split at h
  · cases h
  · rcases ha with rfl | rfl | rfl | rfl
    · exact evalLoop_other h
    · exact evalWork_other h
    · exact evalReturn_other h
    · exact pollLoop_other h

theorem unbar_block (h : s.step E cfg .unbar = some t) :
    ∃ e, s.net = .block e ∧ t = { s with net := .push e } := by
  unfold step unbar at h
  split at h
  · cases h
  · dsimp only at h
    split at h
    · exact ⟨_, ‹_›, (Option.some.inj h).symm⟩
    · cases h

end Shell

namespace KindShell

open Shell

variable {σ : Type*} {E : GenericEval σ} {cmd : σ → σ} {cfg : ShellConfig} {k : ShellKind}
  {s t u v : KindShell σ} {l : Bytes}

theorem callStep_plain {b : Shell σ} (hline : ∀ l, b.net ≠ .discipline l)
    (hact : ∀ ok, b.net ≠ .act (.interrupt ok)) : callStep E cmd cfg k b = b.netStep E cfg := by
  unfold callStep
  split
  · exact absurd ‹_› (hline _)
  · exact absurd ‹_› (hact _)
  · rfl

theorem callStep_escaped {b t : Shell σ} (h : callStep E cmd cfg k b = some t) :
    t.escaped = b.escaped := by
  unfold callStep at h
  split at h
  · exact (netStep_frame h).escaped
  · obtain ⟨c, hc, rfl⟩ := Option.map_eq_some_iff.mp h
    exact (netStep_frame hc).escaped
  · exact (netStep_frame h).escaped

/-- Where a call may be when the shell is not about to end. -/
def awake : NetPc → Bool
  | .idle | .spin _ | .discipline _ | .act _ | .block _ | .push _ => true
  | .afterLine | .cancel | .exitMsg | .junk | .checkEval | .interrupt | .clearPending | .putAbort
  | .finishEval | .goodbye | .stall | .dtor | .sentinel | .join | .gone => false

/-- A shell that is about to end takes no lines. -/
structure Ready (u : KindShell σ) : Prop where
  selfie : u.selfie = false
  selfDestruct : u.base.selfDestruct = true → awake u.base.net = false

theorem ready_netStep {b t : Shell σ} (hb : b.selfDestruct = true → awake b.net = false)
    (h : b.netStep E cfg = some t) : t.selfDestruct = true → awake t.net = false := by
  cases hn : b.net with
  | idle | block _ | gone => simp [Shell.netStep, hn] at h
  | spin _ =>
    simp only [Shell.netStep, hn] at h
    split at h <;> cases h
    exact fun hs => absurd (hb hs) (by simp [hn, awake])
  | discipline l | push e =>
    simp only [Shell.netStep, hn, Option.some.injEq] at h
    subst h
    exact fun hs => absurd (hb hs) (by simp [hn, awake])
  | act d =>
    cases d <;> simp only [Shell.netStep, hn, Option.some.injEq] at h <;> subst h
    · exact fun hs => absurd (hb hs) (by simp [hn, awake])
    · exact fun _ => rfl
    · exact fun _ => rfl
    · exact fun _ => rfl
  | afterLine =>
    simp only [Shell.netStep, hn, Option.some.injEq] at h
    subst h
    intro hs
    exact congrArg awake (if_pos hs)
  | checkEval =>
    simp only [Shell.netStep, hn, Option.some.injEq] at h
    subst h
    intro _
    dsimp only
    split <;> rfl
  | stall | join =>
    simp only [Shell.netStep, hn] at h
    split at h <;> cases h
    exact fun _ => rfl
  | junk =>
    simp only [Shell.netStep, hn] at h
    split at h <;> rw [Option.some.injEq] at h <;> subst h
    · exact fun _ => rfl
    · rw [noteRemoved_eq]
      exact fun _ => hn ▸ rfl
  | goodbye =>
    simp only [Shell.netStep, hn, Option.some.injEq] at h
    subst h
    exact fun _ => rfl
  | cancel | exitMsg | interrupt | clearPending | putAbort | finishEval | dtor | sentinel =>
    simp only [Shell.netStep, hn, Option.some.injEq] at h
    subst h
    exact fun _ => rfl

theorem ready_callStep {b t : Shell σ} (hb : b.selfDestruct = true → awake b.net = false)
    (h : callStep E cmd cfg k b = some t) : t.selfDestruct = true → awake t.net = false := by
  unfold callStep at h
  split at h
  · rename_i hn
    exact ready_netStep (b := { b with evaluator := cmd b.evaluator }) hb h
  · rename_i hn
    obtain ⟨c, hc, rfl⟩ := Option.map_eq_some_iff.mp h
    simp only [Shell.netStep, hn, Option.some.injEq] at hc
    subst hc
    exact fun _ => rfl
  · exact ready_netStep hb h

/-- What a call of `eval` passes on. -/
def taken (k : ShellKind) (pendingLines l : Bytes) : List Bytes × Bytes :=
  if k = .python then PythonShell.accumulate pendingLines l else ([l], pendingLines)

/-- What a call of `eval` does before it passes anything on. -/
structure Called (k : ShellKind) (s : KindShell σ) (l : Bytes) (t : KindShell σ) : Prop where
  free : s.base.net = .idle ∧ s.todo = []
  base : t.base = s.base
  taken : (t.todo, t.pendingLines) = taken k s.pendingLines l
  selfie : t.selfie = false
  record : t.lines = s.lines ++ [l] ∧ t.handed = s.handed ∧ t.interrupted = false

theorem called_eval (hs : Ready s) (h : s.eval k l = some t) : Called k s l t := by
  unfold eval at h
  split at h
  · cases h
  · rename_i hfree
    simp only [ne_eq, not_or, not_not] at hfree
    obtain ⟨hidle, htodo, -⟩ := hfree
    -- the branch that flushes is out of reach
    have hno : s.base.selfDestruct = false := by
      by_contra hd
      have := hs.selfDestruct (by simpa using hd)
      simp [hidle, awake] at this
    cases k with
    | python =>
      simp only [hno, Bool.false_eq_true, ↓reduceIte, Option.some.injEq] at h
      subst h
      refine ⟨⟨hidle, htodo⟩, ?_, rfl, hs.selfie, rfl, rfl, rfl⟩
      rw [← hno]
    | _ =>
      cases h
      exact ⟨⟨hidle, htodo⟩, rfl, rfl, hs.selfie, rfl, rfl, rfl⟩

theorem ready_hand (hs : Ready s) (h : s.hand = some t) : Ready t := by
  unfold hand at h
  split at h
  · obtain ⟨b, hb, rfl⟩ := Option.map_eq_some_iff.mp h
    refine ⟨hs.selfie, ?_⟩
    simp only [evalLine] at hb
    split at hb
    · cases hb
    · rename_i hidle
      have hno : s.base.selfDestruct = true → False := fun hd => by
        have := hs.selfDestruct hd
        simp [not_not.mp hidle, awake] at this
      split at hb <;> cases hb <;> exact fun hd => (hno hd).elim
  · simp only [hs.selfie, Bool.false_eq_true, ↓reduceIte, reduceCtorEq] at h

theorem ready_other {b : Shell σ} (hs : Ready s) (hf : OtherFrame s.base b) :
    Ready { s with base := b } :=
  ⟨hs.selfie, fun hd => hf.net ▸ hs.selfDestruct (hf.selfDestruct ▸ hd)⟩

theorem ready_step {a : Act} (hu : Ready u) (h : u.step E cmd cfg k a = some v) : Ready v := by
  unfold step at h
  split at h
  · cases h
  · cases a with
    | line l =>
      have hc := called_eval hu h
      exact ⟨hc.selfie, hc.base ▸ hu.selfDestruct⟩
    | close =>
      dsimp only at h
      split at h
      · cases h
      · obtain ⟨b, hb, rfl⟩ := Option.map_eq_some_iff.mp h
        unfold close at hb
        split at hb <;> cases hb
        exact ⟨hu.selfie, fun _ => rfl⟩
    | net =>
      dsimp only [netStep] at h
      split at h
      · exact ready_hand hu h
      · obtain ⟨t, ht, rfl⟩ := Option.map_eq_some_iff.mp h
        exact ⟨hu.selfie, ready_callStep hu.selfDestruct ht⟩
    | unbar =>
      obtain ⟨t, ht, rfl⟩ := Option.map_eq_some_iff.mp h
      obtain ⟨e, he, rfl⟩ := unbar_block ht
      exact ⟨hu.selfie, fun hd => absurd (hu.selfDestruct hd) (by simp [he, awake])⟩
    | eval | work | ret | poll =>
      obtain ⟨t, ht, rfl⟩ := Option.map_eq_some_iff.mp h
      exact ready_other hu (step_other (by simp) ht)

theorem Ready.of_reach {ready : σ → Prop} (h : Reach (kindSystem E cmd cfg k ready) anyStep s) :
    Ready s := by
  refine h.invariant Ready ?_ fun _ _ _ _ hs _ ht => ready_step hs ht
  rintro _ ⟨v, -, rfl⟩
  exact ⟨rfl, nofun⟩

theorem callStep_of_ne_top (hk : k ≠ .top) (b : Shell σ) :
    callStep E cmd cfg k b = b.netStep E cfg := by
  cases k with
  | top => exact absurd rfl hk
  | _ => simp only [callStep]

/-- A step of a shell, other than the top shell, is one of the generic shell or leaves it alone. -/
theorem base_step {a : Act} (hk : k ≠ .top) (hs : Ready s) (h : s.step E cmd cfg k a = some t) :
    t.base = s.base ∨ ∃ b, s.base.step E cfg b = some t.base := by
  unfold step at h
  split at h
  · cases h
  · rename_i hesc
    cases a with
    | line l => exact .inl (called_eval hs h).base
    | close =>
      dsimp only at h
      split at h
      · cases h
      · obtain ⟨b, hb, rfl⟩ := Option.map_eq_some_iff.mp h
        exact .inr ⟨.close, (if_neg hesc).trans hb⟩
    | net =>
      dsimp only [netStep] at h
      split at h
      · unfold hand at h
        split at h
        · rename_i e _ _
          obtain ⟨b, hb, rfl⟩ := Option.map_eq_some_iff.mp h
          exact .inr ⟨.line e, (if_neg hesc).trans hb⟩
        · simp only [hs.selfie, Bool.false_eq_true, ↓reduceIte, reduceCtorEq] at h
      · obtain ⟨b, hb, rfl⟩ := Option.map_eq_some_iff.mp h
        rw [callStep_of_ne_top hk] at hb
        exact .inr ⟨.net, (if_neg hesc).trans hb⟩
    | unbar | eval | work | ret | poll =>
      obtain ⟨b, hb, rfl⟩ := Option.map_eq_some_iff.mp h
      exact .inr ⟨_, hb⟩

/-- The generic part of a shell, other than the top shell, goes through runs of the generic
shell. -/
theorem base_reach {ready : σ → Prop} (hk : k ≠ .top)
    (h : Reach (kindSystem E cmd cfg k ready) anyStep s) :
    Reach (shellSystem E cfg ready) anyStep s.base := by
  induction h with
  | init hi =>
    obtain ⟨v, hv, rfl⟩ := hi
    exact .init ⟨v, hv, rfl⟩
  | step hr _ ht ih =>
    rcases base_step hk (Ready.of_reach hr) ht with hsame | ⟨b, hb⟩
    · exact hsame ▸ ih
    · exact ih.step trivial hb

end KindShell

end CogServer
