import CogServer.ShellKinds
import CogServer.ShellProgress

/-! A line that is only a user interrupt, in a shell of any kind. -/
namespace CogServer

open Transition Telnet

/-- Where a call is once `user_interrupt` has emptied the queue. -/
def NetPc.emptied : NetPc → Bool
  | .checkEval | .interrupt | .clearPending | .putAbort | .finishEval | .afterLine | .idle
  | .goodbye | .stall | .dtor | .sentinel | .join | .gone => true
  | .spin _ | .discipline _ | .act _ | .block _ | .push _ | .cancel | .exitMsg | .junk => false

namespace Shell

variable {σ : Type*} {E : GenericEval σ} {cfg : ShellConfig} {s t : Shell σ}

/-- The lines that are only a user interrupt. -/
def interruptLines : List Bytes := [[syn], [can], [esc], [iac, ip], [iac, ao], [iac, susp]]

theorem lineDiscipline_interrupt {l : Bytes} (hl : l ∈ interruptLines) (prompt : Bytes)
    (inputPending : Bool) : ∃ ok, lineDiscipline prompt inputPending l = .interrupt ok := by
  simp only [interruptLines, List.mem_cons, List.not_mem_nil, or_false] at hl
  rcases hl with rfl | rfl | rfl | rfl | rfl | rfl
  all_goals exact ⟨_, rfl⟩

/-- Only wake-up signals are queued. -/
def NoneQueued (s : Shell σ) : Prop := ∀ e ∈ s.evalque.items, e = []

theorem netStep_junk (hn : s.net = .junk) (h : s.netStep E cfg = some t) :
    t.pushed = s.pushed ∧ (t.net = .junk ∨ t.net = .checkEval ∧ NoneQueued t) := by
  simp only [netStep, hn] at h
  split at h <;> rw [Option.some.injEq] at h <;> subst h
  · rename_i hitems
    exact ⟨rfl, .inr ⟨rfl, fun e he => absurd (hitems ▸ he) List.not_mem_nil⟩⟩
  · rw [noteRemoved_eq]
    exact ⟨rfl, .inl hn⟩

theorem netStep_emptied (hn : s.net.emptied = true) (hs : NoneQueued s)
    (h : s.netStep E cfg = some t) : t.pushed = s.pushed ∧ t.net.emptied = true ∧ NoneQueued t := by
  cases hp : s.net with
  | spin _ | discipline _ | act _ | block _ | push _ | cancel | exitMsg | junk =>
    rw [hp] at hn
    cases hn
  | idle | gone => simp [netStep, hp] at h
  | checkEval | afterLine =>
    simp only [netStep, hp, Option.some.injEq] at h
    subst h
    refine ⟨rfl, ?_, hs⟩
    dsimp only
    split <;> rfl
  | interrupt | clearPending | putAbort | finishEval | dtor =>
    simp only [netStep, hp, Option.some.injEq] at h
    subst h
    exact ⟨rfl, rfl, hs⟩
  | goodbye =>
    simp only [netStep, hp, Option.some.injEq] at h
    subst h
    rw [send_eq]
    exact ⟨rfl, rfl, hs⟩
  | stall | join =>
    simp only [netStep, hp] at h
    split at h <;> cases h
    exact ⟨rfl, rfl, hs⟩
  | sentinel =>
    simp only [netStep, hp, Option.some.injEq] at h
    subst h
    refine ⟨rfl, rfl, ?_⟩
    intro e he
    dsimp only at he
    rw [CancelQueue.pushOrDrop_eq] at he
    split at he
    · exact hs e he
    · exact (List.mem_append.mp he).elim (hs e) List.mem_singleton.mp

end Shell

namespace KindShell

open Shell

variable {σ : Type*} {E : GenericEval σ} {cmd : σ → σ} {cfg : ShellConfig} {k : ShellKind}
  {s t u v : KindShell σ} {l : Bytes}

/-- The network thread is on its way to `user_interrupt` with the line. -/
def OnWay (l : Bytes) (u : KindShell σ) : Prop :=
  u.base.net = .idle ∧ u.todo = [l] ∨
    u.todo = [] ∧ (u.base.net = .spin l ∧ u.base.Starting ∨ u.base.net = .discipline l ∨
      ∃ ok, u.base.net = .act (.interrupt ok))

/-- The network thread is in `user_interrupt`, or past it. -/
def Past (u : KindShell σ) : Prop :=
  u.todo = [] ∧ (u.base.net = .junk ∨ u.base.net.emptied = true ∧ NoneQueued u.base)

/-- In a call for an interrupt line that began in the state `s`. -/
structure InCall (s : KindShell σ) (l : Bytes) (u : KindShell σ) : Prop where
  selfie : u.selfie = false
  pushed : u.base.pushed = s.base.pushed
  pending : u.pendingLines = s.pendingLines
  stage : u.interrupted = false ∧ OnWay l u ∨ u.interrupted = true ∧ Past u

/-- No step that begins another call. -/
def sameCall (_ : KindShell σ) (a : Act) : Prop := (∀ l, a ≠ .line l) ∧ a ≠ .close

theorem callStep_discipline (hcfg : cfg.applyDiscipline = true) (hl : l ∈ interruptLines)
    {b t : Shell σ} (hn : b.net = .discipline l) (h : callStep E cmd cfg k b = some t) :
    (∃ ok, t.net = .act (.interrupt ok)) ∧ t.pushed = b.pushed ∧ t.evalque = b.evalque := by
  obtain ⟨v, hv⟩ : ∃ v, { b with evaluator := v }.netStep E cfg = some t := by
    cases k with
    | top => exact ⟨cmd b.evaluator, by simpa only [callStep, hn] using h⟩
    | _ => exact ⟨b.evaluator, by simpa only [callStep] using h⟩
  simp only [Shell.netStep, hn, hcfg, ↓reduceIte, Option.some.injEq] at hv
  subst hv
  obtain ⟨ok, hok⟩ := lineDiscipline_interrupt hl _ _
  exact ⟨⟨ok, congrArg NetPc.act hok⟩, rfl, rfl⟩

theorem callStep_act {b t : Shell σ} {ok : Bytes} (hn : b.net = .act (.interrupt ok))
    (h : callStep E cmd cfg k b = some t) :
    t.net = .junk ∧ t.pushed = b.pushed ∧ t.evalque = b.evalque := by
  cases k with
  | top =>
    simp only [callStep, Shell.netStep, hn, Option.map_some, Option.some.injEq] at h
    subst h
    exact ⟨rfl, rfl, rfl⟩
  | _ =>
    simp only [callStep, Shell.netStep, hn, Option.some.injEq] at h
    subst h
    exact ⟨rfl, rfl, rfl⟩

/-- A call for an interrupt line enqueues nothing. -/
theorem InCall.not_block (hI : InCall s l u) (e : Bytes) : u.base.net ≠ .block e := by
  intro hn
  rcases hI.stage with ⟨-, hway⟩ | ⟨-, hpast⟩
  · simp [OnWay, hn] at hway
  · simp [Past, hn, NetPc.emptied] at hpast

theorem InCall.moved (hI : InCall s l u) {t : Shell σ} {b : Bool}
    (hpushed : t.pushed = u.base.pushed)
    (hstage : b = false ∧ OnWay l { u with base := t, interrupted := b } ∨
      b = true ∧ Past { u with base := t, interrupted := b }) :
    InCall s l { u with base := t, interrupted := b } :=
  ⟨hI.selfie, hpushed.trans hI.pushed, hI.pending, hstage⟩

/-- The threads of the evaluator do not touch the call. -/
theorem inCall_other {t : Shell σ} (hI : InCall s l u) (hf : OtherFrame u.base t) :
    InCall s l { u with base := t } := by
  refine hI.moved hf.pushed (hI.stage.imp (And.imp_right ?_) (And.imp_right (And.imp_right ?_)))
  · simp only [OnWay, hf.net]
    exact Or.imp_right (And.imp_right (Or.imp_left (And.imp_right hf.starting)))
  · simp only [hf.net]
    exact Or.imp_right (And.imp_right fun hnone e he => hnone e (hf.items.mem he))

/-- The network thread takes the line to `GenericShell::eval`. -/
theorem inCall_hand (hI : InCall s l u) (hn : u.base.net = .idle) (h : u.hand = some v) :
    InCall s l v := by
  unfold hand at h
  split at h
  · rename_i e todo htodo
    obtain ⟨b, hb, rfl⟩ := Option.map_eq_some_iff.mp h
    rcases hI.stage with ⟨hint, hway⟩ | ⟨-, hpast⟩
    · obtain ⟨rfl, rfl⟩ : e = l ∧ todo = [] := by
        rcases hway with ⟨-, ht⟩ | ⟨ht, -⟩
        · exact List.cons.inj (htodo.symm.trans ht)
        · exact absurd (htodo.symm.trans ht) (List.cons_ne_nil _ _)
      simp only [evalLine, hn, ne_eq, not_true_eq_false, ↓reduceIte] at hb
      refine ⟨hI.selfie, ?_, hI.pending, .inl ⟨hint, .inr ⟨rfl, ?_⟩⟩⟩
      · split at hb <;> cases hb <;> exact hI.pushed
      · split at hb <;> cases hb
        · exact .inr (.inl rfl)
        · exact .inl ⟨rfl, .inl rfl⟩
    · exact absurd (htodo.symm.trans hpast.1) (List.cons_ne_nil _ _)
  · simp only [hI.selfie, Bool.false_eq_true, ↓reduceIte, reduceCtorEq] at h

/-- The network thread goes on in `GenericShell::eval`. -/
theorem inCall_call {t : Shell σ} (hcfg : cfg.applyDiscipline = true) (hl : l ∈ interruptLines)
    (hI : InCall s l u) (hn : u.base.net ≠ .idle) (h : callStep E cmd cfg k u.base = some t) :
    InCall s l { u with base := t, interrupted := u.interrupted || t.net = .junk } := by
  rcases hI.stage with ⟨hint, ⟨hidle, -⟩ | ⟨htodo, ⟨hspin, -⟩ | hline | ⟨ok, hact⟩⟩⟩ |
    ⟨hint, htodo, hpast⟩
  · exact absurd hidle hn
  · -- the evaluator is there
    rw [callStep_plain (by simp [hspin]) (by simp [hspin])] at h
    simp only [Shell.netStep, hspin] at h
    split at h <;> cases h
    exact hI.moved rfl (.inl ⟨by simpa using hint, .inr ⟨htodo, .inr (.inl rfl)⟩⟩)
  · obtain ⟨⟨ok, hok⟩, hpushed, -⟩ := callStep_discipline hcfg hl hline h
    refine hI.moved hpushed (.inl ⟨?_, .inr ⟨htodo, .inr (.inr ⟨ok, hok⟩)⟩⟩)
    simp only [hint, hok, reduceCtorEq, decide_false, Bool.or_self]
  · obtain ⟨hjunk, hpushed, -⟩ := callStep_act hact h
    refine hI.moved hpushed (.inr ⟨?_, htodo, .inl hjunk⟩)
    simp only [hjunk, decide_true, Bool.or_true]
  · have hstill : (u.interrupted || decide (t.net = .junk)) = true := by
      rw [hint, Bool.true_or]
    rcases hpast with hjunk | ⟨hnet, hnone⟩
    · -- one more expression is discarded, or the queue is found empty
      rw [callStep_plain (by simp [hjunk]) (by simp [hjunk])] at h
      obtain ⟨hpushed, hnext⟩ := netStep_junk hjunk h
      refine hI.moved hpushed (.inr ⟨hstill, htodo, hnext.imp_right (And.imp_left ?_)⟩)
      exact fun hcheck => hcheck ▸ rfl
    · have hline (l' : Bytes) : u.base.net ≠ .discipline l' := fun hl' => by
        simp [hl', NetPc.emptied] at hnet
      have hact (ok : Bytes) : u.base.net ≠ .act (.interrupt ok) := fun hok => by
        simp [hok, NetPc.emptied] at hnet
      rw [callStep_plain hline hact] at h
      obtain ⟨hpushed, hnext⟩ := netStep_emptied hnet hnone h
      exact hI.moved hpushed (.inr ⟨hstill, htodo, .inr hnext⟩)

/-- No step leaves the call but by `user_interrupt`. -/
theorem inCall_step {a : Act} (hcfg : cfg.applyDiscipline = true) (hl : l ∈ interruptLines)
    (hI : InCall s l u) (ha : sameCall u a) (h : u.step E cmd cfg k a = some v) : InCall s l v := by
  unfold step at h
  split at h
  · cases h
  · cases a with
    | line l' => exact absurd rfl (ha.1 l')
    | close => exact absurd rfl ha.2
    | net =>
      dsimp only [netStep] at h
      split at h
      · exact inCall_hand hI ‹_› h
      · obtain ⟨t, ht, rfl⟩ := Option.map_eq_some_iff.mp h
        exact inCall_call hcfg hl hI ‹_› ht
    | unbar =>
      obtain ⟨t, ht, rfl⟩ := Option.map_eq_some_iff.mp h
      obtain ⟨e, he, -⟩ := unbar_block ht
      exact absurd he (hI.not_block e)
    | eval | work | ret | poll =>
      obtain ⟨t, ht, rfl⟩ := Option.map_eq_some_iff.mp h
      exact inCall_other hI (step_other (by simp) ht)

/-- The threads of the shell. -/
def own (a : Act) : Prop := a = .net ∨ a = .eval ∨ a = .poll

/-- How many turns of these threads a call is from the end of the loop in `user_interrupt`, which
has a turn for each expression besides. -/
def turns (u : KindShell σ) : ℕ :=
  match u.base.net with
  | .idle => 7
  | .spin _ => 4 + u.base.initTurns
  | .discipline _ => 3
  | .act _ => 2
  | .junk => 1
  | .block _ | .push _ | .afterLine | .cancel | .exitMsg | .checkEval | .interrupt
  | .clearPending | .putAbort | .finishEval | .goodbye | .stall | .dtor | .sentinel | .join
  | .gone => 0

def turnsLeft (u : KindShell σ) : ℕ := u.turns + u.base.evalque.items.length

/-- The thread whose turn it is. -/
def turn (u : KindShell σ) : Act :=
  match u.turns with
  | 6 => .eval
  | 5 => .poll
  | _ => .net

theorem own_turn (u : KindShell σ) : own u.turn := by
  unfold turn
  split
  · exact .inr (.inl rfl)
  · exact .inr (.inr rfl)
  · exact .inl rfl

theorem sameCall_of_own {a : Act} (ha : own a) : sameCall u a := by
  rcases ha with rfl | rfl | rfl <;> exact ⟨nofun, nofun⟩

theorem alive_of_step {a : Act} (h : u.step E cmd cfg k a = some v) : u.base.escaped = false := by
  unfold step at h
  split at h
  · cases h
  · exact Bool.eq_false_iff.mpr ‹_›

/-- The thread whose turn it is has a step, after which fewer turns are left. -/
def Advances (E : GenericEval σ) (cmd : σ → σ) (cfg : ShellConfig) (k : ShellKind)
    (u : KindShell σ) : Prop :=
  ∃ v, u.step E cmd cfg k u.turn = some v ∧ v.base.escaped = false ∧ v.turnsLeft < u.turnsLeft

theorem advances_call (he : u.base.escaped = false) (hn : u.base.net ≠ .idle)
    (hturn : u.turn = .net) {t : Shell σ} (ht : callStep E cmd cfg k u.base = some t)
    (hlt : turnsLeft { u with base := t } < u.turnsLeft) : Advances E cmd cfg k u := by
  refine ⟨{ u with base := t, interrupted := u.interrupted || t.net = .junk }, ?_,
    (callStep_escaped ht).trans he, hlt⟩
  simp only [hturn, step, netStep, he, Bool.false_eq_true, hn, ↓reduceIte, ht, Option.map_some]

/-- One more expression is discarded, or the queue is found empty. -/
theorem advances_junk (he : u.base.escaped = false) (hn : u.base.net = .junk) :
    Advances E cmd cfg k u := by
  have hturn : u.turn = .net := by simp only [turn, turns, hn]
  have hcall : callStep E cmd cfg k u.base = u.base.netStep E cfg :=
    callStep_plain (by simp [hn]) (by simp [hn])
  cases hitems : u.base.evalque.items with
  | nil =>
    have ht : callStep E cmd cfg k u.base = some { u.base with net := .checkEval } := by
      simp only [hcall, Shell.netStep, hn, hitems]
    refine advances_call he (by simp [hn]) hturn ht ?_
    simp only [turnsLeft, turns, hn]
    omega
  | cons e rest =>
    have ht : callStep E cmd cfg k u.base = some { u.base.noteRemoved e false with
        evalque := { u.base.evalque with items := rest } } := by
      simp only [hcall, Shell.netStep, hn, hitems]
    refine advances_call he (by simp [hn]) hturn ht ?_
    rw [noteRemoved_eq]
    simp only [turnsLeft, turns, hn, hitems, List.length_cons]
    omega

theorem advances_act {ok : Bytes} (he : u.base.escaped = false)
    (hn : u.base.net = .act (.interrupt ok)) : Advances E cmd cfg k u := by
  obtain ⟨t, ht⟩ : ∃ t, callStep E cmd cfg k u.base = some t := by
    cases k <;> exact ⟨_, by simp only [callStep, Shell.netStep, hn, Option.map_some]; rfl⟩
  obtain ⟨hjunk, -, hque⟩ := callStep_act hn ht
  refine advances_call he (by simp [hn]) (by simp only [turn, turns, hn]) ht ?_
  simp only [turnsLeft, turns, hn, hjunk, hque]
  omega

theorem advances_discipline (hcfg : cfg.applyDiscipline = true) (hl : l ∈ interruptLines)
    (he : u.base.escaped = false) (hn : u.base.net = .discipline l) : Advances E cmd cfg k u := by
  obtain ⟨t, ht⟩ : ∃ t, callStep E cmd cfg k u.base = some t := by
    cases k <;> exact ⟨_, by simp only [callStep, Shell.netStep, hn]; rfl⟩
  obtain ⟨⟨ok, hok⟩, -, hque⟩ := callStep_discipline hcfg hl hn ht
  refine advances_call he (by simp [hn]) (by simp only [turn, turns, hn]) ht ?_
  simp only [turnsLeft, turns, hn, hok, hque]
  omega

/-- The network thread waits for `_init_done`, which the other two threads bring about. -/
theorem advances_spin (he : u.base.escaped = false) (hn : u.base.net = .spin l)
    (hs : u.base.Starting) : Advances E cmd cfg k u := by
  by_cases hinit : u.base.initDone = true
  · have hturns : u.turns = 4 := by simp only [turns, hn, initTurns, hinit, ↓reduceIte]
    have ht : callStep E cmd cfg k u.base = some { u.base with net := .discipline l } := by
      rw [callStep_plain (by simp [hn]) (by simp [hn])]
      simp only [Shell.netStep, hn, hinit, ↓reduceIte]
    refine advances_call he (by simp [hn]) (by simp only [turn, hturns]) ht ?_
    rw [turnsLeft, turnsLeft, hturns]
    exact Nat.add_lt_add_right (Nat.lt_succ_self 3) _
  · by_cases hpol : u.base.pol = .enter
    · have hturns : u.turns = 5 := by
        simp only [turns, hn, initTurns, hinit, hpol, Bool.false_eq_true, ↓reduceIte]
      refine ⟨{ u with base := { u.base with initDone := true, pol := .lock } }, ?_, he, ?_⟩
      · simp only [turn, hturns, step, Shell.step, pollLoop, he, hpol, Bool.false_eq_true,
          ↓reduceIte, Option.map_some]
      · rw [turnsLeft, turnsLeft, hturns]
        simp only [turns, hn, initTurns, ↓reduceIte]
        omega
    · have hevl : u.base.evl = .enter := hs.resolve_right (not_or.mpr ⟨hpol, hinit⟩)
      have hturns : u.turns = 6 := by
        simp only [turns, hn, initTurns, hinit, hpol, Bool.false_eq_true, ↓reduceIte]
      refine ⟨{ u with
        base := { u.base with
          hasEvaluator := true, evaluator := E.clearPending u.base.evaluator, pol := .enter,
          evl := .whileNotDone } }, ?_, he, ?_⟩
      · simp only [turn, hturns, step, Shell.step, evalLoop, he, hevl, Bool.false_eq_true,
          ↓reduceIte, Option.map_some]
      · rw [turnsLeft, turnsLeft, hturns]
        simp only [turns, hn, initTurns, hinit, Bool.false_eq_true, ↓reduceIte]
        omega

theorem advances_hand (he : u.base.escaped = false) (hn : u.base.net = .idle) (ht : u.todo = [l]) :
    Advances E cmd cfg k u := by
  have hturns : u.turns = 7 := by simp only [turns, hn]
  have hstep {b : Shell σ} (hb : u.base.evalLine l = some b) : u.step E cmd cfg k u.turn =
      some { u with base := b, todo := [], handed := u.handed ++ [l] } := by
    simp only [turn, hturns, step, netStep, hand, he, hn, ht, hb, Bool.false_eq_true, ↓reduceIte,
      Option.map_some]
  by_cases hev : u.base.hasEvaluator = true
  · have hb : u.base.evalLine l = some { u.base with net := .discipline l } := by
      simp only [evalLine, hn, hev, ne_eq, not_true_eq_false, ↓reduceIte]
    refine ⟨_, hstep hb, he, ?_⟩
    rw [turnsLeft, turnsLeft, hturns]
    simp only [turns]
    omega
  · have hb : u.base.evalLine l =
        some { u.base with initDone := false, evl := .enter, net := .spin l } := by
      simp only [evalLine, hn, hev, ne_eq, not_true_eq_false, Bool.false_eq_true, ↓reduceIte]
    refine ⟨_, hstep hb, he, ?_⟩
    rw [turnsLeft, turnsLeft, hturns]
    simp only [turns, initTurns, Bool.false_eq_true, ↓reduceIte]
    split <;> omega

/-- The network thread came to `user_interrupt`, and is past its loop. -/
def Cleared (u : KindShell σ) : Prop := u.interrupted = true ∧ u.base.net ≠ .junk

/-- Until then there is always a thread whose turn it is. -/
theorem InCall.advances (hI : InCall s l u) (hcfg : cfg.applyDiscipline = true)
    (hl : l ∈ interruptLines) (he : u.base.escaped = false) (hno : ¬ Cleared u) :
    Advances E cmd cfg k u := by
  rcases hI.stage with ⟨-, ⟨hidle, htodo⟩ | ⟨-, ⟨hspin, hs⟩ | hline | ⟨ok, hact⟩⟩⟩ | ⟨hint, -⟩
  · exact advances_hand he hidle htodo
  · exact advances_spin he hspin hs
  · exact advances_discipline hcfg hl he hline
  · exact advances_act he hact
  · refine advances_junk he ?_
    by_contra hjunk
    exact hno ⟨hint, hjunk⟩

/-- The network thread has no step when it is the turn of another. -/
theorem turn_net (h : u.step E cmd cfg k .net = some v) : u.turn = .net := by
  have he := alive_of_step h
  cases hn : u.base.net with
  | spin l =>
    simp only [step, netStep, he, hn, Bool.false_eq_true, reduceCtorEq, ↓reduceIte] at h
    obtain ⟨t, ht, -⟩ := Option.map_eq_some_iff.mp h
    rw [callStep_plain (by simp [hn]) (by simp [hn])] at ht
    simp only [Shell.netStep, hn] at ht
    split at ht
    · rename_i hinit
      simp only [turn, turns, hn, initTurns, hinit, ↓reduceIte]
    · cases ht
  | _ => simp only [turn, turns, hn]

/-- A step leaves fewer turns, or as many and the turn to the same thread. -/
theorem InCall.keeps {a : Act} (hI : InCall s l u) (hcfg : cfg.applyDiscipline = true)
    (hl : l ∈ interruptLines) (hno : ¬ Cleared u) (ha : sameCall u a)
    (h : u.step E cmd cfg k a = some v) :
    v.turnsLeft < u.turnsLeft ∨ v.turnsLeft = u.turnsLeft ∧ v.turn = u.turn := by
  have he := alive_of_step h
  cases a with
  | line l' => exact absurd rfl (ha.1 l')
  | close => exact absurd rfl ha.2
  | net =>
    obtain ⟨w, hw, -, hlt⟩ := hI.advances hcfg hl he hno
    rw [turn_net h, h, Option.some.injEq] at hw
    exact .inl (hw ▸ hlt)
  | unbar =>
    simp only [step, he, Bool.false_eq_true, ↓reduceIte] at h
    obtain ⟨t, ht, rfl⟩ := Option.map_eq_some_iff.mp h
    obtain ⟨e, hblock, -⟩ := unbar_block ht
    exact absurd hblock (hI.not_block e)
  | eval | work | ret | poll =>
    simp only [step, he, Bool.false_eq_true, ↓reduceIte] at h
    obtain ⟨t, ht, rfl⟩ := Option.map_eq_some_iff.mp h
    have hf := step_other (by simp) ht
    have hturns : turns { u with base := t } ≤ u.turns := by
      simp only [turns, hf.net]
      split
      case h_2 => exact Nat.add_le_add_left hf.initTurns 4
      all_goals exact le_rfl
    have hitems := hf.items.length_le
    unfold turnsLeft
    rcases hturns.lt_or_eq with hlt | hsame
    · exact .inl (Nat.add_lt_add_of_lt_of_le hlt hitems)
    · rcases hitems.lt_or_eq with hlt | hlen
      · exact .inl (Nat.add_lt_add_of_le_of_lt hturns hlt)
      · exact .inr ⟨congrArg₂ _ hsame hlen, by simp only [turn, hsame]⟩

/-- What a call for a user interrupt does, from the state `t` where `eval` has taken the line:
nothing is enqueued or stored; once past the loop of `user_interrupt`, no expression is queued; the
call does not return, nor the shell end, before `user_interrupt`; the threads of the shell can
always get past that loop, and they do when they get their turns. -/
structure GetsThrough (M : System (KindShell σ) Act) (s t : KindShell σ) : Prop where
  kept : ∀ u, Path M sameCall t u →
    u.base.pushed = s.base.pushed ∧ u.pendingLines = s.pendingLines
  discards : ∀ u, Path M sameCall t u → Cleared u → NoneQueued u.base
  returns : ∀ u, Path M sameCall t u →
    u.base.net = .idle ∧ u.todo = [] ∨ u.base.net = .gone → u.interrupted = true
  reaches : ∀ u, Path M sameCall t u → u.base.escaped = false →
    ∃ v, Path M (fun _ => own) u v ∧ Cleared v
  comes : ∀ r : Run M sameCall, r.state 0 = t → r.Fair own → ∃ n, Cleared (r.state n)

section Runs

variable {ready : σ → Prop}

theorem InCall.path (hcfg : cfg.applyDiscipline = true) (hl : l ∈ interruptLines)
    (ht : InCall s l t) (hp : Path (kindSystem E cmd cfg k ready) sameCall t u) : InCall s l u :=
  hp.invariant (InCall s l) (fun _ _ _ hI ha h => inCall_step hcfg hl hI ha h) ht

/-- From everywhere in the call the threads of the shell can get past the loop. -/
theorem InCall.reaches (hI : InCall s l u) (hcfg : cfg.applyDiscipline = true)
    (hl : l ∈ interruptLines) (he : u.base.escaped = false) :
    ∃ v, Path (kindSystem E cmd cfg k ready) (fun _ => own) u v ∧ Cleared v := by
  obtain ⟨v, hp, -, hv⟩ := Path.progress (M := kindSystem E cmd cfg k ready) (C := fun _ => own)
    (fun w => InCall s l w ∧ w.base.escaped = false) Cleared turnsLeft
    (fun w ⟨hw, hesc⟩ hno => by
      obtain ⟨v, hv, hesc', hlt⟩ := hw.advances hcfg hl hesc hno
      have hown := own_turn w
      exact ⟨v, .single hown hv, ⟨inCall_step hcfg hl hw (sameCall_of_own hown) hv, hesc'⟩, hlt⟩)
    u ⟨hI, he⟩
  exact ⟨v, hp, hv⟩

/-- They get past it when they get their turns. -/
theorem InCall.comes (hcfg : cfg.applyDiscipline = true) (hl : l ∈ interruptLines)
    (r : Run (kindSystem E cmd cfg k ready) sameCall) (hI : InCall s l (r.state 0))
    (hr : r.Fair own) : ∃ n, Cleared (r.state n) := by
  have hin (n : ℕ) : InCall s l (r.state n) := hI.path hcfg hl (r.path n)
  obtain ⟨n, -, hn⟩ := hr.reaches Cleared turnsLeft turn own_turn
    (fun n hno => (hin n).keeps hcfg hl hno (r.meets n) (r.next n))
    (fun n hno => by
      obtain ⟨v, hv, -, hlt⟩ := (hin n).advances hcfg hl (alive_of_step (r.next n)) hno
      exact ⟨v, hv, hlt⟩) 0
  exact ⟨n, hn⟩

theorem getsThrough_of_inCall (hcfg : cfg.applyDiscipline = true) (hl : l ∈ interruptLines)
    (ht : InCall s l t) : GetsThrough (kindSystem E cmd cfg k ready) s t := by
  refine ⟨fun u hp => ?_, fun u hp hu => ?_, fun u hp hend => ?_,
    fun u hp he => (ht.path hcfg hl hp).reaches hcfg hl he, ?_⟩
  · exact ⟨(ht.path hcfg hl hp).pushed, (ht.path hcfg hl hp).pending⟩
  · rcases (ht.path hcfg hl hp).stage with ⟨hnot, -⟩ | ⟨-, -, hn | ⟨-, hnone⟩⟩
    · simp [hu.1] at hnot
    · exact absurd hn hu.2
    · exact hnone
  · rcases (ht.path hcfg hl hp).stage with ⟨-, hway⟩ | ⟨hint, -⟩
    · rcases hend with ⟨hidle, htodo⟩ | hgone
      · simp [OnWay, hidle, htodo] at hway
      · simp [OnWay, hgone] at hway
    · exact hint
  · rintro r rfl hr
    exact ht.comes hcfg hl r hr

theorem accumulate_interrupt (hl : l ∈ interruptLines) :
    PythonShell.accumulate [] l = ([l], []) := by
  simp only [interruptLines, List.mem_cons, List.not_mem_nil, or_false] at hl
  rcases hl with rfl | rfl | rfl | rfl | rfl | rfl
  all_goals decide

/-- In a shell of any kind a line that is only a user interrupt gets through, unless a python shell
is in the middle of a block, when the line becomes a part of the block. -/
theorem interrupts_get_through (hcfg : cfg.applyDiscipline = true)
    (h : Reach (kindSystem E cmd cfg k ready) anyStep s) (hl : l ∈ interruptLines)
    (ht : (kindSystem E cmd cfg k ready).step s (.line l) = some t) :
    GetsThrough (kindSystem E cmd cfg k ready) s t ↔ ¬ (k = .python ∧ s.pendingLines ≠ []) := by
  have hs := Ready.of_reach h
  have hc : Called k s l t := by
    simp only [kindSystem, step] at ht
    split at ht
    · cases ht
    · exact called_eval hs ht
  have htaken := hc.taken
  constructor
  · rintro hgets ⟨rfl, hp⟩
    -- already the first state has the line in `_pending_lines`
    have hkept := (hgets.kept t (.refl t)).2
    have hne : l ≠ [] := by
      rintro rfl
      exact absurd hl (by decide)
    simp only [taken, PythonShell.accumulate, hp, hne, ne_eq, not_false_eq_true, ↓reduceIte,
      Prod.mk.injEq] at htaken
    have hlen := congrArg List.length (htaken.2.symm.trans hkept)
    simp at hlen
  · intro hnot
    have hsame : taken k s.pendingLines l = ([l], s.pendingLines) := by
      unfold taken
      split
      · have hp : s.pendingLines = [] := by
          by_contra hp
          exact hnot ⟨‹_›, hp⟩
        rw [hp, accumulate_interrupt hl]
      · rfl
    obtain ⟨htodo, hpending⟩ := Prod.mk.inj (htaken.trans hsame)
    have hidle : t.base.net = .idle := by rw [hc.base, hc.free.1]
    exact getsThrough_of_inCall hcfg hl ⟨hc.selfie, by rw [hc.base], hpending,
      .inl ⟨hc.record.2.2, .inl ⟨hidle, htodo⟩⟩⟩

/-- An interrupt at the start of a session with python. -/
theorem interrupts_get_through_python : ∃ t : KindShell Bytes,
    (kindSystem echoEval id plainConfig .python fun _ => True).step (fresh []) (.line [iac, ip]) =
        some t ∧
      GetsThrough (kindSystem echoEval id plainConfig .python fun _ => True) (fresh []) t :=
  ⟨_, rfl, (interrupts_get_through (k := .python) rfl (.init ⟨[], trivial, rfl⟩) (by decide)
    rfl).mpr fun h => h.2 rfl⟩

/-- A python shell that got the first line of a block. -/
def blockOpened : KindShell Bytes :=
  { fresh [] with pendingLines := ascii "def f(x):\n", lines := [ascii "def f(x):"] }

/-- After the first line of a block the python shell stores an interrupt as the next line. -/
theorem interrupts_stored :
    ¬ (∀ (s t : KindShell Bytes) (l : Bytes),
        Reach (kindSystem echoEval id plainConfig .python fun _ => True) anyStep s →
        l ∈ interruptLines →
        (kindSystem echoEval id plainConfig .python fun _ => True).step s (.line l) = some t →
        GetsThrough (kindSystem echoEval id plainConfig .python fun _ => True) s t) ∧
      (blockOpened.step echoEval id plainConfig .python (.line [iac, ip])).map
          (fun t => (t.pendingLines, t.base.net, t.todo, t.interrupted)) =
        some (ascii "def f(x):\n" ++ [iac, ip, newline], .idle, [], false) := by
  have hstored : (blockOpened.step echoEval id plainConfig .python (.line [iac, ip])).map
      (fun t => (t.pendingLines, t.base.net, t.todo, t.interrupted)) =
        some (ascii "def f(x):\n" ++ [iac, ip, newline], .idle, [], false) := by decide +kernel
  refine ⟨fun h => ?_, hstored⟩
  have hreach : Reach (kindSystem echoEval id plainConfig .python fun _ => True) anyStep
      blockOpened :=
    reach_of_exec [.line (ascii "def f(x):")] ⟨[], trivial, rfl⟩ (by decide +kernel)
  obtain ⟨t, ht, hpending⟩ := Option.map_eq_some_iff.mp hstored
  have hkept := ((h blockOpened t [iac, ip] hreach (by decide) ht).kept t (.refl t)).2
  rw [(Prod.mk.inj hpending).1] at hkept
  exact absurd hkept (by decide +kernel)

end Runs

end KindShell

end CogServer
