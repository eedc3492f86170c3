import CogServer.ShellKinds
import CogServer.ShellProgress

/-! Who may still use a shell and its evaluator, and when they are gone. -/
namespace CogServer

open Transition

/-- The poll thread is in `poll_and_send`. -/
def PollerPc.inPoll : PollerPc → Bool
  | .first _ | .second _ | .last _ => true
  | _ => false

/-- The eval thread is in `poll_and_send`. -/
def EvalPc.inPoll : EvalPc → Bool
  | .drainPoll _ | .lastPoll _ => true
  | _ => false

/-- The eval thread has the evaluator in its hands. -/
def EvalPc.usesEvaluator : EvalPc → Bool
  | .beginEval _ _ | .call _ _ | .running _ _ => true
  | p => p.inPoll

/-- The network thread is about to use the evaluator without another look at the pointer. -/
def NetPc.usesEvaluator : NetPc → Bool
  | .discipline _ | .interrupt | .clearPending => true
  | _ => false

/-- The eval thread has taken the shell off its socket. -/
def EvalPc.detached : EvalPc → Bool
  | .dropEval | .exited => true
  | _ => false

namespace Shell

variable {σ : Type*} {E : GenericEval σ} {cfg : ShellConfig} {ready : σ → Prop} {s t : Shell σ}

theorem evalLoop_detached (hd : s.evl.detached = true → s.attached = false)
    (h : s.evalLoop E cfg = some t) : t.evl.detached = true → t.attached = false := by
  cases he : s.evl with
  | off | running | exited => simp [evalLoop, he] at h
  | pop | drainPop =>
    simp only [evalLoop, he] at h
    split at h <;> cases h
    · dsimp only
      split <;> exact fun h => absurd h Bool.false_ne_true
    · exact fun h => absurd h Bool.false_ne_true
  | drainPoll p | lastPoll p =>
    simp only [evalLoop, he, Option.map_eq_some_iff] at h
    obtain ⟨⟨u, q⟩, hu, rfl⟩ := h
    cases q <;> exact fun h => absurd h Bool.false_ne_true
  | startEval d e =>
    simp only [evalLoop, he] at h
    split at h <;> cases h <;> exact fun h => absurd h Bool.false_ne_true
  | whileNotDone | wakePop | wakeStart e | wakeEnd | joinPoll =>
    simp only [evalLoop, he, wakePoll] at h
    split at h <;> cases h
    exact fun h => absurd h Bool.false_ne_true
  | loopTest | drainSize | drainTest | lastTest =>
    simp only [evalLoop, he, Option.some.injEq] at h
    subst h
    dsimp only
    split <;> exact fun h => absurd h Bool.false_ne_true
  | dropEval =>
    simp only [evalLoop, he, Option.some.injEq] at h
    subst h
    exact fun _ => hd (by rw [he]; rfl)
  | setShell =>
    simp only [evalLoop, he, Option.some.injEq] at h
    subst h
    exact fun _ => rfl
  | enter | beginEval d e | call d e | caught | unlockPoll | cancelReset | drainReset =>
    simp only [evalLoop, he, Option.some.injEq] at h
    subst h
    exact fun h => absurd h Bool.false_ne_true

theorem detached_of_reach {C : Shell σ → Act → Prop} (h : Reach (shellSystem E cfg ready) C s) :
    s.evl.detached = true → s.attached = false := by
  refine h.invariant (fun s => s.evl.detached = true → s.attached = false) ?_ ?_
  · rintro _ ⟨v, -, rfl⟩
    exact fun h => absurd h Bool.false_ne_true
  · intro s a t _ hd _ ht
    have ht : s.step E cfg a = some t := ht
    unfold step at ht
    split at ht
    · cases ht
    · cases a with
      | line l =>
        simp only [evalLine] at ht
        split at ht
        · cases ht
        · split at ht <;> cases ht
          · exact hd
          · exact fun h => absurd h Bool.false_ne_true
      | close =>
        simp only [close] at ht
        split at ht <;> cases ht
        exact hd
      | unbar =>
        simp only [unbar] at ht
        split at ht <;> cases ht
        exact hd
      | net =>
        have hf := netStep_frame ht
        rw [hf.evl, hf.attached]
        exact hd
      | eval => exact evalLoop_detached hd ht
      | work =>
        simp only [evalWork] at ht
        split at ht <;> cases ht
        exact hd
      | ret =>
        cases he : s.evl <;> simp only [evalReturn, he, reduceCtorEq] at ht
        case running d e => split at ht <;> cases d <;> cases ht <;> exact fun h => absurd h Bool.false_ne_true
      | poll =>
        obtain ⟨hf, he⟩ := pollLoop_frame ht
        rw [he, hf.attached]
        exact hd

/-- No thread uses the evaluator where the pointer to it is null, and no two threads poll at once. -/
structure EvaluatorSafe (s : Shell σ) : Prop where
  poller : s.pol.inPoll = true → s.hasEvaluator = true
  eval : s.evl.usesEvaluator = true → s.hasEvaluator = true
  net : s.net.usesEvaluator = true → s.hasEvaluator = true
  single : s.pol.inPoll = true → s.evl.inPoll = false

/-- Once the destructor is through, nobody runs in the shell, and the socket does not point to it,
unless no line ever reached it. -/
structure GoneSafe (E : GenericEval σ) (cfg : ShellConfig) (s : Shell σ) : Prop where
  final : s.net = .gone → ∀ a, s.step E cfg a = none
  detached : s.net = .gone → s.evl = .off ∨ s.attached = false

theorem evaluatorSafe_of_reach (h : Reach (shellSystem E cfg ready) anyStep s) : EvaluatorSafe s := by
  have hc := Control.of_reach h
  have hj := Joins.of_reach h
  have hev := hc.hasEvaluator
  -- the eval thread is where it has the evaluator, if the others rely on it
  have hon (h1 : s.evl ≠ .off) (h2 : s.evl ≠ .enter) (h3 : s.evl ≠ .exited) : s.hasEvaluator = true := by
    rw [hev]
    cases he : s.evl <;> simp_all [EvalPc.hasEvaluator]
  constructor
  case poller =>
    intro hp
    have hpol : s.pol ≠ .off := by
      intro hoff
      rw [hoff] at hp
      cases hp
    obtain ⟨h1, h2⟩ := hc.poller hpol
    refine hon h1 h2 fun h3 => ?_
    have hexit := hj.joined (by rw [h3]; rfl)
    rw [hexit] at hp
    cases hp
  case eval =>
    intro he
    rw [hev]
    cases hp : s.evl <;> simp_all [EvalPc.usesEvaluator, EvalPc.inPoll, EvalPc.hasEvaluator]
  case net =>
    intro hn
    have hstay : s.net.leaving = false := by
      cases hp : s.net <;> simp_all [NetPc.usesEvaluator, NetPc.leaving]
    have hsd : s.selfDestruct = false := by
      by_contra hsd
      have hleaving := hc.leaving (by simpa using hsd)
      rw [hstay] at hleaving
      cases hleaving
    -- the eval thread is there while the network thread uses the evaluator
    refine hon (fun he => ?_) (fun he => ?_) fun he => ?_
    · have hunused := (hc.unused he).1
      cases hp : s.net <;> simp_all [NetPc.usesEvaluator, NetPc.unused]
    · obtain ⟨l, hl⟩ := hc.entered he
      rw [hl] at hn
      cases hn
    · have hleft := hc.leftLoop (by rw [he]; rfl)
      rw [hsd] at hleft
      cases hleft
  case single =>
    intro hp
    by_contra he
    -- the eval thread polls only when it has joined the poll thread
    have hjoined : s.evl.joined = true := by
      cases hq : s.evl <;> simp_all [EvalPc.inPoll, EvalPc.joined, EvalPc.leftLoop]
    rw [hj.joined hjoined] at hp
    cases hp

theorem goneSafe_of_reach (h : Reach (shellSystem E cfg ready) anyStep s) : GoneSafe E cfg s := by
  have hc := Control.of_reach h
  have hj := Joins.of_reach h
  refine ⟨fun hg a => ?_, fun hg => ?_⟩
  · have hpol : s.pol = .off ∨ s.pol = .exited := by
      rcases hc.gone hg with he | he
      · left
        by_contra hp
        exact (hc.poller hp).1 he
      · exact .inr (hj.joined (by rw [he]; rfl))
    unfold step
    split
    · rfl
    · cases a with
      | line l => simp [evalLine, hg]
      | close => simp [close, hg]
      | unbar => simp [unbar, hg]
      | net => simp [netStep, hg]
      | eval => rcases hc.gone hg with he | he <;> simp [evalLoop, he]
      | work => rcases hc.gone hg with he | he <;> simp [evalWork, he]
      | ret => rcases hc.gone hg with he | he <;> simp [evalReturn, he]
      | poll => rcases hpol with hp | hp <;> simp [pollLoop, hp]
  · refine (hc.gone hg).imp_right fun he => ?_
    exact detached_of_reach h (by rw [he]; rfl)

end Shell

namespace KindShell

open Shell

variable {σ : Type*} {E : GenericEval σ} {cmd : σ → σ} {cfg : ShellConfig} {k : ShellKind}
  {ready : σ → Prop} {s : KindShell σ}

/-- What the threads of a shell, and those that meet it on its socket, can rely on. -/
structure PointersValid (E : GenericEval σ) (cmd : σ → σ) (cfg : ShellConfig) (k : ShellKind)
    (s : KindShell σ) : Prop where
  evaluator : EvaluatorSafe s.base
  final : s.base.net = .gone → ∀ a, s.step E cmd cfg k a = none
  detached : s.base.net = .gone → s.base.evl = .off ∨ s.base.attached = false

theorem valid_of_reach (hk : k ≠ .top) (h : Reach (kindSystem E cmd cfg k ready) anyStep s) :
    PointersValid E cmd cfg k s := by
  have hbase := base_reach hk h
  have hgone := goneSafe_of_reach hbase
  refine ⟨evaluatorSafe_of_reach hbase, fun hg a => ?_, hgone.detached⟩
  have hnone := hgone.final hg
  unfold step
  split
  · rfl
  · rename_i hesc
    cases a with
    | line l => simp [eval, hg]
    | close => simp [close, hg]
    | net =>
      have hnet : s.base.netStep E cfg = none := by simp [Shell.netStep, hg]
      simp [netStep, hg, callStep_of_ne_top hk, hnet]
    | unbar | eval | work | ret | poll => simp [hnone]

/-- The user interrupts a top shell at the end of an evaluation: the eval thread is gone before the
network thread comes to the evaluator. -/
def interruptLate : List Act :=
  List.flatten [[.line (ascii "x"), .net, .eval, .poll], List.replicate 3 .net, [.unbar],
    List.replicate 2 .net, List.replicate 7 .eval, [.ret, .eval, .line [syn]], List.replicate 5 .net,
    List.replicate 2 .eval, List.replicate 15 .poll, List.replicate 9 .eval]

/-- The pointers of a shell are valid wherever they are used, in every run over every evaluator, if
and only if it is no top shell: that one sets `self_destruct` before it interrupts. -/
theorem pointers_valid (k : ShellKind) :
    (∀ (σ : Type) (E : GenericEval σ) (cmd : σ → σ) (cfg : ShellConfig) (ready : σ → Prop)
      (s : KindShell σ), Reach (kindSystem E cmd cfg k ready) anyStep s → PointersValid E cmd cfg k s) ↔
      k ≠ .top := by
  constructor
  · rintro hall rfl
    -- after this run the pointer is null at the call of `interrupt`
    have hx : (exec (kindSystem echoEval id plainConfig .top fun _ => True) (fresh []) interruptLate).map
        (fun s => (s.base.net, s.base.hasEvaluator)) = some (.interrupt, false) := by decide +kernel
    obtain ⟨s, hs, hnet⟩ := Option.map_eq_some_iff.mp hx
    obtain ⟨hnet, hnull⟩ := Prod.mk.inj hnet
    have hsafe := (hall Bytes echoEval id plainConfig (fun _ => True) s
      (reach_of_exec interruptLate ⟨[], trivial, rfl⟩ hs)).evaluator.net
    rw [hnet, hnull] at hsafe
    exact absurd (hsafe rfl) (by simp)
  · intro hk σ E cmd cfg ready s h
    exact valid_of_reach hk h

end KindShell

end CogServer
