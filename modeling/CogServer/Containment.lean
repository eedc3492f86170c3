import CogServer.ShellProgress
import CogServer.HttpConnection

/-! Where exceptions of the evaluator end: in the two loops of `eval_loop`, and in
the evaluation of an HTTP request. -/
namespace CogServer

open Transition

variable {σ : Type*} {E : GenericEval σ} {idle : σ → Prop} {backlog : σ → ℕ}

/-- The same evaluator, were it to throw no more. -/
def GenericEval.quiet (E : GenericEval σ) : GenericEval σ := { E with throws := fun _ _ => false }

/-- The request that is not yet passed to `eval_expr`. -/
def HttpPc.held : HttpPc → List Bytes
  | .beginEval b | .call b => [b]
  | _ => []

/-- The request that `eval_expr` is working on. -/
def HttpPc.current : HttpPc → List Bytes
  | .running b => [b]
  | _ => []

namespace HttpConnection

variable {ct : Bytes} {s t : HttpConnection σ}

/-- An `eval_expr` that ends now ends without an exception. -/
def endsWell (E : GenericEval σ) (s : HttpConnection σ) (a : Act σ) : Prop :=
  a = .ret → ∀ b, s.pc = .running b → E.throws b s.evaluator = false

/-- Every request is evaluated once, and no exception leaves the thread. -/
structure Contained (s : HttpConnection σ) : Prop where
  escaped : s.escaped = false
  received : s.received = s.passed ++ s.pc.held
  ended : s.passed = s.ended ++ s.pc.current

theorem contained_step {a : Act σ} (hs : Contained s) (hw : endsWell E s a)
    (h : s.step E ct a = some t) : Contained t := by
  obtain ⟨h0, h1, h2⟩ := hs
  simp only [step, h0, Bool.false_eq_true, ↓reduceIte] at h
  cases a with
  | turn x =>
    cases x <;> simp only [handleTurn] at h <;> split at h <;> cases h <;> rename_i hp
    case header.isTrue.refl => exact ⟨h0, h1, h2⟩
    all_goals rw [hp] at h1 h2
    case request.isTrue.refl b v =>
      refine ⟨h0, ?_, h2⟩
      simpa [HttpPc.held] using h1
    case systemError.isTrue.refl ends => cases ends <;> exact ⟨h0, h1, h2⟩
    case silent.isTrue.refl => exact ⟨h0, h1, h2⟩
  | step =>
    cases hp : s.pc <;> simp only [onLine, hp, reduceCtorEq, Option.some.injEq] at h <;>
      rw [hp] at h1 h2
    case beginEval b =>
      subst h
      exact ⟨h0, h1, h2⟩
    case call b =>
      subst h
      exact ⟨h0, by simpa [HttpPc.held] using h1, by simpa [HttpPc.current] using h2⟩
    case pollResult r =>
      obtain ⟨x, -, rfl⟩ := Option.map_eq_some_iff.mp h
      by_cases hx : x.1 = [] <;> simp only [hx, ↓reduceIte] <;> exact ⟨h0, h1, h2⟩
    case reply r =>
      subst h
      exact ⟨h0, h1, h2⟩
  | work =>
    cases hp : s.pc <;> simp only [evalWork, hp, reduceCtorEq, Option.some.injEq] at h
    subst h
    rw [hp] at h1 h2
    exact ⟨h0, h1, h2⟩
  | ret =>
    cases hp : s.pc <;> simp only [evalReturn, hp, reduceCtorEq] at h
    case running b =>
      rw [hw rfl b hp] at h
      cases h
      rw [hp] at h1 h2
      exact ⟨h0, h1, by simpa [HttpPc.current] using h2⟩

theorem Contained.of_reach (h : Reach (httpSystem E ct) (endsWell E) s) : Contained s := by
  refine h.invariant Contained ?_ fun _ _ _ _ hs hc ht => contained_step hs hc ht
  rintro _ ⟨v, rfl⟩
  exact ⟨rfl, rfl, rfl⟩

/-- The thread itself, and nothing that the client does. -/
def own (_ : HttpConnection σ) (a : Act σ) : Prop := a = .step ∨ a = .ret

/-- Once `eval_expr` is done, its results are collected and sent. -/
theorem results_collected (ct : Bytes) (hT : Terminating E.quiet idle backlog) {r : Bytes}
    (hp : s.pc = .pollResult r) (hi : idle s.evaluator) (he : s.escaped = false) :
    ∃ t, Path (httpSystem E.quiet ct) own s t ∧ t.pc = .read := by
  refine (Path.progress (fun s => s.escaped = false ∧ ((∃ r, s.pc = .pollResult r ∧ idle s.evaluator) ∨
      (∃ r, s.pc = .reply r) ∨ s.pc = .read)) (fun s => s.pc = .read)
    (fun s => match s.pc with | .pollResult _ => backlog s.evaluator + 2 | .reply _ => 1 | _ => 0)
    ?_ s ⟨he, .inl ⟨r, hp, hi⟩⟩).imp fun t ht => ⟨ht.1, ht.2.2⟩
  rintro s ⟨he, ⟨r, hp, hi⟩ | ⟨r, hp⟩ | hp⟩ hg
  · obtain ⟨x, w, hx, hw, hle, hlt⟩ := hT.pollResult _ hi
    have hstep : (httpSystem E.quiet ct).step s .step = some { s with
        evaluator := w, pc := if x = [] then .reply r else .pollResult (r ++ x) } := by
      simp [httpSystem, step, he, onLine, hp, hx]
    by_cases h0 : x = []
    · simp only [h0, ↓reduceIte] at hstep
      exact ⟨_, .single (.inl rfl) hstep, ⟨he, .inr (.inl ⟨r, rfl⟩)⟩, by simp [hp]⟩
    · simp only [h0, ↓reduceIte] at hstep
      refine ⟨_, .single (.inl rfl) hstep, ⟨he, .inl ⟨_, rfl, hw⟩⟩, ?_⟩
      have := hlt h0
      simp only [hp]
      omega
  · have hstep : (httpSystem E.quiet ct).step s .step = some { s with
        sent := if r = [] then s.sent else s.sent ++ [withHeader r ct], pc := .read } := by
      simp [httpSystem, step, he, onLine, hp]
    exact ⟨_, .single (.inl rfl) hstep, ⟨he, .inr (.inr rfl)⟩, by simp [hp]⟩
  · exact absurd hp hg

/-- While results are collected the evaluator is idle. -/
theorem idle_of_reach (hT : Terminating E.quiet idle backlog) {C : HttpConnection σ → Act σ → Prop}
    (h : Reach (httpSystem E ct) C s) : ∀ r, s.pc = .pollResult r → idle s.evaluator := by
  refine h.invariant (fun s => ∀ r, s.pc = .pollResult r → idle s.evaluator) ?_ ?_
  · rintro _ ⟨v, rfl⟩ r hr
    cases hr
  · intro s a t _ hi _ h r hr
    simp only [httpSystem, step] at h
    split at h
    · cases h
    cases a with
    | turn x =>
      cases x <;> simp only [handleTurn] at h <;> split at h <;> cases h <;> rename_i hp
      case header.isTrue.refl => simp [hp] at hr
      case systemError.isTrue.refl =>
        dsimp only at hr
        split at hr <;> cases hr
      all_goals cases hr
    | step =>
      cases hp : s.pc <;> simp only [onLine, hp, reduceCtorEq, Option.some.injEq] at h
      case pollResult r' =>
        obtain ⟨x, hx, rfl⟩ := Option.map_eq_some_iff.mp h
        obtain ⟨y, w, hy, hw, -⟩ := hT.pollResult _ (hi r' hp)
        obtain rfl : (y, w) = x := Option.some.inj (hy.symm.trans hx)
        exact hw
      all_goals
        subst h
        cases hr
    | work =>
      cases hp : s.pc <;> simp only [evalWork, hp, reduceCtorEq, Option.some.injEq] at h
      subst h
      cases hr
    | ret =>
      cases hp : s.pc <;> simp only [evalReturn, hp, reduceCtorEq] at h
      split at h <;> cases h
      · cases hr
      · exact hT.evalExpr _ _

theorem http_finishes (hT : Terminating E.quiet idle backlog)
    (h : Reach (httpSystem E ct) (endsWell E) s) :
    ∃ t, Path (httpSystem E.quiet ct) own s t ∧ (t.pc = .read ∨ t.pc = .closed) := by
  have hs := Contained.of_reach h
  have he := hs.escaped
  have hrunning (u : HttpConnection σ) (b : Bytes) (hu : u.escaped = false) (hp : u.pc = .running b) :
      ∃ t, Path (httpSystem E.quiet ct) own u t ∧ t.pc = .read := by
    have hstep : (httpSystem E.quiet ct).step u .ret = some { u with
        evaluator := E.evalExpr b u.evaluator, ended := u.ended ++ [b], pc := .pollResult [] } := by
      simp [httpSystem, step, hu, evalReturn, hp, GenericEval.quiet]
    obtain ⟨t, ht, hr⟩ := results_collected ct hT (s := { u with
      evaluator := E.evalExpr b u.evaluator, ended := u.ended ++ [b], pc := .pollResult [] }) rfl
      (hT.evalExpr _ _) hu
    exact ⟨t, .head (.inr rfl) hstep ht, hr⟩
  have hcall (u : HttpConnection σ) (b : Bytes) (hu : u.escaped = false) (hp : u.pc = .call b) :
      ∃ t, Path (httpSystem E.quiet ct) own u t ∧ t.pc = .read := by
    have hstep : (httpSystem E.quiet ct).step u .step =
        some { u with passed := u.passed ++ [b], pc := .running b } := by
      simp [httpSystem, step, hu, onLine, hp]
    obtain ⟨t, ht, hr⟩ := hrunning { u with passed := u.passed ++ [b], pc := .running b } b hu rfl
    exact ⟨t, .head (.inl rfl) hstep ht, hr⟩
  cases hp : s.pc with
  | read => exact ⟨s, .refl s, .inl hp⟩
  | closed => exact ⟨s, .refl s, .inr hp⟩
  | beginEval b =>
    have hstep : (httpSystem E.quiet ct).step s .step =
        some { s with evaluator := E.beginEval s.evaluator, pc := .call b } := by
      simp [httpSystem, step, he, onLine, hp, GenericEval.quiet]
    obtain ⟨t, ht, hr⟩ :=
      hcall { s with evaluator := E.beginEval s.evaluator, pc := .call b } b he rfl
    exact ⟨t, .head (.inl rfl) hstep ht, .inl hr⟩
  | call b => exact (hcall s b he hp).imp fun t ht => ⟨ht.1, .inl ht.2⟩
  | running b => exact (hrunning s b he hp).imp fun t ht => ⟨ht.1, .inl ht.2⟩
  | pollResult r =>
    exact (results_collected ct hT hp (idle_of_reach hT h r hp) he).imp fun t ht => ⟨ht.1, .inl ht.2⟩
  | reply r =>
    have hstep : (httpSystem E.quiet ct).step s .step = some { s with
        sent := if r = [] then s.sent else s.sent ++ [withHeader r ct], pc := .read } := by
      simp [httpSystem, step, he, onLine, hp]
    exact ⟨_, .single (.inl rfl) hstep, .inl rfl⟩

/-- Left alone, a connection evaluates the request that it has. -/
theorem http_settles (hT : Terminating E.quiet idle backlog)
    (h : Reach (httpSystem E ct) (endsWell E) s) :
    ∃ t, Path (httpSystem E.quiet ct) own s t ∧ t.ended = t.received := by
  obtain ⟨t, hp, ht⟩ := http_finishes hT h
  refine ⟨t, hp, ?_⟩
  have hc : Contained t := hp.invariant Contained
    (fun _ _ _ hs _ hv => contained_step hs (fun _ _ _ => rfl) hv) (.of_reach h)
  rw [hc.received, hc.ended]
  rcases ht with ht | ht <;> simp [ht, HttpPc.held, HttpPc.current]

end HttpConnection

namespace Shell

variable {cfg : ShellConfig} {R : σ → Prop} {s t : Shell σ}

/-- Every expression that was queued is evaluated once, unless an interrupt
discarded it; no exception leaves a thread; and only its holder unlocks the mutex. -/
structure Contained (s : Shell σ) : Prop where
  escaped : s.escaped = false
  strayUnlock : s.strayUnlock = false
  taken : expressions s.pushed = s.removed.map Prod.fst ++ expressions s.evalque.items
  popped : (s.removed.filter Prod.snd).map Prod.fst = s.passed ++ s.evl.held
  ended : s.passed = s.ended ++ s.evl.current
  gone : s.net = .gone → expressions s.pushed = s.removed.map Prod.fst ∧
    s.ended = (s.removed.filter Prod.snd).map Prod.fst

theorem Contained.of_reach (h : Reach (shellSystem E cfg R) (endsWell E) s) : Contained s := by
  have hc := Control.of_reach h
  have hl := Ledger.of_reach h
  have hm := Mutex.of_reach (fun _ _ hw => hw) h
  have hended := hl.ended hm.escaped
  refine ⟨hm.escaped, hm.strayUnlock, hl.taken, hl.popped, hended, fun hg => ?_⟩
  obtain ⟨hheld, hcurrent, hitems, -⟩ := hc.nothing_left hg
  have h1 := hl.taken
  have h2 := hl.popped
  rw [hitems, List.append_nil] at h1
  rw [hheld, List.append_nil, hended, hcurrent, List.append_nil] at h2
  exact ⟨h1, h2.symm⟩

/-- A run without exceptions is a run of the evaluator that throws none. -/
theorem step_quiet {a : Act} (hw : endsWell E s a) (h : step E cfg s a = some t) :
    step E.quiet cfg s a = some t := by
  cases a with
  | ret =>
    simp only [step] at h ⊢
    split at h
    · cases h
    rename_i he
    simp only [he]
    cases hp : s.evl <;> simp only [evalReturn, hp, reduceCtorEq] at h ⊢
    case running d e =>
      rw [hw rfl d e hp] at h
      exact h
  | line | close | unbar | net | eval | work | poll => exact h

theorem reach_quiet {C : Shell σ → Act → Prop}
    (h : Reach (shellSystem E cfg R) (fun s a => endsWell E s a ∧ C s a) s) :
    Reach (shellSystem E.quiet cfg R) C s := by
  induction h with
  | init hi => exact .init hi
  | step _ hc ht ih => exact .step ih hc.2 (step_quiet hc.1 ht)

end Shell

/-- While no `eval_expr` throws, evaluation is contained at all three places; and
what is queued does get evaluated, when the evaluations end and nobody interrupts. -/
theorem evaluation_contained {cfg : ShellConfig} {ct : Bytes} {R : σ → Prop} {s : Shell σ}
    {c : HttpConnection σ} (hs : Reach (shellSystem E cfg R) (Shell.endsWell E) s)
    (hc : Reach (httpSystem E ct) (HttpConnection.endsWell E) c) :
    s.Contained ∧ c.Contained ∧
      (Terminating E.quiet R backlog →
        (Reach (shellSystem E cfg R) (fun s a => Shell.endsWell E s a ∧ Shell.calm cfg s a) s →
          ∃ t, Path (shellSystem E.quiet cfg R) Shell.server s t ∧ (t.net = .idle ∨ t.net = .gone) ∧
            t.passed = expressions t.pushed) ∧
        ∃ d, Path (httpSystem E.quiet ct) HttpConnection.own c d ∧ d.ended = d.received) :=
  ⟨.of_reach hs, .of_reach hc, fun hT =>
    ⟨fun hr => Shell.shell_settles hT (Shell.reach_quiet hr), HttpConnection.http_settles hT hc⟩⟩

/-- An exception breaks containment wherever it is thrown: the process dies, or
`_poll_mtx` is unlocked by a thread that does not hold it. -/
theorem throw_not_contained {cfg : ShellConfig} {s : Shell σ} {d : Phase} {e : Bytes}
    (he : s.escaped = false) (hr : s.evl = .running d e) (ht : E.throws e s.evaluator = true) :
    ∃ as t, (∀ a ∈ as, a = .ret ∨ a = .eval) ∧
      exec (shellSystem E cfg fun _ => True) s as = some t ∧ ¬ t.Contained := by
  cases d with
  | serving =>
    refine ⟨[.ret, .eval, .eval], _, by simp, by
      simp [exec, shellSystem, Shell.step, Shell.evalReturn, Shell.evalLoop, Shell.finishEval, he,
        hr, ht]
      rfl, fun h => ?_⟩
    simpa using h.strayUnlock
  | draining =>
    refine ⟨[.ret], _, by simp, by
      simp [exec, shellSystem, Shell.step, Shell.evalReturn, he, hr, ht]
      rfl, fun h => ?_⟩
    simpa using h.escaped

/-- An evaluator that rejects an open parenthesis. -/
def faultyEval : GenericEval Bytes := { Shell.echoEval with throws := fun e _ => e.head? = some 40 }

/-- One request, up to the end of its `eval_expr`. -/
def oneRequest (b : Bytes) : List (HttpConnection.Act Bytes) :=
  [.turn .header, .turn (.request b []), .step, .step, .ret]

theorem evaluation_contained_echo : ∃ (s : Shell Bytes) (c : HttpConnection Bytes),
    s.net = .gone ∧ s.ended = [ascii "x\n"] ∧ s.Contained ∧ c.Contained := by
  have hx : (exec (shellSystem faultyEval Shell.plainConfig fun _ => True) (Shell.fresh [])
      Shell.leaveAtOnce).map (fun t => (t.net, t.ended)) = some (.gone, [ascii "x\n"]) := by decide +kernel
  obtain ⟨s, hs, h⟩ := Option.map_eq_some_iff.mp hx
  obtain ⟨c, hc⟩ := Option.isSome_iff_exists.mp (show (exec (httpSystem faultyEval [])
    (HttpConnection.opened []) (oneRequest [120])).isSome = true by decide +kernel)
  have hrs : Reach (shellSystem faultyEval Shell.plainConfig fun _ => True) (Shell.endsWell faultyEval) s := by
    refine Reach.of_exec (fun s _ => s.evl.current.all fun e => !faultyEval.throws e s.evaluator) ?_
      (.init ⟨[], trivial, rfl⟩) (by decide +kernel) hs
    rintro s a ha rfl d e he
    simpa [he, EvalPc.current] using ha
  have hrc : Reach (httpSystem faultyEval []) (HttpConnection.endsWell faultyEval) c := by
    refine Reach.of_exec (fun s _ => s.pc.current.all fun b => !faultyEval.throws b s.evaluator) ?_
      (.init ⟨[], rfl⟩) (by decide +kernel) hc
    rintro s a ha rfl b hb
    simpa [hb, HttpPc.current] using ha
  obtain ⟨h1, h2, -⟩ := @evaluation_contained _ _ (fun _ => 0) _ _ _ _ _ hrs hrc
  exact ⟨s, c, (Prod.mk.inj h).1, (Prod.mk.inj h).2, h1, h2⟩

/-- The first loop unlocks a mutex that its thread does not hold; in the second
loop and on an HTTP connection the exception kills the process. -/
theorem evaluation_contained_fails :
    (∃ s, Reach (shellSystem faultyEval Shell.plainConfig fun _ => True) anyStep s ∧
      s.strayUnlock = true ∧ ¬ s.Contained) ∧
    (∃ s, Reach (shellSystem faultyEval Shell.plainConfig fun _ => True) anyStep s ∧
      s.escaped = true ∧ ¬ s.Contained) ∧
    ∃ c, Reach (httpSystem faultyEval []) anyStep c ∧ c.escaped = true ∧ ¬ c.Contained := by
  refine ⟨?_, ?_, ?_⟩
  · have hx : (exec (shellSystem faultyEval Shell.plainConfig fun _ => True) (Shell.fresh [])
        (List.flatten [[.line (ascii "("), .eval, .poll], List.replicate 3 .net, [.unbar, .net],
          List.replicate 7 .eval, [.ret, .eval, .eval]])).map Shell.strayUnlock = some true := by
      decide +kernel
    obtain ⟨s, hs, h⟩ := Option.map_eq_some_iff.mp hx
    exact ⟨s, reach_of_exec _ ⟨[], trivial, rfl⟩ hs, h, fun hc => by simp [hc.strayUnlock] at h⟩
  · have hx : (exec (shellSystem faultyEval Shell.plainConfig fun _ => True) (Shell.fresh [])
        (List.flatten [[.line (ascii "(")], List.replicate 3 .eval, [.poll], List.replicate 3 .net,
          [.unbar], List.replicate 2 .net, [.line (ascii ".")], List.replicate 9 .net, List.replicate 2 .eval,
          List.replicate 8 .poll, List.replicate 11 .eval, [.ret]])).map Shell.escaped = some true := by
      decide +kernel
    obtain ⟨s, hs, h⟩ := Option.map_eq_some_iff.mp hx
    exact ⟨s, reach_of_exec _ ⟨[], trivial, rfl⟩ hs, h, fun hc => by simp [hc.escaped] at h⟩
  · have hx : (exec (httpSystem faultyEval []) (HttpConnection.opened []) (oneRequest [40])).map
        HttpConnection.escaped = some true := by decide +kernel
    obtain ⟨c, hc, h⟩ := Option.map_eq_some_iff.mp hx
    exact ⟨c, reach_of_exec _ ⟨[], rfl⟩ hc, h, fun hc => by simp [hc.escaped] at h⟩

end CogServer
