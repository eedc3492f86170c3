import CogServer.ConsoleCounts

/-! A console is there for as long as requests call it, but for the last statement of `shutdown`. -/
namespace CogServer

open Transition Tally

namespace ConsoleUse

variable {κ ρ : Type*} {kind : ρ → RequestKind} {isServerConsole : κ → Bool}
  {s t : ConsoleUse κ ρ}
  {r : ρ} {c : κ}

/-- Only a `shutdown` that comes to its `con->Exit()` calls a console that it does not hold. -/
theorem Counted.outlives_iff (h : Counted kind s) :
    s.Outlives ↔ ∀ r, kind r = .shutdown → s.pc r ≠ .running [.exit] := by
  constructor
  · intro hs r hk hr
    have hfits := h.fits r
    simp only [hr, Fits] at hfits
    obtain ⟨hpoint, -⟩ := hfits
    obtain ⟨c, hc⟩ := Option.isSome_iff_exists.mp ((kind r).points_con _ hpoint (.inr rfl)).1
    have hheld := hs.held r c (by simpa [calls, hr] using hc)
    rw [hk] at hpoint
    have hlate := RequestKind.points_late _ hpoint rfl
    simp [hheld] at hlate
  · intro hlate
    have hheld : ∀ r c, s.calls r = some c → s.console r = some c := by
      intro r c hc
      have hfits := h.fits r
      unfold calls at hc
      split at hc
      -- The statements that go through `_console`.
      · exact hc
      · exact hc
      · exact hc
      · exact hc
      · exact hc
      -- Those that go through `con`.
      all_goals try cases hc
      · rename_i ops hp
        simp only [hp, Fits] at hfits
        obtain ⟨hpoint, hsame⟩ := hfits
        obtain ⟨-, hheld | ⟨-, heq⟩⟩ := (kind r).points_con _ hpoint (.inl rfl)
        · exact (hsame c hc).resolve_left (Option.isSome_iff_ne_none.mp hheld)
        · cases heq
      · rename_i ops hp
        simp only [hp, Fits] at hfits
        obtain ⟨hpoint, hsame⟩ := hfits
        obtain ⟨-, hheld | ⟨hk, heq⟩⟩ := (kind r).points_con _ hpoint (.inr rfl)
        · exact (hsame c hc).resolve_left (Option.isSome_iff_ne_none.mp hheld)
        · exact absurd (heq ▸ hp) (hlate r hk)
    exact ⟨h.counted, hheld, fun r c hc => h.pos (hheld r c hc),
      fun r c hc => (h.alive r c (hheld r c hc)).2⟩

variable [DecidableEq κ] [DecidableEq ρ]

omit [DecidableEq ρ] in
@[simp] theorem pc_handle (s : ConsoleUse κ ρ) (c : κ) (p : ConsoleThread ρ) :
  (s.handle c p).pc = s.pc := rfl

omit [DecidableEq κ] in
@[simp] theorem pc_goto (s : ConsoleUse κ ρ) (r : ρ) (p : RequestPc κ) :
    (s.goto r p).pc = Function.update s.pc r p := rfl

theorem pc_afterSet (s : ConsoleUse κ ρ) (c : κ) (r : ρ) :
    (s.afterSet kind isServerConsole c r).pc = Function.update s.pc r
      (if isServerConsole c then .ready c else .running (kind r).execute) := by
  unfold afterSet
  split <;> rfl

theorem pc_executeOp (s : ConsoleUse κ ρ) (r : ρ) (op : ConsoleOp) (ops : List ConsoleOp) :
    ∃ p, (s.executeOp r ops op).pc = Function.update s.pc r p ∧
      ∀ ops', p = .running ops' → ops' = ops := by
  cases op <;> simp only [executeOp] <;> (try split) <;>
    exact ⟨_, rfl, by intro ops' hp; cases hp; try rfl⟩

theorem pc_run (ht : s.run isServerConsole r = some t) :
    ∃ p, t.pc = Function.update s.pc r p ∧
      ∀ ops, p = .running ops → ∃ op, s.pc r = .running (op :: ops) := by
  unfold ConsoleUse.run at ht
  cases hp : s.pc r with
  | running ops =>
    cases ops with
    | nil =>
      simp only [hp, Option.some.injEq] at ht
      exact ⟨.destroying, ht ▸ rfl, nofun⟩
    | cons op ops =>
      simp only [hp, Option.some.injEq] at ht
      obtain ⟨p, hpc, hops⟩ := s.pc_executeOp r op ops
      exact ⟨p, ht ▸ hpc, fun ops' hp => ⟨op, by rw [hops ops' hp]⟩⟩
  | destroying =>
    simp only [hp] at ht
    cases hc : s.console r with
    | none =>
      simp only [hc, Option.some.injEq] at ht
      exact ⟨.deleted, ht ▸ rfl, nofun⟩
    | some c =>
      simp only [hc, Option.some.injEq] at ht
      subst ht
      refine ⟨_, rfl, ?_⟩
      split <;> exact nofun
  | prompting =>
    simp only [hp, Option.some.injEq] at ht
    exact ⟨.putting, ht ▸ rfl, nofun⟩
  | putting =>
    simp only [hp] at ht
    cases hc : s.console r with
    | none =>
      simp only [hc, Option.some.injEq] at ht
      exact ⟨.threw, ht ▸ rfl, nofun⟩
    | some c =>
      simp only [hc, Option.some.injEq] at ht
      exact ⟨.deleted, ht ▸ rfl, nofun⟩
  | absent | created | ready | queued | deleted | threw => simp [hp] at ht

/-- A request starts to execute, or comes to a statement from the one before. -/
theorem running_step {a : Act κ ρ} {ops : List ConsoleOp}
    (ht : s.step kind isServerConsole a = some t) (hr : t.pc r = .running ops) :
    s.pc r = .running ops ∨ ops = (kind r).execute ∨
      a = .run r ∧ ∃ op, s.pc r = .running (op :: ops) := by
  cases a with
  | run r' =>
    obtain ⟨p, hpc, hops⟩ := pc_run ht
    by_cases hrr : r = r'
    · subst hrr
      rw [hpc, Function.update_self] at hr
      exact .inr (.inr ⟨rfl, hops ops hr⟩)
    · rw [hpc, Function.update_of_ne hrr] at hr
      exact .inl hr
  | _ =>
    simp only [ConsoleUse.step] at ht
    (repeat' split at ht) <;> simp only [Option.some.injEq, reduceCtorEq] at ht <;> subst ht <;>
      simp only [pc_handle, pc_goto, pc_afterSet, ConsoleUse.setConsole,
        Function.update_apply] at hr <;>
      grind

/-- The condition on a step: the use count does not overflow, and no `shutdown` gives its console
back by `set_console(nullptr)`. -/
def inOrder (kind : ρ → RequestKind) (s : ConsoleUse κ ρ) : Act κ ρ → Prop
  | .set c => (s.useCount c).toNat + 1 < 2 ^ 32
  | .run r => kind r = .shutdown → ∀ ops, s.pc r ≠ .running (.clearConsole :: ops)
  | _ => True

omit [DecidableEq κ] [DecidableEq ρ] in
theorem countable_of_inOrder {a : Act κ ρ} (ha : s.inOrder kind a) : s.countable a := by
  cases a with
  | set c => exact ha
  | _ => trivial

/-- The step before the `con->Exit()` of a `shutdown`. -/
theorem Counted.late_step (h : Counted kind s) (hs : s.Outlives) {a : Act κ ρ}
    (ht : s.step kind isServerConsole a = some t) (hk : kind r = .shutdown)
    (hr : t.pc r = .running [.exit]) : a = .run r ∧ s.pc r = .running [.clearConsole, .exit] := by
  rcases running_step ht hr with hr | hr | ⟨ha, op, hr⟩
  · exact absurd hr (h.outlives_iff.mp hs r hk)
  · rw [hk] at hr
    cases hr
  · have hfits := h.fits r
    simp only [hr, Fits, hk] at hfits
    obtain ⟨hclear, hlast⟩ := RequestKind.points_clear _ hfits.1
    exact ⟨ha, hr.trans (congrArg _ (hclear.mp (hlast rfl)))⟩

/-- Past its maximum the count starts again from zero, while the requests are still there. -/
theorem Counted.room (h : Counted kind s) (hr : s.handler c = .made r)
    (hout : ((s.setConsole r c).afterSet kind isServerConsole c r).Outlives) :
    (s.useCount c).toNat + 1 < 2 ^ 32 := by
  have hfits := h.fits r
  simp only [h.made c r hr, Fits] at hfits
  have htally := tally_update (P := fun e => e = some c) (h.finite_console c) r (some c)
  simp only [hfits.1, reduceCtorEq, if_false, if_true, Nat.add_zero] at htally
  have hcount : (Function.update s.useCount c (s.useCount c + 1) c).toNat =
      tally (Function.update s.console r (some c)) fun e => e = some c := by
    have hcounted := hout.counted c
    unfold afterSet at hcounted
    split at hcounted <;> exact hcounted
  have heq := h.counted c
  unfold holders at heq
  rw [Function.update_self, UInt32.toNat_add, htally, ← heq] at hcount
  have hlt := Nat.mod_lt ((s.useCount c).toNat + (1 : UInt32).toNat) (show 0 < 2 ^ 32 by decide)
  omega

theorem Counted.clear (h : Counted kind s) {ops : List ConsoleOp}
    (hr : s.pc r = .running (.clearConsole :: ops)) (ht : s.run isServerConsole r = some t) :
    t.pc r = .running ops := by
  have hfits := h.fits r
  simp only [hr, Fits] at hfits
  obtain ⟨c, hc⟩ := Option.isSome_iff_exists.mp ((kind r).points_console _ hfits.1 (.inr rfl))
  simp only [ConsoleUse.run, hr, ConsoleUse.executeOp, hc, Option.some.injEq] at ht
  subst ht
  simp

/-- A step in order leads no `shutdown` to its last statement. -/
theorem Counted.keeps (h : Counted kind s) (hs : s.Outlives) {a : Act κ ρ} (ha : s.inOrder kind a)
    (ht : s.step kind isServerConsole a = some t) : t.Outlives := by
  apply (h.step (countable_of_inOrder ha) ht).outlives_iff.mpr
  intro r hk hr
  obtain ⟨rfl, hclear⟩ := h.late_step hs ht hk hr
  exact ha hk _ hclear

/-- A step out of order either loses count of the requests, or leads a `shutdown` there. -/
theorem Counted.ordered (h : Counted kind s) {a : Act κ ρ}
    (ht : s.step kind isServerConsole a = some t) (hout : t.Outlives) : s.inOrder kind a := by
  cases a with
  | set c =>
    simp only [ConsoleUse.step] at ht
    cases hh : s.handler c with
    | made r =>
      have hfits := h.fits r
      simp only [h.made c r hh, Fits] at hfits
      simp only [hh, hfits.1, Option.some.injEq] at ht
      subst ht
      exact h.room hh hout
    | _ => simp [hh] at ht
  | run r =>
    intro hk ops hr
    have hfits := h.fits r
    simp only [hr, Fits, hk] at hfits
    have hops := (RequestKind.points_clear _ hfits.1).1.mp rfl
    obtain rfl : ops = [.exit] := (List.cons.inj hops).2
    have hcounted : Counted kind t := h.step (a := .run r) trivial ht
    exact hcounted.outlives_iff.mp hout r hk (h.clear hr ht)
  | _ => trivial

instance (s : ConsoleUse κ ρ) : (a : Act κ ρ) → Decidable (s.countable a)
  | .set _ => inferInstanceAs (Decidable (_ < _))
  | .accept _ | .create _ _ | .push _ | .drained _ | .returned _ | .hangUp _ | .destroy _ =>
    .isTrue trivial
  | .wake _ | .leaveShell _ | .pop | .run _ | .cancelReset => .isTrue trivial

/-- A `list` and an `exit`, after which the console waits until both requests have let it go. -/
def listAndExit : List (Act ℕ ℕ) :=
  [.accept 0, .create 0 0, .set 0, .push 0, .create 0 1, .set 0, .push 0, .hangUp 0, .destroy 0,
    .pop, .run 0, .run 0, .run 0, .run 0, .destroy 0,
    .pop, .run 1, .run 1, .run 1, .destroy 0]

end ConsoleUse

end CogServer
