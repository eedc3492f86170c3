import CogServer.ConsoleUse

/-! Requests hold the consoles that the use counts count. -/
namespace CogServer

open Transition Tally

namespace ConsoleOp

/-- Whether the request has a console after the statement, and whether `con` is set. -/
def held (h : Bool) : ConsoleOp → Bool
  | .clearConsole => false
  | _ => h

def loaded (l : Bool) : ConsoleOp → Bool
  | .getConsole => true
  | _ => l

/-- The points of a list of statements: what is left, and what the request has there. -/
def points (h l : Bool) : List ConsoleOp → List (List ConsoleOp × Bool × Bool)
  | [] => [([], h, l)]
  | op :: ops => (op :: ops, h, l) :: points (op.held h) (op.loaded l) ops

theorem points_next {op : ConsoleOp} {ops script : List ConsoleOp} {h l h' l' : Bool}
    (hp : (op :: ops, h, l) ∈ points h' l' script) :
    (ops, op.held h, op.loaded l) ∈ points h' l' script := by
  induction script generalizing h' l' with
  | nil => simp [points] at hp
  | cons op' ops' ih =>
    rcases List.mem_cons.mp hp with heq | hp
    · simp only [Prod.mk.injEq, List.cons.injEq] at heq
      obtain ⟨⟨rfl, rfl⟩, rfl, rfl⟩ := heq
      right
      cases ops <;> exact List.mem_cons_self
    · exact List.mem_cons_of_mem _ (ih hp)

end ConsoleOp

namespace RequestKind

/-- The points of `execute`, which starts with a console. -/
def points (k : RequestKind) : List (List ConsoleOp × Bool × Bool) :=
  ConsoleOp.points true false k.execute

theorem points_execute (k : RequestKind) : (k.execute, true, false) ∈ k.points := by
  cases k <;> decide

/-- All but `shutdown` use `con` while they have the console. -/
theorem points_con (k : RequestKind) : ∀ p ∈ k.points,
    p.1.head? = some .setShell ∨ p.1.head? = some .exit →
      p.2.2 = true ∧ (p.2.1 = true ∨ k = .shutdown ∧ p.1 = [.exit]) := by
  cases k <;> decide

theorem points_console (k : RequestKind) : ∀ p ∈ k.points,
    p.1.head? = some .getConsole ∨ p.1.head? = some .clearConsole → p.2.1 = true := by
  cases k <;> decide

/-- `shutdown` comes to its `con->Exit()` without the console. -/
theorem points_late : ∀ p ∈ RequestKind.shutdown.points, p.1 = [.exit] → p.2.1 = false := by
  decide

theorem points_clear : ∀ p ∈ RequestKind.shutdown.points,
    (p.1.head? = some .clearConsole ↔ p.1 = [.clearConsole, .exit]) ∧
      (p.1.tail = [.exit] → p.1.head? = some .clearConsole) := by
  decide

end RequestKind

namespace ConsoleUse

variable {κ ρ : Type*} {kind : ρ → RequestKind} {isServerConsole : κ → Bool}
  {s t : ConsoleUse κ ρ} {r : ρ} {c : κ}

/-- What a request has of a console where it is. -/
def Fits (k : RequestKind) (console con : Option κ) : RequestPc κ → Prop
  | .absent | .created _ => console = none ∧ con = none
  | .ready c => console = some c ∧ con = none
  | .queued => console ≠ none ∧ con = none
  | .running ops => (ops, console.isSome, con.isSome) ∈ k.points ∧
    ∀ c, con = some c → console = none ∨ console = some c
  | .destroying => True
  | .prompting | .putting => console ≠ none
  | .deleted => console = none
  | .threw => False

/-- The requests are where the threads that have them think they are, and the counts are right. -/
structure Counted (kind : ρ → RequestKind) (s : ConsoleUse κ ρ) : Prop where
  finite : {r | s.pc r ≠ .absent}.Finite
  fits : ∀ r, Fits (kind r) (s.console r) (s.con r) (s.pc r)
  made : ∀ c r, s.handler c = .made r → s.pc r = .created c
  pushing : ∀ c r, s.handler c = .pushing r → s.pc r = .ready c
  queued : ∀ r ∈ s.requestQueue.items, s.pc r = .queued
  nodup : s.requestQueue.items.Nodup
  counted : ∀ c, (s.useCount c).toNat = s.holders c
  alive : ∀ r c, s.console r = some c → s.handler c ≠ .absent ∧ s.handler c ≠ .destroyed

theorem counted_start [DecidableEq κ] [DecidableEq ρ] : Counted kind (start : ConsoleUse κ ρ) where
  finite := by simp [start]
  fits r := by simp [start, Fits]
  made c r h := by simp [start] at h
  pushing c r h := by simp [start] at h
  queued r h := by simp [start, CancelQueue.empty] at h
  nodup := by simp [start, CancelQueue.empty]
  counted c := (tally_eq_zero (by simp [start])).symm
  alive r c h := by simp [start] at h

theorem Counted.finite_console (h : Counted kind s) (c : κ) :
    {r | s.console r = some c}.Finite := by
  apply h.finite.subset
  intro r hr habsent
  have hfits := h.fits r
  simp only [Fits, habsent] at hfits
  exact nomatch hfits.1.symm.trans hr

/-- A request that holds a console is counted. -/
theorem Counted.pos (h : Counted kind s) (hr : s.console r = some c) : 0 < s.useCount c := by
  rw [UInt32.lt_iff_toNat_lt, h.counted c]
  exact tally_pos (h.finite_console c) hr

variable [DecidableEq κ] [DecidableEq ρ]

omit [DecidableEq κ] [DecidableEq ρ] in
/-- Nothing depends on the shells, on who may pop, or on whether the queue is cancelled. -/
theorem Counted.same (h : Counted kind s) (shell : κ → Bool) (processing : Option ρ)
    {q : CancelQueue ρ} (hq : q.items = s.requestQueue.items) :
    Counted kind { s with shell := shell, processing := processing, requestQueue := q } where
  finite := h.finite
  fits := h.fits
  made := h.made
  pushing := h.pushing
  queued r hr := h.queued r (hq ▸ hr)
  nodup := hq ▸ h.nodup
  counted := h.counted
  alive := h.alive

omit [DecidableEq ρ] in
/-- The thread of a console goes on. -/
theorem Counted.handle (h : Counted kind s) {p : ConsoleThread ρ}
    (hmade : ∀ r, p = .made r → s.pc r = .created c)
    (hpushing : ∀ r, p = .pushing r → s.pc r = .ready c)
    (halive : p ≠ .absent ∧ p ≠ .destroyed ∨ s.useCount c = 0) : Counted kind (s.handle c p) where
  finite := h.finite
  fits := h.fits
  made c' r hr := by
    by_cases hc : c' = c
    · subst hc
      exact hmade r (by simpa [ConsoleUse.handle] using hr)
    · exact h.made c' r (by simpa [ConsoleUse.handle, hc] using hr)
  pushing c' r hr := by
    by_cases hc : c' = c
    · subst hc
      exact hpushing r (by simpa [ConsoleUse.handle] using hr)
    · exact h.pushing c' r (by simpa [ConsoleUse.handle, hc] using hr)
  queued := h.queued
  nodup := h.nodup
  counted := h.counted
  alive r c' hr := by
    by_cases hc : c' = c
    · subst hc
      rcases halive with halive | hzero
      · simpa [ConsoleUse.handle] using halive
      · have hpos := h.pos hr
        rw [hzero] at hpos
        exact absurd hpos (by decide)
    · simpa [ConsoleUse.handle, hc] using h.alive r c' hr

/-- No handler and no queue has the request in its hands. -/
structure Free (s : ConsoleUse κ ρ) (r : ρ) : Prop where
  made : ∀ c, s.handler c ≠ .made r
  pushing : ∀ c, s.handler c ≠ .pushing r
  queued : r ∉ s.requestQueue.items

omit [DecidableEq κ] [DecidableEq ρ] in
theorem Counted.free (h : Counted kind s) (hcreated : ∀ c, s.pc r ≠ .created c)
    (hready : ∀ c, s.pc r ≠ .ready c) (hqueued : s.pc r ≠ .queued) : s.Free r where
  made c hc := hcreated c (h.made c r hc)
  pushing c hc := hready c (h.pushing c r hc)
  queued hr := hqueued (h.queued r hr)

/-- A request goes on that nobody else has; the use counts follow its console. -/
theorem Counted.exchange (h : Counted kind s) (hr : s.Free r) {p : RequestPc κ} {d : Option κ}
    {con : ρ → Option κ} {useCount : κ → UInt32} (hcon : ∀ r', r' ≠ r → con r' = s.con r')
    (hp : Fits (kind r) d (con r) p)
    (hcounted : ∀ c, (useCount c).toNat + (if s.console r = some c then 1 else 0) =
      (s.useCount c).toNat + if d = some c then 1 else 0)
    (halive : ∀ c, d = some c → s.handler c ≠ .absent ∧ s.handler c ≠ .destroyed) :
    Counted kind
      ({ s with
        useCount := useCount
        console := Function.update s.console r d
        con := con }.goto r p) where
  finite := finite_update (P := fun q : RequestPc κ => q ≠ .absent) h.finite r p
  fits r' := by
    by_cases hrr : r' = r
    · subst hrr
      simpa [ConsoleUse.goto] using hp
    · simpa [ConsoleUse.goto, hrr, hcon r' hrr] using h.fits r'
  made c r' hr' := by
    have hrr : r' ≠ r := fun heq => hr.made c (heq ▸ hr')
    simpa [ConsoleUse.goto, hrr] using h.made c r' hr'
  pushing c r' hr' := by
    have hrr : r' ≠ r := fun heq => hr.pushing c (heq ▸ hr')
    simpa [ConsoleUse.goto, hrr] using h.pushing c r' hr'
  queued r' hr' := by
    have hrr : r' ≠ r := fun heq => hr.queued (heq ▸ hr')
    simpa [ConsoleUse.goto, hrr] using h.queued r' hr'
  nodup := h.nodup
  counted c := by
    have htally := tally_update (P := fun e => e = some c) (h.finite_console c) r d
    have hcount := hcounted c
    have heq := h.counted c
    unfold holders at heq
    change (useCount c).toNat = tally (Function.update s.console r d) fun e => e = some c
    omega
  alive r' c hr' := by
    by_cases hrr : r' = r
    · subst hrr
      exact halive c (by simpa [ConsoleUse.goto] using hr')
    · exact h.alive r' c (by simpa [ConsoleUse.goto, hrr] using hr')

/-- A request that keeps its console goes on. -/
theorem Counted.goto (h : Counted kind s) (hr : s.Free r) {p : RequestPc κ} {con : ρ → Option κ}
    (hcon : ∀ r', r' ≠ r → con r' = s.con r') (hp : Fits (kind r) (s.console r) (con r) p) :
    Counted kind ({ s with con := con }.goto r p) := by
  have hsame := h.exchange hr (d := s.console r) hcon hp (fun _ => rfl) (fun c hc => h.alive r c hc)
  rwa [Function.update_eq_self] at hsame

/-- A request gives its console back and goes on. -/
theorem Counted.put (h : Counted kind s) (hr : s.Free r) (hc : s.console r = some c)
    {p : RequestPc κ} (hp : Fits (kind r) none (s.con r) p) :
    Counted kind ((s.put r c).goto r p) := by
  have hpos : 1 ≤ (s.useCount c).toNat := UInt32.lt_iff_toNat_lt.mp (h.pos hc)
  have halive := h.alive r c hc
  -- The destructor is woken up, which changes nothing for the requests.
  have hmade : ∀ r', (s.handler c).notified = .made r' → s.handler c = .made r' := by
    cases s.handler c <;> simp [ConsoleThread.notified]
  have hpushing : ∀ r', (s.handler c).notified = .pushing r' → s.handler c = .pushing r' := by
    cases s.handler c <;> simp [ConsoleThread.notified]
  have hwoken : Counted kind (s.handle c (s.handler c).notified) := by
    apply h.handle (fun r' hr' => h.made c r' (hmade r' hr'))
      (fun r' hr' => h.pushing c r' (hpushing r' hr'))
    left
    cases hh : s.handler c <;> simp_all [ConsoleThread.notified]
  have hfree : (s.handle c (s.handler c).notified).Free r := by
    refine ⟨?_, ?_, hr.queued⟩
    · intro c' hc'
      by_cases hcc : c' = c
      · subst hcc
        exact hr.made c' (hmade r (by simpa [ConsoleUse.handle] using hc'))
      · exact hr.made c' (by simpa [ConsoleUse.handle, hcc] using hc')
    · intro c' hc'
      by_cases hcc : c' = c
      · subst hcc
        exact hr.pushing c' (hpushing r (by simpa [ConsoleUse.handle] using hc'))
      · exact hr.pushing c' (by simpa [ConsoleUse.handle, hcc] using hc')
  apply hwoken.exchange hfree (fun _ _ => rfl) hp
  · intro c'
    simp only [ConsoleUse.handle, hc, Option.some.injEq, reduceCtorEq, if_false]
    by_cases hcc : c' = c
    · subst hcc
      rw [Function.update_self, UInt32.toNat_sub_of_le _ _
        (UInt32.le_iff_toNat_le.mpr (by simpa using hpos)), if_pos rfl]
      change (s.useCount c').toNat - 1 + 1 = _
      omega
    · rw [Function.update_of_ne hcc, if_neg (Ne.symm hcc)]
  · exact nofun

omit [DecidableEq ρ] in
/-- A thread lets its request go. -/
theorem Counted.release (h : Counted kind s) (hr : s.handler c = .made r ∨ s.handler c = .pushing r)
    {p : ConsoleThread ρ} (hmade : ∀ r', p ≠ .made r') (hpushing : ∀ r', p ≠ .pushing r')
    (halive : p ≠ .absent ∧ p ≠ .destroyed) :
    Counted kind (s.handle c p) ∧ (s.handle c p).Free r := by
  have hlet : Counted kind (s.handle c p) :=
    h.handle (fun r' hp => absurd hp (hmade r')) (fun r' hp => absurd hp (hpushing r'))
      (.inl halive)
  have hplace : s.pc r = .created c ∨ s.pc r = .ready c := hr.imp (h.made c r) (h.pushing c r)
  refine ⟨hlet, ?_, ?_, ?_⟩
  · intro c' hc'
    have hcc : c' = c := by
      have hcreated := hlet.made c' r hc'
      rcases hplace with hplace | hplace
      · exact RequestPc.created.inj (hcreated.symm.trans hplace)
      · exact nomatch hcreated.symm.trans hplace
    subst hcc
    exact hmade r (by simpa [ConsoleUse.handle] using hc')
  · intro c' hc'
    have hcc : c' = c := by
      have hready := hlet.pushing c' r hc'
      rcases hplace with hplace | hplace
      · exact nomatch hready.symm.trans hplace
      · exact RequestPc.ready.inj (hready.symm.trans hplace)
    subst hcc
    exact hpushing r (by simpa [ConsoleUse.handle] using hc')
  · intro hr'
    have hqueued := hlet.queued r hr'
    rcases hplace with hplace | hplace <;> exact nomatch hqueued.symm.trans hplace

/-- `set_console(this)`, where the count does not overflow. -/
theorem Counted.set (h : Counted kind s) (hr : s.handler c = .made r)
    (hmax : (s.useCount c).toNat + 1 < 2 ^ 32) :
    Counted kind ((s.setConsole r c).afterSet kind isServerConsole c r) := by
  have hcreated := h.made c r hr
  have hfits := h.fits r
  simp only [hcreated, Fits] at hfits
  obtain ⟨hconsole, hcon⟩ := hfits
  -- The thread lets go of the request, which takes the console, and goes on with it.
  obtain ⟨hlet, hfree⟩ := h.release (.inl hr) (p := .reading) nofun nofun ⟨nofun, nofun⟩
  have htaken : ∀ p, Fits (kind r) (some c) none p →
      Counted kind (((s.handle c .reading).setConsole r c).goto r p) := by
    intro p hp
    apply hlet.exchange hfree (fun _ _ => rfl)
    · change Fits (kind r) (some c) (s.con r) p
      rw [hcon]
      exact hp
    · intro c'
      simp only [ConsoleUse.handle, hconsole, Option.some.injEq, reduceCtorEq, if_false]
      by_cases hcc : c' = c
      · subst hcc
        rw [Function.update_self, UInt32.toNat_add, if_pos rfl]
        exact Nat.mod_eq_of_lt hmax
      · rw [Function.update_of_ne hcc, if_neg (Ne.symm hcc)]
    · intro c' hc'
      obtain rfl := Option.some.inj hc'
      simp [ConsoleUse.handle]
  unfold afterSet
  split
  · have hready := (htaken (.ready c) ⟨rfl, rfl⟩).handle (c := c) (p := .pushing r) nofun
      (fun r' hr' => by simp [ConsoleUse.goto, ConsoleThread.pushing.inj hr']) (.inl ⟨nofun, nofun⟩)
    simpa [ConsoleUse.goto, ConsoleUse.handle, ConsoleUse.setConsole] using hready
  · have hrunning := (htaken (.running (kind r).execute) ⟨(kind r).points_execute, nofun⟩).handle
      (c := c) (p := .executing r) nofun nofun (.inl ⟨nofun, nofun⟩)
    simpa [ConsoleUse.goto, ConsoleUse.handle, ConsoleUse.setConsole] using hrunning

theorem Counted.executeOp (h : Counted kind s) {op : ConsoleOp} {ops : List ConsoleOp}
    (hr : s.pc r = .running (op :: ops)) : Counted kind (s.executeOp r ops op) := by
  have hfree : s.Free r := h.free (by simp [hr]) (by simp [hr]) (by simp [hr])
  have hfits := h.fits r
  simp only [hr, Fits] at hfits
  obtain ⟨hpoint, hsame⟩ := hfits
  have hnext := ConsoleOp.points_next hpoint
  cases op with
  | send =>
    apply h.goto hfree (fun _ _ => rfl)
    exact ⟨hnext, hsame⟩
  | stop =>
    have hgoto : Counted kind (s.goto r (.running ops)) :=
      h.goto hfree (fun _ _ => rfl) ⟨hnext, hsame⟩
    exact hgoto.same s.shell s.processing rfl
  | getConsole =>
    obtain ⟨c, hc⟩ := Option.isSome_iff_exists.mp ((kind r).points_console _ hpoint (.inl rfl))
    simp only [ConsoleUse.executeOp, hc]
    apply h.goto hfree (fun r' hr' => Function.update_of_ne hr' _ _)
    rw [Function.update_self]
    exact ⟨hnext, fun c' hc' => .inr (hc.trans hc')⟩
  | setShell =>
    obtain ⟨c, hc⟩ := Option.isSome_iff_exists.mp ((kind r).points_con _ hpoint (.inl rfl)).1
    simp only [ConsoleUse.executeOp, hc]
    have hgoto : Counted kind (s.goto r (.running ops)) :=
      h.goto hfree (fun _ _ => rfl) ⟨hnext, hsame⟩
    exact hgoto.same _ s.processing rfl
  | exit =>
    obtain ⟨c, hc⟩ := Option.isSome_iff_exists.mp ((kind r).points_con _ hpoint (.inr rfl)).1
    simp only [ConsoleUse.executeOp, hc]
    apply h.goto hfree (fun _ _ => rfl)
    exact ⟨hnext, hsame⟩
  | clearConsole =>
    obtain ⟨c, hc⟩ := Option.isSome_iff_exists.mp ((kind r).points_console _ hpoint (.inr rfl))
    simp only [ConsoleUse.executeOp, hc]
    apply h.put hfree hc
    exact ⟨hnext, fun _ _ => .inl rfl⟩

theorem Counted.run (h : Counted kind s) (ht : s.run isServerConsole r = some t) :
    Counted kind t := by
  unfold ConsoleUse.run at ht
  have hfits := h.fits r
  have hfree : s.Free r := by
    apply h.free <;> intros <;> intro hp <;> simp [hp] at ht
  cases hp : s.pc r with
  | running ops =>
    cases ops with
    | nil =>
      simp only [hp, Option.some.injEq] at ht
      subst ht
      exact h.goto hfree (fun _ _ => rfl) trivial
    | cons op ops =>
      simp only [hp, Option.some.injEq] at ht
      subst ht
      exact h.executeOp hp
  | destroying =>
    simp only [hp] at ht
    cases hc : s.console r with
    | none =>
      simp only [hc, Option.some.injEq] at ht
      subst ht
      have hgoto : Counted kind (s.goto r .deleted) := h.goto hfree (fun _ _ => rfl) hc
      exact hgoto.same s.shell _ rfl
    | some c =>
      simp only [hc, Option.some.injEq] at ht
      subst ht
      apply h.goto hfree (fun _ _ => rfl)
      split <;> simp [Fits, hc]
  | prompting =>
    simp only [hp, Fits] at hfits
    simp only [hp, Option.some.injEq] at ht
    subst ht
    exact h.goto hfree (fun _ _ => rfl) hfits
  | putting =>
    simp only [hp, Fits] at hfits
    obtain ⟨c, hc⟩ := Option.ne_none_iff_exists'.mp hfits
    simp only [hp, hc, Option.some.injEq] at ht
    subst ht
    have hput : Counted kind ((s.put r c).goto r .deleted) := h.put hfree hc rfl
    exact hput.same s.shell _ rfl
  | absent | created | ready | queued | deleted | threw => simp [hp] at ht

/-- `pushRequest` -/
theorem Counted.push (h : Counted kind s) (hr : s.handler c = .pushing r) {q : CancelQueue ρ}
    (hq : s.requestQueue.push r = some q) :
    Counted kind (({ s with requestQueue := q }.goto r .queued).handle c
      (if (kind r).isShell then .draining else .reading)) := by
  obtain ⟨-, rfl⟩ := CancelQueue.push_eq_some.mp hq
  have hready := h.pushing c r hr
  have hfits := h.fits r
  simp only [hready, Fits] at hfits
  obtain ⟨hconsole, hcon⟩ := hfits
  generalize hp : (if (kind r).isShell then ConsoleThread.draining else .reading : ConsoleThread ρ) = p
  have hp : p = .draining ∨ p = .reading := by
    rw [← hp]
    split
    · exact .inl rfl
    · exact .inr rfl
  obtain ⟨hlet, hfree⟩ := h.release (.inr hr) (p := p) (by rcases hp with rfl | rfl <;> exact nofun)
    (by rcases hp with rfl | rfl <;> exact nofun)
    (by rcases hp with rfl | rfl <;> exact ⟨nofun, nofun⟩)
  have hgoto : Counted kind ((s.handle c p).goto r .queued) := by
    apply hlet.goto hfree (fun _ _ => rfl)
    exact ⟨Option.ne_none_iff_exists'.mpr ⟨c, hconsole⟩, hcon⟩
  -- The request is in the queue now, where it was not before.
  refine ⟨hgoto.finite, hgoto.fits, hgoto.made, hgoto.pushing, ?_, ?_, hgoto.counted, hgoto.alive⟩
  · intro r' hr'
    rcases List.mem_append.mp hr' with hr' | hr'
    · exact hgoto.queued r' hr'
    · obtain rfl := List.mem_singleton.mp hr'
      simp [ConsoleUse.goto, ConsoleUse.handle]
  · exact List.nodup_append.mpr ⟨h.nodup, List.nodup_singleton r, by
      intro x hx y hy hxy
      exact hfree.queued (List.mem_singleton.mp hy ▸ hxy ▸ hx)⟩

/-- `popRequest` -/
theorem Counted.pop (h : Counted kind s) {q : CancelQueue ρ} (hq : s.requestQueue.pop = .item r q) :
    Counted kind ({ s with requestQueue := q, processing := some r }.goto r
      (.running (kind r).execute)) := by
  obtain ⟨-, hitems, -⟩ := CancelQueue.pop_eq_item.mp hq
  have hnodup := h.nodup
  rw [hitems, List.nodup_cons] at hnodup
  have hqueued := h.queued r (hitems ▸ List.mem_cons_self)
  have hfits := h.fits r
  simp only [hqueued, Fits] at hfits
  have hrest : Counted kind { s with requestQueue := q } := by
    refine ⟨h.finite, h.fits, h.made, h.pushing, ?_, hnodup.2, h.counted, h.alive⟩
    exact fun r' hr' => h.queued r' (hitems ▸ List.mem_cons_of_mem r hr')
  have hfree : Free { s with requestQueue := q } r := by
    refine ⟨?_, ?_, hnodup.1⟩
    · exact fun c hc => nomatch (h.made c r hc).symm.trans hqueued
    · exact fun c hc => nomatch (h.pushing c r hc).symm.trans hqueued
  have hgoto : Counted kind ({ s with requestQueue := q }.goto r (.running (kind r).execute)) := by
    apply hrest.goto hfree (fun _ _ => rfl)
    obtain ⟨c, hc⟩ := Option.ne_none_iff_exists'.mp hfits.1
    change Fits (kind r) (s.console r) (s.con r) _
    rw [hc, hfits.2]
    exact ⟨(kind r).points_execute, nofun⟩
  exact hgoto.same s.shell (some r) rfl

/-- A use count has room for one more. -/
def countable (s : ConsoleUse κ ρ) : Act κ ρ → Prop
  | .set c => (s.useCount c).toNat + 1 < 2 ^ 32
  | _ => True

theorem Counted.step (h : Counted kind s) {a : Act κ ρ} (ha : s.countable a)
    (ht : s.step kind isServerConsole a = some t) : Counted kind t := by
  cases a with
  | accept c =>
    obtain ⟨-, rfl⟩ : _ ∧ _ = t := by simpa [ConsoleUse.step] using ht
    exact h.handle nofun nofun (.inl ⟨nofun, nofun⟩)
  | create c r =>
    obtain ⟨⟨-, hr⟩, rfl⟩ : _ ∧ _ = t := by
      simpa only [ConsoleUse.step, Option.ite_none_right_eq_some, Option.some.injEq] using ht
    have hfits := h.fits r
    simp only [hr, Fits] at hfits
    have hfree : s.Free r := h.free (by simp [hr]) (by simp [hr]) (by simp [hr])
    have hgoto : Counted kind (s.goto r (.created c)) := by
      apply h.goto hfree (fun _ _ => rfl)
      exact hfits
    apply hgoto.handle
    · intro r' hr'
      obtain rfl := ConsoleThread.made.inj hr'
      simp [ConsoleUse.goto]
    · exact nofun
    · exact .inl ⟨nofun, nofun⟩
  | set c =>
    simp only [ConsoleUse.step] at ht
    cases hh : s.handler c with
    | made r =>
      have hfits := h.fits r
      simp only [h.made c r hh, Fits] at hfits
      simp only [hh, hfits.1, Option.some.injEq] at ht
      subst ht
      exact h.set hh ha
    | _ => simp [hh] at ht
  | push c =>
    simp only [ConsoleUse.step] at ht
    cases hh : s.handler c with
    | pushing r =>
      simp only [hh] at ht
      cases hq : s.requestQueue.push r with
      | some q =>
        simp only [hq, Option.some.injEq] at ht
        subst ht
        exact h.push hh hq
      | none =>
        simp only [hq, Option.some.injEq] at ht
        subst ht
        exact h.handle nofun nofun (.inl ⟨nofun, nofun⟩)
    | _ => simp [hh] at ht
  | drained c =>
    simp only [ConsoleUse.step] at ht
    split at ht
    · split at ht
      · obtain rfl := Option.some.inj ht
        exact h.handle nofun nofun (.inl ⟨nofun, nofun⟩)
      · obtain ⟨-, rfl⟩ : _ ∧ _ = t := by simpa using ht
        exact h.handle nofun nofun (.inl ⟨nofun, nofun⟩)
    · cases ht
  | returned c =>
    simp only [ConsoleUse.step] at ht
    cases hh : s.handler c with
    | executing r =>
      obtain ⟨-, rfl⟩ : _ ∧ _ = t := by simpa [hh] using ht
      exact h.handle nofun nofun (.inl ⟨nofun, nofun⟩)
    | _ => simp [hh] at ht
  | hangUp c =>
    have hclose : Counted kind (s.handle c .closing) := h.handle nofun nofun (.inl ⟨nofun, nofun⟩)
    simp only [ConsoleUse.step] at ht
    cases hh : s.handler c with
    | reading =>
      simp only [hh, Option.some.injEq] at ht
      exact ht ▸ hclose
    | made r =>
      obtain ⟨-, rfl⟩ : _ ∧ _ = t := by simpa [hh] using ht
      exact hclose
    | _ => simp [hh] at ht
  | destroy c =>
    simp only [ConsoleUse.step] at ht
    split at ht
    · split at ht
      · rename_i hzero
        obtain rfl := Option.some.inj ht
        have hdone : Counted kind (s.handle c .destroyed) := h.handle nofun nofun (.inr hzero)
        exact hdone.same _ s.processing rfl
      · obtain rfl := Option.some.inj ht
        exact h.handle nofun nofun (.inl ⟨nofun, nofun⟩)
    · cases ht
  | wake c =>
    obtain ⟨-, rfl⟩ : _ ∧ _ = t := by simpa [ConsoleUse.step] using ht
    exact h.handle nofun nofun (.inl ⟨nofun, nofun⟩)
  | leaveShell c =>
    obtain ⟨-, rfl⟩ : _ ∧ _ = t := by simpa [ConsoleUse.step] using ht
    exact h.same _ s.processing rfl
  | pop =>
    simp only [ConsoleUse.step] at ht
    split at ht
    · rename_i r q hp hq
      obtain rfl := Option.some.inj ht
      exact h.pop hq
    · cases ht
  | run r => exact h.run ht
  | cancelReset =>
    obtain rfl := Option.some.inj ht
    exact h.same s.shell s.processing rfl

/-- The counts in every run. -/
theorem counted_of_reach (hs : Reach (consoleSystem kind isServerConsole) countable s) :
    Counted kind s := by
  refine hs.invariant (Counted kind) ?_ ?_
  · rintro s rfl
    exact counted_start
  · exact fun s a t _ h ha ht => h.step ha ht

end ConsoleUse

end CogServer
