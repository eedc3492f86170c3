import CogServer.ShellLines

/-! Lines that a telnet client garbled on their way, and the byte that the shell mutes in them. -/
namespace CogServer

open Telnet LineScan Iac

/-- Two-byte commands. -/
def pairs (cmds : Bytes) : Bytes := cmds.flatMap fun c => [iac, c]

/-- Some text, commands with a break among them, and IAC DO TIMING-MARK. -/
def garble (text before after rest : Bytes) : Bytes :=
  text ++ (pairs (before ++ brk :: after) ++ iac :: doIt :: timingMark :: rest)

/-- A garbled line. The commands begin at the first IAC of the last 20 bytes, and the scan steps
over them; `before` and `after` are those before and after the last break. -/
structure GarbledLine where
  text : Bytes
  before : Bytes
  after : Bytes
  rest : Bytes
  inWindow : (garble text before after rest).length - 20 ≤ text.length
  first : iac ∉ text.drop ((garble text before after rest).length - 20)
  known : ∀ c ∈ before ++ brk :: after, ¬ Known c
  last : brk ∉ after

namespace GarbledLine

def line (g : GarbledLine) : Bytes := garble g.text g.before g.after g.rest

/-- The command bytes that the scan steps over. -/
def cmds (g : GarbledLine) : Bytes := g.before ++ brk :: g.after

/-- Where the last break is. -/
def breakAt (g : GarbledLine) : ℕ := g.text.length + 2 * g.before.length

/-- Where the timing mark is. -/
def markAt (g : GarbledLine) : ℕ := g.text.length + 2 * g.cmds.length

end GarbledLine

theorem length_pairs (cmds : Bytes) : (pairs cmds).length = 2 * cmds.length := by
  induction cmds with
  | nil => rfl
  | cons c cmds ih =>
    rw [pairs, List.flatMap_cons, List.length_append, ← pairs, ih, List.length_cons]
    simp only [List.length_cons, List.length_nil]
    omega

theorem byteAt_pairs (cmds tail : Bytes) {k : ℕ} (hk : k < cmds.length) :
    byteAt (pairs cmds ++ tail) (2 * k) = iac ∧
      byteAt (pairs cmds ++ tail) (2 * k + 1) = byteAt cmds k := by
  induction cmds generalizing k with
  | nil => exact absurd hk (Nat.not_lt_zero k)
  | cons c cmds ih =>
    cases k with
    | zero => exact ⟨rfl, rfl⟩
    | succ k => exact ih (Nat.lt_of_succ_lt_succ hk)

namespace GarbledLine

variable (g : GarbledLine)

theorem drop_text : g.line.drop g.text.length =
    pairs g.cmds ++ iac :: doIt :: timingMark :: g.rest := by
  rw [line, garble, List.drop_left, cmds]

theorem drop_markAt : g.line.drop g.markAt = iac :: doIt :: timingMark :: g.rest := by
  rw [markAt, ← List.drop_drop, drop_text, ← length_pairs, List.drop_left]

theorem markAt_lt : g.markAt + 2 < g.line.length := by
  have hlen := length_of_drop g.drop_markAt (List.cons_ne_nil _ _)
  simp only [List.length_cons] at hlen
  omega

theorem length_cmds : g.cmds.length = g.before.length + g.after.length + 1 := by
  rw [cmds, List.length_append, List.length_cons]
  omega

theorem byteAt_text {k : ℕ} (hk : k < g.text.length) : byteAt g.line k = g.text[k] := by
  rw [byteAt, List.getD_eq_getElem?_getD, line, garble, List.getElem?_append_left hk,
    List.getElem?_eq_getElem hk, Option.getD_some]

theorem byteAt_pair {k : ℕ} (hk : k < g.cmds.length) :
    byteAt g.line (g.text.length + 2 * k) = iac ∧
      byteAt g.line (g.text.length + 2 * k + 1) = byteAt g.cmds k := by
  rw [Nat.add_assoc, byteAt_of_drop g.drop_text, byteAt_of_drop g.drop_text]
  exact byteAt_pairs _ _ hk

theorem byteAt_mark : byteAt g.line g.markAt = iac ∧ byteAt g.line (g.markAt + 1) = doIt ∧
    byteAt g.line (g.markAt + 2) = timingMark := by
  have hdrop := g.drop_markAt
  exact ⟨byteAt_of_drop hdrop 0, byteAt_of_drop hdrop 1, byteAt_of_drop hdrop 2⟩

theorem breakAt_lt : g.breakAt < g.line.length := by
  have hmark := g.markAt_lt
  have hcmds := g.length_cmds
  rw [markAt] at hmark
  rw [breakAt]
  omega

theorem passed {k : ℕ} (hk : k < g.cmds.length) : Passed g.line (g.text.length + 2 * k) := by
  obtain ⟨hiac, hcmd⟩ := g.byteAt_pair hk
  refine ⟨hiac, ?_⟩
  rw [hcmd, byteAt, List.getD_eq_getElem?_getD, List.getElem?_eq_getElem hk, Option.getD_some]
  exact g.known _ (List.getElem_mem hk)

theorem not_passed : ¬ Passed g.line g.markAt := by
  rintro ⟨-, hknown⟩
  rw [g.byteAt_mark.2.1] at hknown
  exact hknown (by decide)

/-- The scan notes the last break. -/
theorem lastBreak_cmds : lastBreak g.line g.text.length g.cmds.length = some g.breakAt := by
  have hlen := g.length_cmds
  have hdrop : g.cmds.drop g.before.length = brk :: g.after := List.drop_left
  refine lastBreak_eq (by omega) ?_ ?_
  · rw [(g.byteAt_pair (by omega)).2]
    exact byteAt_of_drop hdrop 0
  · intro k hk hk' hbrk
    obtain ⟨j, rfl⟩ := Nat.exists_eq_add_of_lt hk
    have hj : j < g.after.length := by omega
    rw [(g.byteAt_pair hk').2, Nat.add_assoc, byteAt_of_drop hdrop, byteAt, List.getD_cons_succ,
      List.getD_eq_getElem?_getD, List.getElem?_eq_getElem hj, Option.getD_some] at hbrk
    exact g.last (hbrk ▸ List.getElem_mem hj)

section Scan

variable (hlen : g.line.length < 2 ^ 31)
include hlen

theorem lastPair_line : lastPair g.line = (g.line.length : ℤ) - 2 :=
  toInt_of_lt (by omega) (by omega)

theorem window_line : window g.line = g.line.length - 20 := by
  rw [window, toInt_of_lt (by omega) (by omega)]
  omega

theorem firstIac_line : firstIac g.line = g.text.length := by
  have hcmds := g.length_cmds
  have hmark := g.markAt_lt
  rw [markAt] at hmark
  obtain ⟨hge, hbefore, hat⟩ := firstIac_spec g.line
  rw [window_line g hlen] at hge hbefore
  have hiac : byteAt g.line g.text.length = iac := (g.byteAt_pair (k := 0) (by omega)).1
  have hle : firstIac g.line ≤ g.text.length := by
    by_contra hlt
    exact hbefore _ g.inWindow (by omega) hiac
  refine hle.antisymm ?_
  -- an IAC before the commands would stand in the window
  by_contra hlt
  have hmem : byteAt g.line (firstIac g.line) ∈ g.text.drop (g.line.length - 20) := by
    rw [g.byteAt_text (by omega), List.mem_drop_iff_getElem]
    exact ⟨firstIac g.line - (g.line.length - 20), by omega, by simp only [Nat.add_sub_cancel' hge]⟩
  rw [hat (by omega)] at hmem
  exact g.first hmem

theorem stopsAt_markAt : StopsAt g.line g.markAt := by
  have hmark := g.markAt_lt
  refine ⟨g.cmds.length, ?_, ?_, g.not_passed, ?_⟩
  · rw [firstIac_line g hlen, markAt]
  · rw [lastPair_line g hlen]
    omega
  · intro k hk
    rw [firstIac_line g hlen]
    exact g.passed hk

/-- What the shell does with a garbled line: the position of the break is cut to a byte. -/
theorem lineDiscipline_garbled (prompt : Bytes) (inputPending : Bool) :
    lineDiscipline prompt inputPending g.line =
      .enqueue [iac, will, timingMark, newline] (g.line.set (g.breakAt % 256) 0) := by
  have hstop := g.stopsAt_markAt hlen
  obtain ⟨fuel, j, hj, hrun⟩ := lineDiscipline_stop prompt inputPending hstop
  rw [firstIac_line g hlen] at hj hrun
  obtain rfl : j = g.cmds.length := by
    rw [markAt] at hj
    omega
  obtain ⟨hiac, hdo, hmark⟩ := g.byteAt_mark
  obtain ⟨-, -, hle, -, -⟩ := hstop
  rw [hrun, scanIac_do fuel _ _ hle hiac hdo, if_pos hmark, g.lastBreak_cmds, Option.elim_some,
    Option.isSome_some, if_pos rfl, Option.getD_some, UInt8.toNat_ofNat']

end Scan

end GarbledLine

/-- The second loop enqueues nothing but the line with one of its first 256 bytes muted. -/
theorem scanIac_enqueue {line prompt ok e : Bytes} {i : ℤ} {fuel m : ℕ} {breakpt : UInt8}
    {gotBreak : Bool} (h : scanIac line i prompt fuel m breakpt gotBreak = some (.enqueue ok e)) :
    ∃ b : UInt8, e = line.set b.toNat 0 := by
  induction fuel generalizing m breakpt gotBreak with
  | zero => cases h
  | succ fuel ih =>
    by_cases hm : (m : ℤ) ≤ i
    · by_cases hp : Passed line m
      · rw [scanIac_pass fuel _ _ hm hp] at h
        exact ih h
      · by_cases hdo : byteAt line m = iac ∧ byteAt line (m + 1) = doIt
        · rw [scanIac_do fuel _ _ hm hdo.1 hdo.2, Option.some.injEq] at h
          split at h
          · split at h <;> cases h
            exact ⟨breakpt, rfl⟩
          · cases h
        · obtain ⟨d, hd, hnot⟩ := scanIac_other prompt fuel breakpt gotBreak hm hp hdo
          exact absurd (Option.some.inj (hd.symm.trans h)) (hnot ok e)
    · rw [scanIac_end _ _ _ (by omega)] at h
      cases h

/-- A line of any length is enqueued with a newline, or with one of its first 256 bytes muted. -/
theorem enqueued_line {line prompt ok e : Bytes} {inputPending : Bool}
    (h : lineDiscipline prompt inputPending line = .enqueue ok e) :
    e = line ++ [newline] ∨ ∃ b : UInt8, e = line.set b.toNat 0 := by
  by_cases hne : line = []
  · subst hne
    cases h
    exact .inl rfl
  · rw [lineDiscipline_eq hne] at h
    cases hscan : scanIac line (lastPair line) prompt (line.length + 1)
      (findIac line (lastPair line) (line.length + 1) (window line)) 0 false with
    | none =>
      rw [hscan, Option.getD_none, asText] at h
      split at h
      · cases h
      · split at h <;> cases h
        exact .inl rfl
    | some d =>
      rw [hscan, Option.getD_some] at h
      exact .inr (scanIac_enqueue (hscan.trans (congrArg some h)))

/-- A garbled line is enqueued with the last break muted, and all else as it is, exactly if the
break is among the first 256 bytes. -/
theorem break_muted (g : GarbledLine) (prompt : Bytes) (inputPending : Bool) :
    (∃ ok, lineDiscipline prompt inputPending g.line = .enqueue ok (g.line.set g.breakAt 0)) ↔
      g.breakAt < 256 := by
  have hlt := g.breakAt_lt
  constructor
  · -- whatever the scan does, also where it reads other positions of a line of 2^31 bytes
    rintro ⟨ok, h⟩
    rcases enqueued_line h with heq | ⟨b, heq⟩
    · have hlen := congrArg List.length heq
      rw [List.length_set, List.length_append, List.length_singleton] at hlen
      omega
    · by_contra hge
      have hne : b.toNat ≠ g.breakAt := by
        have hb := b.toNat_lt
        omega
      -- the other byte is muted, and the break still there
      have hat := congrArg (fun s => byteAt s g.breakAt) heq
      have hiac : byteAt g.line g.breakAt = iac := (g.byteAt_pair (by rw [g.length_cmds]; omega)).1
      simp only [byteAt, List.getD_eq_getElem?_getD, List.getElem?_set_self hlt,
        List.getElem?_set_ne hne] at hat hiac
      rw [hiac] at hat
      exact absurd hat (by decide)
  · intro hp
    have hwindow := g.inWindow
    rw [← GarbledLine.line] at hwindow
    -- such a break stands near the end of the line, so that no `int` position is cut
    have hlen : g.line.length < 2 ^ 31 := by
      rw [GarbledLine.breakAt] at hp
      omega
    have h := g.lineDiscipline_garbled hlen prompt inputPending
    rw [Nat.mod_eq_of_lt hp] at h
    exact ⟨_, h⟩

namespace Shell

variable {σ : Type*} {E : GenericEval σ} {cfg : ShellConfig} {s : Shell σ}

/-- In a shell, too, this is what a garbled line puts into the queue. -/
theorem garbled_enqueued {g : GarbledLine} (hlen : g.line.length < 2 ^ 31)
    (hs : s.net = .discipline g.line) (hcfg : cfg.applyDiscipline = true) :
    s.enqueueWork E cfg = some { s with
      pendingOutput := s.pendingOutput ++ [iac, will, timingMark, newline]
      evalque := s.evalque.pushOrDrop (g.line.set (g.breakAt % 256) 0)
      pushed := if s.evalque.cancelled then s.pushed
        else s.pushed ++ [g.line.set (g.breakAt % 256) 0]
      net := .afterLine } :=
  enqueueWork_of_enqueue hs hcfg (g.lineDiscipline_garbled hlen _ _)

end Shell

/-- A line that breaks off in the middle of a quotation mark, after 256 bytes. -/
def longLine : GarbledLine where
  text := ascii "(Concept \"" ++ List.replicate 244 120 ++ [0xe2, 0x80]
  before := []
  after := []
  rest := []
  inWindow := by decide +kernel
  first := by decide +kernel
  known := List.forall_mem_singleton.mpr (by decide)
  last := List.not_mem_nil

/-- Not the break is muted in this line, but its first byte. -/
theorem break_missed :
    ¬ (∀ (g : GarbledLine) (prompt : Bytes) (inputPending : Bool), ∃ ok,
        lineDiscipline prompt inputPending g.line = .enqueue ok (g.line.set g.breakAt 0)) ∧
      lineDiscipline [] false longLine.line =
        .enqueue [iac, will, timingMark, newline] (longLine.line.set 0 0) := by
  have hfirst : lineDiscipline [] false longLine.line =
      .enqueue [iac, will, timingMark, newline] (longLine.line.set 0 0) := by
    decide +kernel
  refine ⟨fun h => ?_, hfirst⟩
  obtain ⟨ok, hmuted⟩ := h longLine [] false
  have heq := (Discipline.enqueue.inj (hmuted.symm.trans hfirst)).2
  exact absurd heq (by decide +kernel)

end CogServer
