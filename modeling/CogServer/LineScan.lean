import CogServer.TelnetGrammar

/-! Where `line_discipline` finds a telnet command in a line, and which lines it takes as text. -/
namespace CogServer

open Telnet

namespace LineScan

/-- The command bytes at which the second loop of `line_discipline` ends. -/
def Known (c : UInt8) : Prop :=
  c = ip ∨ c = ao ∨ c = susp ∨ c = el ∨ c = ec ∨ c = abrt ∨ c = ayt ∨ c = ga ∨ c = nop ∨ c = teof ∨
    c = doIt ∨ c = will

instance (c : UInt8) : Decidable (Known c) := inferInstanceAs (Decidable (_ ∨ _))

/-- The loop goes on over the two bytes at `m`. -/
def Passed (line : Bytes) (m : ℕ) : Prop := byteAt line m = iac ∧ ¬ Known (byteAt line (m + 1))

instance (line : Bytes) (m : ℕ) : Decidable (Passed line m) := inferInstanceAs (Decidable (_ ∧ _))

/-- The last position at which the loops look. -/
def lastPair (line : Bytes) : ℤ := toInt ((line.length : ℤ) - 2)

/-- The first position at which they look. -/
def window (line : Bytes) : ℕ := (toInt ((line.length : ℤ) - 20)).toNat

/-- The first IAC in the window, or the end of the line. -/
def firstIac (line : Bytes) : ℕ :=
  window line + (line.drop (window line)).findIdx fun c => decide (c = iac)

/-- The loop ends at `m`: it goes in steps of two bytes from the first IAC. -/
def StopsAt (line : Bytes) (m : ℕ) : Prop :=
  ∃ j, m = firstIac line + 2 * j ∧ (m : ℤ) ≤ lastPair line ∧ ¬ Passed line m ∧
    ∀ k < j, Passed line (firstIac line + 2 * k)

variable {line prompt : Bytes} {inputPending : Bool} {i : ℤ} {m : ℕ}

theorem StopsAt.unique {m' : ℕ} (h : StopsAt line m) (h' : StopsAt line m') : m = m' := by
  obtain ⟨j, rfl, -, hstop, hpass⟩ := h
  obtain ⟨j', rfl, -, hstop', hpass'⟩ := h'
  rcases Nat.lt_trichotomy j j' with hlt | rfl | hlt
  · exact absurd (hpass' j hlt) hstop
  · rfl
  · exact absurd (hpass j' hlt) hstop'

/-- Where the loop never ends inside, all pairs are passed. -/
theorem passed_of_not_stopsAt (h : ∀ m, ¬ StopsAt line m) (j : ℕ)
    (hj : ((firstIac line + 2 * j : ℕ) : ℤ) ≤ lastPair line) :
    Passed line (firstIac line + 2 * j) := by
  induction j using Nat.strongRecOn with
  | ind j ih =>
    by_contra hp
    refine h _ ⟨j, rfl, hj, hp, ?_⟩
    intro k hk
    exact ih k hk (by omega)

/-- The first loop goes to the first IAC, if there is one where it looks. -/
theorem findIac_spec (line : Bytes) (i : ℤ) (fuel m : ℕ) (hfuel : i < m + fuel) :
    m ≤ findIac line i fuel m ∧ (∀ p, m ≤ p → p < findIac line i fuel m → byteAt line p ≠ iac) ∧
      ((findIac line i fuel m : ℤ) ≤ i → byteAt line (findIac line i fuel m) = iac) := by
  induction fuel generalizing m with
  | zero =>
    simp only [findIac]
    refine ⟨Nat.le_refl m, ?_, ?_⟩
    · intro p hp hp'
      omega
    · intro h
      omega
  | succ fuel ih =>
    by_cases hm : (m : ℤ) ≤ i
    · by_cases hc : byteAt line m = iac
      · simp only [findIac, hm, hc, ↓reduceIte]
        refine ⟨Nat.le_refl m, ?_, fun _ => trivial⟩
        intro p hp hp'
        omega
      · simp only [findIac, hm, hc, ↓reduceIte]
        obtain ⟨h1, h2, h3⟩ := ih (m + 1) (by omega)
        refine ⟨by omega, ?_, h3⟩
        intro p hp hp'
        by_cases hpm : p = m
        · rw [hpm]
          exact hc
        · exact h2 p (by omega) hp'
    · simp only [findIac, hm, ↓reduceIte]
      refine ⟨Nat.le_refl m, ?_, ?_⟩
      · intro p hp hp'
        omega
      · intro h
        cases h

theorem lastPair_lt (hne : line ≠ []) : lastPair line + 1 < line.length := by
  have hpos := List.length_pos_iff.mpr hne
  by_cases hone : line.length = 1
  · rw [lastPair, hone, toInt_of_lt (by omega) (by omega)]
    omega
  · have hle := toInt_le (n := (line.length : ℤ) - 2) (by omega)
    rw [lastPair]
    omega

theorem firstIac_spec (line : Bytes) :
    window line ≤ firstIac line ∧
      (∀ p, window line ≤ p → p < firstIac line → byteAt line p ≠ iac) ∧
      (firstIac line < line.length → byteAt line (firstIac line) = iac) := by
  have hbyte (k : ℕ) (hk : k < (line.drop (window line)).length) :
      (line.drop (window line))[k] = byteAt line (window line + k) := by
    rw [Iac.byteAt_add, byteAt, List.getD_eq_getElem?_getD, List.getElem?_eq_getElem hk,
      Option.getD_some]
  refine ⟨Nat.le_add_right _ _, ?_, ?_⟩
  · intro p hp hp'
    have hk : p - window line < (line.drop (window line)).findIdx fun c => decide (c = iac) := by
      rw [firstIac] at hp'
      omega
    have hlen := Nat.lt_of_lt_of_le hk List.findIdx_le_length
    have hne := List.not_of_lt_findIdx hk
    rw [hbyte _ hlen, Nat.add_sub_cancel' hp] at hne
    simpa using hne
  · intro hlt
    have hk : ((line.drop (window line)).findIdx fun c => decide (c = iac)) <
        (line.drop (window line)).length := by
      rw [List.length_drop]
      rw [firstIac] at hlt
      omega
    have hat := List.findIdx_getElem (w := hk)
    rw [hbyte _ hk] at hat
    exact of_decide_eq_true hat

/-- The first loop ends at the first IAC, or where the second one does not begin. -/
theorem findIac_eq (hne : line ≠ []) :
    findIac line (lastPair line) (line.length + 1) (window line) = firstIac line ∨
      lastPair line < findIac line (lastPair line) (line.length + 1) (window line) ∧
        lastPair line < firstIac line := by
  have hlt := lastPair_lt hne
  obtain ⟨h1, h2, h3⟩ :=
    findIac_spec line (lastPair line) (line.length + 1) (window line) (by omega)
  obtain ⟨g1, g2, g3⟩ := firstIac_spec line
  generalize findIac line (lastPair line) (line.length + 1) (window line) = r at h1 h2 h3 ⊢
  by_cases hr : (r : ℤ) ≤ lastPair line
  · left
    have hle : firstIac line ≤ r := by
      by_contra hlt'
      exact g2 r h1 (by omega) (h3 hr)
    by_contra hne'
    exact h2 _ g1 (by omega) (g3 (by omega))
  · refine .inr ⟨by omega, ?_⟩
    by_contra hfirst
    exact h2 _ g1 (by omega) (g3 (by omega))

/-- The second loop at two bytes that it passes. -/
theorem scanIac_pass (fuel : ℕ) (breakpt : UInt8) (gotBreak : Bool) (hm : (m : ℤ) ≤ i)
    (h : Passed line m) :
    scanIac line i prompt (fuel + 1) m breakpt gotBreak =
      scanIac line i prompt fuel (m + 2)
        (if byteAt line (m + 1) = brk then UInt8.ofNat m else breakpt)
        (gotBreak || decide (byteAt line (m + 1) = brk)) := by
  obtain ⟨hiac, hknown⟩ := h
  simp only [Known, not_or] at hknown
  obtain ⟨h1, h2, h3, h4, h5, h6, h7, h8, h9, h10, h11, h12⟩ := hknown
  rw [scanIac]
  simp only [hm, hiac, h1, h2, h3, h4, h5, h6, h7, h8, h9, h10, h11, h12, ne_eq, not_true_eq_false,
    or_self, ↓reduceIte]
  by_cases hbrk : byteAt line (m + 1) = brk
  · simp only [hbrk, ↓reduceIte, decide_true, Bool.or_true]
  · simp only [hbrk, ↓reduceIte, decide_false, Bool.or_false]

/-- The last break among the first `j` pairs from `m` on. -/
def lastBreak (line : Bytes) (m : ℕ) : ℕ → Option ℕ
  | 0 => none
  | j + 1 => if byteAt line (m + 2 * j + 1) = brk then some (m + 2 * j) else lastBreak line m j

theorem isSome_lastBreak (line : Bytes) (m j : ℕ) :
    (lastBreak line m j).isSome = true ↔ ∃ k < j, byteAt line (m + 2 * k + 1) = brk := by
  induction j with
  | zero => simp [lastBreak]
  | succ j ih =>
    rw [lastBreak, Nat.exists_lt_succ_right, ← ih]
    by_cases hbrk : byteAt line (m + 2 * j + 1) = brk
    · simp only [hbrk, ↓reduceIte, Option.isSome_some, or_true]
    · simp only [hbrk, ↓reduceIte, or_false]

theorem lastBreak_eq {j k : ℕ} (hk : k < j) (hbrk : byteAt line (m + 2 * k + 1) = brk)
    (hlast : ∀ k', k < k' → k' < j → byteAt line (m + 2 * k' + 1) ≠ brk) :
    lastBreak line m j = some (m + 2 * k) := by
  induction j with
  | zero => exact absurd hk (Nat.not_lt_zero k)
  | succ j ih =>
    by_cases hkj : k = j
    · rw [lastBreak, ← hkj, if_pos hbrk]
    · have hlt : k < j := by omega
      rw [lastBreak, if_neg (hlast j hlt (Nat.lt_succ_self j))]
      exact ih hlt fun k' hk' hj => hlast k' hk' (by omega)

/-- The second loop over some pairs that it passes. -/
theorem scanIac_run (prompt : Bytes) (fuel j : ℕ) (breakpt : UInt8) (gotBreak : Bool)
    (hpass : ∀ k < j, ((m + 2 * k : ℕ) : ℤ) ≤ i ∧ Passed line (m + 2 * k)) :
    scanIac line i prompt (fuel + j) m breakpt gotBreak =
      scanIac line i prompt fuel (m + 2 * j) ((lastBreak line m j).elim breakpt UInt8.ofNat)
        (gotBreak || (lastBreak line m j).isSome) := by
  induction j generalizing fuel with
  | zero =>
    rw [lastBreak, Option.elim_none, Option.isSome_none, Bool.or_false]
    rfl
  | succ j ih =>
    obtain ⟨hle, hp⟩ := hpass j (by omega)
    rw [show fuel + (j + 1) = fuel + 1 + j by omega, ih (fuel + 1) fun k hk => hpass k (by omega),
      scanIac_pass fuel _ _ hle hp, lastBreak]
    by_cases hbrk : byteAt line (m + 2 * j + 1) = brk
    · simp only [hbrk, ↓reduceIte, decide_true, Bool.or_true, Option.elim_some, Option.isSome_some]
      rfl
    · simp only [hbrk, ↓reduceIte, decide_false, Bool.or_false]
      rfl

theorem scanIac_end (fuel : ℕ) (breakpt : UInt8) (gotBreak : Bool) (hm : i < m) :
    scanIac line i prompt fuel m breakpt gotBreak = none := by
  cases fuel with
  | zero => rfl
  | succ fuel => rw [scanIac, if_neg (by omega)]

/-- What `line_discipline` does with a line in which the loop finds nothing. -/
def asText (inputPending : Bool) (expr : Bytes) : Discipline :=
  let c := byteAt expr (expr.length - 1)
  if c = syn ∨ c = can ∨ c = esc then .interrupt []
  else if inputPending = false ∧ (c = eot ∨ expr.length = 1 ∧ byteAt expr 0 = period) then .leave
  else .enqueue [] (expr ++ [newline])

theorem lineDiscipline_eq (hne : line ≠ []) :
    lineDiscipline prompt inputPending line =
      (scanIac line (lastPair line) prompt (line.length + 1)
        (findIac line (lastPair line) (line.length + 1) (window line)) 0 false).getD
        (asText inputPending line) := by
  have hlen : line.length ≠ 0 := fun h => hne (List.length_eq_zero_iff.mp h)
  rw [lineDiscipline]
  simp only [hlen, ↓reduceIte]
  rw [← lastPair, ← window]
  cases scanIac line (lastPair line) prompt (line.length + 1)
    (findIac line (lastPair line) (line.length + 1) (window line)) 0 false <;> rfl

/-- A line in which the loop ends nowhere is text. -/
theorem lineDiscipline_text (hne : line ≠ []) (h : ∀ m, ¬ StopsAt line m) :
    lineDiscipline prompt inputPending line = asText inputPending line := by
  rw [lineDiscipline_eq hne]
  have hlt := lastPair_lt hne
  rcases findIac_eq hne with heq | ⟨hend, -⟩
  · rw [heq]
    by_cases hfirst : (firstIac line : ℤ) ≤ lastPair line
    · -- all pairs are passed
      obtain ⟨j, hj⟩ : ∃ j : ℕ, lastPair line < firstIac line + 2 * j ∧ j ≤ line.length + 1 ∧
          firstIac line + 2 * (j - 1 : ℤ) ≤ lastPair line :=
        ⟨((lastPair line - firstIac line) / 2).toNat + 1, by omega, by omega, by omega⟩
      have hrun := scanIac_run prompt (line.length + 1 - j) j 0 false
        (m := firstIac line) (i := lastPair line) fun k hk =>
          ⟨by omega, passed_of_not_stopsAt h k (by omega)⟩
      rw [Nat.sub_add_cancel hj.2.1] at hrun
      rw [hrun, scanIac_end _ _ _ (by omega)]
      rfl
    · rw [scanIac_end _ _ _ (by omega)]
      rfl
  · rw [scanIac_end _ _ _ hend]
    rfl

/-- A line in which the loop ends at `m`, with what it noted of the breaks before. -/
theorem lineDiscipline_stop (prompt : Bytes) (inputPending : Bool) (h : StopsAt line m) :
    ∃ fuel j : ℕ, m = firstIac line + 2 * j ∧
      lineDiscipline prompt inputPending line =
        (scanIac line (lastPair line) prompt (fuel + 1) m
          ((lastBreak line (firstIac line) j).elim 0 UInt8.ofNat)
          (lastBreak line (firstIac line) j).isSome).getD (asText inputPending line) := by
  obtain ⟨j, rfl, hle, -, hpass⟩ := h
  have hne : line ≠ [] := by
    rintro rfl
    have hlast : lastPair [] = -2 := toInt_of_lt (by decide) (by decide)
    omega
  have hlt := lastPair_lt hne
  have heq := (findIac_eq hne).resolve_right fun hend => by omega
  have hrun := scanIac_run prompt (line.length + 1 - j) j 0 false
    (m := firstIac line) (i := lastPair line) fun k hk => ⟨by omega, hpass k hk⟩
  refine ⟨line.length - j, j, rfl, ?_⟩
  rw [Nat.sub_add_cancel (by omega), Bool.false_or] at hrun
  rw [lineDiscipline_eq hne, heq, hrun, show line.length + 1 - j = line.length - j + 1 by omega]

/-- The second loop at an IAC DO. -/
theorem scanIac_do (fuel : ℕ) (breakpt : UInt8) (gotBreak : Bool) (hm : (m : ℤ) ≤ i)
    (hiac : byteAt line m = iac) (hdo : byteAt line (m + 1) = doIt) :
    scanIac line i prompt (fuel + 1) m breakpt gotBreak = some (
      if byteAt line (m + 2) = timingMark then
        if gotBreak then .enqueue [iac, will, timingMark, newline] (line.set breakpt.toNat 0)
        else .interrupt [iac, will, timingMark, newline]
      else .reply (answerDo (byteAt line (m + 2)))) := by
  have hok : cStr [iac, will, timingMark, newline, 0] = [iac, will, timingMark, newline] := rfl
  rw [scanIac, if_pos hm, hiac, hdo, hok]
  by_cases hmark : byteAt line (m + 2) = timingMark
  · rw [if_pos hmark, hmark]
    cases gotBreak <;> rfl
  · rw [if_neg hmark]
    simp only [hmark, ↓reduceIte]
    rfl

/-- The second loop at an IAC WILL. -/
theorem scanIac_will (fuel : ℕ) (breakpt : UInt8) (gotBreak : Bool) (hm : (m : ℤ) ≤ i)
    (hiac : byteAt line m = iac) (hwill : byteAt line (m + 1) = will) :
    scanIac line i prompt (fuel + 1) m breakpt gotBreak = some (.reply
      (if byteAt line (m + 2) = linemode then [iac, dont, linemode, newline] else [])) := by
  rw [scanIac, if_pos hm, hiac, hwill]
  by_cases hmode : byteAt line (m + 2) = linemode
  · rw [if_pos hmode, hmode]
    rfl
  · rw [if_neg hmode]
    simp only [hmode, ↓reduceIte]
    rfl

/-- The second loop where it ends, but not at an IAC DO. -/
theorem scanIac_other (prompt : Bytes) (fuel : ℕ) (breakpt : UInt8) (gotBreak : Bool)
    (hm : (m : ℤ) ≤ i) (hstop : ¬ Passed line m)
    (hdo : ¬ (byteAt line m = iac ∧ byteAt line (m + 1) = doIt)) : ∃ d,
    scanIac line i prompt (fuel + 1) m breakpt gotBreak = some d ∧ ∀ ok e, d ≠ .enqueue ok e := by
  rw [scanIac, if_pos hm]
  by_cases hiac : byteAt line m = iac
  · have hne : byteAt line (m + 1) ≠ doIt := fun h => hdo ⟨hiac, h⟩
    have hknown : Known (byteAt line (m + 1)) := by
      by_contra hk
      exact hstop ⟨hiac, hk⟩
    simp only [hiac, ne_eq, not_true_eq_false, ↓reduceIte]
    generalize byteAt line (m + 1) = c at hne hknown ⊢
    rcases hknown with rfl | rfl | rfl | rfl | rfl | rfl | rfl | rfl | rfl | rfl | rfl | rfl
    case inr.inr.inr.inr.inr.inr.inr.inr.inr.inr.inl => exact absurd rfl hne
    case inr.inr.inr.inr.inr.inr.inr.inr.inr.inr.inr =>
      by_cases hmode : byteAt line (m + 2) = linemode
      · exact ⟨_, if_pos hmode, nofun⟩
      · exact ⟨_, if_neg hmode, nofun⟩
    all_goals exact ⟨_, rfl, nofun⟩
  · exact ⟨_, if_pos hiac, nofun⟩

/-- A break stands before an IAC DO TIMING-MARK at `m`: the shell takes the line for garbled
UTF-8. -/
def Garbled (line : Bytes) (m : ℕ) : Prop :=
  byteAt line m = iac ∧ byteAt line (m + 1) = doIt ∧ byteAt line (m + 2) = timingMark ∧
    ∃ k, firstIac line + 2 * k < m ∧ byteAt line (firstIac line + 2 * k + 1) = brk

/-- Where the loop ends, the line is enqueued only if it is garbled. -/
theorem enqueues_stop (h : StopsAt line m) :
    (∃ ok e, lineDiscipline prompt inputPending line = .enqueue ok e) ↔ Garbled line m := by
  obtain ⟨fuel, j, hj, hrun⟩ := lineDiscipline_stop prompt inputPending h
  obtain ⟨-, -, hle, hstop, -⟩ := h
  have hg : (lastBreak line (firstIac line) j).isSome = true ↔
      ∃ k, firstIac line + 2 * k < m ∧ byteAt line (firstIac line + 2 * k + 1) = brk := by
    rw [isSome_lastBreak]
    refine exists_congr fun k => and_congr_left fun _ => ?_
    omega
  rw [hrun]
  generalize (lastBreak line (firstIac line) j).elim 0 UInt8.ofNat = b
  generalize (lastBreak line (firstIac line) j).isSome = g at hg ⊢
  by_cases hdo : byteAt line m = iac ∧ byteAt line (m + 1) = doIt
  · rw [scanIac_do fuel b g hle hdo.1 hdo.2, Option.getD_some]
    simp only [Garbled, hdo, true_and, ← hg]
    by_cases hmark : byteAt line (m + 2) = timingMark
    · cases g <;> simp [hmark]
    · simp [hmark]
  · obtain ⟨d, hd, hnot⟩ := scanIac_other prompt fuel b g hle hstop hdo
    rw [hd, Option.getD_some]
    constructor
    · rintro ⟨ok, e, he⟩
      exact absurd he (hnot ok e)
    · rintro ⟨h1, h2, -⟩
      exact absurd ⟨h1, h2⟩ hdo

/-- The last byte of a line makes it an interrupt, or the end of the session. -/
def EndsInControl (inputPending : Bool) (line : Bytes) : Prop :=
  let c := byteAt line (line.length - 1)
  (c = syn ∨ c = can ∨ c = esc) ∨ inputPending = false ∧ c = eot

/-- The shell comes to a command that it knows, or to a byte that is not IAC, in steps of two bytes
from the first IAC of the last 20 bytes; or the last byte decides. -/
def Consumed (inputPending : Bool) (line : Bytes) : Prop :=
  (∃ m, StopsAt line m ∧ ¬ Garbled line m) ∨
    (∀ m, ¬ StopsAt line m) ∧ line ≠ [] ∧ EndsInControl inputPending line

theorem asText_enqueues (h : line.length ≠ 1) :
    (∃ ok e, asText inputPending line = .enqueue ok e) ↔ ¬ EndsInControl inputPending line := by
  simp only [asText, EndsInControl, h, false_and, or_false]
  by_cases h1 : byteAt line (line.length - 1) = syn ∨ byteAt line (line.length - 1) = can ∨
      byteAt line (line.length - 1) = esc
  · rw [if_pos h1]
    simp [h1]
  · by_cases h2 : inputPending = false ∧ byteAt line (line.length - 1) = eot
    · rw [if_neg h1, if_pos h2]
      simp only [reduceCtorEq, exists_false, h2, and_self, or_true, not_true_eq_false]
    · rw [if_neg h1, if_neg h2]
      simp only [h1, h2, or_self, not_false_eq_true, iff_true]
      exact ⟨_, _, rfl⟩

/-- Which lines are enqueued. -/
theorem enqueues_iff (prompt : Bytes) (inputPending : Bool) (h : line.length ≠ 1) :
    (∃ ok e, lineDiscipline prompt inputPending line = .enqueue ok e) ↔
    ¬ Consumed inputPending line := by
  by_cases hstops : ∃ m, StopsAt line m
  · obtain ⟨m, hm⟩ := hstops
    rw [enqueues_stop hm, Consumed]
    constructor
    · rintro hg (⟨m', hm', hnot⟩ | ⟨hnone, -⟩)
      · rw [hm'.unique hm] at hnot
        exact hnot hg
      · exact hnone m hm
    · intro hnot
      by_contra hg
      exact hnot (.inl ⟨m, hm, hg⟩)
  · rw [not_exists] at hstops
    have hfirst : ¬ ∃ m, StopsAt line m ∧ ¬ Garbled line m := by
      rintro ⟨m, hm, -⟩
      exact hstops m hm
    by_cases hne : line = []
    · rw [Consumed, or_iff_right hfirst, hne]
      refine ⟨fun _ hc => hc.2.1 rfl, ?_⟩
      intro _
      exact ⟨[], [newline], rfl⟩
    · rw [lineDiscipline_text hne hstops, asText_enqueues h, Consumed, or_iff_right hfirst]
      simp only [hstops, hne, not_false_eq_true, implies_true, ne_eq, true_and]

/-- A line without IAC is text. -/
theorem not_stopsAt (h : iac ∉ line) (m : ℕ) : ¬ StopsAt line m := by
  rintro ⟨j, rfl, hle, -, -⟩
  have hne : line ≠ [] := by
    rintro rfl
    have hlast : lastPair [] = -2 := toInt_of_lt (by decide) (by decide)
    omega
  have hlt := lastPair_lt hne
  have hfirst := (firstIac_spec line).2.2 (by omega)
  have hmem : byteAt line (firstIac line) ∈ line := by
    rw [byteAt, List.getD_eq_getElem?_getD, List.getElem?_eq_getElem (by omega), Option.getD_some]
    exact List.getElem_mem _
  exact h (hfirst ▸ hmem)

end LineScan

open LineScan Iac

theorem length_encode_ne_one (cmds : List Command) : (encode cmds).length ≠ 1 := by
  cases cmds with
  | nil => decide
  | cons k cmds =>
    have hk := k.length_bytes
    rw [encode_cons, List.length_append]
    omega

end CogServer
