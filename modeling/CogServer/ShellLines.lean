import CogServer.LineScan
import CogServer.Shell

/-! Lines of text, and what a shell does with them. -/
namespace CogServer

open Telnet LineScan

/-- A line that the shell takes for text: no telnet command, no control byte at the end, and not the
single period. -/
structure PlainText (line : Bytes) : Prop where
  noIac : iac ∉ line
  ends : ∀ c ∈ line.getLast?, c ≠ syn ∧ c ≠ can ∧ c ≠ esc ∧ c ≠ eot
  noPeriod : line ≠ [period]

theorem asText_of_ends {inputPending : Bool} {line : Bytes} (hne : line ≠ [])
    (hend : ∀ c ∈ line.getLast?, c ≠ syn ∧ c ≠ can ∧ c ≠ esc ∧ c ≠ eot) (hdot : line ≠ [period]) :
    asText inputPending line = .enqueue [] (line ++ [newline]) := by
  have hlast : byteAt line (line.length - 1) ∈ line.getLast? := by
    rw [List.getLast?_eq_getElem?, byteAt, List.getD_eq_getElem?_getD]
    have hlen := List.length_pos_iff.mpr hne
    rw [List.getElem?_eq_getElem (by omega)]
    rfl
  obtain ⟨hsyn, hcan, hesc, heot⟩ := hend _ hlast
  have hone : ¬ (line.length = 1 ∧ byteAt line 0 = period) := by
    rintro ⟨hlen, hperiod⟩
    obtain ⟨c, rfl⟩ := List.length_eq_one_iff.mp hlen
    exact hdot (congrArg (fun c => [c]) hperiod)
  have hleave : ¬ (inputPending = false ∧ (byteAt line (line.length - 1) = eot ∨
      line.length = 1 ∧ byteAt line 0 = period)) :=
    fun h => h.2.elim heot hone
  rw [asText, if_neg (by simp only [hsyn, hcan, hesc, or_self, not_false_eq_true]), if_neg hleave]

theorem PlainText.lineDiscipline {line : Bytes} (h : PlainText line) (prompt : Bytes)
    (inputPending : Bool) :
    lineDiscipline prompt inputPending line = .enqueue [] (line ++ [newline]) := by
  by_cases hne : line = []
  · subst hne
    rfl
  · rw [lineDiscipline_text hne (not_stopsAt h.noIac), asText_of_ends hne h.ends h.noPeriod]

/-- The bytes of a text in UTF-8. -/
def utf8 (text : List Char) : Bytes := text.flatMap String.utf8EncodeChar

theorem ofNat_ne_iac {n : ℕ} (h : n < 255) : UInt8.ofNat n ≠ iac := by
  intro heq
  have hn := congrArg UInt8.toNat heq
  rw [UInt8.toNat_ofNat', Nat.mod_eq_of_lt (by omega)] at hn
  exact absurd (hn.trans (show iac.toNat = 255 from rfl)) (by omega)

/-- No byte of UTF-8 is IAC. -/
theorem iac_not_mem_utf8 (text : List Char) : iac ∉ utf8 text := by
  intro h
  obtain ⟨c, -, hc⟩ := List.mem_flatMap.mp h
  have hbytes : ∀ b ∈ String.utf8EncodeChar c, ∃ n < 255, b = UInt8.ofNat n := by
    simp only [String.utf8EncodeChar]
    split_ifs <;>
      simp only [List.forall_mem_cons, List.not_mem_nil, false_implies, implies_true, and_true]
    · exact ⟨_, by omega, rfl⟩
    · exact ⟨⟨_, by omega, rfl⟩, ⟨_, by omega, rfl⟩⟩
    · exact ⟨⟨_, by omega, rfl⟩, ⟨_, by omega, rfl⟩, ⟨_, by omega, rfl⟩⟩
    · exact ⟨⟨_, by omega, rfl⟩, ⟨_, by omega, rfl⟩, ⟨_, by omega, rfl⟩, ⟨_, by omega, rfl⟩⟩
  obtain ⟨n, hn, heq⟩ := hbytes iac hc
  exact ofNat_ne_iac hn heq.symm

namespace Shell

variable {σ : Type*} {E : GenericEval σ} {cfg : ShellConfig} {s : Shell σ}

/-- What is left of a call of `eval` for an expression to enqueue, when no other thread comes in
between. -/
def enqueueWork (E : GenericEval σ) (cfg : ShellConfig) (s : Shell σ) : Option (Shell σ) :=
  (((s.netStep E cfg).bind (netStep E cfg)).bind unbar).bind (netStep E cfg)

theorem enqueueWork_of_enqueue {ok e l : Bytes} (hs : s.net = .discipline l)
    (hcfg : cfg.applyDiscipline = true)
    (h : lineDiscipline (s.getPrompt E cfg) (E.inputPending s.evaluator) l = .enqueue ok e) :
    s.enqueueWork E cfg = some { s with
      pendingOutput := s.pendingOutput ++ ok
      evalque := s.evalque.pushOrDrop e
      pushed := if s.evalque.cancelled then s.pushed else s.pushed ++ [e]
      net := .afterLine } := by
  simp only [enqueueWork, netStep, hs, hcfg, h, ↓reduceIte, Option.bind_some, putOutput, unbar]

/-- A line of text, whatever the state of the evaluator, is enqueued as one expression, the line and
a newline; no output is put, nothing is interrupted and the shell goes on. -/
theorem text_enqueued {line : Bytes} (hiac : iac ∉ line)
    (hend : ∀ c ∈ line.getLast?, c ≠ syn ∧ c ≠ can ∧ c ≠ esc ∧ c ≠ eot) (hdot : line ≠ [period]) :
    (∀ prompt inputPending,
        lineDiscipline prompt inputPending line = .enqueue [] (line ++ [newline])) ∧
      ∀ (E : GenericEval σ) (cfg : ShellConfig) (s : Shell σ), s.net = .discipline line →
        cfg.applyDiscipline = true →
        s.enqueueWork E cfg = some { s with
          evalque := s.evalque.pushOrDrop (line ++ [newline])
          pushed := if s.evalque.cancelled then s.pushed else s.pushed ++ [line ++ [newline]]
          net := .afterLine } := by
  have h : PlainText line := ⟨hiac, hend, hdot⟩
  refine ⟨h.lineDiscipline, ?_⟩
  intro E cfg s hs hcfg
  rw [enqueueWork_of_enqueue hs hcfg (h.lineDiscipline _ _), List.append_nil]

/-- A text in UTF-8, in a shell that has its evaluator. -/
theorem text_enqueued_utf8 :
    lineDiscipline [] true (utf8 ['é', '.']) = .enqueue [] (utf8 ['é', '.'] ++ [newline]) :=
  (text_enqueued (σ := Unit) (iac_not_mem_utf8 _) (by decide +kernel) (by decide +kernel)).1 [] true

end Shell

end CogServer
