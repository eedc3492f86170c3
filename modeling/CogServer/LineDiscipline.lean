import Mathlib.Algebra.Group.Nat.Defs
import Mathlib.Algebra.Ring.Int.Defs
import Mathlib.Data.List.Basic
import Mathlib.Data.Int.Init
import Mathlib.Tactic.Common

/-! Bytes as they come off a socket, the telnet command bytes, and the line
discipline of a shell. -/
namespace CogServer

/-- A `std::string`: bytes, not characters. -/
abbrev Bytes := List UInt8

/-- The bytes of an ASCII text. -/
def ascii (s : String) : Bytes := s.toList.map fun c => UInt8.ofNat c.toNat

/-- `operator[]` of a string, which reads a NUL at the end of the string. -/
def byteAt (s : Bytes) (i : ℕ) : UInt8 := s.getD i 0

/-- What a string built from a zero-terminated array holds. -/
def cStr (s : Bytes) : Bytes := s.takeWhile (· ≠ 0)

theorem cStr_append_of_not_mem {s t : Bytes} (h : 0 ∉ s) : cStr (s ++ t) = s ++ cStr t :=
  List.takeWhile_append_of_pos fun _ hc => decide_eq_true fun h0 => h (h0 ▸ hc)

theorem cStr_of_not_mem {s : Bytes} (h : 0 ∉ s) : cStr s = s := by
  have happ := cStr_append_of_not_mem (t := []) h
  rwa [List.append_nil, show cStr [] = [] from rfl, List.append_nil] at happ

theorem cStr_append_of_mem {s t : Bytes} (h : 0 ∈ s) : cStr (s ++ t) = cStr s := by
  induction s with
  | nil => cases h
  | cons c s ih =>
    by_cases hc : c = 0
    · subst hc
      rfl
    · have hs : 0 ∈ s := (List.mem_cons.mp h).resolve_left fun h0 => hc h0.symm
      simp only [cStr, List.cons_append, ne_eq, hc, not_false_eq_true, decide_true,
        List.takeWhile_cons_of_pos] at ih ⊢
      rw [ih hs]

/-- Conversion to a 32-bit `int`. -/
def toInt (n : ℤ) : ℤ := n.bmod (2 ^ 32)

theorem toInt_of_lt {n : ℤ} (hl : -2 ^ 31 ≤ n) (hn : n < 2 ^ 31) : toInt n = n :=
  Int.bmod_eq_of_le (by omega) (by omega)

theorem toInt_emod (n : ℤ) : toInt n % 2 ^ 32 = n % 2 ^ 32 := by
  rw [toInt, show (2 : ℤ) ^ 32 = ((2 ^ 32 : ℕ) : ℤ) by norm_cast]
  exact Int.bmod_emod

theorem toInt_le {n : ℤ} (hn : 0 ≤ n) : toInt n ≤ n := by
  rw [toInt, Int.bmod]
  split <;> omega

namespace Telnet

def iac : UInt8 := 0xff
def teof : UInt8 := 0xec
def susp : UInt8 := 0xed
def abrt : UInt8 := 0xee
def nop : UInt8 := 0xf1
def brk : UInt8 := 0xf3
def ip : UInt8 := 0xf4
def ao : UInt8 := 0xf5
def ayt : UInt8 := 0xf6
def ec : UInt8 := 0xf7
def el : UInt8 := 0xf8
def ga : UInt8 := 0xf9
def will : UInt8 := 0xfb
def wont : UInt8 := 0xfc
def doIt : UInt8 := 0xfd
def dont : UInt8 := 0xfe

def echo : UInt8 := 1
def suppressGoAhead : UInt8 := 3
def timingMark : UInt8 := 6
def linemode : UInt8 := 34

end Telnet

def newline : UInt8 := 10
def eot : UInt8 := 0x4
def syn : UInt8 := 0x16
def can : UInt8 := 0x18
def esc : UInt8 := 0x1b
def period : UInt8 := 46

/-- `ServerSocket::Send` drops empty strings and lonely newlines. -/
def sendable (o : Bytes) : Bool := o ≠ [] && o ≠ [newline]

/-- What `line_discipline` does with a line. -/
inductive Discipline
  /-- `put_output(ok)` when there is something to put, then `enqueue_work(e)`. -/
  | enqueue (ok e : Bytes)
  /-- Set `self_destruct`, cancel the queue and say goodbye. -/
  | leave
  /-- `put_output(ok)` when there is something to put, then `user_interrupt()`. -/
  | interrupt (ok : Bytes)
  /-- `put_output(s)` and nothing else. -/
  | reply (s : Bytes)
  deriving DecidableEq, Repr

open Telnet

/-- The first loop of `line_discipline`: go to the first IAC at or after `m`. -/
def findIac (expr : Bytes) (i : ℤ) : ℕ → ℕ → ℕ
  | 0, m => m
  | fuel + 1, m =>
    if (m : ℤ) ≤ i then
      if byteAt expr m = iac then m else findIac expr i fuel (m + 1)
    else m

/-- The reply to an IAC DO, for any option but TIMING-MARK. -/
def answerDo (a : UInt8) : Bytes :=
  if a = suppressGoAhead then cStr [iac, will, suppressGoAhead, 0]
  else if a = echo then cStr [iac, wont, echo, newline, 0]
  else cStr [iac, wont, a, newline, 0]

/-- The second loop of `line_discipline`. `none` means that the loop ends and
the line is treated as text. `breakpt` is an `unsigned char` in the source. -/
def scanIac (expr : Bytes) (i : ℤ) (prompt : Bytes) :
    ℕ → ℕ → UInt8 → Bool → Option Discipline
  | 0, _, _, _ => none
  | fuel + 1, m, breakpt, gotBreak =>
    if (m : ℤ) ≤ i then
      let c := byteAt expr (m + 1)
      if byteAt expr m ≠ iac then some (.reply prompt)
      else if c = ip ∨ c = ao ∨ c = susp then
        some (.interrupt (cStr [iac, will, timingMark, newline, 0]))
      else if c = el ∨ c = ec ∨ c = abrt ∨ c = ayt ∨ c = ga ∨ c = nop then some (.reply prompt)
      else if c = teof then some .leave
      else if c = brk then scanIac expr i prompt fuel (m + 2) (UInt8.ofNat m) true
      else if c = doIt then
        let a := byteAt expr (m + 2)
        if a = timingMark then
          -- The reply comes first. Then, after a break, the line is garbled UTF-8
          -- and is evaluated with one byte muted; else this is a user interrupt.
          let ok := cStr [iac, will, timingMark, newline, 0]
          if gotBreak then some (.enqueue ok (expr.set breakpt.toNat 0)) else some (.interrupt ok)
        else some (.reply (answerDo a))
      else if c = will then
        if byteAt expr (m + 2) = linemode then
          some (.reply (cStr [iac, dont, linemode, newline, 0]))
        else some (.reply [])
      else scanIac expr i prompt fuel (m + 2) breakpt gotBreak
    else none

/-- `line_discipline`. The arguments are the prompt that `get_prompt()` gives and
the evaluator's `input_pending()`. -/
def lineDiscipline (prompt : Bytes) (inputPending : Bool) (expr : Bytes) : Discipline :=
  let len := expr.length
  if len = 0 then .enqueue [] [newline]
  else
    let i := toInt ((len : ℤ) - 2)
    -- Search for IAC to at most 20 chars from the end of the string.
    let m := findIac expr i (len + 1) (toInt ((len : ℤ) - 20)).toNat
    match scanIac expr i prompt (len + 1) m 0 false with
    | some d => d
    | none =>
      let c := byteAt expr (len - 1)
      if c = syn ∨ c = can ∨ c = esc then .interrupt []
      else if inputPending = false ∧ (c = eot ∨ len = 1 ∧ byteAt expr 0 = period) then .leave
      else .enqueue [] (expr ++ [newline])

example : lineDiscipline [] false (ascii "(+ 2 2)") = .enqueue [] (ascii "(+ 2 2)\n") := by decide
example : lineDiscipline [] false (ascii ".") = .leave := by decide
example : lineDiscipline [] false (ascii "(f " ++ [iac, brk, iac, doIt, timingMark]) =
    .enqueue [iac, will, timingMark, newline] (ascii "(f " ++ [0, brk, iac, doIt, timingMark]) := by
  decide

end CogServer
