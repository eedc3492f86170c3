import CogServer.ServerConsole
import Mathlib.Data.Nat.Digits.Defs

/-! Decimal numbers in texts, as the C library reads them. -/
namespace CogServer

/-- `isspace` -/
def isSpace (c : UInt8) : Bool := c = blank || (9 ≤ c && c ≤ 13)

/-- `isdigit` -/
def isDigit (c : UInt8) : Bool := 48 ≤ c && c ≤ 57

def digitsValue (s : Bytes) : ℕ := s.foldl (fun v c => 10 * v + (c.toNat - 48)) 0

/-- An optional sign, and what follows it. -/
def scanSign : Bytes → Bool × Bytes
  | c :: s => if c = 45 then (true, s) else if c = 43 then (false, s) else (false, c :: s)
  | [] => (false, [])

/-- The digits of a number, as a client writes them. -/
def decimal (N : ℕ) : Bytes := (Nat.digits 10 N).reverse.map fun d => UInt8.ofNat (48 + d)

theorem digit_toNat {d : ℕ} (hd : d < 10) : (UInt8.ofNat (48 + d)).toNat = 48 + d := by
  rw [UInt8.toNat_ofNat']
  omega

theorem isDigit_ofNat {d : ℕ} (hd : d < 10) : isDigit (UInt8.ofNat (48 + d)) = true := by
  simp only [isDigit, Bool.and_eq_true, decide_eq_true_eq, UInt8.le_iff_toNat_le, digit_toNat hd]
  simp
  omega

theorem decimal_digits (N : ℕ) : ∀ c ∈ decimal N, isDigit c = true := by
  intro c hc
  obtain ⟨d, hd, rfl⟩ := List.mem_map.mp hc
  exact isDigit_ofNat (Nat.digits_lt_base (by omega) (List.mem_reverse.mp hd))

theorem decimal_ne_nil {N : ℕ} (h : 1 ≤ N) : decimal N ≠ [] := by
  simp only [decimal, ne_eq, List.map_eq_nil_iff, List.reverse_eq_nil_iff,
    Nat.digits_eq_nil_iff_eq_zero]
  omega

theorem digitsValue_decimal (N : ℕ) : digitsValue (decimal N) = N := by
  have hfold (ds : List ℕ) (h : ∀ d ∈ ds, d < 10) :
      ds.foldr (fun d v => 10 * v + ((UInt8.ofNat (48 + d)).toNat - 48)) 0 = Nat.ofDigits 10 ds := by
    induction ds with
    | nil => rfl
    | cons d ds ih =>
      rw [List.foldr_cons, ih fun e he => h e (List.mem_cons_of_mem _ he), Nat.ofDigits_cons,
        digit_toNat (h d List.mem_cons_self)]
      omega
  calc digitsValue (decimal N)
      = (Nat.digits 10 N).foldr (fun d v => 10 * v + ((UInt8.ofNat (48 + d)).toNat - 48)) 0 := by
        simp only [digitsValue, decimal, List.foldl_map, List.foldl_reverse]
    _ = Nat.ofDigits 10 (Nat.digits 10 N) := hfold _ fun d hd => Nat.digits_lt_base (by omega) hd
    _ = N := Nat.ofDigits_digits 10 N

theorem isDigit_range {c : UInt8} (h : isDigit c = true) : 48 ≤ c.toNat ∧ c.toNat ≤ 57 := by
  simpa [isDigit, UInt8.le_iff_toNat_le] using h

theorem ne_of_isDigit {c d : UInt8} (h : isDigit c = true) (hd : d.toNat < 48) : c ≠ d := by
  rintro rfl
  have := isDigit_range h
  omega

theorem isSpace_of_isDigit {c : UInt8} (h : isDigit c = true) : isSpace c = false := by
  have := isDigit_range h
  simp only [isSpace, Bool.or_eq_false_iff, decide_eq_false_iff_not, Bool.and_eq_false_iff]
  refine ⟨ne_of_isDigit h (by decide), .inr ?_⟩
  rw [UInt8.le_iff_toNat_le]
  simp
  omega

end CogServer
