import CogServer.LineDiscipline
import Mathlib.Data.List.Nodup

/-! `base64_encode`, which answers the key of a websocket, and `base64_decode`, which unpacks the
favicon. Their accumulators have 32 bits. -/
namespace CogServer

namespace Base64

def alphabet : Bytes := ascii "ABCDEFGHIJKLMNOPQRSTUVWXYZabcdefghijklmnopqrstuvwxyz0123456789+/"

def pad : UInt8 := 61

/-- The letter at an index of the alphabet. -/
def letter (n : ℕ) : UInt8 := byteAt alphabet n

/-- The table `T` of `base64_decode`. -/
def table (c : UInt8) : ℤ := if c ∈ alphabet then alphabet.idxOf c else -1

/-- The inner loop of `base64_encode`, with what it pushes. -/
def pushSextets (val : ℕ) (valb : ℤ) : Bytes × ℤ :=
  if 0 ≤ valb then
    let r := pushSextets val (valb - 6)
    (letter ((val >>> valb.toNat) &&& 0x3f) :: r.1, r.2)
  else ([], valb)
termination_by (valb + 6).toNat

/-- The loop of `base64_encode` and the letter after it. The accumulator is unsigned. -/
def encodeLoop (val : ℕ) (valb : ℤ) : Bytes → Bytes
  | [] =>
    if -6 < valb then [letter ((((val <<< 8) % 2 ^ 32) >>> (valb + 8).toNat) &&& 0x3f)] else []
  | c :: buf =>
    let val := ((val <<< 8) % 2 ^ 32 + c.toNat) % 2 ^ 32
    let r := pushSextets val (valb + 8)
    r.1 ++ encodeLoop val r.2 buf

/-- The last loop of `base64_encode`. -/
def padLoop (out : Bytes) : Bytes :=
  if out.length % 4 = 0 then out else padLoop (out ++ [pad])
termination_by (4 - out.length % 4) % 4
decreasing_by
  rw [List.length_append, List.length_singleton]
  omega

/-- The loop of `base64_decode`. The accumulator is signed. -/
def decodeLoop (val valb : ℤ) : Bytes → Bytes
  | [] => []
  | c :: s =>
    if table c = -1 then []
    else
      let val := toInt (toInt (val * 2 ^ 6) + table c)
      let valb := valb + 6
      if 0 ≤ valb then
        UInt8.ofNat ((val >>> valb.toNat) % 256).toNat :: decodeLoop val (valb - 8) s
      else decodeLoop val valb s

/-- The encoding of RFC 4648: each group of 24 bits is four letters. -/
def rfc4648 : Bytes → Bytes
  | [] => []
  | [a] =>
    let n := a.toNat * 2 ^ 16
    [letter (n / 2 ^ 18), letter (n / 2 ^ 12 % 64), pad, pad]
  | [a, b] =>
    let n := a.toNat * 2 ^ 16 + b.toNat * 2 ^ 8
    [letter (n / 2 ^ 18), letter (n / 2 ^ 12 % 64), letter (n / 2 ^ 6 % 64), pad]
  | a :: b :: c :: rest =>
    let n := a.toNat * 2 ^ 16 + b.toNat * 2 ^ 8 + c.toNat
    letter (n / 2 ^ 18) :: letter (n / 2 ^ 12 % 64) :: letter (n / 2 ^ 6 % 64) :: letter (n % 64) ::
      rfc4648 rest

example : rfc4648 (ascii "Mary") = ascii "TWFyeQ==" := by decide +kernel

end Base64

open Base64

/-- `base64_encode` -/
def base64Encode (buf : Bytes) : Bytes := padLoop (encodeLoop 0 (-6) buf)

/-- `base64_decode` -/
def base64Decode (s : Bytes) : Bytes := decodeLoop 0 (-8) s

namespace Base64

theorem sextet (val k : ℕ) : (val >>> k) &&& 0x3f = val / 2 ^ k % 64 := by
  rw [Nat.shiftRight_eq_div_pow]
  exact Nat.and_two_pow_sub_one_eq_mod (val / 2 ^ k) 6

theorem pushSextets_neg (val : ℕ) {valb : ℤ} (h : valb < 0) :
    pushSextets val valb = ([], valb) := by
  rw [pushSextets, if_neg (by omega)]

theorem pushSextets_pos (val : ℕ) {valb : ℤ} (h : 0 ≤ valb) :
    pushSextets val valb =
      (letter (val / 2 ^ valb.toNat % 64) :: (pushSextets val (valb - 6)).1,
        (pushSextets val (valb - 6)).2) := by
  rw [pushSextets, if_pos h, sextet]

/-- The bits that are left after the first byte of a group, and so on: two, four, none. -/
theorem pushSextets_first (val : ℕ) : pushSextets val 2 = ([letter (val / 4 % 64)], -4) := by
  rw [pushSextets_pos val (by omega), pushSextets_neg val (by omega)]
  rfl

theorem pushSextets_second (val : ℕ) : pushSextets val 4 = ([letter (val / 16 % 64)], -2) := by
  rw [pushSextets_pos val (by omega), pushSextets_neg val (by omega)]
  rfl

theorem pushSextets_third (val : ℕ) :
    pushSextets val 6 = ([letter (val / 64 % 64), letter (val % 64)], -6) := by
  rw [pushSextets_pos val (by omega), pushSextets_pos val (by omega),
    pushSextets_neg val (by omega)]
  simp

/-- The accumulator after a byte. -/
def shifted (val : ℕ) (c : UInt8) : ℕ := ((val <<< 8) % 2 ^ 32 + c.toNat) % 2 ^ 32

theorem shifted_eq (val : ℕ) (c : UInt8) : shifted val c = (val * 256 + c.toNat) % 2 ^ 32 := by
  rw [shifted, Nat.shiftLeft_eq, Nat.mod_add_mod]

theorem encodeLoop_first (val : ℕ) (a : UInt8) (buf : Bytes) :
    encodeLoop val (-6) (a :: buf) =
      letter (a.toNat / 4) :: encodeLoop (shifted val a) (-4) buf := by
  have ha := a.toNat_lt
  have hval : shifted val a / 4 % 64 = a.toNat / 4 := by rw [shifted_eq]; omega
  rw [encodeLoop, ← shifted]
  simp only [Int.reduceNeg, Int.reduceAdd, pushSextets_first, hval, List.singleton_append]

theorem encodeLoop_second (val : ℕ) (a b : UInt8) (buf : Bytes) :
    encodeLoop (shifted val a) (-4) (b :: buf) =
      letter (a.toNat % 4 * 16 + b.toNat / 16) :: encodeLoop (shifted (shifted val a) b) (-2) buf := by
  have ha := a.toNat_lt
  have hb := b.toNat_lt
  have hval : shifted (shifted val a) b / 16 % 64 = a.toNat % 4 * 16 + b.toNat / 16 := by
    rw [shifted_eq, shifted_eq]
    omega
  rw [encodeLoop, ← shifted]
  simp only [Int.reduceNeg, Int.reduceAdd, pushSextets_second, hval, List.singleton_append]

theorem encodeLoop_third (val : ℕ) (b c : UInt8) (buf : Bytes) :
    encodeLoop (shifted val b) (-2) (c :: buf) =
      letter (b.toNat % 16 * 4 + c.toNat / 64) :: letter (c.toNat % 64) ::
        encodeLoop (shifted (shifted val b) c) (-6) buf := by
  have hb := b.toNat_lt
  have hc := c.toNat_lt
  have hval : shifted (shifted val b) c / 64 % 64 = b.toNat % 16 * 4 + c.toNat / 64 := by
    rw [shifted_eq, shifted_eq]
    omega
  have hlast : shifted (shifted val b) c % 64 = c.toNat % 64 := by rw [shifted_eq]; omega
  rw [encodeLoop, ← shifted]
  simp only [Int.reduceNeg, Int.reduceAdd, pushSextets_third, hval, hlast, List.cons_append,
    List.nil_append]

theorem encodeLoop_nil (val : ℕ) : encodeLoop val (-6) [] = [] := rfl

/-- The letter after the loop, behind one byte of a group. -/
theorem encodeLoop_nil_one (val : ℕ) (a : UInt8) :
    encodeLoop (shifted val a) (-4) [] = [letter (a.toNat % 4 * 16)] := by
  have ha := a.toNat_lt
  have hval : (shifted val a <<< 8) % 2 ^ 32 / 2 ^ 4 % 64 = a.toNat % 4 * 16 := by
    rw [shifted_eq, Nat.shiftLeft_eq]
    omega
  rw [encodeLoop, if_pos (by omega), sextet]
  exact congrArg (fun n => [letter n]) hval

/-- The letter after the loop, behind two bytes of a group. -/
theorem encodeLoop_nil_two (val : ℕ) (b : UInt8) :
    encodeLoop (shifted val b) (-2) [] = [letter (b.toNat % 16 * 4)] := by
  have hb := b.toNat_lt
  have hval : (shifted val b <<< 8) % 2 ^ 32 / 2 ^ 6 % 64 = b.toNat % 16 * 4 := by
    rw [shifted_eq, Nat.shiftLeft_eq]
    omega
  rw [encodeLoop, if_pos (by omega), sextet]
  exact congrArg (fun n => [letter n]) hval

/-- The loop adds at most two letters to make the groups whole. -/
theorem padLoop_of_mod (out : Bytes) :
    padLoop out = out ++ List.replicate ((4 - out.length % 4) % 4) pad := by
  induction hn : (4 - out.length % 4) % 4 generalizing out with
  | zero =>
    rw [padLoop, if_pos (by omega), List.replicate_zero, List.append_nil]
  | succ n ih =>
    rw [padLoop, if_neg (by omega), ih (out ++ [pad])]
    · rw [List.append_assoc, List.singleton_append, ← List.replicate_succ]
    · rw [List.length_append, List.length_singleton]
      omega

theorem padLoop_four (x y z w : UInt8) (out : Bytes) :
    padLoop (x :: y :: z :: w :: out) = x :: y :: z :: w :: padLoop out := by
  have hlen : (x :: y :: z :: w :: out).length % 4 = out.length % 4 := by
    simp only [List.length_cons]
    omega
  rw [padLoop_of_mod, padLoop_of_mod, hlen]
  rfl

/-- Whatever the accumulator holds at the start of a group, what follows is encoded the same. -/
theorem padLoop_encodeLoop (val : ℕ) (buf : Bytes) :
    padLoop (encodeLoop val (-6) buf) = rfc4648 buf := by
  induction buf using rfc4648.induct generalizing val with
  | case1 => rw [encodeLoop_nil, padLoop_of_mod]; rfl
  | case2 a =>
    have ha := a.toNat_lt
    have h1 : a.toNat * 2 ^ 16 / 2 ^ 18 = a.toNat / 4 := by omega
    have h2 : a.toNat * 2 ^ 16 / 2 ^ 12 % 64 = a.toNat % 4 * 16 := by omega
    rw [encodeLoop_first, encodeLoop_nil_one, padLoop_of_mod, rfc4648, h1, h2]
    rfl
  | case3 a b =>
    have ha := a.toNat_lt
    have hb := b.toNat_lt
    have h1 : (a.toNat * 2 ^ 16 + b.toNat * 2 ^ 8) / 2 ^ 18 = a.toNat / 4 := by omega
    have h2 : (a.toNat * 2 ^ 16 + b.toNat * 2 ^ 8) / 2 ^ 12 % 64 =
        a.toNat % 4 * 16 + b.toNat / 16 := by omega
    have h3 : (a.toNat * 2 ^ 16 + b.toNat * 2 ^ 8) / 2 ^ 6 % 64 = b.toNat % 16 * 4 := by omega
    rw [encodeLoop_first, encodeLoop_second, encodeLoop_nil_two, padLoop_of_mod, rfc4648, h1, h2,
      h3]
    rfl
  | case4 a b c rest ih =>
    have ha := a.toNat_lt
    have hb := b.toNat_lt
    have hc := c.toNat_lt
    have h1 : (a.toNat * 2 ^ 16 + b.toNat * 2 ^ 8 + c.toNat) / 2 ^ 18 = a.toNat / 4 := by omega
    have h2 : (a.toNat * 2 ^ 16 + b.toNat * 2 ^ 8 + c.toNat) / 2 ^ 12 % 64 =
        a.toNat % 4 * 16 + b.toNat / 16 := by omega
    have h3 : (a.toNat * 2 ^ 16 + b.toNat * 2 ^ 8 + c.toNat) / 2 ^ 6 % 64 =
        b.toNat % 16 * 4 + c.toNat / 64 := by omega
    have h4 : (a.toNat * 2 ^ 16 + b.toNat * 2 ^ 8 + c.toNat) % 64 = c.toNat % 64 := by omega
    rw [encodeLoop_first, encodeLoop_second, encodeLoop_third, padLoop_four, ih, rfc4648, h1, h2,
      h3, h4]

/-- Four letters for each group that is started. -/
theorem rfc4648_length (buf : Bytes) : (rfc4648 buf).length = 4 * ((buf.length + 2) / 3) := by
  induction buf using rfc4648.induct with
  | case1 => rfl
  | case2 a => simp [rfc4648]
  | case3 a b => simp [rfc4648]
  | case4 a b c rest ih =>
    simp only [rfc4648, List.length_cons, ih]
    omega

theorem alphabet_eq : alphabet =
    (List.range' 65 26 ++ List.range' 97 26 ++ List.range' 48 10 ++ [43, 47]).map UInt8.ofNat := by
  rfl

theorem alphabet_nodup : alphabet.Nodup := by
  rw [alphabet_eq]
  refine List.Nodup.map_on ?_ (by decide)
  have hlt : ∀ n ∈ List.range' 65 26 ++ List.range' 97 26 ++ List.range' 48 10 ++ [43, 47],
      n < 256 := by decide
  intro a ha b hb hab
  have htoNat := congrArg UInt8.toNat hab
  rwa [UInt8.toNat_ofNat', UInt8.toNat_ofNat', Nat.mod_eq_of_lt (hlt a ha),
    Nat.mod_eq_of_lt (hlt b hb)] at htoNat

/-- Each letter reads back as its index. -/
theorem table_letter {n : ℕ} (h : n < 64) : table (letter n) = n := by
  have hn : n < alphabet.length := by
    rwa [alphabet_eq]
  have hletter : letter n = alphabet[n] := by
    rw [letter, byteAt, List.getD_eq_getElem?_getD, List.getElem?_eq_getElem hn, Option.getD_some]
  rw [table, hletter, if_pos (List.getElem_mem hn), alphabet_nodup.idxOf_getElem n hn]

theorem table_pad : table pad = -1 := by
  rw [table, alphabet_eq]
  decide

/-- The accumulator after a letter. -/
def gathered (val : ℤ) (n : ℕ) : ℤ := toInt (toInt (val * 2 ^ 6) + n)

/-- Its low bits are those of the letters, whatever was lost above. -/
theorem gathered_emod (val : ℤ) (n : ℕ) : gathered val n % 2 ^ 32 = (val * 64 + n) % 2 ^ 32 := by
  have hshift := toInt_emod (val * 2 ^ 6)
  have hsum := toInt_emod (toInt (val * 2 ^ 6) + n)
  rw [gathered]
  omega

theorem decodeLoop_first (val : ℤ) {n : ℕ} (hn : n < 64) (s : Bytes) :
    decodeLoop val (-8) (letter n :: s) = decodeLoop (gathered val n) (-2) s := by
  rw [decodeLoop, table_letter hn, if_neg (by omega)]
  rfl

/-- A letter that completes a byte, which is in the low bits of the accumulator. -/
theorem decodeLoop_push (val valb : ℤ) (k : ℕ) {n x : ℕ} {s : Bytes} (hn : n < 64)
    (hk : valb + 6 = k) (hx : gathered val n / 2 ^ k % 256 = x) :
    decodeLoop val valb (letter n :: s) = UInt8.ofNat x :: decodeLoop (gathered val n) (k - 8) s := by
  have hbyte : (gathered val n >>> k % 256).toNat = x := by
    rw [Int.shiftRight_eq_div_pow, Int.natCast_pow, Int.cast_ofNat_Int, hx, Int.toNat_natCast]
  rw [decodeLoop, table_letter hn, if_neg (by omega)]
  dsimp only
  rw [hk, if_pos (Int.natCast_nonneg k), ← gathered, Int.toNat_natCast, hbyte]

theorem decodeLoop_second (val : ℤ) {m n : ℕ} (hm : m < 64) (hn : n < 64) (s : Bytes) :
    decodeLoop (gathered val m) (-2) (letter n :: s) =
      UInt8.ofNat (m * 4 + n / 16) :: decodeLoop (gathered (gathered val m) n) (-4) s := by
  have h1 := gathered_emod val m
  have h2 := gathered_emod (gathered val m) n
  exact decodeLoop_push _ _ 4 hn rfl (by omega)

theorem decodeLoop_third (val : ℤ) {m n : ℕ} (hn : n < 64) (s : Bytes) :
    decodeLoop (gathered val m) (-4) (letter n :: s) =
      UInt8.ofNat (m % 16 * 16 + n / 4) :: decodeLoop (gathered (gathered val m) n) (-6) s := by
  have h1 := gathered_emod val m
  have h2 := gathered_emod (gathered val m) n
  exact decodeLoop_push _ _ 2 hn rfl (by omega)

theorem decodeLoop_fourth (val : ℤ) {m n : ℕ} (hn : n < 64) (s : Bytes) :
    decodeLoop (gathered val m) (-6) (letter n :: s) =
      UInt8.ofNat (m % 4 * 64 + n) :: decodeLoop (gathered (gathered val m) n) (-8) s := by
  have h1 := gathered_emod val m
  have h2 := gathered_emod (gathered val m) n
  exact decodeLoop_push _ _ 0 hn rfl (by omega)

theorem decodeLoop_pad (val valb : ℤ) (s : Bytes) : decodeLoop val valb (pad :: s) = [] := by
  rw [decodeLoop, if_pos table_pad]

theorem ofNat_eq {n : ℕ} {a : UInt8} (h : n = a.toNat) : UInt8.ofNat n = a := by
  rw [h, UInt8.ofNat_toNat]

/-- Whatever the accumulator holds at the start of a group, the bytes of the groups come back. -/
theorem decodeLoop_rfc4648 (val : ℤ) (buf : Bytes) : decodeLoop val (-8) (rfc4648 buf) = buf := by
  induction buf using rfc4648.induct generalizing val with
  | case1 => rfl
  | case2 a =>
    have ha := a.toNat_lt
    rw [rfc4648, decodeLoop_first val (by omega), decodeLoop_second val (by omega) (by omega),
      decodeLoop_pad, ofNat_eq (a := a) (by omega)]
  | case3 a b =>
    have ha := a.toNat_lt
    have hb := b.toNat_lt
    rw [rfc4648, decodeLoop_first val (by omega), decodeLoop_second val (by omega) (by omega),
      decodeLoop_third _ (by omega), decodeLoop_pad, ofNat_eq (a := a) (by omega),
      ofNat_eq (a := b) (by omega)]
  | case4 a b c rest ih =>
    have ha := a.toNat_lt
    have hb := b.toNat_lt
    have hc := c.toNat_lt
    rw [rfc4648, decodeLoop_first val (by omega), decodeLoop_second val (by omega) (by omega),
      decodeLoop_third _ (by omega), decodeLoop_fourth _ (by omega), ih, ofNat_eq (a := a) (by omega),
      ofNat_eq (a := b) (by omega), ofNat_eq (a := c) (by omega)]

end Base64

/-- `base64_encode` gives the encoding of RFC 4648, and `base64_decode` the bytes back, although
both accumulators overflow. -/
theorem base64_roundTrip (buf : Bytes) :
    base64Encode buf = rfc4648 buf ∧
      (base64Encode buf).length = 4 * ((buf.length + 2) / 3) ∧
      base64Decode (base64Encode buf) = buf := by
  have henc : base64Encode buf = rfc4648 buf := padLoop_encodeLoop 0 buf
  refine ⟨henc, ?_, ?_⟩
  · rw [henc, rfc4648_length]
  · rw [henc]
    exact decodeLoop_rfc4648 0 buf

end CogServer
