import CogServer.LineDiscipline
import Mathlib.Algebra.BigOperators.Group.List.Basic
import Mathlib.Computability.Language

/-! WebSocket frames as the server writes them, and byte streams that are cut into whole
frames by the lengths that their headers announce. -/
namespace CogServer

open Computability

/-- The value of a big-endian number. -/
def bigEndian (bytes : Bytes) : ℕ := bytes.foldl (fun n b => 256 * n + b.toNat) 0

/-- The size of the frame at the start of a stream, by its header. A frame with the mask bit, which
only a client may send, or with an incomplete header has none. -/
def frameLength : Bytes → Option ℕ
  | _ :: n :: rest =>
    if n < 126 then some (2 + n.toNat)
    else if n = 126 ∧ 2 ≤ rest.length then some (4 + bigEndian (rest.take 2))
    else if n = 127 ∧ 8 ≤ rest.length then some (10 + bigEndian (rest.take 8))
    else none
  | _ => none

/-- The whole frames: a header, and exactly the payload that it announces. -/
def frames : Language UInt8 := {f | frameLength f = some f.length}

/-- A byte of the length. -/
def lengthByte (paylen shift : ℕ) : UInt8 := UInt8.ofNat ((paylen >>> shift) &&& 0xff)

/-- The header that `send_websocket` writes. -/
def dataHeader (paylen : ℕ) : Bytes :=
  if paylen < 126 then [0x81, UInt8.ofNat paylen]
  else if paylen < 65536 then [0x81, 126, lengthByte paylen 8, lengthByte paylen 0]
  else
    [0x81, 127, lengthByte paylen 56, lengthByte paylen 48, lengthByte paylen 40, lengthByte paylen 32,
      lengthByte paylen 24, lengthByte paylen 16, lengthByte paylen 8, lengthByte paylen 0]

/-- The header of a pong in `get_websocket_line`. The length is cast to a `char`. -/
def pongHeader (paylen : ℕ) : Bytes := [0x8a, UInt8.ofNat paylen]

theorem toNat_lengthByte (n k : ℕ) : (lengthByte n k).toNat = n / 2 ^ k % 256 := by
  have hmask : (n >>> k) &&& 0xff = (n >>> k) % 2 ^ 8 := Nat.and_two_pow_sub_one_eq_mod _ 8
  unfold lengthByte
  rw [hmask, UInt8.toNat_ofNat', Nat.mod_mod, Nat.shiftRight_eq_div_pow]
  rfl

/-- The next byte of a length that is read from the top. -/
theorem shift_byte (n k : ℕ) : 256 * (n / 2 ^ (k + 8)) + n / 2 ^ k % 256 = n / 2 ^ k := by
  rw [Nat.pow_add, ← Nat.div_div_eq_div_mul]
  exact Nat.div_add_mod _ 256

/-- A data frame is whole. -/
theorem dataHeader_append {cmd : Bytes} (h : cmd.length < 2 ^ 64) :
    dataHeader cmd.length ++ cmd ∈ frames := by
  change frameLength _ = some _
  unfold dataHeader
  split_ifs with h1 h2
  · -- the length fits into the second byte
    have hn : (UInt8.ofNat cmd.length).toNat = cmd.length := by
      rw [UInt8.toNat_ofNat']
      omega
    have hlt : UInt8.ofNat cmd.length < 126 := by
      rw [UInt8.lt_iff_toNat_lt, hn]
      exact h1
    simp only [List.cons_append, List.nil_append, frameLength, hlt, ↓reduceIte, hn, List.length_cons,
      Option.some.injEq]
    omega
  · simp only [List.cons_append, List.nil_append, frameLength, List.take_succ_cons, List.take_zero,
      bigEndian, List.foldl_cons, List.foldl_nil, toNat_lengthByte, List.length_cons]
    rw [if_neg (by decide), if_pos (by simp), Option.some.injEq]
    omega
  · simp only [List.cons_append, List.nil_append, frameLength, List.take_succ_cons, List.take_zero,
      bigEndian, List.foldl_cons, List.foldl_nil, toNat_lengthByte, List.length_cons]
    rw [if_neg (by decide), if_neg (by simp), if_pos (by simp), Option.some.injEq]
    have htop : cmd.length / 2 ^ 56 % 256 = cmd.length / 2 ^ 56 := by
      apply Nat.mod_eq_of_lt
      omega
    rw [Nat.mul_zero, Nat.zero_add, htop, shift_byte _ 48, shift_byte _ 40, shift_byte _ 32, shift_byte _ 24,
      shift_byte _ 16, shift_byte _ 8, shift_byte _ 0]
    omega

/-- A pong is whole, if its payload is as short as that of a control frame has to be. -/
theorem pongHeader_append {d : Bytes} (h : d.length ≤ 125) : pongHeader d.length ++ d ∈ frames := by
  have hn : (UInt8.ofNat d.length).toNat = d.length := by
    rw [UInt8.toNat_ofNat']
    omega
  have hlt : UInt8.ofNat d.length < 126 := by
    rw [UInt8.lt_iff_toNat_lt, hn]
    change d.length < 126
    omega
  change frameLength _ = some _
  simp only [pongHeader, List.cons_append, List.nil_append, frameLength, hlt, ↓reduceIte, hn,
    List.length_cons, Option.some.injEq]
  omega

/-- What follows a whole frame does not change its size. -/
theorem frameLength_append {f : Bytes} (hf : f ∈ frames) (rest : Bytes) :
    frameLength (f ++ rest) = some f.length := by
  change frameLength f = some f.length at hf
  match f with
  | [] | [_] => simp [frameLength] at hf
  | op :: n :: ext =>
    have htake : ∀ k, k ≤ ext.length → (ext ++ rest).take k = ext.take k := fun k hk =>
      List.take_append_of_le_length hk
    simp only [List.cons_append, frameLength, List.length_append] at hf ⊢
    split_ifs at hf with h1 h2 h3
    · rw [if_pos h1, hf]
    · rw [if_neg h1, if_pos ⟨h2.1, by omega⟩, htake 2 h2.2, hf]
    · have h2' : ¬(n = 126 ∧ 2 ≤ ext.length + rest.length) := by
        rw [h3.1]
        simp
      rw [if_neg h1, if_neg h2', if_pos ⟨h3.1, by omega⟩, htake 8 h3.2, hf]

/-- Cuts a stream into frames, at most `fuel` of them. -/
def cutsIntoFrames : ℕ → Bytes → Bool
  | 0, b => b = []
  | fuel + 1, b =>
    b = [] || match frameLength b with
      | some n => decide (n ≤ b.length) && cutsIntoFrames fuel (b.drop n)
      | none => false

/-- A concatenation of whole frames is cut as it was put together. -/
theorem cutsIntoFrames_flatten (fs : List Bytes) (h : ∀ f ∈ fs, f ∈ frames) (fuel : ℕ)
    (hfuel : fs.length ≤ fuel) : cutsIntoFrames fuel fs.flatten = true := by
  induction fs generalizing fuel with
  | nil => cases fuel <;> simp [cutsIntoFrames]
  | cons f fs ih =>
    obtain ⟨hf, hfs⟩ := List.forall_mem_cons.mp h
    obtain ⟨fuel, rfl⟩ : ∃ k, fuel = k + 1 := ⟨fuel - 1, by simp at hfuel; omega⟩
    have hrest := ih hfs fuel (by simp at hfuel; omega)
    simp [cutsIntoFrames, frameLength_append hf, hrest]

theorem frames_ne_nil {f : Bytes} (hf : f ∈ frames) : 1 ≤ f.length := by
  match f with
  | [] => cases hf
  | _ :: _ => simp

/-- The streams of whole frames are those that can be cut. -/
theorem cutsIntoFrames_of_mem {b : Bytes} (h : b ∈ frames∗) : cutsIntoFrames b.length b = true := by
  obtain ⟨fs, rfl, hfs⟩ := Language.mem_kstar.mp h
  apply cutsIntoFrames_flatten fs hfs
  rw [List.length_flatten]
  have hone : ∀ n ∈ fs.map List.length, 1 ≤ n := by
    intro n hn
    obtain ⟨f, hf, rfl⟩ := List.mem_map.mp hn
    exact frames_ne_nil (hfs f hf)
  simpa using List.length_le_sum_of_one_le _ hone

/-- One more frame. -/
theorem append_frame_mem {b f : Bytes} (hb : b ∈ frames∗) (hf : f ∈ frames) : b ++ f ∈ frames∗ := by
  obtain ⟨fs, rfl, hfs⟩ := Language.mem_kstar.mp hb
  refine Language.mem_kstar.mpr ⟨fs ++ [f], by simp, fun g hg => ?_⟩
  rcases List.mem_append.mp hg with hg | hg
  · exact hfs g hg
  · rwa [List.mem_singleton.mp hg]

end CogServer
