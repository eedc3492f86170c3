import CogServer.WebSocketFrames
import Mathlib.Data.Nat.Bitwise
import Mathlib.Tactic.Ring

/-! Frames of the client: `get_websocket_line` and `get_websocket_data`. -/
namespace CogServer

/-- The socket as the reader thread sees it: what is still to be read, and what was written. -/
structure WebStream where
  input : Bytes
  output : Bytes
  deriving DecidableEq, Repr

/-- How a read ends without data: `asio::read` throws at the end of the input. -/
inductive WebFault
  | eof | silent
  deriving DecidableEq, Repr

abbrev WebReader := StateT WebStream (Except WebFault)

/-- `asio::read` of so many bytes. -/
def asioRead (n : ℕ) : WebReader Bytes := fun s =>
  if s.input.length < n then .error .eof
  else .ok (s.input.take n, { s with input := s.input.drop n })

def readByte : WebReader UInt8 := do
  let b ← asioRead 1
  pure (byteAt b 0)

/-- `Send` of a buffer. -/
def sendBuffer (b : Bytes) : WebReader Unit := fun s =>
  .ok ((), { s with output := s.output ++ b })

/-- A byte of a word, `(w >> (8*j)) & 0xff`. -/
def wordByte (w : BitVec 32) (j : ℕ) : UInt8 := .ofBitVec ((w >>> (8 * j)).setWidth 8)

/-- A `uint32_t` in memory, on a little-endian host. -/
def loadWord (data : Bytes) (i : ℕ) : BitVec 32 :=
  (byteAt data i).toBitVec.setWidth 32 ||| (byteAt data (i + 1)).toBitVec.setWidth 32 <<< 8 |||
    (byteAt data (i + 2)).toBitVec.setWidth 32 <<< 16 |||
      (byteAt data (i + 3)).toBitVec.setWidth 32 <<< 24

def storeWord (data : Bytes) (i : ℕ) (w : BitVec 32) : Bytes :=
  (((data.set i (wordByte w 0)).set (i + 1) (wordByte w 1)).set (i + 2) (wordByte w 2)).set (i + 3)
    (wordByte w 3)

theorem length_storeWord (data : Bytes) (i : ℕ) (w : BitVec 32) :
    (storeWord data i w).length = data.length := by
  simp [storeWord]

/-- The loop over the words; `i` counts the bytes. -/
def unmaskWords (mask : BitVec 32) (i : ℕ) (data : Bytes) : ℕ × Bytes :=
  if (i : ℤ) ≤ data.length - 4 then
    unmaskWords mask (i + 4) (storeWord data i (loadWord data i ^^^ mask))
  else (i, data)
termination_by data.length - i
decreasing_by
  rw [length_storeWord]
  omega

/-- The remaining bytes. -/
def unmaskTail (mask : BitVec 32) (i : ℕ) (data : Bytes) : Bytes :=
  (List.range (data.length % 4)).foldl
    (fun data j => data.set (i + j) (byteAt data (i + j) ^^^ wordByte mask j)) data

def unmask (mask : BitVec 32) (data : Bytes) : Bytes :=
  unmaskTail mask (unmaskWords mask 0 data).1 (unmaskWords mask 0 data).2

/-- The length that follows the byte with the mask bit. -/
def readLength (paybyte : UInt8) : WebReader ℕ := do
  if paybyte = 126 then
    let shore ← asioRead 2
    pure (bigEndian shore)
  else if paybyte = 127 then
    let lunghi ← asioRead 4
    let lunglo ← asioRead 4
    let lung := bigEndian lunghi <<< 32 ||| bigEndian lunglo
    if 1 <<< 40 < lung then throw .silent else pure lung
  else pure paybyte.toNat

def getWebsocketData : WebReader Bytes := do
  let mpay ← readByte
  let paylen ← readLength (mpay &&& 0x7f)
  -- the length is read before the mask bit is looked at
  if mpay &&& 0x80 = 0 then throw .silent
  else
    let mask ← asioRead 4
    let blob ← asioRead paylen
    pure (unmask (loadWord mask 0) blob)

/-- The answer to a ping, and none to a pong. -/
def sendPong (opcode : UInt8) (pingd : Bytes) : WebReader Unit :=
  if opcode = 9 then do
    sendBuffer (pongHeader pingd.length)
    if 0 < pingd.length then sendBuffer pingd else pure ()
  else pure ()

/-- The loop over the pings and pongs, which leads to the opcode of the next frame. Each round reads
at least one byte. -/
def controlFrames : ℕ → UInt8 → WebReader UInt8
  | 0, _ => throw .eof
  | rounds + 1, opcode =>
    if opcode = 9 ∨ opcode = 0xa then do
      let pingd ← getWebsocketData
      sendPong opcode pingd
      let fop ← readByte
      controlFrames rounds (fop &&& 0xf)
    else pure opcode

def getWebsocketLine : WebReader Bytes := do
  let s ← get
  let fop ← readByte
  let opcode ← controlFrames s.input.length (fop &&& 0xf)
  if opcode = 8 then throw .silent
  else if opcode ≠ 1 then throw .silent
  else getWebsocketData

/-- A payload under a mask, byte by byte. -/
def xorMask (mask data : Bytes) : Bytes := data.mapIdx fun k b => b ^^^ byteAt mask (k % 4)

theorem wordByte_xor (v w : BitVec 32) (j : ℕ) :
    wordByte (v ^^^ w) j = wordByte v j ^^^ wordByte w j := by
  simp [wordByte, BitVec.ushiftRight_xor_distrib, BitVec.setWidth_xor, UInt8.ofBitVec_xor]

theorem wordByte_loadWord (data : Bytes) (i : ℕ) {j : ℕ} (hj : j < 4) :
    wordByte (loadWord data i) j = byteAt data (i + j) := by
  apply UInt8.toBitVec_inj.mp
  unfold wordByte loadWord
  apply BitVec.eq_of_getLsbD_eq
  intro k hk
  have hhigh : ∀ (b : UInt8) (n : ℕ), 8 ≤ n → b.toBitVec.getLsbD n = false :=
    fun b n hn => BitVec.getLsbD_of_ge _ _ hn
  -- the bytes below are shifted out, and those above have not come up yet
  obtain rfl | rfl | rfl | rfl : j = 0 ∨ j = 1 ∨ j = 2 ∨ j = 3 := by omega
  · simp [hk]
  · simp [hk, show 8 + k < 16 by omega, show 8 + k < 24 by omega, show 8 + k < 32 by omega]
  · simp [hk, hhigh _ (16 + k - 8) (by omega), hhigh _ (16 + k) (by omega),
      show 16 + k < 24 by omega, show 16 + k < 32 by omega]
  · simp [hk, hhigh _ (24 + k - 16) (by omega), hhigh _ (24 + k - 8) (by omega),
      hhigh _ (24 + k) (by omega), show 24 + k < 32 by omega]

theorem byteAt_set {data : Bytes} {i : ℕ} (hi : i < data.length) (b : UInt8) (k : ℕ) :
    byteAt (data.set i b) k = if k = i then b else byteAt data k := by
  simp only [byteAt, List.getD_eq_getElem?_getD, List.getElem?_set, hi, ↓reduceIte]
  by_cases hk : i = k
  · simp [hk]
  · simp [hk, Ne.symm hk]

theorem byteAt_storeWord {data : Bytes} {i : ℕ} (hi : i + 4 ≤ data.length) (w : BitVec 32) (k : ℕ) :
    byteAt (storeWord data i w) k =
      if i ≤ k ∧ k < i + 4 then wordByte w (k - i) else byteAt data k := by
  unfold storeWord
  -- the four stores, the last one first
  rw [byteAt_set (by simp; omega), byteAt_set (by simp; omega), byteAt_set (by simp; omega),
    byteAt_set (by omega)]
  by_cases hk : i ≤ k ∧ k < i + 4
  · rw [if_pos hk]
    obtain rfl | rfl | rfl | rfl : k = i ∨ k = i + 1 ∨ k = i + 2 ∨ k = i + 3 := by omega
    · simp
    · simp
    · simp
    · simp
  · rw [if_neg hk, if_neg (by omega), if_neg (by omega), if_neg (by omega), if_neg (by omega)]

/-- The words are unmasked up to the last whole one, and nothing else is touched. -/
theorem unmaskWords_spec (mask : BitVec 32) (i : ℕ) (data : Bytes) (hi : i ≤ data.length) :
    (unmaskWords mask i data).2.length = data.length ∧
    (unmaskWords mask i data).1 = i + 4 * ((data.length - i) / 4) ∧
    ∀ k, byteAt (unmaskWords mask i data).2 k =
      if i ≤ k ∧ k < i + 4 * ((data.length - i) / 4) then
        byteAt data k ^^^ wordByte mask ((k - i) % 4) else byteAt data k := by
  induction i, data using unmaskWords.induct mask with
  | case1 i data hword ih =>
    have hle : i + 4 ≤ data.length := by omega
    obtain ⟨hlength, hcount, hbyte⟩ := ih (by rw [length_storeWord]; omega)
    rw [length_storeWord] at hlength hcount hbyte
    have hnext : i + 4 + 4 * ((data.length - (i + 4)) / 4) = i + 4 * ((data.length - i) / 4) := by
      omega
    rw [unmaskWords, if_pos hword]
    refine ⟨hlength, hcount.trans hnext, ?_⟩
    intro k
    rw [hbyte, hnext, byteAt_storeWord hle]
    by_cases hk : i ≤ k ∧ k < i + 4
    · -- the word that is unmasked now
      rw [if_neg (by omega), if_pos hk, if_pos (by omega), wordByte_xor,
        wordByte_loadWord _ _ (by omega), Nat.add_sub_cancel' hk.1, Nat.mod_eq_of_lt (by omega)]
    · -- a byte before or after the word, of which the recursion says the same
      rw [if_neg hk]
      have hmod : (k - (i + 4)) % 4 = (k - i) % 4 ∨ k < i + 4 := by omega
      by_cases hlater : i + 4 ≤ k ∧ k < i + 4 * ((data.length - i) / 4)
      · rw [if_pos hlater, if_pos (by omega), hmod.resolve_right (by omega)]
      · rw [if_neg hlater, if_neg (by omega)]
  | case2 i data hend =>
    -- less than a word is left
    have hnone : (data.length - i) / 4 = 0 := by omega
    rw [unmaskWords, if_neg hend, hnone]
    refine ⟨rfl, by simp, ?_⟩
    intro k
    rw [if_neg (by omega)]

/-- The bytes from `i` on are unmasked one by one. -/
theorem unmaskTail_spec (mask : BitVec 32) (i n : ℕ) (data : Bytes) (hn : i + n ≤ data.length) :
    ((List.range n).foldl
      (fun data j => data.set (i + j) (byteAt data (i + j) ^^^ wordByte mask j)) data).length =
        data.length ∧
    ∀ k, byteAt ((List.range n).foldl
      (fun data j => data.set (i + j) (byteAt data (i + j) ^^^ wordByte mask j)) data) k =
        if i ≤ k ∧ k < i + n then byteAt data k ^^^ wordByte mask (k - i) else byteAt data k := by
  induction n with
  | zero =>
    refine ⟨rfl, ?_⟩
    intro k
    rw [if_neg (by omega)]
    rfl
  | succ n ih =>
    obtain ⟨hlength, hbyte⟩ := ih (by omega)
    rw [List.range_succ, List.foldl_append, List.foldl_cons, List.foldl_nil]
    refine ⟨by rw [List.length_set, hlength], ?_⟩
    intro k
    rw [byteAt_set (by rw [hlength]; omega)]
    -- the byte of the last round was not touched by those before
    by_cases hk : k = i + n
    · subst hk
      rw [if_pos rfl, if_pos (by omega), hbyte, if_neg (by omega), Nat.add_sub_cancel_left]
    · rw [if_neg hk, hbyte]
      by_cases hearlier : i ≤ k ∧ k < i + n
      · rw [if_pos hearlier, if_pos (by omega)]
      · rw [if_neg hearlier, if_neg (by omega)]

theorem length_xorMask (mask data : Bytes) : (xorMask mask data).length = data.length := by
  simp [xorMask]

theorem byteAt_xorMask {mask data : Bytes} {k : ℕ} (hk : k < data.length) :
    byteAt (xorMask mask data) k = byteAt data k ^^^ byteAt mask (k % 4) := by
  simp [xorMask, byteAt, List.getD_eq_getElem?_getD, hk]

theorem eq_of_byteAt {a b : Bytes} (hlength : a.length = b.length)
    (hbyte : ∀ k < b.length, byteAt a k = byteAt b k) : a = b := by
  apply List.ext_getElem hlength
  intro k ha hb
  simpa [byteAt, List.getD_eq_getElem?_getD, ha, hb] using hbyte k hb

/-- Word by word and then byte by byte is the same as byte by byte. -/
theorem unmask_loadWord (mask data : Bytes) :
    unmask (loadWord mask 0) data = xorMask mask data := by
  obtain ⟨hlength, hcount, hbyte⟩ := unmaskWords_spec (loadWord mask 0) 0 data (Nat.zero_le _)
  have htail := unmaskTail_spec (loadWord mask 0) (unmaskWords (loadWord mask 0) 0 data).1
    ((unmaskWords (loadWord mask 0) 0 data).2.length % 4) (unmaskWords (loadWord mask 0) 0 data).2
    (by rw [hlength, hcount]; omega)
  obtain ⟨hlength', hbyte'⟩ := htail
  apply eq_of_byteAt
  · rw [length_xorMask, ← hlength]
    exact hlength'
  · intro k hk
    rw [length_xorMask] at hk
    rw [byteAt_xorMask hk]
    refine (hbyte' k).trans ?_
    rw [hlength, hcount, hbyte]
    simp only [Nat.zero_le, Nat.zero_add, Nat.sub_zero, true_and]
    have hmask : ∀ j < 4, wordByte (loadWord mask 0) j = byteAt mask j := by
      intro j hj
      rw [wordByte_loadWord _ _ hj, Nat.zero_add]
    -- a byte of a whole word, or one of the rest
    by_cases hwords : k < 4 * (data.length / 4)
    · rw [if_neg (by omega), if_pos hwords, hmask _ (Nat.mod_lt _ (by decide))]
    · rw [if_pos (by omega), if_neg hwords, hmask _ (by omega)]
      congr 2
      omega

theorem xorMask_xorMask (mask data : Bytes) : xorMask mask (xorMask mask data) = data := by
  apply eq_of_byteAt
  · rw [length_xorMask, length_xorMask]
  · intro k hk
    rw [byteAt_xorMask (by rw [length_xorMask]; exact hk), byteAt_xorMask hk, UInt8.xor_assoc,
      UInt8.xor_self, UInt8.xor_zero]

section Reads

variable {α β : Type} {x : WebReader α} {f : α → WebReader β} {s t : WebStream} {a : α}

theorem bind_ok (h : x s = .ok (a, t)) : (x >>= f) s = f a t := by
  show (x s).bind (fun p => f p.1 p.2) = f a t
  rw [h]
  rfl

theorem bind_error {e : WebFault} (h : x s = .error e) : (x >>= f) s = .error e := by
  show (x s).bind (fun p => f p.1 p.2) = .error e
  rw [h]
  rfl

theorem asioRead_append {b : Bytes} {n : ℕ} (h : b.length = n) (rest output : Bytes) :
    asioRead n ⟨b ++ rest, output⟩ = .ok (b, ⟨rest, output⟩) := by
  subst h
  simp [asioRead]

theorem readByte_cons (b : UInt8) (rest output : Bytes) :
    readByte ⟨b :: rest, output⟩ = .ok (b, ⟨rest, output⟩) := by
  have hread : asioRead 1 ⟨b :: rest, output⟩ = .ok ([b], ⟨rest, output⟩) :=
    asioRead_append (b := [b]) rfl rest output
  rw [readByte, bind_ok hread]
  rfl

theorem sendPong_run (opcode : UInt8) (pingd : Bytes) (s : WebStream) :
    sendPong opcode pingd s = .ok ((), { s with
      output := s.output ++ if opcode = 9 then pongHeader pingd.length ++ pingd else [] }) := by
  unfold sendPong
  split
  · rw [bind_ok rfl]
    cases pingd with
    | nil =>
      simp
      rfl
    | cons b pingd =>
      rw [if_pos (by simp), sendBuffer]
      simp
  · simp
    rfl

end Reads

theorem toNat_and_7f (b : UInt8) : (b &&& 0x7f).toNat = b.toNat % 128 := by
  rw [UInt8.toNat_and]
  exact Nat.and_two_pow_sub_one_eq_mod _ 7

theorem and_80_eq_zero {b : UInt8} : b &&& 0x80 = 0 ↔ b.toNat < 128 := by
  rw [← UInt8.toNat_inj, UInt8.toNat_and]
  have hbit : b.toNat &&& 128 = (b.toNat.testBit 7).toNat * 2 ^ 7 := Nat.and_two_pow b.toNat 7
  have hlt := b.toNat_lt
  show b.toNat &&& 128 = 0 ↔ _
  rw [hbit, Nat.toNat_testBit]
  omega

theorem bigEndian_append (a b : Bytes) :
    bigEndian (a ++ b) = bigEndian a * 256 ^ b.length + bigEndian b := by
  induction b using List.reverseRecOn with
  | nil => simp [bigEndian]
  | append_singleton b c ih =>
    have hlast : ∀ d : Bytes, bigEndian (d ++ [c]) = 256 * bigEndian d + c.toNat := fun d => by
      simp [bigEndian]
    rw [← List.append_assoc, hlast, hlast, ih, List.length_append, List.length_singleton,
      Nat.pow_succ]
    ring

theorem bigEndian_lt (b : Bytes) : bigEndian b < 256 ^ b.length := by
  induction b using List.reverseRecOn with
  | nil => simp [bigEndian]
  | append_singleton b c ih =>
    rw [bigEndian_append, List.length_append, List.length_singleton, Nat.pow_succ]
    have hc := c.toNat_lt
    have hone : bigEndian [c] = c.toNat := by simp [bigEndian]
    rw [hone]
    omega

/-- The two halves of a length, put together by a shift. -/
theorem bigEndian_halves {hi lo : Bytes} (hlo : lo.length = 4) :
    bigEndian hi <<< 32 ||| bigEndian lo = bigEndian (hi ++ lo) := by
  have hlt := bigEndian_lt lo
  rw [hlo] at hlt
  -- no bit of the lower half is above the shift, so the or is a sum
  rw [bigEndian_append, hlo, ← Nat.shiftLeft_add_eq_or_of_lt hlt, Nat.shiftLeft_eq]
  rfl

theorem readLength_short {paybyte : UInt8} (h : paybyte.toNat < 126) (s : WebStream) :
    readLength paybyte s = .ok (paybyte.toNat, s) := by
  have h1 : paybyte ≠ 126 := by
    rintro rfl
    exact absurd h (by decide)
  have h2 : paybyte ≠ 127 := by
    rintro rfl
    exact absurd h (by decide)
  rw [readLength, if_neg h1, if_neg h2]
  rfl

theorem readLength_medium {ext : Bytes} (h : ext.length = 2) (rest output : Bytes) :
    readLength 126 ⟨ext ++ rest, output⟩ = .ok (bigEndian ext, ⟨rest, output⟩) := by
  rw [readLength, if_pos rfl, bind_ok (asioRead_append h rest output)]
  rfl

theorem readLength_long {ext : Bytes} (h : ext.length = 8) (rest output : Bytes) :
    readLength 127 ⟨ext ++ rest, output⟩ =
      if 2 ^ 40 < bigEndian ext then .error .silent else .ok (bigEndian ext, ⟨rest, output⟩) := by
  have hhi : (ext.take 4).length = 4 := by rw [List.length_take, h]; rfl
  have hlo : (ext.drop 4).length = 4 := by rw [List.length_drop, h]
  have hext : ext ++ rest = ext.take 4 ++ (ext.drop 4 ++ rest) := by
    rw [← List.append_assoc, List.take_append_drop]
  -- the two halves are read one after the other
  rw [readLength, if_neg (by decide), if_pos rfl, hext, bind_ok (asioRead_append hhi _ output),
    bind_ok (asioRead_append hlo rest output), bigEndian_halves hlo, List.take_append_drop]
  show (if 2 ^ 40 < bigEndian ext then throw WebFault.silent
    else pure (bigEndian ext) : WebReader ℕ) _ = _
  split <;> rfl

/-- The three ways to write a length. -/
inductive LengthForm
  | bits7 | bits16 | bits64
  deriving DecidableEq, Repr

namespace LengthForm

/-- The form can express the length. -/
def fits : LengthForm → ℕ → Prop
  | .bits7, n => n ≤ 125
  | .bits16, n => n < 2 ^ 16
  | .bits64, n => n < 2 ^ 64

/-- The seven bits of the second byte. -/
def code : LengthForm → ℕ → ℕ
  | .bits7, n => n
  | .bits16, _ => 126
  | .bits64, _ => 127

/-- The bytes that follow it. -/
def extension : LengthForm → ℕ → Bytes
  | .bits7, _ => []
  | .bits16, n => [lengthByte n 8, lengthByte n 0]
  | .bits64, n =>
    [lengthByte n 56, lengthByte n 48, lengthByte n 40, lengthByte n 32, lengthByte n 24,
      lengthByte n 16, lengthByte n 8, lengthByte n 0]

end LengthForm

/-- A masked frame; the first byte has the FIN bit, the reserved bits and the opcode. -/
structure ClientFrame where
  head : UInt8
  form : LengthForm
  mask : Bytes
  payload : Bytes
  mask_length : mask.length = 4
  fits : form.fits payload.length

namespace ClientFrame

def opcode (f : ClientFrame) : UInt8 := f.head &&& 0xf

def bytes (f : ClientFrame) : Bytes :=
  f.head :: UInt8.ofNat (128 + f.form.code f.payload.length) ::
    (f.form.extension f.payload.length ++ (f.mask ++ xorMask f.mask f.payload))

end ClientFrame

/-- The bytes of a sequence of frames. -/
def wire (fs : List ClientFrame) : Bytes := (fs.map ClientFrame.bytes).flatten

/-- The answers to the pings among them. -/
def pongs (fs : List ClientFrame) : Bytes :=
  (fs.map fun f => if f.opcode = 9 then pongHeader f.payload.length ++ f.payload else []).flatten

theorem bigEndian_extension {form : LengthForm} {n : ℕ} (h : form.fits n) (hform : form ≠ .bits7) :
    bigEndian (form.extension n) = n := by
  cases form with
  | bits7 => exact absurd rfl hform
  | bits16 =>
    have hlt : n < 2 ^ 16 := h
    simp only [LengthForm.extension, bigEndian, List.foldl_cons, List.foldl_nil, toNat_lengthByte]
    omega
  | bits64 =>
    have htop : n / 2 ^ 56 % 256 = n / 2 ^ 56 := by
      apply Nat.mod_eq_of_lt
      have hlt : n < 2 ^ 64 := h
      omega
    -- the bytes are put together from the highest on
    simp only [LengthForm.extension, bigEndian, List.foldl_cons, List.foldl_nil, toNat_lengthByte]
    rw [Nat.mul_zero, Nat.zero_add, htop, shift_byte _ 48, shift_byte _ 40, shift_byte _ 32,
      shift_byte _ 24, shift_byte _ 16, shift_byte _ 8, shift_byte _ 0, Nat.pow_zero, Nat.div_one]

/-- The length of a frame that is not too long is read as it was written. -/
theorem readLength_form {form : LengthForm} {n : ℕ} (h : form.fits n) (hn : n ≤ 2 ^ 40)
    (rest output : Bytes) :
    readLength (UInt8.ofNat (128 + form.code n) &&& 0x7f) ⟨form.extension n ++ rest, output⟩ =
      .ok (n, ⟨rest, output⟩) := by
  cases form with
  | bits7 =>
    have hle : n ≤ 125 := h
    have hcode : (UInt8.ofNat (128 + n) &&& 0x7f).toNat = n := by
      rw [toNat_and_7f, UInt8.toNat_ofNat']
      omega
    show readLength (UInt8.ofNat (128 + n) &&& 0x7f) ⟨rest, output⟩ = _
    rw [readLength_short (by omega), hcode]
  | bits16 =>
    have hread : readLength 126 ⟨LengthForm.extension .bits16 n ++ rest, output⟩ = _ :=
      readLength_medium rfl rest output
    rw [bigEndian_extension h (by decide)] at hread
    have hcode : UInt8.ofNat (128 + 126) &&& 0x7f = 126 := by decide
    show readLength (UInt8.ofNat (128 + 126) &&& 0x7f) _ = _
    rw [hcode, hread]
  | bits64 =>
    have hread : readLength 127 ⟨LengthForm.extension .bits64 n ++ rest, output⟩ = _ :=
      readLength_long rfl rest output
    rw [bigEndian_extension h (by decide), if_neg (Nat.not_lt.mpr hn)] at hread
    have hcode : UInt8.ofNat (128 + 127) &&& 0x7f = 127 := by decide
    show readLength (UInt8.ofNat (128 + 127) &&& 0x7f) _ = _
    rw [hcode, hread]

/-- A masked frame is read to its end. -/
theorem getWebsocketData_bytes (f : ClientFrame) (h : f.payload.length ≤ 2 ^ 40)
    (rest output : Bytes) :
    getWebsocketData ⟨f.bytes.tail ++ rest, output⟩ = .ok (f.payload, ⟨rest, output⟩) := by
  have hmasked : ¬ UInt8.ofNat (128 + f.form.code f.payload.length) &&& 0x80 = 0 := by
    have hcode : f.form.code f.payload.length < 128 := by
      have hfits := f.fits
      cases hform : f.form <;> rw [hform] at hfits <;> simp only [LengthForm.code]
      · have hle : f.payload.length ≤ 125 := hfits
        omega
      · decide
      · decide
    rw [and_80_eq_zero, UInt8.toNat_ofNat']
    omega
  have hbytes : f.bytes.tail ++ rest = UInt8.ofNat (128 + f.form.code f.payload.length) ::
      (f.form.extension f.payload.length ++ (f.mask ++ (xorMask f.mask f.payload ++ rest))) := by
    simp [ClientFrame.bytes]
  rw [hbytes, getWebsocketData, bind_ok (readByte_cons _ _ output),
    bind_ok (readLength_form f.fits h _ output), if_neg hmasked,
    bind_ok (asioRead_append f.mask_length _ output),
    bind_ok (asioRead_append (length_xorMask f.mask f.payload) rest output), unmask_loadWord,
    xorMask_xorMask]
  rfl

/-- An unmasked frame is refused once its length is read. -/
theorem getWebsocketData_unmasked {n : UInt8} {ext : Bytes} (hn : n.toNat < 128)
    (hext : ext.length = if n = 126 then 2 else if n = 127 then 8 else 0) (rest output : Bytes) :
    getWebsocketData ⟨n :: (ext ++ rest), output⟩ = .error .silent := by
  have hcode : n &&& 0x7f = n := by
    apply UInt8.toNat_inj.mp
    rw [toNat_and_7f]
    omega
  rw [getWebsocketData, bind_ok (readByte_cons _ _ output), hcode]
  simp only [and_80_eq_zero.mpr hn, ↓reduceIte]
  split_ifs at hext with h1 h2
  · subst h1
    rw [bind_ok (readLength_medium hext rest output)]
    rfl
  · subst h2
    -- a length above the limit is refused before the mask bit is looked at, with the same end
    have hread := readLength_long hext rest output
    split_ifs at hread with hlong
    · exact bind_error hread
    · rw [bind_ok hread]
      rfl
  · have hshort : n.toNat < 126 := by
      have h1' : n.toNat ≠ 126 := fun h => h1 (UInt8.toNat_inj.mp h)
      have h2' : n.toNat ≠ 127 := fun h => h2 (UInt8.toNat_inj.mp h)
      omega
    rw [bind_ok (readLength_short hshort _)]
    rfl

/-- A frame that is too long is refused, with or without a mask. -/
theorem getWebsocketData_long {n : UInt8} {ext : Bytes} (hn : n &&& 0x7f = 127)
    (hext : ext.length = 8) (hlong : 2 ^ 40 < bigEndian ext) (rest output : Bytes) :
    getWebsocketData ⟨n :: (ext ++ rest), output⟩ = .error .silent := by
  have hread := readLength_long hext rest output
  rw [if_pos hlong] at hread
  rw [getWebsocketData, bind_ok (readByte_cons _ _ output), hn, bind_error hread]

/-- The first byte of the next frame, and what follows from it. -/
def nextFrame (rounds : ℕ) : WebReader UInt8 := do
  let fop ← readByte
  controlFrames rounds (fop &&& 0xf)

/-- Pings and pongs are passed over, and the pings are answered. -/
theorem nextFrame_wire (fs : List ClientFrame)
    (h : ∀ f ∈ fs, (f.opcode = 9 ∨ f.opcode = 0xa) ∧ f.payload.length ≤ 2 ^ 40)
    (rounds : ℕ) (rest output : Bytes) :
    nextFrame (rounds + fs.length) ⟨wire fs ++ rest, output⟩ =
      nextFrame rounds ⟨rest, output ++ pongs fs⟩ := by
  induction fs generalizing output with
  | nil => simp [wire, pongs]
  | cons f fs ih =>
    obtain ⟨hf, hfs⟩ := List.forall_mem_cons.mp h
    have hwire : wire (f :: fs) ++ rest = f.head :: (f.bytes.tail ++ (wire fs ++ rest)) := by
      simp [wire, ClientFrame.bytes]
    have hpongs : pongs (f :: fs) =
        (if f.opcode = 9 then pongHeader f.payload.length ++ f.payload else []) ++ pongs fs := by
      simp [pongs]
    have hcontrol : f.head &&& 0xf = 9 ∨ f.head &&& 0xf = 0xa := hf.1
    rw [hwire, hpongs, ← List.append_assoc output, ← ih hfs]
    -- one round reads a whole frame, and the rest is the next round
    show (readByte >>= fun fop => controlFrames (rounds + fs.length + 1) (fop &&& 0xf)) _ = _
    rw [bind_ok (readByte_cons _ _ output), controlFrames, if_pos hcontrol,
      bind_ok (getWebsocketData_bytes f hf.2 _ output), bind_ok (sendPong_run _ _ _)]
    rfl

/-- What `getWebsocketLine` makes of the opcode. -/
def lineData (opcode : UInt8) : WebReader Bytes :=
  if opcode = 8 then throw .silent
  else if opcode ≠ 1 then throw .silent
  else getWebsocketData

/-- A line is what the first frame makes of it that is neither a ping nor a pong. -/
theorem getWebsocketLine_wire {fs : List ClientFrame}
    (h : ∀ f ∈ fs, (f.opcode = 9 ∨ f.opcode = 0xa) ∧ f.payload.length ≤ 2 ^ 40)
    (op : UInt8) (rest output : Bytes) : ∃ rounds,
    getWebsocketLine ⟨wire fs ++ op :: rest, output⟩ =
      (controlFrames (rounds + 1) (op &&& 0xf) >>= lineData) ⟨rest, output ++ pongs fs⟩ := by
  -- each frame has bytes, so there are more rounds than pings and pongs
  have hlength : ∃ rounds, (wire fs ++ op :: rest).length = rounds + 1 + fs.length := by
    have hwire : fs.length ≤ (wire fs).length := by
      rw [wire, List.length_flatten, List.map_map]
      have hone : ∀ n ∈ fs.map (List.length ∘ ClientFrame.bytes), 1 ≤ n := by
        intro n hn
        obtain ⟨f, -, rfl⟩ := List.mem_map.mp hn
        simp [ClientFrame.bytes]
      simpa using List.length_le_sum_of_one_le _ hone
    refine ⟨(wire fs).length + rest.length - fs.length, ?_⟩
    rw [List.length_append, List.length_cons]
    omega
  obtain ⟨rounds, hrounds⟩ := hlength
  refine ⟨rounds, ?_⟩
  -- the loop starts with the first byte that is read
  have hline : getWebsocketLine ⟨wire fs ++ op :: rest, output⟩ =
      (nextFrame (wire fs ++ op :: rest).length >>= lineData) ⟨wire fs ++ op :: rest, output⟩ := by
    rw [nextFrame, bind_assoc]
    rfl
  have hnext : (nextFrame (rounds + 1) >>= lineData) ⟨op :: rest, output ++ pongs fs⟩ =
      (controlFrames (rounds + 1) (op &&& 0xf) >>= lineData) ⟨rest, output ++ pongs fs⟩ := by
    rw [nextFrame, bind_assoc, bind_ok (readByte_cons _ _ _)]
  rw [hline, hrounds, ← hnext]
  show (nextFrame _ _).bind (fun p => lineData p.1 p.2) =
    (nextFrame _ _).bind fun p => lineData p.1 p.2
  rw [nextFrame_wire fs h]

section Lines

variable {fs : List ClientFrame}
  (h : ∀ f ∈ fs, (f.opcode = 9 ∨ f.opcode = 0xa) ∧ f.payload.length ≤ 2 ^ 40)
include h

theorem getWebsocketLine_text {f : ClientFrame} (hf : f.opcode = 1)
    (hlength : f.payload.length ≤ 2 ^ 40) (rest output : Bytes) :
    getWebsocketLine ⟨wire fs ++ (f.bytes ++ rest), output⟩ =
      .ok (f.payload, ⟨rest, output ++ pongs fs⟩) := by
  have hbytes : f.bytes ++ rest = f.head :: (f.bytes.tail ++ rest) := by simp [ClientFrame.bytes]
  have hhead : f.head &&& 0xf = 1 := hf
  obtain ⟨rounds, hrun⟩ := getWebsocketLine_wire h f.head (f.bytes.tail ++ rest) output
  rw [hbytes, hrun, hhead, controlFrames, if_neg (by decide)]
  exact getWebsocketData_bytes f hlength rest _

/-- A frame that is none of the three kinds ends the connection. -/
theorem getWebsocketLine_other {op : UInt8} (hop : op &&& 0xf ≠ 1) (hping : op &&& 0xf ≠ 9)
    (hpong : op &&& 0xf ≠ 0xa) (rest output : Bytes) :
    getWebsocketLine ⟨wire fs ++ op :: rest, output⟩ = .error .silent := by
  obtain ⟨rounds, hrun⟩ := getWebsocketLine_wire h op rest output
  rw [hrun, controlFrames, if_neg (not_or.mpr ⟨hping, hpong⟩)]
  show lineData (op &&& 0xf) _ = _
  rw [lineData]
  split_ifs <;> rfl

/-- So does one whose data cannot be had. -/
theorem getWebsocketLine_refused {op : UInt8} {rest : Bytes}
    (hdata : ∀ output, getWebsocketData ⟨rest, output⟩ = .error .silent) (output : Bytes) :
    getWebsocketLine ⟨wire fs ++ op :: rest, output⟩ = .error .silent := by
  by_cases hcontrol : op &&& 0xf = 9 ∨ op &&& 0xf = 0xa
  · obtain ⟨rounds, hrun⟩ := getWebsocketLine_wire h op rest output
    rw [hrun, controlFrames, if_pos hcontrol]
    exact bind_error (bind_error (hdata _))
  · by_cases htext : op &&& 0xf = 1
    · obtain ⟨rounds, hrun⟩ := getWebsocketLine_wire h op rest output
      rw [hrun, controlFrames, if_neg hcontrol, htext]
      exact hdata _
    · rw [not_or] at hcontrol
      exact getWebsocketLine_other h htext hcontrol.1 hcontrol.2 rest output

end Lines

/-- After any pings and pongs a masked text frame is decoded exactly; a close frame or any other
opcode, an unmasked frame and a length above the limit end the connection. -/
theorem getWebsocketLine_decodes {fs : List ClientFrame}
    (h : ∀ f ∈ fs, (f.opcode = 9 ∨ f.opcode = 0xa) ∧ f.payload.length ≤ 125) (output : Bytes) :
    (∀ (f : ClientFrame) rest, f.opcode = 1 → f.payload.length ≤ 2 ^ 40 →
      getWebsocketLine ⟨wire fs ++ (f.bytes ++ rest), output⟩ =
        .ok (f.payload, ⟨rest, output ++ pongs fs⟩)) ∧
    (∀ op rest, op &&& 0xf ≠ 1 → op &&& 0xf ≠ 9 → op &&& 0xf ≠ 0xa →
      getWebsocketLine ⟨wire fs ++ op :: rest, output⟩ = .error .silent) ∧
    (∀ op (n : UInt8) (ext rest : Bytes), n.toNat < 128 →
      (ext.length = if n = 126 then 2 else if n = 127 then 8 else 0) →
      getWebsocketLine ⟨wire fs ++ op :: n :: (ext ++ rest), output⟩ = .error .silent) ∧
    (∀ op (n : UInt8) (ext rest : Bytes), n &&& 0x7f = 127 → ext.length = 8 →
      2 ^ 40 < bigEndian ext →
      getWebsocketLine ⟨wire fs ++ op :: n :: (ext ++ rest), output⟩ = .error .silent) ∧
    ∀ mask data, unmask (loadWord mask 0) data = xorMask mask data := by
  have hlong : ∀ f ∈ fs, (f.opcode = 9 ∨ f.opcode = 0xa) ∧ f.payload.length ≤ 2 ^ 40 := by
    intro f hf
    exact ⟨(h f hf).1, (h f hf).2.trans (by decide)⟩
  refine ⟨?_, ?_, ?_, ?_, unmask_loadWord⟩
  · intro f rest hf hlength
    exact getWebsocketLine_text hlong hf hlength rest output
  · intro op rest hop hping hpong
    exact getWebsocketLine_other hlong hop hping hpong rest output
  · intro op n ext rest hn hext
    exact getWebsocketLine_refused hlong (getWebsocketData_unmasked hn hext rest) output
  · intro op n ext rest hn hext hlength
    exact getWebsocketLine_refused hlong (getWebsocketData_long hn hext hlength rest) output

/-- A short frame with the mask of the test. -/
def shortFrame (head : UInt8) (payload : Bytes) (h : payload.length ≤ 125) : ClientFrame :=
  ⟨head, .bits7, [0x12, 0x34, 0x56, 0x78], payload, rfl, h⟩

def pingHi : ClientFrame := shortFrame 0x89 (ascii "hi") (by decide)

def textHello : ClientFrame := shortFrame 0x81 (ascii "hello") (by decide)

theorem getWebsocketLine_decodes_hello :
    getWebsocketLine ⟨wire [pingHi] ++ (textHello.bytes ++ [0x88]), []⟩ =
      .ok (ascii "hello", ⟨[0x88], [0x8a, 2, 104, 105]⟩) := by
  have hpings : ∀ f ∈ [pingHi], (f.opcode = 9 ∨ f.opcode = 0xa) ∧ f.payload.length ≤ 125 := by
    simp only [List.forall_mem_singleton]
    decide
  have hpongs : pongs [pingHi] = [0x8a, 2, 104, 105] := by decide
  rw [(getWebsocketLine_decodes hpings []).1 textHello [0x88] (by decide) (by decide), hpongs]
  rfl

end CogServer
