import CogServer.ClientFrames

/-! How a client decodes what the server writes: the frames of `Send`, and the pongs. -/
namespace CogServer

/-- A frame of the server: its first byte, with the FIN bit and the opcode, and its payload. -/
structure ServerFrame where
  head : UInt8
  payload : Bytes
  deriving DecidableEq, Repr

namespace ServerFrame

/-- The first byte and the length of a frame are as they have to be: the reserved bits are zero, and
a control frame is final and short. -/
def wellFormed (head : UInt8) (paylen : ℕ) : Bool :=
  head &&& 0x70 = 0 && (head &&& 0x8 = 0 || head &&& 0x80 ≠ 0 && paylen ≤ 125)

end ServerFrame

/-- The length of an unmasked frame, and what follows it. A length has to be written in the shortest
form. -/
def parseLength : Bytes → Option (ℕ × Bytes)
  | [] => none
  | n :: rest =>
    if n.toNat < 126 then some (n.toNat, rest)
    else if n = 126 then
      if 2 ≤ rest.length ∧ 126 ≤ bigEndian (rest.take 2) then
        some (bigEndian (rest.take 2), rest.drop 2)
      else none
    else if n = 127 then
      if 8 ≤ rest.length ∧ 65536 ≤ bigEndian (rest.take 8) ∧ bigEndian (rest.take 8) < 2 ^ 63 then
        some (bigEndian (rest.take 8), rest.drop 8)
      else none
    else none

/-- The frame at the start of a stream, and the rest of the stream. -/
def parseFrame : Bytes → Option (ServerFrame × Bytes)
  | [] => none
  | head :: rest =>
    match parseLength rest with
    | none => none
    | some (paylen, rest) =>
      if ServerFrame.wellFormed head paylen && decide (paylen ≤ rest.length) then
        some (⟨head, rest.take paylen⟩, rest.drop paylen)
      else none

/-- All frames of a stream, at most `fuel` of them, if nothing is left over. -/
def parseFrames : ℕ → Bytes → Option (List ServerFrame)
  | _, [] => some []
  | 0, _ :: _ => none
  | fuel + 1, c :: b =>
    match parseFrame (c :: b) with
    | none => none
    | some (f, rest) => (parseFrames fuel rest).map (f :: ·)

/-- A stream has no more frames than bytes. -/
def decodeStream (b : Bytes) : Option (List ServerFrame) := parseFrames b.length b

/-- `send_websocket` -/
def sendWebsocket (cmd : Bytes) : Bytes := dataHeader cmd.length ++ cmd

/-- `Send` of a string, on a socket with frames. -/
def sendFramed (cmd : Bytes) : Bytes := if sendable cmd then sendWebsocket cmd else []

/-- What a data header announces. -/
theorem parseLength_dataHeader {n : ℕ} (h : n < 2 ^ 63) (rest : Bytes) :
    ∃ len, dataHeader n = 0x81 :: len ∧ parseLength (len ++ rest) = some (n, rest) := by
  unfold dataHeader
  split_ifs with h1 h2
  · -- in the second byte
    refine ⟨_, rfl, ?_⟩
    have hn : (UInt8.ofNat n).toNat = n := by
      rw [UInt8.toNat_ofNat']
      omega
    show parseLength (UInt8.ofNat n :: rest) = _
    rw [parseLength, hn, if_pos h1]
  · -- in two more bytes, which is too much for less than 126
    refine ⟨_, rfl, ?_⟩
    have hvalue : bigEndian [lengthByte n 8, lengthByte n 0] = n :=
      bigEndian_extension (show LengthForm.fits .bits16 n from h2) (by decide)
    show parseLength (126 :: ([lengthByte n 8, lengthByte n 0] ++ rest)) = _
    rw [parseLength, if_neg (by decide), if_pos rfl, List.take_append_of_le_length (by simp),
      List.take_of_length_le (by simp), hvalue, if_pos ⟨by simp, by omega⟩]
    rfl
  · -- in eight more bytes, which is too much for less than 65536
    refine ⟨_, rfl, ?_⟩
    have hfits : LengthForm.fits .bits64 n := by
      show n < 2 ^ 64
      omega
    have hvalue := bigEndian_extension hfits (by decide)
    show parseLength (127 :: (LengthForm.extension .bits64 n ++ rest)) = _
    rw [parseLength, if_neg (by decide), if_neg (by decide), if_pos rfl,
      List.take_append_of_le_length (by simp [LengthForm.extension]),
      List.take_of_length_le (by simp [LengthForm.extension]), hvalue,
      if_pos ⟨by simp [LengthForm.extension], by omega, h⟩]
    rfl

/-- A data frame is decoded as one final text frame. -/
theorem parseFrame_sendWebsocket {cmd : Bytes} (h : cmd.length < 2 ^ 63) (rest : Bytes) :
    parseFrame (sendWebsocket cmd ++ rest) = some (⟨0x81, cmd⟩, rest) := by
  obtain ⟨len, hheader, hlen⟩ := parseLength_dataHeader h (cmd ++ rest)
  have hwell : ServerFrame.wellFormed 0x81 cmd.length = true := rfl
  rw [sendWebsocket, hheader, List.append_assoc, List.cons_append, parseFrame, hlen]
  simp [hwell]

/-- More fuel does not change what is decoded. -/
theorem parseFrames_succ {fuel : ℕ} {b : Bytes} {fs : List ServerFrame}
    (h : parseFrames fuel b = some fs) : parseFrames (fuel + 1) b = some fs := by
  induction fuel generalizing b fs with
  | zero =>
    cases b with
    | nil => exact h
    | cons c b => cases h
  | succ fuel ih =>
    cases b with
    | nil => exact h
    | cons c b =>
      rw [parseFrames] at h ⊢
      cases hframe : parseFrame (c :: b) with
      | none =>
        rw [hframe] at h
        cases h
      | some r =>
        rw [hframe] at h
        obtain ⟨gs, hgs, rfl⟩ := Option.map_eq_some_iff.mp h
        simp [ih hgs]

theorem parseFrames_le {fuel fuel' : ℕ} (hle : fuel ≤ fuel') {b : Bytes} {fs : List ServerFrame}
    (h : parseFrames fuel b = some fs) : parseFrames fuel' b = some fs := by
  induction fuel', hle using Nat.le_induction with
  | base => exact h
  | succ n _ ih => exact parseFrames_succ ih

/-- A stream is decoded frame by frame. -/
theorem decodeStream_append {b rest : Bytes} {f : ServerFrame} {fs : List ServerFrame} (hb : b ≠ [])
    (hframe : parseFrame (b ++ rest) = some (f, rest)) (hrest : decodeStream rest = some fs) :
    decodeStream (b ++ rest) = some (f :: fs) := by
  cases b with
  | nil => exact absurd rfl hb
  | cons c b =>
    have hfuel : rest.length ≤ (b ++ rest).length := by simp
    show parseFrames ((b ++ rest).length + 1) (c :: (b ++ rest)) = _
    rw [parseFrames]
    rw [List.cons_append] at hframe
    rw [hframe]
    show (parseFrames (b ++ rest).length rest).map (f :: ·) = _
    -- the rest of the stream has no more frames than it has bytes
    rw [parseFrames_le hfuel hrest]
    rfl

/-- A client decodes exactly the strings that are neither empty nor a lone newline, each as one
final text frame with the shortest length, and nothing is left over. -/
theorem decodeStream_send (cmds : List Bytes) (h : ∀ cmd ∈ cmds, cmd.length < 2 ^ 63) :
    decodeStream (cmds.map sendFramed).flatten =
      some ((cmds.filter fun cmd => cmd ≠ [] ∧ cmd ≠ [newline]).map fun cmd => ⟨0x81, cmd⟩) := by
  induction cmds with
  | nil => rfl
  | cons cmd cmds ih =>
    obtain ⟨hcmd, hcmds⟩ := List.forall_mem_cons.mp h
    have hrest := ih hcmds
    rw [List.map_cons, List.flatten_cons, sendFramed]
    by_cases hsend : sendable cmd
    · -- a string that is sent is a frame
      have hkeep : cmd ≠ [] ∧ cmd ≠ [newline] := by simpa [sendable] using hsend
      rw [if_pos hsend, List.filter_cons_of_pos (by simpa using hkeep), List.map_cons]
      refine decodeStream_append ?_ (parseFrame_sendWebsocket hcmd _) hrest
      simp [sendWebsocket, hkeep.1]
    · -- one that is not sent leaves nothing on the wire
      have hdrop : ¬ (cmd ≠ [] ∧ cmd ≠ [newline]) := by simpa [sendable] using hsend
      rw [if_neg hsend, List.nil_append, List.filter_cons_of_neg (by simpa using hdrop)]
      exact hrest

/-- Two strings that are sent, and two that are not. -/
theorem decodeStream_send_two :
    decodeStream ([ascii "hi", [], [newline], ascii "ok"].map sendFramed).flatten =
      some [⟨0x81, ascii "hi"⟩, ⟨0x81, ascii "ok"⟩] :=
  decodeStream_send [ascii "hi", [], [newline], ascii "ok"] (by decide)

/-- A control frame that is decoded is short. -/
theorem length_of_parseFrame {b rest : Bytes} {f : ServerFrame} (h : parseFrame b = some (f, rest))
    (hcontrol : f.head &&& 0x8 ≠ 0) : f.payload.length ≤ 125 := by
  cases b with
  | nil => cases h
  | cons head b =>
    rw [parseFrame] at h
    cases hlen : parseLength b with
    | none =>
      rw [hlen] at h
      cases h
    | some r =>
      simp only [hlen] at h
      split at h
      · rename_i hwell
        obtain ⟨rfl, -⟩ := Prod.mk.inj (Option.some.inj h)
        simp only [ServerFrame.wellFormed, Bool.and_eq_true, Bool.or_eq_true, decide_eq_true_eq]
          at hwell
        rw [List.length_take]
        exact (Nat.min_le_left ..).trans (hwell.1.2.resolve_left hcontrol).2
      · cases h

theorem length_of_parseFrames {fuel : ℕ} {b : Bytes} {fs : List ServerFrame}
    (h : parseFrames fuel b = some fs) : ∀ f ∈ fs, f.head &&& 0x8 ≠ 0 → f.payload.length ≤ 125 := by
  induction fuel generalizing b fs with
  | zero =>
    cases b with
    | nil =>
      obtain rfl := Option.some.inj h
      simp
    | cons c b => cases h
  | succ fuel ih =>
    cases b with
    | nil =>
      obtain rfl := Option.some.inj h
      simp
    | cons c b =>
      rw [parseFrames] at h
      cases hframe : parseFrame (c :: b) with
      | none =>
        rw [hframe] at h
        cases h
      | some r =>
        rw [hframe] at h
        obtain ⟨gs, hgs, rfl⟩ := Option.map_eq_some_iff.mp h
        exact List.forall_mem_cons.mpr ⟨length_of_parseFrame hframe, ih hgs⟩

/-- A short pong is decoded as it was meant. -/
theorem parseFrame_pong {pingd : Bytes} (h : pingd.length ≤ 125) (rest : Bytes) :
    parseFrame (pongHeader pingd.length ++ pingd ++ rest) = some (⟨0x8a, pingd⟩, rest) := by
  have hn : (UInt8.ofNat pingd.length).toNat = pingd.length := by
    rw [UInt8.toNat_ofNat']
    omega
  have hlen : parseLength (UInt8.ofNat pingd.length :: (pingd ++ rest)) =
      some (pingd.length, pingd ++ rest) := by
    rw [parseLength, hn, if_pos (by omega)]
  have hwell : ServerFrame.wellFormed 0x8a pingd.length = true := by
    simp only [ServerFrame.wellFormed, h, decide_true, Bool.and_true]
    decide
  show parseFrame (0x8a :: (UInt8.ofNat pingd.length :: (pingd ++ rest))) = _
  rw [parseFrame, hlen]
  simp [hwell]

/-- The pongs are well-formed, and echo the pings, exactly when all pings are short. -/
theorem decodeStream_pongs (pings : List Bytes) :
    decodeStream (pings.map fun pingd => pongHeader pingd.length ++ pingd).flatten =
      some (pings.map fun pingd => ⟨0x8a, pingd⟩) ↔ ∀ pingd ∈ pings, pingd.length ≤ 125 := by
  constructor
  · intro h pingd hpingd
    -- a longer pong is not decoded at all
    have hcontrol : (0x8a : UInt8) &&& 0x8 ≠ 0 := by decide
    exact length_of_parseFrames h ⟨0x8a, pingd⟩ (List.mem_map.mpr ⟨pingd, hpingd, rfl⟩) hcontrol
  · intro h
    induction pings with
    | nil => rfl
    | cons pingd pings ih =>
      obtain ⟨hpingd, hpings⟩ := List.forall_mem_cons.mp h
      rw [List.map_cons, List.flatten_cons, List.map_cons]
      exact decodeStream_append (by simp [pongHeader]) (parseFrame_pong hpingd _) (ih hpings)

/-- Before a text frame, what `get_websocket_line` writes is one pong for each ping, with its
payload, exactly when no ping is longer than a control frame may be. -/
theorem pongs_echo {pings : List ClientFrame} {f : ClientFrame}
    (hpings : ∀ p ∈ pings, p.opcode = 9 ∧ p.payload.length ≤ 2 ^ 40) (hf : f.opcode = 1)
    (hlength : f.payload.length ≤ 2 ^ 40) (rest : Bytes) :
    ∃ output, getWebsocketLine ⟨wire pings ++ (f.bytes ++ rest), []⟩ =
        .ok (f.payload, ⟨rest, output⟩) ∧
      (decodeStream output = some (pings.map fun p => ⟨0x8a, p.payload⟩) ↔
        ∀ p ∈ pings, p.payload.length ≤ 125) := by
  have hcontrol : ∀ p ∈ pings, (p.opcode = 9 ∨ p.opcode = 0xa) ∧ p.payload.length ≤ 2 ^ 40 :=
    fun p hp => ⟨.inl (hpings p hp).1, (hpings p hp).2⟩
  have hpongs : pongs pings = ((pings.map (·.payload)).map fun pingd =>
      pongHeader pingd.length ++ pingd).flatten := by
    rw [pongs, List.map_map]
    congr 1
    apply List.map_congr_left
    intro p hp
    rw [if_pos (hpings p hp).1]
    rfl
  refine ⟨pongs pings, getWebsocketLine_text hcontrol hf hlength rest [], ?_⟩
  have hdecode := decodeStream_pongs (pings.map (·.payload))
  rw [← hpongs, List.map_map, List.forall_mem_map] at hdecode
  exact hdecode

/-- A ping whose length takes two more bytes. -/
def longPing : ClientFrame where
  head := 0x89
  form := .bits16
  mask := [0, 0, 0, 0]
  payload := List.replicate 126 0
  mask_length := rfl
  fits := by
    show (List.replicate 126 (0 : UInt8)).length < 2 ^ 16
    rw [List.length_replicate]
    decide

/-- Its answer is no well-formed frame. -/
theorem pongs_malformed :
    getWebsocketLine ⟨wire [longPing] ++ (textHello.bytes ++ []), []⟩ =
        .ok (ascii "hello", ⟨[], pongs [longPing]⟩) ∧
      decodeStream (pongs [longPing]) ≠ some [⟨0x8a, longPing.payload⟩] := by
  refine ⟨getWebsocketLine_text ?_ (by decide) (by decide) [] [], ?_⟩
  · simp only [List.forall_mem_singleton]
    exact ⟨.inl (by decide), by simp [longPing]⟩
  · intro h
    have hshort := length_of_parseFrames h _ (List.mem_singleton_self _) (by decide)
    simp [longPing] at hshort

theorem pongs_echo_hi : ∃ output,
    getWebsocketLine ⟨wire [pingHi] ++ (textHello.bytes ++ []), []⟩ =
        .ok (ascii "hello", ⟨[], output⟩) ∧
      (decodeStream output = some [⟨0x8a, ascii "hi"⟩] ↔ ∀ p ∈ [pingHi], p.payload.length ≤ 125) :=
  pongs_echo (by simp only [List.forall_mem_singleton]; decide) (by decide) (by decide) []

end CogServer
