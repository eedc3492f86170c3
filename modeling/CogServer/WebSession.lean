import CogServer.ServerFrames
import CogServer.HttpFraming

/-! A websocket connection after its handshake: which byte streams it takes, and what `OnLine` gets
of them. -/
namespace CogServer

section Reads

variable {α β : Type} {x : WebReader α} {f : α → WebReader β} {s u : WebStream} {b : β}

theorem ok_of_bind (h : (x >>= f) s = .ok (b, u)) : ∃ a t, x s = .ok (a, t) ∧ f a t = .ok (b, u) := by
  have h : (x s).bind (fun p => f p.1 p.2) = .ok (b, u) := h
  cases hx : x s with
  | error e =>
    rw [hx] at h
    cases h
  | ok p =>
    rw [hx] at h
    exact ⟨p.1, p.2, rfl, h⟩

/-- What was read stood at the front of the input. -/
theorem ok_of_asioRead {n : ℕ} {d : Bytes} (h : asioRead n s = .ok (d, u)) :
    d.length = n ∧ s.input = d ++ u.input ∧ u.output = s.output := by
  unfold asioRead at h
  split at h
  · cases h
  · cases h
    refine ⟨?_, (List.take_append_drop ..).symm, rfl⟩
    rw [List.length_take]
    omega

theorem ok_of_readByte {c : UInt8} (h : readByte s = .ok (c, u)) :
    s.input = c :: u.input ∧ u.output = s.output := by
  obtain ⟨d, t, hread, hpure⟩ := ok_of_bind h
  obtain ⟨hlength, hinput, houtput⟩ := ok_of_asioRead hread
  obtain ⟨c', rfl⟩ := List.length_eq_one_iff.mp hlength
  cases hpure
  exact ⟨hinput, houtput⟩

end Reads

/-- Numbers of the same size are equal byte by byte. -/
theorem bigEndian_inj {a b : Bytes} (hlength : a.length = b.length) (h : bigEndian a = bigEndian b) :
    a = b := by
  induction a using List.reverseRecOn generalizing b with
  | nil => exact (List.length_eq_zero_iff.mp hlength.symm).symm
  | append_singleton a c ih =>
    rcases List.eq_nil_or_concat b with rfl | ⟨b, d, rfl⟩
    · simp at hlength
    · have hstep : ∀ (s : Bytes) (c : UInt8), bigEndian (s ++ [c]) = 256 * bigEndian s + c.toNat := by
        intro s c
        simp [bigEndian]
      have hc := c.toNat_lt
      have hd := d.toNat_lt
      rw [List.concat_eq_append, hstep, hstep] at h
      have hlast : c = d := UInt8.toNat_inj.mp (by omega)
      rw [List.concat_eq_append, hlast, ih (by simpa using hlength) (by omega)]

/-- The length that was read was written in one of the three forms. -/
theorem ok_of_readLength {code : UInt8} (hcode : code.toNat < 128) {n : ℕ} {s u : WebStream}
    (h : readLength code s = .ok (n, u)) :
    ∃ form : LengthForm, form.fits n ∧ n ≤ 2 ^ 40 ∧ form.code n = code.toNat ∧
      s.input = form.extension n ++ u.input ∧ u.output = s.output := by
  have hext : ∀ {form : LengthForm} {ext : Bytes}, form.fits (bigEndian ext) → form ≠ .bits7 →
      (form.extension (bigEndian ext)).length = ext.length → form.extension (bigEndian ext) = ext :=
    fun hfits hform hlength => bigEndian_inj hlength (bigEndian_extension hfits hform)
  rw [readLength] at h
  split at h
  · next hshort =>
    obtain ⟨ext, t, hread, hpure⟩ := ok_of_bind h
    obtain ⟨hlength, hinput, houtput⟩ := ok_of_asioRead hread
    cases hpure
    have hlt := bigEndian_lt ext
    rw [hlength] at hlt
    have hfits : LengthForm.fits .bits16 (bigEndian ext) := hlt
    refine ⟨.bits16, hfits, by omega, by rw [hshort]; rfl, ?_, houtput⟩
    rw [hext hfits (by decide) hlength.symm, hinput]
  · split at h
    · next hlong =>
      obtain ⟨hi, t, hread, h⟩ := ok_of_bind h
      obtain ⟨lo, t', hread', h⟩ := ok_of_bind h
      obtain ⟨hhi, hinput, houtput⟩ := ok_of_asioRead hread
      obtain ⟨hlo, hinput', houtput'⟩ := ok_of_asioRead hread'
      dsimp only at h
      rw [bigEndian_halves hlo] at h
      split at h
      · cases h
      · next hsane =>
        cases h
        have hlength : (hi ++ lo).length = 8 := by rw [List.length_append, hhi, hlo]
        have hsane : bigEndian (hi ++ lo) ≤ 2 ^ 40 := Nat.not_lt.mp hsane
        have hfits : LengthForm.fits .bits64 (bigEndian (hi ++ lo)) :=
          Nat.lt_of_le_of_lt hsane (by decide)
        refine ⟨.bits64, hfits, hsane, by rw [hlong]; rfl, ?_, houtput'.trans houtput⟩
        rw [hext hfits (by decide) hlength.symm, hinput, hinput', List.append_assoc]
    · next hmedium hlong =>
      cases h
      have hle : code.toNat ≤ 125 := by
        have hmedium' : code.toNat ≠ 126 := fun h => hmedium (UInt8.toNat_inj.mp h)
        have hlong' : code.toNat ≠ 127 := fun h => hlong (UInt8.toNat_inj.mp h)
        omega
      exact ⟨.bits7, hle, by omega, rfl, rfl, rfl⟩

/-- Data that was read were those of a masked frame, whatever its first byte. -/
theorem ok_of_getWebsocketData {d : Bytes} {s u : WebStream} (head : UInt8)
    (h : getWebsocketData s = .ok (d, u)) : ∃ f : ClientFrame, f.head = head ∧ f.payload = d ∧
      d.length ≤ 2 ^ 40 ∧ head :: s.input = f.bytes ++ u.input ∧ u.output = s.output := by
  obtain ⟨mpay, t, hmpay, h⟩ := ok_of_bind h
  obtain ⟨n, t', hlen, h⟩ := ok_of_bind h
  obtain ⟨hinput, houtput⟩ := ok_of_readByte hmpay
  obtain ⟨form, hfits, hn, hcode, hinput', houtput'⟩ :=
    ok_of_readLength (by rw [toNat_and_7f]; omega) hlen
  split at h
  · cases h
  · next hmasked =>
    obtain ⟨mask, v, hmask, h⟩ := ok_of_bind h
    obtain ⟨blob, v', hblob, h⟩ := ok_of_bind h
    cases h
    obtain ⟨hmask, hinput'', houtput''⟩ := ok_of_asioRead hmask
    obtain ⟨rfl, hinput3, houtput3⟩ := ok_of_asioRead hblob
    rw [unmask_loadWord]
    have hlength : (xorMask mask blob).length = blob.length := length_xorMask mask blob
    refine ⟨⟨head, form, mask, xorMask mask blob, hmask, by rw [hlength]; exact hfits⟩, rfl, rfl,
      hlength ▸ hn, ?_, by rw [houtput3, houtput'', houtput', houtput]⟩
    -- the mask bit was tested, and the other bits are those of the length
    have hbyte : UInt8.ofNat (128 + form.code blob.length) = mpay := by
      rw [and_80_eq_zero] at hmasked
      apply UInt8.toNat_inj.mp
      rw [toNat_and_7f] at hcode
      have hlt := mpay.toNat_lt
      rw [hcode, UInt8.toNat_ofNat']
      omega
    simp only [ClientFrame.bytes, hlength, hbyte, xorMask_xorMask, hinput, hinput', hinput'', hinput3,
      List.cons_append, List.append_assoc]

/-- The frames that `get_websocket_line` passes over. -/
def ClientFrame.Control (f : ClientFrame) : Prop :=
  (f.opcode = 9 ∨ f.opcode = 0xa) ∧ f.payload.length ≤ 2 ^ 40

/-- The frames whose payload it returns. -/
def ClientFrame.Text (f : ClientFrame) : Prop := f.opcode = 1 ∧ f.payload.length ≤ 2 ^ 40

/-- What the loop over pings and pongs took from the input were pings and pongs. -/
theorem ok_of_controlFrames {rounds : ℕ} {head op : UInt8} {s u : WebStream}
    (h : controlFrames rounds (head &&& 0xf) s = .ok (op, u)) :
    ∃ (fs : List ClientFrame) (last : UInt8), (∀ f ∈ fs, f.Control) ∧ last &&& 0xf = op ∧
      head :: s.input = wire fs ++ last :: u.input ∧ u.output = s.output ++ pongs fs := by
  induction rounds generalizing head s with
  | zero => cases h
  | succ rounds ih =>
    rw [controlFrames] at h
    split at h
    · next hcontrol =>
      obtain ⟨d, t, hdata, hthen⟩ := ok_of_bind h
      obtain ⟨f, rfl, rfl, hlength, hinput, houtput⟩ := ok_of_getWebsocketData head hdata
      rw [bind_ok (sendPong_run _ _ _)] at hthen
      obtain ⟨next, t', hnext, hloop⟩ := ok_of_bind hthen
      obtain ⟨hinput', houtput'⟩ := ok_of_readByte hnext
      obtain ⟨fs, last, hfs, hlast, hrest, hout⟩ := ih hloop
      refine ⟨f :: fs, last, List.forall_mem_cons.mpr ⟨⟨hcontrol, hlength⟩, hfs⟩, hlast, ?_, ?_⟩
      · have hwire : wire (f :: fs) = f.bytes ++ wire fs := by simp [wire]
        rw [hinput, hwire, List.append_assoc, ← hrest]
        exact congrArg _ hinput'
      · have hpongs : pongs (f :: fs) =
            (if f.opcode = 9 then pongHeader f.payload.length ++ f.payload else []) ++ pongs fs := by
          simp [pongs]
        rw [hout, houtput', houtput, hpongs, List.append_assoc]
        rfl
    · cases h
      exact ⟨[], head, by simp, rfl, rfl, by simp [pongs]⟩

/-- A line is read exactly if pings and pongs stand in front of the input, and then a text frame. -/
theorem getWebsocketLine_iff {line : Bytes} {s u : WebStream} :
    getWebsocketLine s = .ok (line, u) ↔ ∃ fs f, (∀ c ∈ fs, ClientFrame.Control c) ∧
      ClientFrame.Text f ∧ f.payload = line ∧ s.input = wire fs ++ (f.bytes ++ u.input) ∧
      u.output = s.output ++ pongs fs := by
  constructor
  · intro h
    obtain ⟨s', t, hget, h⟩ := ok_of_bind h
    cases hget
    obtain ⟨fop, t, hfop, h⟩ := ok_of_bind h
    obtain ⟨op, t', hcontrol, h⟩ := ok_of_bind h
    obtain ⟨hinput, houtput⟩ := ok_of_readByte hfop
    obtain ⟨fs, last, hfs, rfl, hinput', houtput'⟩ := ok_of_controlFrames hcontrol
    split at h
    · cases h
    split at h
    · cases h
    next hclose htext =>
      obtain ⟨f, rfl, rfl, hlength, hinput'', houtput''⟩ := ok_of_getWebsocketData last h
      refine ⟨fs, f, hfs, ⟨not_not.mp htext, hlength⟩, rfl, ?_, ?_⟩
      · rw [hinput, hinput', hinput'']
      · rw [houtput'', houtput', houtput]
  · rintro ⟨fs, f, hfs, hf, rfl, hinput, houtput⟩
    obtain ⟨input, output⟩ := s
    obtain ⟨input', output'⟩ := u
    dsimp only at hinput houtput
    subst hinput houtput
    exact getWebsocketLine_text hfs hf.1 hf.2 input' output

/-- The loop of `handle_connection` on a websocket: the lines that `OnLine` gets, each with what the
reader has written before. Each line takes bytes of the input. -/
def webLoop : ℕ → WebStream → List (Bytes × Bytes)
  | 0, _ => []
  | fuel + 1, s =>
    match getWebsocketLine s with
    | .error _ => []
    | .ok (line, t) =>
      -- the greeting of the D-Bus daemon ends the loop
      if [0x1, 0x21] <+: line then [] else (stripReturn line, t.output) :: webLoop fuel t

def webSession (input : Bytes) : List (Bytes × Bytes) := webLoop (input.length + 1) ⟨input, []⟩

/-- A message of a websocket client: pings and pongs, and then a text frame. -/
structure WebMessage where
  control : List ClientFrame
  text : ClientFrame
  isControl : ∀ c ∈ control, c.Control
  isText : text.Text

def WebMessage.bytes (m : WebMessage) : Bytes := wire m.control ++ m.text.bytes

/-- A message that would end the connection. -/
def WebMessage.Greeting (m : WebMessage) : Prop := [0x1, 0x21] <+: m.text.payload

/-- The input of a session: messages, and a rest from which no more message is taken. -/
structure WebInput (input : Bytes) (messages : List WebMessage) (rest : Bytes) : Prop where
  bytes : input = (messages.map WebMessage.bytes).flatten ++ rest
  taken : ∀ m ∈ messages, ¬ m.Greeting
  refused : ∀ (m : WebMessage) after, rest = m.bytes ++ after → m.Greeting

/-- What `OnLine` gets of the messages. -/
def handed : Bytes → List WebMessage → List (Bytes × Bytes)
  | _, [] => []
  | output, m :: messages =>
    (stripReturn m.text.payload, output ++ pongs m.control) :: handed (output ++ pongs m.control) messages

theorem WebMessage.bytes_pos (m : WebMessage) : 0 < m.bytes.length := by
  simp [WebMessage.bytes, ClientFrame.bytes]

theorem getWebsocketLine_message (m : WebMessage) (rest output : Bytes) :
    getWebsocketLine ⟨m.bytes ++ rest, output⟩ =
      .ok (m.text.payload, ⟨rest, output ++ pongs m.control⟩) :=
  getWebsocketLine_iff.mpr ⟨m.control, m.text, m.isControl, m.isText, rfl, by
    simp [WebMessage.bytes], rfl⟩

/-- A line that is read is a message. -/
theorem message_of_getWebsocketLine {line : Bytes} {s t : WebStream}
    (h : getWebsocketLine s = .ok (line, t)) :
    ∃ m : WebMessage, m.text.payload = line ∧ s.input = m.bytes ++ t.input := by
  obtain ⟨fs, f, hfs, hf, hline, hinput, -⟩ := getWebsocketLine_iff.mp h
  exact ⟨⟨fs, f, hfs, hf⟩, hline, by rw [hinput, WebMessage.bytes, List.append_assoc]⟩

/-- Every stream is the input of a session. -/
theorem exists_webInput (input : Bytes) : ∃ messages rest, WebInput input messages rest := by
  -- a message is cut off in front as long as there is one that does not end the session
  induction hn : input.length using Nat.strong_induction_on generalizing input with
  | _ n ih =>
    by_cases h : ∃ (m : WebMessage) (after : Bytes), input = m.bytes ++ after ∧ ¬ m.Greeting
    · obtain ⟨m, after, rfl, hm⟩ := h
      have hpos := m.bytes_pos
      obtain ⟨messages, rest, hbytes, htaken, hrefused⟩ :=
        ih after.length (by rw [← hn, List.length_append]; omega) after rfl
      refine ⟨m :: messages, rest, ?_, List.forall_mem_cons.mpr ⟨hm, htaken⟩, hrefused⟩
      rw [List.map_cons, List.flatten_cons, List.append_assoc, ← hbytes]
    · refine ⟨[], input, rfl, by simp, ?_⟩
      intro m after hinput
      by_contra hm
      exact h ⟨m, after, hinput, hm⟩

/-- From the rest of a session the loop takes nothing. -/
theorem webLoop_rest {rest : Bytes}
    (h : ∀ (m : WebMessage) after, rest = m.bytes ++ after → m.Greeting) (fuel : ℕ) (output : Bytes) :
    webLoop fuel ⟨rest, output⟩ = [] := by
  cases fuel with
  | zero => rfl
  | succ fuel =>
    rw [webLoop]
    cases hline : getWebsocketLine ⟨rest, output⟩ with
    | error e => rfl
    | ok r =>
      obtain ⟨m, hm, hinput⟩ := message_of_getWebsocketLine hline
      have hgreeting : [0x1, 0x21] <+: r.1 := hm ▸ h m r.2.input hinput
      exact if_pos hgreeting

/-- The loop takes one message after the other. -/
theorem webLoop_input {input rest : Bytes} {messages : List WebMessage}
    (h : WebInput input messages rest) {fuel : ℕ} (hfuel : input.length < fuel) (output : Bytes) :
    webLoop fuel ⟨input, output⟩ = handed output messages := by
  obtain ⟨rfl, htaken, hrefused⟩ := h
  induction messages generalizing fuel output with
  | nil => exact webLoop_rest hrefused fuel output
  | cons m messages ih =>
    obtain ⟨hm, hmessages⟩ := List.forall_mem_cons.mp htaken
    have hline : ¬ [0x1, 0x21] <+: m.text.payload := hm
    obtain ⟨fuel, rfl⟩ := Nat.exists_eq_succ_of_ne_zero (Nat.ne_of_gt (Nat.zero_lt_of_lt hfuel))
    have hpos := m.bytes_pos
    rw [List.map_cons, List.flatten_cons, List.append_assoc, List.length_append] at hfuel
    rw [List.map_cons, List.flatten_cons, List.append_assoc, webLoop, getWebsocketLine_message, handed]
    dsimp only
    rw [if_neg hline, ih (output ++ pongs m.control) hmessages (by omega)]

end CogServer
