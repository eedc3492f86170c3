import CogServer.SocketControl
import CogServer.SocketTable

/-! The frames of a websocket, whose headers and payloads several threads write in separate
calls of `Send`. -/
namespace CogServer

open Transition Computability

/-- The payload that is written next. -/
def SendPc.owed : Option SendPc → Option Bytes
  | some (.payload data) => some data
  | _ => none

/-- The next step writes to the socket. -/
def SendPc.writes : SendPc → Bool
  | .flag _ | .probe => false
  | .raw _ | .header _ | .payload _ | .pongHeader _ => true

def SendPc.isRaw : SendPc → Bool
  | .raw _ => true
  | .flag _ | .probe | .header _ | .payload _ | .pongHeader _ => false

section Cut

variable {β : Type*}

/-- A stream is cut into whole frames; in the last one a payload may be missing, which one of the
writers then owes. -/
def Cut (stream : Bytes) (owes : β → Option Bytes) : Prop :=
  ∃ done rest, stream = done ++ rest ∧ done ∈ frames∗ ∧
    (rest = [] ∧ (∀ y, owes y = none) ∨
      ∃ data x, rest ++ data ∈ frames ∧ owes x = some data ∧ ∀ y, y ≠ x → owes y = none)

variable {stream : Bytes} {owes : β → Option Bytes} {x : β}

/-- Where nobody owes a payload, all frames are whole. -/
theorem Cut.whole (h : Cut stream owes) (hx : ∀ y, owes y = none) : stream ∈ frames∗ := by
  obtain ⟨done, rest, rfl, hdone, ⟨rfl, -⟩ | ⟨data, x, -, hd, -⟩⟩ := h
  · rwa [List.append_nil]
  · rw [hx x] at hd
    cases hd

/-- A frame without a payload is written while nobody owes a payload. -/
theorem Cut.frame (h : Cut stream owes) (hx : ∀ y, owes y = none) {out : Bytes}
    (hout : out ∈ frames) : Cut (stream ++ out) owes :=
  ⟨stream ++ out, [], by simp, append_frame_mem (h.whole hx) hout, .inl ⟨rfl, hx⟩⟩

variable [DecidableEq β]

/-- A header is written while nobody owes a payload. -/
theorem Cut.header (h : Cut stream owes) (hx : ∀ y, owes y = none) {out data : Bytes}
    (hout : out ++ data ∈ frames) : Cut (stream ++ out) (Function.update owes x (some data)) := by
  refine ⟨stream, out, rfl, h.whole hx, .inr ⟨data, x, hout, Function.update_self .., fun y hy => ?_⟩⟩
  rw [Function.update_of_ne hy]
  exact hx y

/-- The payload follows its header. -/
theorem Cut.payload (h : Cut stream owes) {data : Bytes} (hx : owes x = some data)
    (hy : ∀ y, y ≠ x → owes y = none) : Cut (stream ++ data) (Function.update owes x none) := by
  have hnone (y : β) : Function.update owes x none y = none := by
    by_cases hyx : y = x
    · rw [hyx, Function.update_self]
    · rw [Function.update_of_ne hyx]
      exact hy y hyx
  obtain ⟨done, rest, rfl, hdone, ⟨-, hn⟩ | ⟨data', x', hrest, hx', -⟩⟩ := h
  · rw [hn x] at hx
    cases hx
  · have hxx : x' = x := by
      by_contra hne
      rw [hy x' hne] at hx'
      cases hx'
    rw [hxx, hx] at hx'
    cases hx'
    refine ⟨done ++ rest ++ data, [], by simp, ?_, .inl ⟨rfl, hnone⟩⟩
    rw [List.append_assoc]
    exact append_frame_mem hdone hrest

end Cut

namespace ServerSocket

variable {θ α : Type*} {respond : α → Bytes → McpResponse × α} {now : ℕ} {s t : ServerSocket θ α}

/-- The payload that a thread is about to write, having written its header. -/
def owes (s : ServerSocket θ α) (x : Sender θ) : Option Bytes := SendPc.owed (s.send x)

/-- The thread writes only while no other thread is between a header and its payload. -/
def exclusive (s : ServerSocket θ α) (x : Sender θ) : Prop :=
  s.isOpen = true → (s.send x).any SendPc.writes = true → ∀ y, y ≠ x → s.owes y = none

/-- `half_ping` does not write its bare character once the handshake is over. -/
def probesInTime (s : ServerSocket θ α) (x : Sender θ) : Prop :=
  x = .halfPing → (s.send x).any SendPc.isRaw = true → s.upgraded = false

/-- What keeps the frames of a socket whole. The payload of a ping is no longer than that of a
control frame may be. -/
def orderly (_ : ℕ) (s : ServerSocket θ α) : Act θ α → Prop
  | .send x => s.exclusive x ∧ s.probesInTime x
  | .ping data => data.length ≤ 125
  | .step | .line _ | .fail _ | .header | .page _ | .body | .upgrade _ | .say _ | .respond .. | .attach | .write ..
  | .test | .bar | .world _ | .exit => True

/-- What was written after the handshake is a concatenation of whole frames, but for a last header
whose payload a thread is about to write, or was when the socket was closed. -/
def Unbroken (s : ServerSocket θ α) : Prop :=
  ∃ done rest, s.framed = done ++ rest ∧ done ∈ frames∗ ∧
    (rest = [] ∨ ∃ data, rest ++ data ∈ frames ∧ (s.isOpen = true → ∃ x, s.owes x = some data))

/-- What every step keeps: the sizes of what is to be framed, and the frames. -/
structure Framing (s : ServerSocket θ α) : Prop where
  control : Control s
  size : ∀ x cmd, s.send x = some (.flag cmd) ∨ s.send x = some (.header cmd) → cmd.length ≤ maxSize
  pong : ∀ x data, s.send x = some (.pongHeader data) → data.length ≤ 125
  unbroken : s.Unbroken
  cut : s.isOpen = true → Cut s.framed s.owes

theorem unbroken_of_cut (h : Cut s.framed s.owes) : s.Unbroken := by
  obtain ⟨done, rest, heq, hdone, ⟨rfl, -⟩ | ⟨data, x, hrest, hx, -⟩⟩ := h
  · exact ⟨done, [], heq, hdone, .inl rfl⟩
  · exact ⟨done, rest, heq, hdone, .inr ⟨data, hrest, fun _ => ⟨x, hx⟩⟩⟩

theorem framing_made (kind : SocketKind) (w : α) (now : ℕ) :
    Framing (made kind w now : ServerSocket θ α) := by
  have hcut : Cut (made kind w now : ServerSocket θ α).framed (made kind w now : ServerSocket θ α).owes :=
    ⟨[], [], rfl, Language.nil_mem_kstar _, .inl ⟨rfl, fun _ => rfl⟩⟩
  exact ⟨control_made kind w now, nofun, nofun, unbroken_of_cut hcut, fun _ => hcut⟩

/-- A socket that is closed gets no more bytes. -/
theorem Unbroken.closed (hs : s.Unbroken) (hframed : t.framed = s.framed) (ht : t.isOpen = false) :
    t.Unbroken := by
  obtain ⟨done, rest, heq, hdone, hrest⟩ := hs
  refine ⟨done, rest, hframed.trans heq, hdone, hrest.imp_right fun ⟨data, hdata, _⟩ => ⟨data, hdata, ?_⟩⟩
  rw [ht]
  nofun

/-- A step that writes nothing and changes nothing that is owed. -/
theorem Framing.still (hs : Framing s) (hc : Control t) (hframed : t.framed = s.framed)
    (hopen : t.isOpen = true → s.isOpen = true) (howes : t.owes = s.owes)
    (hsize : ∀ x cmd, t.send x = some (.flag cmd) ∨ t.send x = some (.header cmd) → cmd.length ≤ maxSize)
    (hpong : ∀ x data, t.send x = some (.pongHeader data) → data.length ≤ 125) : Framing t := by
  have hcut (ht : t.isOpen = true) : Cut t.framed t.owes := by
    rw [hframed, howes]
    exact hs.cut (hopen ht)
  refine ⟨hc, hsize, hpong, ?_, hcut⟩
  cases ht : t.isOpen
  · exact hs.unbroken.closed hframed ht
  · exact unbroken_of_cut (hcut ht)

/-- Where nobody owes a payload and the socket is open, all frames are whole. -/
theorem Unbroken.whole (hs : s.Unbroken) (hopen : s.isOpen = true) (hx : ∀ x, s.owes x = none) :
    s.framed ∈ frames∗ := by
  obtain ⟨done, rest, heq, hdone, rfl | ⟨data, -, h⟩⟩ := hs
  · rw [heq, List.append_nil]
    exact hdone
  · obtain ⟨x, hd⟩ := h hopen
    rw [hx x] at hd
    cases hd

variable [DecidableEq θ]

instance [Fintype θ] (s : ServerSocket θ α) (x : Sender θ) : Decidable (s.exclusive x) :=
  inferInstanceAs (Decidable (_ → _ → ∀ _, _))

instance (s : ServerSocket θ α) (x : Sender θ) : Decidable (s.probesInTime x) :=
  inferInstanceAs (Decidable (_ → _ → _))

instance [Fintype θ] (now : ℕ) (s : ServerSocket θ α) (a : Act θ α) : Decidable (orderly now s a) :=
  match a with
  | .send x => inferInstanceAs (Decidable (s.exclusive x ∧ s.probesInTime x))
  | .ping data => inferInstanceAs (Decidable (data.length ≤ 125))
  | .step | .line _ | .fail _ | .header | .page _ | .body | .upgrade _ | .say _ | .respond .. | .attach | .write ..
  | .test | .bar | .world _ | .exit => isTrue trivial

theorem owes_setSend (x : Sender θ) (p : Option SendPc) (s : ServerSocket θ α) :
    (s.setSend x p).owes = Function.update s.owes x (SendPc.owed p) := by
  funext y
  by_cases hy : y = x
  · subst hy
    simp [owes]
  · simp [owes, hy]

/-- A write begins. -/
theorem Framing.begins (hs : Framing s) {x : Sender θ} {p : SendPc} (hx : s.send x = none)
    (hc : Control (s.setSend x (some p))) (hp : SendPc.owed (some p) = none)
    (hsize : ∀ cmd, p = .flag cmd ∨ p = .header cmd → cmd.length ≤ maxSize)
    (hpong : ∀ data, p = .pongHeader data → data.length ≤ 125) :
    Framing (s.setSend x (some p)) := by
  have howes : (s.setSend x (some p)).owes = s.owes := by
    rw [owes_setSend, hp, Function.update_eq_self_iff, owes, hx]
    rfl
  refine hs.still hc rfl id howes (fun y cmd hy => ?_) fun y data hy => ?_
  · by_cases hyx : y = x
    · subst hyx
      simp only [setSend_send, Function.update_self, Option.some.injEq] at hy
      exact hsize cmd hy
    · simp only [setSend_send, Function.update_of_ne hyx] at hy
      exact hs.size y cmd hy
  · by_cases hyx : y = x
    · subst hyx
      simp only [setSend_send, Function.update_self, Option.some.injEq] at hy
      exact hpong data hy
    · simp only [setSend_send, Function.update_of_ne hyx] at hy
      exact hs.pong y data hy

theorem sendStep_framed (s : ServerSocket θ α) (x : Sender θ) (p : SendPc) :
    (s.sendStep x p).framed =
      if s.isOpen = true ∧ s.upgraded = true then s.framed ++ (sendNext s.doFrameIo p).1 else s.framed := by
  have hput : (s.put (sendNext s.doFrameIo p).1).framed =
      if s.isOpen = true ∧ s.upgraded = true then s.framed ++ (sendNext s.doFrameIo p).1 else s.framed := by
    unfold put
    split_ifs <;> simp_all
  unfold sendStep
  dsimp only
  split_ifs at hput ⊢ <;> exact hput

/-- A step of a write owes what comes next. -/
theorem sendStep_owes (s : ServerSocket θ α) (x : Sender θ) (p : SendPc) :
    (s.sendStep x p).owes = Function.update s.owes x (SendPc.owed (sendNext s.doFrameIo p).2) := by
  obtain ⟨-, -, -, -, -, -, -, hsend⟩ := s.sendStep_same x p
  funext y
  unfold owes
  rw [hsend]
  by_cases hy : y = x
  · subst hy
    simp
  · simp [hy]

/-- An unframed write is not one behind the handshake. -/
theorem Framing.raw_early (hs : Framing s) {x : Sender θ} {cmd : Bytes}
    (hx : s.send x = some (.raw cmd)) (hprobe : s.probesInTime x) : s.upgraded = false := by
  by_cases hh : x = .halfPing
  · subst hh
    exact hprobe rfl (by rw [hx]; rfl)
  · have hf := hs.control.raw x cmd hx hh
    by_contra hup
    obtain ⟨hweb, hf' | ⟨hsw, hn⟩⟩ := hs.control.upgraded (by simpa using hup)
    · rw [hf] at hf'
      cases hf'
    · -- only the reader writes at the end of the handshake
      cases x with
      | reader =>
        rw [hn] at hx
        cases hx
      | halfPing => exact hh rfl
      | shell x =>
        rcases hs.control.shell x (by simp [hx]) with hk | hk
        · rw [hweb] at hk
          cases hk
        · rw [hf] at hk
          cases hk

/-- The frames after a step of a write. -/
theorem Framing.cut_send (hs : Framing s) {x : Sender θ} {p : SendPc} (hx : s.send x = some p)
    (hc : orderly now s (.send x)) (hopen : s.isOpen = true) :
    Cut (s.sendStep x p).framed (s.sendStep x p).owes := by
  have hcut := hs.cut hopen
  obtain ⟨hexcl, hprobe⟩ := hc
  have hself : s.owes x = SendPc.owed (some p) := by rw [owes, hx]
  have hother (hw : p.writes = true) (y : Sender θ) (hy : y ≠ x) : s.owes y = none :=
    hexcl hopen (by rw [hx]; exact hw) y hy
  have hnone (hw : p.writes = true) (hp : SendPc.owed (some p) = none) (y : Sender θ) : s.owes y = none := by
    by_cases hy : y = x
    · rw [hy, hself, hp]
    · exact hother hw y hy
  have hkeep (h : s.owes x = none) : Function.update s.owes x none = s.owes :=
    Function.update_eq_self_iff.mpr h.symm
  have hupgraded (hp : p.framing = true) : s.upgraded = true :=
    (hs.control.frame (hs.control.framing x p hx hp)).1
  rw [sendStep_framed, sendStep_owes]
  cases p with
  | flag cmd =>
    have howed : SendPc.owed (sendNext s.doFrameIo (.flag cmd)).2 = none := by
      cases hf : s.doFrameIo <;> rfl
    rw [howed, hkeep hself]
    simpa [sendNext] using hcut
  | probe =>
    have howed : SendPc.owed (sendNext s.doFrameIo .probe).2 = none := by
      cases hf : s.doFrameIo <;> rfl
    rw [howed, hkeep hself]
    simpa [sendNext] using hcut
  | raw cmd =>
    have hearly := hs.raw_early hx hprobe
    rw [if_neg (by simp [hearly])]
    change Cut s.framed (Function.update s.owes x none)
    rwa [hkeep hself]
  | header cmd =>
    rw [if_pos ⟨hopen, hupgraded rfl⟩]
    apply hcut.header (hnone rfl rfl)
    apply dataHeader_append
    have hsize := hs.size x cmd (.inr hx)
    unfold maxSize at hsize
    omega
  | payload data =>
    rw [if_pos ⟨hopen, hupgraded rfl⟩]
    exact hcut.payload hself (hother rfl)
  | pongHeader data =>
    rw [if_pos ⟨hopen, hupgraded rfl⟩]
    have hframe := pongHeader_append (hs.pong x data hx)
    by_cases hd : data = []
    · subst hd
      change Cut (s.framed ++ pongHeader 0) (Function.update s.owes x none)
      rw [hkeep hself]
      exact hcut.frame (hnone rfl rfl) hframe
    · have hnext : (sendNext s.doFrameIo (.pongHeader data)).2 = some (.payload data) := if_neg hd
      rw [hnext]
      exact hcut.header (hnone rfl rfl) hframe

/-- The sizes along a write. -/
theorem sendNext_size {f : Bool} {p : SendPc}
    (hp : ∀ cmd, p = .flag cmd ∨ p = .header cmd → cmd.length ≤ maxSize) {q : SendPc}
    (hq : (sendNext f p).2 = some q) :
    (∀ cmd, q = .flag cmd ∨ q = .header cmd → cmd.length ≤ maxSize) ∧ ∀ data, q = .pongHeader data →
    data.length ≤ 125 := by
  cases p <;> simp only [sendNext, Option.some.injEq, reduceCtorEq] at hq
  case flag cmd =>
    have hsize := hp cmd (.inl rfl)
    cases f <;> subst hq <;> simp [hsize]
  case header cmd =>
    subst hq
    simp
  case pongHeader data =>
    split_ifs at hq
    cases hq
    simp
  case probe => cases f <;> subst hq <;> simp [maxSize]

theorem framing_send (hs : Framing s) {x : Sender θ} {p : SendPc} (hx : s.send x = some p)
    (hc : orderly now s (.send x)) : Framing (s.sendStep x p) := by
  obtain ⟨-, -, -, -, hopen, -, -, hsend⟩ := s.sendStep_same x p
  have hsize {q : SendPc} (hq : (s.sendStep x p).send x = some q) := by
    rw [hsend, Function.update_self] at hq
    refine sendNext_size (fun cmd hp => hs.size x cmd ?_) hq
    rcases hp with rfl | rfl
    · exact .inl hx
    · exact .inr hx
  have hother {y : Sender θ} (hy : y ≠ x) : (s.sendStep x p).send y = s.send y := by
    rw [hsend, Function.update_of_ne hy]
  refine ⟨hs.control.sendStep hx, fun y cmd hy => ?_, fun y data hy => ?_, ?_, fun ht => ?_⟩
  · by_cases hyx : y = x
    · subst hyx
      rcases hy with hy | hy
      · exact (hsize hy).1 cmd (.inl rfl)
      · exact (hsize hy).1 cmd (.inr rfl)
    · rw [hother hyx] at hy
      exact hs.size y cmd hy
  · by_cases hyx : y = x
    · subst hyx
      exact (hsize hy).2 data rfl
    · exact hs.pong y data (hother hyx ▸ hy)
  · cases ho : s.isOpen
    · refine hs.unbroken.closed ?_ (hopen.trans ho)
      rw [sendStep_framed, if_neg (by simp [ho])]
    · exact unbroken_of_cut (hs.cut_send hx hc ho)
  · exact hs.cut_send hx hc (hopen ▸ ht)

/-- A call of `Send`, and what makes the string for it, change no frame. -/
theorem Framing.call (hs : Framing s) {u : ServerSocket θ α} {x : Sender θ} {cmd : Bytes}
    (hx : s.send x = none) (hc : Control t) (h : u.call x cmd = some t) (hsend : u.send = s.send)
    (hframed : u.framed = s.framed) (hopen : u.isOpen = s.isOpen) : Framing t := by
  have howes : u.owes = s.owes := by
    funext y
    rw [owes, hsend, owes]
  obtain ⟨hlen, ⟨-, rfl⟩ | ⟨-, rfl⟩⟩ := call_cases h
  · refine hs.still hc hframed (fun ht => hopen ▸ ht) ?_ (fun y c hy => ?_) fun y data hy => ?_
    · have howed : SendPc.owed (some (.flag cmd)) = none := rfl
      rw [owes_setSend, howes, howed, Function.update_eq_self_iff, owes, hx]
      rfl
    · by_cases hyr : y = x
      · subst hyr
        simp only [setSend_send, Function.update_self, Option.some.injEq, reduceCtorEq,
          or_false] at hy
        cases hy
        exact hlen
      · simp only [setSend_send, Function.update_of_ne hyr, hsend] at hy
        exact hs.size y c hy
    · by_cases hyr : y = x
      · subst hyr
        simp at hy
      · simp only [setSend_send, Function.update_of_ne hyr, hsend] at hy
        exact hs.pong y data hy
  · exact hs.still hc hframed (fun ht => hopen ▸ ht) howes (fun y c hy => hs.size y c (hsend ▸ hy))
      fun y data hy => hs.pong y data (hsend ▸ hy)

/-- Every orderly step keeps the frames. -/
theorem framing_step {a : Act θ α} (hs : Framing s) (hc : orderly now s a)
    (h : s.step respond now a = some t) : Framing t := by
  have ht := control_step hs.control h
  cases step_move h with
  | send hx => exact framing_send hs hx hc
  | write _ hx h => exact hs.call hx ht h rfl rfl rfl
  | test hx h =>
    obtain ⟨-, rfl⟩ | ⟨-, rfl⟩ := h
    · exact hs.begins hx ht rfl (by simp) nofun
    · exact hs
  | bar | world => exact hs.still ht rfl id rfl hs.size hs.pong
  | exit => exact hs.still ht rfl nofun rfl hs.size hs.pong
  | reader hx h =>
    cases readerAct_move h with
    | quiet h =>
      refine hs.still ht h.framed (fun ht => h.isOpen ▸ ht) ?_ ?_ ?_
      · funext y
        rw [owes, h.send, owes]
      · rw [h.send]
        exact hs.size
      · rw [h.send]
        exact hs.pong
    | answer _ _ h | object _ h | say _ h => exact hs.call hx ht h rfl rfl rfl
    | ping =>
      refine hs.begins hx ht rfl (by simp) fun data hd => ?_
      cases hd
      exact hc

end ServerSocket

namespace SocketTable

variable {ι θ α : Type*} [DecidableEq ι] [DecidableEq θ] [Fintype θ] {respond : α → Bytes → McpResponse × α}
  {maxOpen : ℕ} {w : SocketTable ι θ α}

/-- A condition on the steps of the sockets of a server. -/
def eachSocket (C : ℕ → ServerSocket θ α → ServerSocket.Act θ α → Prop) (w : SocketTable ι θ α)
    (a : TableAct ι θ α) : Prop :=
  ∀ i now b, w.moves a = some (i, now, b) → C now (w.sock i) b

instance (C : ℕ → ServerSocket θ α → ServerSocket.Act θ α → Prop) [∀ now s a, Decidable (C now s a)]
    (w : SocketTable ι θ α) (a : TableAct ι θ α) : Decidable (eachSocket C w a) :=
  match h : w.moves a with
  | none => isTrue fun i now b hb => by rw [h] at hb; cases hb
  | some (i, now, b) =>
    decidable_of_iff (C now (w.sock i) b)
      ⟨fun hC i now b hb => by rw [h] at hb; cases hb; exact hC, fun hC => hC i now b h⟩

/-- Frames stay whole where no thread writes between a header and its payload of another thread,
the payloads of pings are short, and no `half_ping` from before the handshake writes behind it. -/
theorem websocket_frames
    (h : Reach (tableSystem respond maxOpen) (eachSocket ServerSocket.orderly) w) (i : ι) :
    (w.sock i).Unbroken ∧
    ((w.sock i).isOpen = true → (∀ x, (w.sock i).owes x = none) → (w.sock i).framed ∈ frames∗) := by
  have hf : (w.sock i).Framing := sock_invariant ServerSocket.Framing ServerSocket.framing_made
    (fun _ _ _ _ hs hc ht => ServerSocket.framing_step hs hc ht) h i
  exact ⟨hf.unbroken, hf.unbroken.whole⟩

/-- One websocket, with one thread of its shell. -/
def newWebsocket : SocketTable Unit Unit Unit :=
  ⟨fun _ => .made .web () 0, fun _ => .absent, [], none, false, 0, 0⟩

theorem newWebsocket_init (respond : Unit → Bytes → McpResponse × Unit) :
    (tableSystem respond 60).init newWebsocket :=
  ⟨fun _ => ⟨.web, (), 0, rfl⟩, rfl, rfl, rfl, rfl, rfl⟩

/-- A connection that waits for the last line of its header. -/
def headerLines : List (TableAct Unit Unit Unit) :=
  [.construct () .web (), .addSock ()] ++
    [.step, .step, .line (ascii "GET /json HTTP/1.1"), .header, .step].map (.sock ())

/-- The answer to a websocket. -/
def handshake : List (TableAct Unit Unit Unit) :=
  [.line [], .upgrade (ascii "key"), .send .reader, .send .reader, .step, .attach, .step, .step].map (.sock ())

def noAnswer (_ : Unit) (_ : Bytes) : McpResponse × Unit := (.empty, ())

/-- A data frame, and the answer to a ping after it. -/
theorem websocket_frames_two : ∃ w : SocketTable Unit Unit Unit,
    (w.sock ()).framed = [0x81, 5] ++ ascii "hello" ++ [0x8a, 0] ∧
    (w.sock ()).framed ∈ frames∗ := by
  have hx : (exec (tableSystem noAnswer 60) newWebsocket (.flatten [headerLines, handshake,
      [.write () (ascii "hello"), .send (.shell ()), .send (.shell ()), .send (.shell ()), .ping [],
        .send .reader].map (.sock ())])).map (fun w => ((w.sock ()).framed, (w.sock ()).isOpen,
          decide (∀ x, (w.sock ()).owes x = none))) =
      some ([0x81, 5] ++ ascii "hello" ++ [0x8a, 0], true, true) := by decide +kernel
  obtain ⟨w, hw, h⟩ := Option.map_eq_some_iff.mp hx
  simp only [Prod.mk.injEq, decide_eq_true_eq] at h
  obtain ⟨hframed, hopen, howes⟩ := h
  have hr : Reach (tableSystem noAnswer 60) (eachSocket ServerSocket.orderly) w :=
    Reach.of_exec (fun w a => decide (eachSocket ServerSocket.orderly w a)) (fun _ _ h => of_decide_eq_true h)
      (.init (newWebsocket_init noAnswer)) (by decide +kernel) hw
  exact ⟨w, hframed, (websocket_frames hr ()).2 hopen howes⟩

/-- A server gets to write these bytes after the handshake, with nothing more to come, though they
are no whole frames. -/
def Breaks (framed : Bytes) : Prop :=
  ∃ w : SocketTable Unit Unit Unit, Reach (tableSystem noAnswer 60) anyStep w ∧
    (w.sock ()).framed = framed ∧ ¬(w.sock ()).Unbroken

theorem breaks_of_exec {framed : Bytes} {l : List (TableAct Unit Unit Unit)}
    (hx : (exec (tableSystem noAnswer 60) newWebsocket l).map (fun w => ((w.sock ()).framed,
      (w.sock ()).isOpen, decide (∀ x, (w.sock ()).owes x = none))) = some (framed, true, true))
    (hcut : cutsIntoFrames framed.length framed = false) : Breaks framed := by
  obtain ⟨w, hw, h⟩ := Option.map_eq_some_iff.mp hx
  simp only [Prod.mk.injEq, decide_eq_true_eq] at h
  obtain ⟨rfl, hopen, howes⟩ := h
  refine ⟨w, reach_of_exec l (newWebsocket_init noAnswer) hw, rfl, fun hu => ?_⟩
  rw [cutsIntoFrames_of_mem (hu.whole hopen howes)] at hcut
  cases hcut

/-- The answer to a ping comes between the header and the payload of a data frame; a long ping is
answered with a wrong length; a `half_ping` that found no websocket writes after the handshake. -/
theorem websocket_frames_fails : Breaks ([0x81, 5] ++ [0x8a, 0] ++ ascii "hello") ∧
    Breaks ([0x8a, 200] ++ List.replicate 200 0) ∧ Breaks [syn] := by
  refine ⟨breaks_of_exec (l := .flatten [headerLines, handshake, [.write () (ascii "hello"),
      .send (.shell ()), .send (.shell ()), .ping [], .send .reader, .send (.shell ())].map (.sock ())]) ?_ ?_,
    breaks_of_exec (l := .flatten [headerLines, handshake, [.ping (List.replicate 200 0), .send .reader,
      .send .reader].map (.sock ())]) ?_ ?_,
    breaks_of_exec (l := .flatten [headerLines, .replicate 11 .tick, [.halfPing none, .visit, .visit, .visit],
      handshake, [.visit]]) ?_ ?_⟩
  all_goals decide +kernel

end SocketTable

end CogServer
