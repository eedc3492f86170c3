import CogServer.SocketMoves

/-! The control state of a socket: which kinds of sockets get where in the loop of
`handle_connection`, and when `_do_frame_io` is set. -/
namespace CogServer

open Transition

/-- The positions of writes that are framed. -/
def SendPc.framing : SendPc → Bool
  | .header _ | .payload _ | .pongHeader _ => true
  | .flag _ | .raw _ | .probe => false

namespace ServerSocket

variable {θ α : Type*} {respond : α → Bytes → McpResponse × α} {now : ℕ} {s t : ServerSocket θ α}

/-- The kinds of sockets that a position of the reader thread belongs to. -/
def pcOk (s : ServerSocket θ α) : Prop :=
  match s.reader with
  | .enter | .top | .read | .closed => True
  | .handshake | .request | .silent | .switching => s.kind = .web ∧ s.doFrameIo = false
  | .onLine => s.kind = .console ∨ s.doFrameIo = true
  | .objects _ => s.kind = .mcp
  | .draining => s.kind ≠ .web

/-- What the reader thread does to its own control state. -/
structure ReaderControl (s t : ServerSocket θ α) : Prop where
  pc : t.pcOk
  kind : t.kind = s.kind
  upgraded : t.upgraded = s.upgraded
  left : t.left = true → t.reader = .closed ∨ t.kind ≠ .web
  frame : s.reader ≠ .switching ∧ t.doFrameIo = s.doFrameIo ∨ s.reader = .switching ∧ t.doFrameIo = true
  switching : t.reader = .switching → t.send .reader ≠ none

/-- A step to another position with nothing else that matters here. -/
theorem ReaderControl.goto {n : ReaderPc} (hr : t.reader = n) (hkind : t.kind = s.kind)
    (hup : t.upgraded = s.upgraded) (hframe : t.doFrameIo = s.doFrameIo)
    (hleft : t.left = true → t.kind ≠ .web) (hs : s.reader ≠ .switching) (hn : n ≠ .switching)
    (hpc : t.pcOk) : ReaderControl s t :=
  ⟨hpc, hkind, hup, fun h => .inr (hleft h), .inl ⟨hs, hframe⟩, fun h => absurd (hr.symm.trans h) hn⟩

theorem leave_control (hs : s.reader ≠ .switching) : ReaderControl s (s.leave now) := by
  by_cases hk : s.kind = .web <;> refine ⟨?_, rfl, rfl, fun _ => ?_, .inl ⟨hs, rfl⟩, fun h => ?_⟩ <;>
    simp_all [leave, pcOk]

theorem handle_control (l : Bytes) (hs : s.reader ≠ .switching)
    (hleft : s.left = true → s.kind ≠ .web) : ReaderControl s (s.handle l) := by
  cases hk : s.kind with
  | console =>
    refine .goto (n := .onLine) ?_ ?_ ?_ ?_ ?_ hs (by simp) ?_ <;> simp [handle, hk, pcOk]
  | mcp =>
    refine .goto (n := .objects (splitObjects (l.length + 1) (stripReturn l))) ?_ ?_ ?_ ?_ ?_ hs (by simp) ?_ <;>
      simp [handle, hk, pcOk]
  | web =>
    have hl : s.left = false := by
      by_contra h
      exact hleft (by simpa using h) hk
    refine .goto (n := if s.doFrameIo then .onLine else .handshake) ?_ ?_ ?_ ?_ ?_ hs ?_ ?_ <;>
      cases hf : s.doFrameIo <;> simp [handle, hk, hf, hl, pcOk]

theorem onInput_control {l : Bytes} (hleft : s.left = true → s.reader = .closed ∨ s.kind ≠ .web)
    (h : s.onInput now l = some t) : ReaderControl s t := by
  unfold onInput at h
  split at h
  · rename_i hr
    split at h
    · cases h
      exact leave_control (by simp [hr])
    · cases h
      obtain ⟨h1, h2, h3, h4, h5, h6⟩ := handle_control (s := { s with lastActivity := now, status := .quing }) l
        (by simp [hr]) fun h => (hleft h).resolve_left (by simp [hr])
      exact ⟨h1, h2, h3, h4, h5, h6⟩
  · rename_i hr
    cases h
    exact handle_control l (by simp [hr]) fun h => (hleft h).resolve_left (by simp [hr])
  · cases h

/-- The control state of a socket. -/
structure Control (s : ServerSocket θ α) : Prop where
  pc : s.pcOk
  left : s.left = true → s.reader = .closed ∨ s.kind ≠ .web
  frame : s.doFrameIo = true → s.upgraded = true ∧ s.kind = .web
  upgraded : s.upgraded = true → s.kind = .web ∧
    (s.doFrameIo = true ∨ s.reader = .switching ∧ s.send .reader = none)
  switching : s.reader = .switching → s.send .reader = none → s.upgraded = true
  shell : ∀ x, s.send (.shell x) ≠ none → s.kind = .console ∨ s.doFrameIo = true
  raw : ∀ x c, s.send x = some (.raw c) → x ≠ .halfPing → s.doFrameIo = false
  framing : ∀ x p, s.send x = some p → p.framing = true → s.doFrameIo = true
  probe : ∀ x, s.send x = some .probe → x = .halfPing

theorem control_made (kind : SocketKind) (w : α) (now : ℕ) :
    Control (made kind w now : ServerSocket θ α) where
  pc := trivial
  left := nofun
  frame := nofun
  upgraded := nofun
  switching := nofun
  shell _ h := absurd rfl h
  raw := nofun
  framing := nofun
  probe := nofun

variable [DecidableEq θ]

/-- What a call of `Send` leaves alone. -/
theorem call_same {x : Sender θ} {cmd : Bytes} (h : s.call x cmd = some t) :
    t.reader = s.reader ∧ t.kind = s.kind ∧ t.doFrameIo = s.doFrameIo ∧ t.upgraded = s.upgraded ∧
      t.left = s.left := by
  obtain ⟨-, ⟨-, rfl⟩ | ⟨-, rfl⟩⟩ := call_cases h <;> exact ⟨rfl, rfl, rfl, rfl, rfl⟩

/-- A call of `Send` on the way to another position. -/
theorem ReaderControl.of_call {u : ServerSocket θ α} {cmd : Bytes} (h : u.call .reader cmd = some t)
    (hpc : u.pcOk) (hkind : u.kind = s.kind) (hup : u.upgraded = s.upgraded)
    (hframe : u.doFrameIo = s.doFrameIo) (hleft : u.left = true → u.kind ≠ .web)
    (hs : s.reader ≠ .switching) (hswitch : u.reader = .switching → sendable cmd = true) :
    ReaderControl s t := by
  obtain ⟨h1, h2, h3, h4, h5⟩ := call_same h
  refine ⟨?_, h2.trans hkind, h4.trans hup, fun ht => .inr ?_, .inl ⟨hs, h3.trans hframe⟩, fun ht => ?_⟩
  · unfold pcOk at hpc ⊢
    rwa [h1, h2, h3]
  · rw [h2]
    exact hleft (h5.symm.trans ht)
  · obtain ⟨-, ⟨-, rfl⟩ | ⟨hn, rfl⟩⟩ := call_cases h
    · simp
    · rw [hswitch ht] at hn
      cases hn

theorem readerStep_control (hpc : s.pcOk)
    (hleft : s.left = true → s.reader = .closed ∨ s.kind ≠ .web)
    (h : s.readerStep respond now = some t) : ReaderControl s t := by
  unfold pcOk at hpc
  have hl (hr : s.reader ≠ .closed) (h : s.left = true) : s.kind ≠ .web := (hleft h).resolve_left hr
  have hback (hr : s.reader = .onLine ∨ s.reader = .objects []) :
      ReaderControl s { s with reader := if s.left then .draining else .top } := by
    refine .goto (n := if s.left then .draining else .top) rfl rfl rfl rfl (hl ?_) ?_ ?_ ?_
    · rcases hr with hr | hr <;> simp [hr]
    · rcases hr with hr | hr <;> simp [hr]
    · split <;> simp
    · cases h : s.left
      · trivial
      · exact hl (by rcases hr with hr | hr <;> simp [hr]) h
  cases hr : s.reader with
  | enter =>
    simp only [readerStep, hr, Option.some.injEq] at h
    subst h
    refine .goto (n := if s.kind = .console then .onLine else .top) rfl rfl rfl rfl (hl (by simp [hr]))
      (by simp [hr]) ?_ ?_ <;> by_cases hk : s.kind = .console <;> simp [pcOk, hk]
  | top =>
    simp only [readerStep, hr, Option.some.injEq] at h
    subst h
    exact .goto rfl rfl rfl rfl (hl (by simp [hr])) (by simp [hr]) (by simp) trivial
  | switching =>
    simp only [readerStep, hr, Option.some.injEq] at h
    subst h
    exact ⟨.inr rfl, rfl, rfl, fun ht => .inr (hl (by simp [hr]) ht), .inr ⟨hr, rfl⟩, (by simp)⟩
  | onLine =>
    simp only [readerStep, hr, Option.some.injEq] at h
    exact h ▸ hback (.inl hr)
  | objects todo =>
    rw [hr] at hpc
    cases todo with
    | nil =>
      simp only [readerStep, hr, Option.some.injEq] at h
      exact h ▸ hback (.inr hr)
    | cons o todo =>
      simp only [readerStep, hr] at h
      exact .of_call h hpc rfl rfl rfl (hl (by simp [hr])) (by simp [hr]) (by simp)
  | silent =>
    simp only [readerStep, hr, Option.some.injEq] at h
    exact h ▸ leave_control (by simp [hr])
  | draining =>
    simp only [readerStep, hr, Option.some.injEq] at h
    subst h
    exact .goto rfl rfl rfl rfl (hl (by simp [hr])) (by simp [hr]) (by simp) trivial
  | read | handshake | request | closed => simp [readerStep, hr] at h

theorem http_control {a : Act θ α} (hpc : s.pcOk)
    (hleft : s.left = true → s.reader = .closed ∨ s.kind ≠ .web) (h : s.http a = some t) :
    ReaderControl s t := by
  unfold pcOk at hpc
  have hl (hr : s.reader ≠ .closed) (h : s.left = true) : s.kind ≠ .web := (hleft h).resolve_left hr
  cases a <;> simp only [http, reduceCtorEq] at h
  case header =>
    split_ifs at h with hr
    cases h
    exact .goto rfl rfl rfl rfl (hl (by simp [hr])) (by simp [hr]) (by simp) trivial
  case body =>
    split_ifs at h with hr
    rw [hr] at hpc
    cases h
    exact .goto rfl rfl rfl rfl (hl (by simp [hr])) (by simp [hr]) (by simp) hpc
  case page r =>
    split_ifs at h with hr
    rw [hr.1] at hpc
    exact .of_call h hpc rfl rfl rfl (hl (by simp [hr.1])) (by simp [hr.1]) (by simp)
  case upgrade key =>
    split_ifs at h with hr
    rw [hr] at hpc
    exact .of_call h hpc rfl rfl rfl (hl (by simp [hr])) (by simp [hr]) fun _ =>
      sendable_of_http (switchingProtocols_http key)
  case respond result contentType =>
    split_ifs at h with hr he
    · cases h
      exact .goto rfl rfl rfl rfl (hl (by simp [hr])) (by simp [hr]) (by simp) trivial
    · exact .of_call h trivial rfl rfl rfl (hl (by simp [hr])) (by simp [hr]) (by simp)

theorem readerAct_control {a : Act θ α} (hpc : s.pcOk)
    (hleft : s.left = true → s.reader = .closed ∨ s.kind ≠ .web)
    (h : s.readerAct respond now a = some t) : ReaderControl s t := by
  have hl (hr : s.reader ≠ .closed) (h : s.left = true) : s.kind ≠ .web := (hleft h).resolve_left hr
  cases a <;> simp only [readerAct] at h
  case step => exact readerStep_control hpc hleft h
  case line l => exact onInput_control hleft h
  case ping data =>
    split_ifs at h with hp
    cases h
    exact .goto rfl rfl rfl rfl (hl (by simp [hp.1])) (by simp [hp.1]) (by simp [setSend, hp.1]) hpc
  case fail ends =>
    split_ifs at h with hr he
    · cases h
      exact leave_control (by rcases hr with hr | hr <;> simp [hr])
    · cases h
      exact .goto rfl rfl rfl rfl (hl (by rcases hr with hr | hr <;> simp [hr]))
        (by rcases hr with hr | hr <;> simp [hr]) (by simp) trivial
  case say cmd =>
    split_ifs at h with hr
    refine .of_call h hpc rfl rfl rfl (hl ?_) ?_ fun ht => ?_ <;> rcases hr with hr | hr <;> simp_all
  case attach =>
    split_ifs at h with hr
    cases h
    refine .goto rfl rfl rfl rfl (hl ?_) ?_ ?_ hpc <;> rcases hr with hr | hr <;> simp [hr]
  all_goals exact http_control hpc hleft h

/-- The state that a step of a write leaves alone. -/
theorem sendStep_same (s : ServerSocket θ α) (x : Sender θ) (p : SendPc) :
    (s.sendStep x p).reader = s.reader ∧ (s.sendStep x p).kind = s.kind ∧
      (s.sendStep x p).doFrameIo = s.doFrameIo ∧ (s.sendStep x p).left = s.left ∧
      (s.sendStep x p).isOpen = s.isOpen ∧ (s.sendStep x p).eval = s.eval ∧
      (s.sendStep x p).responses = s.responses ∧
      (s.sendStep x p).send = Function.update s.send x (sendNext s.doFrameIo p).2 := by
  unfold sendStep put
  dsimp only
  split_ifs <;> exact ⟨rfl, rfl, rfl, rfl, rfl, rfl, rfl, rfl⟩

theorem sendStep_upgraded (s : ServerSocket θ α) (x : Sender θ) (p : SendPc) :
    (s.sendStep x p).upgraded =
      (s.upgraded || decide (x = .reader ∧ s.reader = .switching ∧ (sendNext s.doFrameIo p).2 = none)) := by
  have hput : (s.put (sendNext s.doFrameIo p).1).upgraded = s.upgraded := by
    unfold put
    split_ifs <;> rfl
  unfold sendStep
  dsimp only
  split_ifs with h
  · simp [h]
  · simp only [h, decide_false, Bool.or_false]
    exact hput

/-- Where a write goes on. -/
theorem sendNext_cases {f : Bool} {p q : SendPc} (h : (sendNext f p).2 = some q) : q ≠ .probe ∧
    ((∃ c, q = .raw c) → f = false) ∧ (q.framing = true → f = true ∨ p.framing = true) := by
  cases p <;> simp only [sendNext, Option.some.injEq, reduceCtorEq] at h
  case flag c => cases f <;> subst h <;> simp [SendPc.framing]
  case header c => subst h; simp [SendPc.framing]
  case pongHeader d =>
    split_ifs at h
    cases h
    simp [SendPc.framing]
  case probe => cases f <;> subst h <;> simp [SendPc.framing]

/-- A step that changes no more than one write, which begins. -/
theorem Control.begins (hs : Control s) {x : Sender θ} {p : SendPc}
    (hp : p = .probe → x = .halfPing) (hraw : ∀ c, p ≠ .raw c) (hx : x ≠ .reader)
    (hframing : p.framing = false)
    (hshell : s.kind = .console ∨ s.doFrameIo = true ∨ x = .halfPing) :
    Control (s.setSend x (some p)) where
  pc := hs.pc
  left := hs.left
  frame := hs.frame
  upgraded := by
    simp only [setSend_send, Function.update_of_ne hx.symm]
    exact hs.upgraded
  switching := by
    simp only [setSend_send, Function.update_of_ne hx.symm]
    exact hs.switching
  shell y hy := by
    by_cases hxy : Sender.shell y = x
    · subst hxy
      rcases hshell with h | h | h
      · exact .inl h
      · exact .inr h
      · cases h
    · exact hs.shell y (by simpa [hxy] using hy)
  raw y c hy hne := by
    by_cases hxy : y = x
    · subst hxy
      simp only [setSend_send, Function.update_self, Option.some.injEq] at hy
      exact absurd hy (hraw c)
    · exact hs.raw y c (by simpa [hxy] using hy) hne
  framing y q hy hq := by
    by_cases hxy : y = x
    · subst hxy
      simp only [setSend_send, Function.update_self, Option.some.injEq] at hy
      rw [← hy, hframing] at hq
      cases hq
    · exact hs.framing y q (by simpa [hxy] using hy) hq
  probe y hy := by
    by_cases hxy : y = x
    · subst hxy
      simp only [setSend_send, Function.update_self, Option.some.injEq] at hy
      exact hp hy
    · exact hs.probe y (by simpa [hxy] using hy)

theorem Control.sendStep (hs : Control s) {x : Sender θ} {p : SendPc} (hx : s.send x = some p) :
    Control (s.sendStep x p) := by
  obtain ⟨hreader, hkind, hframe, hleft, -, -, -, hsend⟩ := s.sendStep_same x p
  have hup := s.sendStep_upgraded x p
  have hother {y : Sender θ} (hy : y ≠ x) : (s.sendStep x p).send y = s.send y := by
    rw [hsend, Function.update_of_ne hy]
  have hself : (s.sendStep x p).send x = (sendNext s.doFrameIo p).2 := by
    rw [hsend, Function.update_self]
  refine ⟨?_, ?_, ?_, ?_, ?_, ?_, ?_, ?_, ?_⟩
  · have := hs.pc
    unfold pcOk at this ⊢
    rwa [hreader, hkind, hframe]
  · rw [hleft, hreader, hkind]
    exact hs.left
  · rw [hframe, hkind, hup]
    intro h
    rw [(hs.frame h).1]
    exact ⟨rfl, (hs.frame h).2⟩
  · rw [hup, hkind, hframe, hreader]
    intro h
    rcases Bool.or_eq_true_iff.mp h with h | h
    · obtain ⟨hweb, hf | ⟨hsw, hn⟩⟩ := hs.upgraded h
      · exact ⟨hweb, .inl hf⟩
      · have hxr : Sender.reader ≠ x := by
          rintro rfl
          rw [hn] at hx
          cases hx
        exact ⟨hweb, .inr ⟨hsw, (hother hxr).trans hn⟩⟩
    · obtain ⟨rfl, hsw, hnone⟩ := of_decide_eq_true h
      have := hs.pc
      rw [pcOk, hsw] at this
      exact ⟨this.1, .inr ⟨hsw, hself.trans hnone⟩⟩
  · rw [hreader, hup]
    intro hsw hnone
    by_cases hxr : Sender.reader = x
    · subst hxr
      rw [hself] at hnone
      simp [hsw, hnone]
    · rw [hother hxr] at hnone
      rw [hs.switching hsw hnone]
      rfl
  · intro y hy
    rw [hkind, hframe]
    apply hs.shell y
    by_cases hxy : Sender.shell y = x
    · rw [hxy, hx]
      simp
    · rwa [hother hxy] at hy
  · intro y c hy hne
    rw [hframe]
    by_cases hxy : y = x
    · subst hxy
      rw [hself] at hy
      exact (sendNext_cases hy).2.1 ⟨c, rfl⟩
    · exact hs.raw y c (hother hxy ▸ hy) hne
  · intro y q hy hq
    rw [hframe]
    by_cases hxy : y = x
    · subst hxy
      rw [hself] at hy
      exact ((sendNext_cases hy).2.2 hq).elim id (hs.framing y p hx)
    · exact hs.framing y q (hother hxy ▸ hy) hq
  · intro y hy
    by_cases hxy : y = x
    · subst hxy
      rw [hself] at hy
      exact absurd rfl (sendNext_cases hy).1
    · exact hs.probe y (hother hxy ▸ hy)

theorem Control.readerAct (hs : Control s) {a : Act θ α} (hx : s.send .reader = none)
    (h : s.readerAct respond now a = some t) : Control t := by
  have hm := readerAct_move h
  have hc := readerAct_control hs.pc hs.left h
  have hother {y : Sender θ} (hy : y ≠ .reader) : t.send y = s.send y := hm.send_ne hy
  have hreader {p : SendPc} (hp : t.send .reader = some p) : p ≠ .probe ∧ (∀ c, p ≠ .raw c) ∧
      (p.framing = true → s.doFrameIo = true) := by
    obtain ⟨cmd, rfl, -⟩ | ⟨d, rfl, -, hf⟩ := hm.send_reader hx hp
    · exact ⟨nofun, nofun, nofun⟩
    · exact ⟨nofun, nofun, fun _ => hf⟩
  -- the flag only rises, and only where the answer to the websocket was written
  have hmono (hf : s.doFrameIo = true) : t.doFrameIo = true := by
    rcases hc.frame with ⟨-, h⟩ | ⟨-, h⟩
    · rw [h, hf]
    · exact h
  refine ⟨hc.pc, hc.left, fun hf => ?_, fun hu => ?_, fun hsw hn => absurd hn (hc.switching hsw),
    fun y hy => ?_, fun y c hy hne => ?_, fun y q hy hq => ?_, fun y hy => ?_⟩
  · rw [hc.upgraded, hc.kind]
    rcases hc.frame with ⟨-, h⟩ | ⟨hsw, -⟩
    · exact hs.frame (h ▸ hf)
    · have hu := hs.switching hsw hx
      exact ⟨hu, (hs.upgraded hu).1⟩
  · rw [hc.upgraded] at hu
    refine ⟨hc.kind.trans (hs.upgraded hu).1, .inl ?_⟩
    rcases hc.frame with ⟨hsw, -⟩ | ⟨-, h⟩
    · exact hmono ((hs.upgraded hu).2.resolve_right fun h => hsw h.1)
    · exact h
  · rw [hother (by simp)] at hy
    rw [hc.kind]
    exact (hs.shell y hy).imp_right hmono
  · by_cases hy' : y = .reader
    · subst hy'
      exact absurd rfl ((hreader hy).2.1 c)
    · rw [hother hy'] at hy
      have hf := hs.raw y c hy hne
      rcases hc.frame with ⟨-, h⟩ | ⟨hsw, -⟩
      · exact h.trans hf
      · -- a shell's thread writes to a web socket only after the handshake
        cases y with
        | reader => exact absurd rfl hy'
        | halfPing => exact absurd rfl hne
        | shell y =>
          have hpc := hs.pc
          rw [pcOk, hsw] at hpc
          rcases hs.shell y (by simp [hy]) with hk | hk
          · rw [hpc.1] at hk
            cases hk
          · rw [hf] at hk
            cases hk
  · by_cases hy' : y = .reader
    · subst hy'
      exact hmono ((hreader hy).2.2 hq)
    · exact hmono (hs.framing y q (hother hy' ▸ hy) hq)
  · by_cases hy' : y = .reader
    · subst hy'
      exact absurd rfl (hreader hy).1
    · exact hs.probe y (hother hy' ▸ hy)

/-- Every step keeps the control state. -/
theorem control_step (hs : Control s) {a : Act θ α} (h : s.step respond now a = some t) :
    Control t := by
  cases step_move h with
  | send hx => exact hs.sendStep hx
  | @write x cmd t hshared _ h =>
    obtain ⟨-, ⟨-, rfl⟩ | ⟨-, rfl⟩⟩ := call_cases h
    · refine hs.begins nofun nofun (by simp) rfl ?_
      simp only [shared, Bool.or_eq_true, decide_eq_true_eq, Bool.and_eq_true] at hshared
      exact hshared.imp_right fun h => .inl h.1
    · exact hs
  | test _ h =>
    obtain ⟨-, rfl⟩ | ⟨-, rfl⟩ := h
    · exact hs.begins (fun _ => rfl) nofun (by simp) rfl (.inr (.inr rfl))
    · exact hs
  | bar => exact ⟨hs.pc, hs.left, hs.frame, hs.upgraded, hs.switching, hs.shell, hs.raw, hs.framing, hs.probe⟩
  | world => exact ⟨hs.pc, hs.left, hs.frame, hs.upgraded, hs.switching, hs.shell, hs.raw, hs.framing, hs.probe⟩
  | exit => exact ⟨hs.pc, hs.left, hs.frame, hs.upgraded, hs.switching, hs.shell, hs.raw, hs.framing, hs.probe⟩
  | reader hx h => exact hs.readerAct hx h

end ServerSocket

end CogServer
