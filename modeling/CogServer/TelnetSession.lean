import CogServer.ShellLines
import CogServer.ShellProgress
import CogServer.ShellRefinement
import CogServer.TelnetLines

/-! A console connection that is in a shell: from the bytes on the wire to the evaluator. -/
namespace CogServer

open Transition Telnet

/-- Where `handle_connection` is. -/
inductive ReadPhase
  | loop | draining | done
  deriving DecidableEq, Repr

/-- A connection whose lines go to a shell: what is buffered of them, and what has still to come
in. -/
structure TelnetSession (σ : Type*) where
  shell : Shell σ
  phase : ReadPhase
  buffer : Bytes
  net : List Chunk

namespace TelnetSession

variable {σ : Type*}

inductive Act
  /-- The reader thread, while it is not in the shell. -/
  | read
  | shell (a : Shell.Act)

/-- `OnLine`, as long as the socket points to the shell. -/
def onLine (E : GenericEval σ) (cfg : ShellConfig) (s : TelnetSession σ) (line : Bytes) :
    Option (Shell σ) :=
  if s.shell.attached then s.shell.step E cfg (.line line) else none

/-- A round of the loop of `handle_connection`, or of the one at its end, which deletes the socket
and with it the shell. -/
def read (E : GenericEval σ) (cfg : ShellConfig) (s : TelnetSession σ) : Option (TelnetSession σ) :=
  match s.phase with
  | .loop =>
    match readUntil 0 s.buffer s.net with
    | (some _, buffer, net) =>
      match takeLine buffer with
      | (none, left) => some { s with phase := .draining, buffer := left, net }
      | (some line, left) =>
        (s.onLine E cfg line).map fun shell => { s with shell, buffer := left, net }
    | (none, buffer, []) => some { s with phase := .draining, buffer, net := [] }
    | (none, buffer, c :: net) => some { s with buffer := buffer ++ c.bytes, net }
  | .draining =>
    if s.buffer = [] then (s.shell.step E cfg .close).map fun shell => { s with shell, phase := .done }
    else
      let (piece, left) := getline s.buffer
      if stripReturn piece = [] then some { s with buffer := left }
      else (s.onLine E cfg (stripReturn piece)).map fun shell => { s with shell, buffer := left }
  | .done => none

def step (E : GenericEval σ) (cfg : ShellConfig) (s : TelnetSession σ) : Act → Option (TelnetSession σ)
  | .read => if s.shell.net = .idle then s.read E cfg else none
  | .shell (.line _) | .shell .close => none
  | .shell a => (s.shell.step E cfg a).map fun shell => { s with shell }

end TelnetSession

/-- The runs of a connection on which this comes in before the client closes it. -/
def sessionSystem {σ : Type*} (E : GenericEval σ) (cfg : ShellConfig) (ready : σ → Prop)
    (net : List Chunk) : System (TelnetSession σ) TelnetSession.Act where
  init s := ∃ v, ready v ∧ s = ⟨Shell.fresh v, .loop, [], net⟩
  step := TelnetSession.step E cfg

/-- A stream of lines of text. -/
structure TextStream (s : Bytes) : Prop where
  noEot : eot ∉ s
  noIac : iac ∉ s
  noDBus : NoDBus s
  plain : ∀ l ∈ lines s, PlainText l

/-- What the evaluator is to get for a stream. -/
def expressionsOf (s : Bytes) : List Bytes := (lines s).map (· ++ [newline])

theorem TextStream.tail {before after : Bytes} (h : TextStream (before ++ newline :: after))
    (hnl : newline ∉ before) : TextStream after ∧ PlainText (stripReturn before) := by
  have hplain := h.plain
  rw [lines_append after hnl, List.forall_mem_cons] at hplain
  refine ⟨⟨?_, ?_, ((noDBus_append hnl).mp h.noDBus).2, hplain.2⟩, hplain.1⟩
  · exact fun hmem => h.noEot (List.mem_append_right _ (List.mem_cons_of_mem _ hmem))
  · exact fun hmem => h.noIac (List.mem_append_right _ (List.mem_cons_of_mem _ hmem))

/-- What the network thread has of a line that is not yet in the queue. -/
def NetPc.handed : NetPc → List Bytes
  | .spin l | .discipline l => [l ++ [newline]]
  | .act (.enqueue _ e) | .block e | .push e => [e]
  | _ => []

/-- Where the network thread is with lines of text. -/
def NetPc.Feeding : NetPc → Prop
  | .idle | .afterLine | .act (.enqueue _ _) | .block _ | .push _ => True
  | .spin l | .discipline l => PlainText l
  | _ => False

/-- Positions in the destructor. -/
def NetPc.Closing : NetPc → Prop
  | .stall | .dtor | .sentinel | .join | .gone => True
  | _ => False

namespace Shell

variable {σ : Type*} {E : GenericEval σ} {cfg : ShellConfig} {s t : Shell σ}

/-- On the way of a line of text into the queue nothing is lost. -/
theorem netStep_feeding (hc : Control s) (hd : cfg.applyDiscipline = true) (hf : s.net.Feeding)
    (hsd : s.selfDestruct = false) (h : s.netStep E cfg = some t) :
    t.net.Feeding ∧ t.selfDestruct = false ∧ t.pushed ++ t.net.handed = s.pushed ++ s.net.handed := by
  cases hn : s.net <;> simp only [hn] at hf <;> try exact hf.elim
  case idle | block => simp [netStep, hn] at h
  case spin l =>
    simp only [netStep, hn] at h
    split at h <;> cases h
    exact ⟨hf, hsd, rfl⟩
  case discipline l =>
    simp only [netStep, hn, hd, ↓reduceIte, hf.lineDiscipline, Option.some.injEq] at h
    subst h
    exact ⟨trivial, hsd, rfl⟩
  case act d =>
    cases d <;> try exact hf.elim
    case enqueue ok e =>
      simp only [netStep, hn, putOutput, Option.some.injEq] at h
      subst h
      exact ⟨trivial, hsd, rfl⟩
  case push e =>
    have hopen : s.evalque.cancelled = false := by
      by_contra hq
      exact absurd (hc.cancelled (by simpa using hq)) (by simp [hsd])
    simp only [netStep, hn, hopen, Option.some.injEq] at h
    subst h
    exact ⟨trivial, hsd, by simp [NetPc.handed]⟩
  case afterLine =>
    simp only [netStep, hn, hsd, Option.some.injEq] at h
    subst h
    exact ⟨trivial, rfl, rfl⟩

theorem netStep_closing (hf : s.net.Closing) (h : s.netStep E cfg = some t) :
    t.net.Closing ∧ t.pushed ++ t.net.handed = s.pushed ++ s.net.handed := by
  cases hn : s.net <;> simp only [hn, NetPc.Closing] at hf
  case gone => simp [netStep, hn] at h
  case stall | join =>
    simp only [netStep, hn] at h
    split at h <;> cases h
    exact ⟨trivial, rfl⟩
  case dtor | sentinel =>
    simp only [netStep, hn, Option.some.injEq] at h
    subst h
    exact ⟨trivial, rfl⟩

end Shell

namespace TelnetSession

open Shell

variable {σ : Type*} {E : GenericEval σ} {cfg : ShellConfig} {idle : σ → Prop} {backlog : σ → ℕ}
  {expected : List Bytes} {s t : TelnetSession σ} {line : Bytes}

/-- The lines that are not yet handed to the shell. -/
def pending (s : TelnetSession σ) : List Bytes :=
  match s.phase with
  | .loop => lines (s.buffer ++ stream s.net)
  | .draining => drain s.buffer
  | .done => []

/-- What holds in the runs of a connection on which text comes in. -/
structure Serves (E : GenericEval σ) (cfg : ShellConfig) (idle : σ → Prop) (expected : List Bytes)
    (s : TelnetSession σ) : Prop where
  reach : Reach (shellSystem E cfg idle) (calm cfg) s.shell
  text : s.phase = .loop → TextStream (s.buffer ++ stream s.net)
  plain : ∀ l ∈ s.pending, PlainText l
  feeding : s.phase ≠ .done → s.shell.net.Feeding ∧ s.shell.selfDestruct = false
  closing : s.phase = .done → s.shell.net.Closing
  account : s.shell.pushed ++ s.shell.net.handed ++ s.pending.map (· ++ [newline]) = expected

/-- A round of the loop takes a line, or ends, or goes on with late bytes. -/
theorem read_loop (hp : s.phase = .loop) (h : TextStream (s.buffer ++ stream s.net)) :
    (∃ line left net, PlainText line ∧ TextStream (left ++ stream net) ∧
      s.pending = line :: lines (left ++ stream net) ∧
      (left ++ stream net).length < (s.buffer ++ stream s.net).length ∧ net.length ≤ s.net.length ∧
      s.read E cfg = (s.onLine E cfg line).map fun shell => { s with shell, buffer := left, net }) ∨
    (∃ buffer, drain buffer = s.pending ∧ buffer.length = (s.buffer ++ stream s.net).length ∧
      s.read E cfg = some { s with phase := .draining, buffer, net := [] }) ∨
    ∃ buffer net, buffer ++ stream net = s.buffer ++ stream s.net ∧ net.length < s.net.length ∧
      s.read E cfg = some { s with buffer, net } := by
  have hdone : ReadDone s.buffer s.net (readUntil 0 s.buffer s.net) := readUntil_spec (by simp)
  simp only [read, hp, pending]
  rcases hr : readUntil 0 s.buffer s.net with ⟨_ | k, b, net⟩
  · rw [hr] at hdone
    obtain ⟨hstream, hshort, -, hended⟩ := hdone
    cases net with
    | nil =>
      have hb : b = s.buffer ++ stream s.net := by
        rw [← hstream, stream, List.flatMap_nil, List.append_nil]
      refine .inr (.inl ⟨b, ?_, by rw [hb], rfl⟩)
      have hnl := hended rfl
      dsimp only at hnl
      rw [← hb, lines_of_notMem hnl, drain_of_notMem hnl]
    | cons c net =>
      refine .inr (.inr ⟨b ++ c.bytes, net, ?_, hshort, rfl⟩)
      rw [← hstream, List.append_assoc]
      rfl
  · rw [hr] at hdone
    obtain ⟨hstream, hshort, hmatched, -⟩ := hdone
    obtain ⟨before, c, after, hb, -, hnl, hc⟩ := hmatched k rfl
    dsimp only at hb hstream hshort hc
    rw [← hstream] at h ⊢
    -- only a newline can have ended the line
    obtain rfl : c = newline := hc (fun hmem => h.noEot (List.mem_append_left _ hmem))
      fun hmem => h.noIac (List.mem_append_left _ hmem)
    rw [hb, List.append_assoc, List.cons_append] at h ⊢
    obtain ⟨htail, hplain⟩ := h.tail hnl
    have hbus := ((noDBus_append hnl).mp h.noDBus).1
    refine .inl ⟨stripReturn before, after, net, hplain, htail, lines_append _ hnl, ?_, hshort, ?_⟩
    · simp only [List.length_append, List.length_cons]
      omega
    · simp only [takeLine, getline_append after hnl, hbus, ↓reduceIte]

/-- A round of the loop at the end takes a line, skips an empty one, or closes the connection. -/
theorem read_draining (hp : s.phase = .draining) :
    (∃ line left, s.pending = line :: drain left ∧ left.length < s.buffer.length ∧
      s.read E cfg = (s.onLine E cfg line).map fun shell => { s with shell, buffer := left }) ∨
    (∃ left, s.pending = drain left ∧ left.length < s.buffer.length ∧
      s.read E cfg = some { s with buffer := left }) ∨
    s.pending = [] ∧
      s.read E cfg = (s.shell.step E cfg .close).map fun shell => { s with shell, phase := .done } := by
  simp only [read, hp, pending]
  by_cases hb : s.buffer = []
  · rw [if_pos hb]
    exact .inr (.inr ⟨by rw [hb, drain_nil], rfl⟩)
  · rw [if_neg hb, drain, dif_neg hb]
    dsimp only
    by_cases hline : stripReturn (getline s.buffer).1 = []
    · rw [if_pos hline, if_pos hline]
      exact .inr (.inl ⟨_, rfl, getline_length hb, rfl⟩)
    · rw [if_neg hline, if_neg hline]
      exact .inl ⟨_, _, rfl, getline_length hb, rfl⟩

/-- A line goes to the shell. -/
theorem onLine_some (line : Bytes) (hs : Serves E cfg idle expected s) (hidle : s.shell.net = .idle)
    (hphase : s.phase ≠ .done) :
    ∃ u, s.onLine E cfg line = some u ∧ (u.net = .spin line ∨ u.net = .discipline line) ∧
      u.pushed = s.shell.pushed ∧ u.selfDestruct = false ∧
      s.shell.step E cfg (.line line) = some u := by
  have hc := Control.of_reach hs.reach
  have hsd := (hs.feeding hphase).2
  have hattached : s.shell.attached = true := by
    rcases hc.attached with ha | ha | ha
    · exact ha
    all_goals
      have hleft := hc.leftLoop (by rw [ha]; rfl)
      simp [hsd] at hleft
  have hesc : s.shell.escaped = false := by
    rcases hc.escaped with he | ⟨e, he⟩
    · exact he
    · have hleft := hc.leftLoop (by rw [he]; rfl)
      simp [hsd] at hleft
  simp only [onLine, hattached, ↓reduceIte, Shell.step, hesc, Bool.false_eq_true, evalLine, hidle,
    ne_eq, not_true_eq_false]
  split
  · exact ⟨_, rfl, .inr rfl, rfl, hsd, rfl⟩
  · exact ⟨_, rfl, .inl rfl, rfl, hsd, rfl⟩

/-- The state after a line was handed over. -/
theorem Serves.hand (hs : Serves E cfg idle expected s) (hidle : s.shell.net = .idle)
    (hphase : s.phase ≠ .done) (ht : t.phase = s.phase) {u : Shell σ} (hu : s.onLine E cfg line = some u)
    (hshell : t.shell = u) (hplain : PlainText line) (hpending : s.pending = line :: t.pending)
    (htext : t.phase = .loop → TextStream (t.buffer ++ stream t.net)) : Serves E cfg idle expected t := by
  obtain ⟨v, hv, hnet, hpushed, hsd, hstep⟩ := onLine_some line hs hidle hphase
  obtain rfl : v = u := Option.some.inj (hv.symm.trans hu)
  have hall := hs.plain
  rw [hpending, List.forall_mem_cons] at hall
  have haccount := hs.account
  rw [hpending, hidle] at haccount
  constructor
  case reach =>
    rw [hshell]
    refine hs.reach.step (a := .line line) ?_ hstep
    rintro _ ⟨⟩ - prompt pending ok
    rw [hplain.lineDiscipline]
    exact nofun
  case text => exact htext
  case plain => exact hall.2
  case feeding =>
    intro _
    rw [hshell]
    refine ⟨?_, hsd⟩
    rcases hnet with hnet | hnet <;> rw [hnet] <;> exact hplain
  case closing => exact fun hd => absurd (ht ▸ hd) hphase
  case account =>
    rw [← haccount, hshell, hpushed]
    rcases hnet with hnet | hnet <;> rw [hnet] <;> simp [NetPc.handed]

/-- How much the reader thread has still to do. -/
def rank (s : TelnetSession σ) : ℕ :=
  match s.phase with
  | .loop => (s.buffer ++ stream s.net).length + s.net.length + 2
  | .draining => s.buffer.length + 1
  | .done => 0

/-- The reader thread goes on with its next round, and is not stuck in it. -/
theorem read_serves (hs : Serves E cfg idle expected s) (hidle : s.shell.net = .idle) :
    ∃ t, s.read E cfg = some t ∧ Serves E cfg idle expected t ∧ rank t < rank s := by
  have hphase : s.phase ≠ .done := by
    intro hd
    have hclosing := hs.closing hd
    rw [hidle] at hclosing
    exact hclosing
  -- a round that hands nothing over
  have hkeep (t : TelnetSession σ) (hshell : t.shell = s.shell) (ht : t.phase ≠ .done)
      (hpending : t.pending = s.pending)
      (htext : t.phase = .loop → TextStream (t.buffer ++ stream t.net)) :
      Serves E cfg idle expected t := by
    refine ⟨hshell ▸ hs.reach, htext, hpending ▸ hs.plain, fun _ => hshell ▸ hs.feeding hphase,
      fun hd => absurd hd ht, ?_⟩
    rw [hshell, hpending]
    exact hs.account
  cases hp : s.phase with
  | done => exact absurd hp hphase
  | loop =>
    have htext := hs.text hp
    rcases read_loop hp htext with ⟨line, left, net, hplain, htail, hpending, hless, hshort, hread⟩ |
      ⟨buffer, hpending, hlen, hread⟩ | ⟨buffer, net, hstream, hshort, hread⟩
    · obtain ⟨u, hu, -⟩ := onLine_some line hs hidle hphase
      refine ⟨{ s with shell := u, buffer := left, net }, by rw [hread, hu]; rfl, ?_, ?_⟩
      · refine hs.hand hidle hphase rfl hu rfl hplain ?_ fun _ => htail
        rw [hpending]
        simp only [pending, hp]
      · simp only [rank, hp]
        omega
    · refine ⟨_, hread, hkeep _ rfl (by simp) hpending (by simp), ?_⟩
      simp only [rank, hp]
      omega
    · refine ⟨_, hread, hkeep _ rfl hphase ?_ fun _ => ?_, ?_⟩
      · simp only [pending, hp, hstream]
      · rw [hstream]
        exact htext
      · simp only [rank, hp, hstream]
        omega
  | draining =>
    rcases read_draining hp with ⟨line, left, hpending, hless, hread⟩ | ⟨left, hpending, hless, hread⟩ |
      ⟨hpending, hread⟩
    · obtain ⟨u, hu, -⟩ := onLine_some line hs hidle hphase
      have hplain : PlainText line := hs.plain line (by rw [hpending]; exact List.mem_cons_self)
      refine ⟨{ s with shell := u, buffer := left }, by rw [hread, hu]; rfl, ?_, ?_⟩
      · refine hs.hand hidle hphase rfl hu rfl hplain ?_ (by simp [hp])
        rw [hpending]
        simp only [pending, hp]
      · simp only [rank, hp]
        omega
    · refine ⟨_, hread, hkeep _ rfl hphase ?_ (by simp [hp]), ?_⟩
      · rw [hpending]
        simp only [pending, hp]
      · simp only [rank, hp]
        omega
    · have hc := Control.of_reach hs.reach
      have hsd := (hs.feeding hphase).2
      have hesc : s.shell.escaped = false := by
        rcases hc.escaped with he | ⟨e, he⟩
        · exact he
        · have hleft := hc.leftLoop (by rw [he]; rfl)
          simp [hsd] at hleft
      have hclose : s.shell.step E cfg .close = some { s.shell with net := .stall } := by
        simp [Shell.step, hesc, close, hidle]
      have hreach : Reach (shellSystem E cfg idle) (calm cfg) { s.shell with net := .stall } :=
        hs.reach.step (a := .close) (by rintro l ⟨⟩) hclose
      refine ⟨_, by rw [hread, hclose]; rfl, ?_, by simp [rank, hp]⟩
      have haccount := hs.account
      rw [hpending, hidle] at haccount
      exact ⟨hreach, by rintro ⟨⟩, fun _ hl => absurd hl List.not_mem_nil,
        fun hd => absurd rfl hd, fun _ => trivial, haccount⟩

/-- A step of one of the threads of the shell. -/
theorem shell_serves {a : Shell.Act} {u : Shell σ} (hd : cfg.applyDiscipline = true)
    (hs : Serves E cfg idle expected s) (hline : ∀ l, a ≠ .line l) (hclose : a ≠ .close)
    (h : s.shell.step E cfg a = some u) : Serves E cfg idle expected { s with shell := u } := by
  have hreach : Reach (shellSystem E cfg idle) (calm cfg) u :=
    hs.reach.step (fun l hl => absurd hl (hline l)) h
  have hc := Control.of_reach hs.reach
  -- the account is all that is left to keep
  have hkeep (hf : s.phase ≠ .done → u.net.Feeding ∧ u.selfDestruct = false)
      (hcl : s.phase = .done → u.net.Closing)
      (haccount : u.pushed ++ u.net.handed = s.shell.pushed ++ s.shell.net.handed) :
      Serves E cfg idle expected { s with shell := u } := by
    refine ⟨hreach, hs.text, hs.plain, hf, hcl, ?_⟩
    rw [haccount]
    exact hs.account
  have hother (hf : OtherFrame s.shell u) : Serves E cfg idle expected { s with shell := u } := by
    refine hkeep (fun hp => ?_) (fun hp => ?_) ?_
    · rw [hf.net, hf.selfDestruct]
      exact hs.feeding hp
    · rw [hf.net]
      exact hs.closing hp
    · rw [hf.net, hf.pushed]
  cases a with
  | line l => exact absurd rfl (hline l)
  | close => exact absurd rfl hclose
  | eval | work | ret | poll => exact hother (step_other (by simp) h)
  | unbar =>
    obtain ⟨e, he, rfl⟩ := unbar_block h
    refine hkeep (fun hp => ⟨trivial, (hs.feeding hp).2⟩) (fun hp => ?_) (by simp [he, NetPc.handed])
    have hcl := hs.closing hp
    rw [he] at hcl
    exact hcl.elim
  | net =>
    unfold Shell.step at h
    split at h
    · cases h
    · by_cases hp : s.phase = .done
      · obtain ⟨hcl, haccount⟩ := netStep_closing (hs.closing hp) h
        exact hkeep (fun hn => absurd hp hn) (fun _ => hcl) haccount
      · obtain ⟨hf, hsd⟩ := hs.feeding hp
        obtain ⟨hf', hsd', haccount⟩ := netStep_feeding hc hd hf hsd h
        exact hkeep (fun _ => ⟨hf', hsd'⟩) (fun h => absurd h hp) haccount

theorem serves_step {a : Act} (hd : cfg.applyDiscipline = true) (hs : Serves E cfg idle expected s)
    (h : s.step E cfg a = some t) : Serves E cfg idle expected t := by
  cases a with
  | read =>
    simp only [step] at h
    split at h
    · rename_i hidle
      obtain ⟨u, hu, hsu, -⟩ := read_serves hs hidle
      obtain rfl : u = t := Option.some.inj (hu.symm.trans h)
      exact hsu
    · cases h
  | shell a =>
    cases a with
    | line l => cases h
    | close => cases h
    | unbar | net | eval | work | ret | poll =>
      obtain ⟨u, hu, rfl⟩ := Option.map_eq_some_iff.mp h
      exact shell_serves hd hs (by simp) (by simp) hu

variable {net : List Chunk}

theorem Serves.of_reach (hd : cfg.applyDiscipline = true) (hnet : TextStream (stream net))
    (h : Reach (sessionSystem E cfg idle net) anyStep s) :
    Serves E cfg idle (expressionsOf (stream net)) s := by
  refine h.invariant (Serves E cfg idle (expressionsOf (stream net))) ?_
    fun _ _ _ _ hs _ ht => serves_step hd hs ht
  rintro _ ⟨v, hv, rfl⟩
  exact ⟨.init ⟨v, hv, rfl⟩, fun _ => hnet, hnet.plain, fun _ => ⟨trivial, rfl⟩, nofun, rfl⟩

/-- Steps of the threads of the shell are steps of the session. -/
theorem path_lift {u : Shell σ} (h : Path (shellSystem E cfg idle) server s.shell u) :
    Path (sessionSystem E cfg idle net) anyStep s { s with shell := u } := by
  generalize hb : s.shell = b at h
  induction h generalizing s with
  | refl b => exact hb ▸ .refl s
  | @head b c u a hc ht hp ih =>
    have hstep : s.step E cfg (.shell a) = some { s with shell := c } := by
      rcases hc with rfl | rfl | rfl | rfl | rfl <;> simp only [step] <;> rw [hb] <;>
        exact congrArg (Option.map _) ht
    exact .head trivial hstep (ih (s := { s with shell := c }) rfl)

/-- The expressions of a stream end with a newline, so that none of them is a mere wake-up signal. -/
theorem expressions_expected {l : List Bytes} {b : Bytes} (h : l <+: expressionsOf b) :
    expressions l = l := by
  refine List.filter_eq_self.mpr fun e he => ?_
  obtain ⟨line, -, rfl⟩ := List.mem_map.mp (h.subset he)
  simp

/-- The threads of the server bring the connection to its end. -/
theorem serves_ends (hT : Terminating E idle backlog) (hd : cfg.applyDiscipline = true)
    (hs : Serves E cfg idle expected s) :
    ∃ t, Path (sessionSystem E cfg idle net) anyStep s t ∧ t.shell.net = .gone := by
  obtain ⟨t, hp, -, ht⟩ := Path.progress (M := sessionSystem E cfg idle net) (C := anyStep)
    (Serves E cfg idle expected) (fun t => t.shell.net = .gone)
    (fun t => 2 * rank t + if t.shell.net = .gone then 0 else 1) (by
      intro u hu hgone
      obtain ⟨v, hv, hvnet, -⟩ := shell_settles hT hu.reach
      have hlift : Path (sessionSystem E cfg idle net) anyStep u { u with shell := v } := path_lift hv
      have hserves := hlift.invariant (Serves E cfg idle expected)
        (fun _ _ _ h _ ht => serves_step hd h ht) hu
      rw [if_neg hgone]
      rcases hvnet with hidle | hv
      · obtain ⟨t, ht, hst, hless⟩ := read_serves hserves hidle
        have hstep : step E cfg { u with shell := v } .read = some t := (if_pos hidle).trans ht
        refine ⟨t, hlift.tail (a := .read) trivial hstep, hst, ?_⟩
        have hsame : rank { u with shell := v } = rank u := rfl
        split <;> omega
      · exact ⟨_, hlift, hserves, by simp [hv, rank]⟩) s hs
  exact ⟨t, hp, ht⟩

/-- Two expressions in three chunks. -/
def twoExpressions : List Chunk :=
  [⟨false, ascii "(+ 1", by decide⟩, ⟨false, ascii " 2)\x0d\n(f", by decide⟩,
    ⟨true, ascii ")", by decide⟩]

end TelnetSession

end CogServer
