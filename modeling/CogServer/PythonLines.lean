import CogServer.ShellInterrupts

/-! What the python shell makes of its lines: each of them is passed on in order, the lines of a
block in one piece, except for a block that is open when the client leaves. -/
namespace CogServer

open Transition

namespace PythonShell

/-- The lines of a text, each with its newline. -/
def withNewlines (lines : List Bytes) : Bytes := (lines.map (· ++ [newline])).flatten

/-- A string with a newline at the end, if it lacks one. -/
def completed (e : Bytes) : Bytes := if e.getLast? = some newline then e else e ++ [newline]

/-- Lines that are passed on together: one line, or a block up to its blank line. -/
inductive Piece : List Bytes → Prop
  | line {l : Bytes} (h : opensBlock l = false) : Piece [l]
  | block {l : Bytes} {body : List Bytes} (h : opensBlock l = true) (hbody : [] ∉ body) :
    Piece (l :: body ++ [[]])

/-- The string that is passed on for the lines of a piece. -/
def handOver : List Bytes → Bytes
  | [l] => l
  | lines => withNewlines lines

/-- The lines of a block that has no blank line yet. -/
inductive Opened : List Bytes → Prop
  | none : Opened []
  | block {l : Bytes} {body : List Bytes} (h : opensBlock l = true) (hbody : [] ∉ body) :
    Opened (l :: body)

/-- The lines so far: what was passed on, and what waits in `_pending_lines`. -/
def Account (lines handed : List Bytes) (pendingLines : Bytes) : Prop :=
  ∃ (pieces : List (List Bytes)) (waiting : List Bytes),
    lines = pieces.flatten ++ waiting ∧ handed = pieces.map handOver ∧
    (∀ p ∈ pieces, Piece p) ∧ pendingLines = withNewlines waiting ∧ Opened waiting

/-- Some line after the last blank one opens a block. -/
def LeftOpen (lines : List Bytes) : Prop :=
  ∃ l ∈ lines.reverse.takeWhile (· ≠ []), opensBlock l = true

variable {lines handed waiting : List Bytes} {pendingLines l : Bytes}

theorem withNewlines_append (ls ms : List Bytes) :
    withNewlines (ls ++ ms) = withNewlines ls ++ withNewlines ms := by
  rw [withNewlines, List.map_append, List.flatten_append]
  rfl

theorem withNewlines_singleton (l : Bytes) : withNewlines [l] = l ++ [newline] := by
  rw [withNewlines, List.map_singleton, List.flatten_singleton]

theorem withNewlines_eq_nil : withNewlines waiting = [] ↔ waiting = [] := by
  cases waiting <;> simp [withNewlines]

theorem opensBlock_nil : opensBlock [] = false := by decide

theorem handOver_block {body : List Bytes} :
    handOver (l :: body ++ [[]]) = withNewlines (l :: body ++ [[]]) := by
  cases body <;> rfl

theorem Account.concat {pieces : List (List Bytes)} {p : List Bytes}
    (hpieces : ∀ p ∈ pieces, Piece p) (hp : Piece p) :
    Account (pieces.flatten ++ p) (pieces.map handOver ++ [handOver p]) [] := by
  refine ⟨pieces ++ [p], [], ?_, ?_, ?_, rfl, .none⟩
  · rw [List.flatten_append, List.flatten_singleton, List.append_nil]
  · rw [List.map_append, List.map_singleton]
  · exact List.forall_mem_append.mpr ⟨hpieces, List.forall_mem_singleton.mpr hp⟩

/-- A line is passed on, or waits. -/
theorem account_accumulate (h : Account lines handed pendingLines) (l : Bytes) :
    Account (lines ++ [l]) (handed ++ (accumulate pendingLines l).1)
      (accumulate pendingLines l).2 := by
  obtain ⟨pieces, waiting, rfl, rfl, hpieces, rfl, hopen⟩ := h
  have hjoin : withNewlines (waiting ++ [l]) = withNewlines waiting ++ (l ++ [newline]) := by
    rw [withNewlines_append, withNewlines_singleton]
  rw [List.append_assoc]
  cases hopen with
  | none =>
    have hempty : withNewlines [] = [] := rfl
    rw [hempty, accumulate, if_neg (not_not.mpr rfl), List.nil_append]
    split_ifs with hopens
    · -- a block begins with this line
      refine ⟨pieces, [l], rfl, List.append_nil _, hpieces, (withNewlines_singleton l).symm, ?_⟩
      exact .block hopens List.not_mem_nil
    · exact .concat hpieces (.line (Bool.eq_false_iff.mpr hopens))
  | block hopens hbody =>
    rename_i first body
    have hwait : withNewlines (first :: body) ≠ [] :=
      withNewlines_eq_nil.not.mpr (List.cons_ne_nil _ _)
    rw [accumulate, if_pos hwait]
    split_ifs with hblank
    · -- the blank line ends the block
      subst hblank
      dsimp only
      rw [← hjoin, ← handOver_block]
      exact .concat hpieces (.block hopens hbody)
    · refine ⟨pieces, first :: (body ++ [l]), rfl, List.append_nil _, hpieces, hjoin.symm,
        .block hopens ?_⟩
      rw [List.mem_append, List.mem_singleton, not_or]
      exact ⟨hbody, fun h => hblank h.symm⟩

theorem accumulate_passes (pendingLines l : Bytes) :
    (accumulate pendingLines l).1 = [] ∨ ∃ e, (accumulate pendingLines l).1 = [e] := by
  unfold accumulate
  split_ifs
  · exact .inr ⟨_, rfl⟩
  · exact .inl rfl
  · exact .inl rfl
  · exact .inr ⟨_, rfl⟩

theorem leftOpen_nil : ¬ LeftOpen [] := by
  rintro ⟨l, hl, -⟩
  cases hl

/-- Something waits exactly if a block was left open. -/
theorem leftOpen_accumulate (h : pendingLines ≠ [] ↔ LeftOpen lines) (l : Bytes) :
    (accumulate pendingLines l).2 ≠ [] ↔ LeftOpen (lines ++ [l]) := by
  unfold LeftOpen at h ⊢
  rw [List.reverse_append, List.reverse_singleton, List.singleton_append]
  by_cases hblank : l = []
  · subst hblank
    have hnone : (accumulate pendingLines []).2 = [] := by
      simp only [accumulate, opensBlock_nil, Bool.false_eq_true, ↓reduceIte]
      split <;> rfl
    simp [hnone]
  · rw [List.takeWhile_cons_of_pos (by simpa using hblank)]
    simp only [List.mem_cons, exists_eq_or_imp]
    rw [← h]
    unfold accumulate
    split_ifs with hwait hopens
    · simp [hwait]
    · simp [hopens]
    · simp [hopens, not_not.mp hwait]

/-- A printable byte, also of a text that is not ASCII. -/
def printable (c : UInt8) : Bool := (32 ≤ c && c ≠ 127 && c ≠ 255) || c = 9

theorem completed_line (h : ∀ c ∈ l, printable c = true) : completed l = l ++ [newline] := by
  refine if_neg fun hlast => ?_
  exact absurd (h newline (List.mem_of_getLast? hlast)) (by decide)

theorem completed_handOver {p : List Bytes} (hp : Piece p)
    (h : ∀ l ∈ p, ∀ c ∈ l, printable c = true) : completed (handOver p) = withNewlines p := by
  cases hp with
  | line _ =>
    rw [withNewlines_singleton]
    exact completed_line (h _ List.mem_cons_self)
  | block _ _ =>
    rw [handOver_block, withNewlines_append, withNewlines_singleton]
    exact if_pos (by simp)

/-- What was passed on, completed, is the text of the lines up to the block that waits. -/
theorem completed_pieces {pieces : List (List Bytes)} (hpieces : ∀ p ∈ pieces, Piece p)
    (h : ∀ l ∈ pieces.flatten, ∀ c ∈ l, printable c = true) :
    ((pieces.map handOver).map completed).flatten = withNewlines pieces.flatten := by
  induction pieces with
  | nil => rfl
  | cons p pieces ih =>
    rw [List.forall_mem_cons] at hpieces
    rw [List.flatten_cons, List.forall_mem_append] at h
    rw [List.map_cons, List.map_cons, List.flatten_cons, List.flatten_cons, withNewlines_append,
      completed_handOver hpieces.1 h.1, ih hpieces.2 h.2]

end PythonShell

namespace KindShell

open Shell PythonShell

variable {σ : Type*} {E : GenericEval σ} {cmd : σ → σ} {cfg : ShellConfig} {ready : σ → Prop}
  {s t : KindShell σ} {l : Bytes}

/-- The client sends printable lines. -/
def printed (_ : KindShell σ) (a : Act) : Prop := ∀ l, a = .line l → ∀ c ∈ l, printable c = true

/-- What the python shell keeps of its lines, from one step to the next. -/
structure Kept (s : KindShell σ) : Prop where
  account : Account s.lines (s.handed ++ s.todo) s.pendingLines
  leftOpen : s.pendingLines ≠ [] ↔ LeftOpen s.lines
  inCall : s.todo = [] ∨ s.base.net = .idle ∧ ∃ e, s.todo = [e]
  printable : ∀ l ∈ s.lines, ∀ c ∈ l, printable c = true

theorem kept_called (hs : Kept s) (hl : ∀ c ∈ l, printable c = true) (hc : Called .python s l t) :
    Kept t := by
  obtain ⟨htodo, hpending⟩ := Prod.mk.inj hc.taken
  obtain ⟨hlines, hhanded, -⟩ := hc.record
  have hbefore : s.handed ++ s.todo = s.handed := by rw [hc.free.2, List.append_nil]
  refine ⟨?_, ?_, ?_, ?_⟩
  · rw [hlines, hhanded, htodo, hpending]
    exact account_accumulate (hbefore ▸ hs.account) l
  · rw [hlines, hpending]
    exact leftOpen_accumulate hs.leftOpen l
  · rw [htodo, hc.base]
    exact (accumulate_passes s.pendingLines l).imp_right fun h => ⟨hc.free.1, h⟩
  · rw [hlines]
    exact List.forall_mem_append.mpr ⟨hs.printable, List.forall_mem_singleton.mpr hl⟩

theorem kept_hand (hs : Kept s) (hr : Ready s) (h : s.hand = some t) : Kept t := by
  unfold hand at h
  split at h
  · rename_i e todo htodo
    obtain ⟨b, -, rfl⟩ := Option.map_eq_some_iff.mp h
    obtain rfl : todo = [] := by
      rcases hs.inCall with hnil | ⟨-, e', he'⟩
      · exact absurd (htodo.symm.trans hnil) (List.cons_ne_nil _ _)
      · exact (List.cons.inj (htodo.symm.trans he')).2
    refine ⟨?_, hs.leftOpen, .inl rfl, hs.printable⟩
    rw [List.append_nil, ← htodo]
    exact hs.account
  · simp only [hr.selfie, Bool.false_eq_true, ↓reduceIte, reduceCtorEq] at h

/-- A step that leaves the python shell alone. -/
theorem kept_base {b : Shell σ} (hs : Kept s) (hb : s.todo = [] ∨ b.net = s.base.net) :
    Kept { s with base := b } := by
  refine ⟨hs.account, hs.leftOpen, ?_, hs.printable⟩
  rcases hb with hnil | hsame
  · exact .inl hnil
  · exact hs.inCall.imp_right (And.imp_left hsame.trans)

theorem kept_step {a : Act} (hs : Kept s) (hr : Ready s) (ha : printed s a)
    (h : s.step E cmd cfg .python a = some t) : Kept t := by
  unfold step at h
  split at h
  · cases h
  · cases a with
    | line l => exact kept_called hs (ha l rfl) (called_eval hr h)
    | close =>
      dsimp only at h
      split at h
      · cases h
      · rename_i hfree
        obtain ⟨b, -, rfl⟩ := Option.map_eq_some_iff.mp h
        exact kept_base hs (.inl (not_not.mp (not_or.mp hfree).1))
    | net =>
      dsimp only [netStep] at h
      split at h
      · exact kept_hand hs hr h
      · rename_i hbusy
        obtain ⟨b, -, rfl⟩ := Option.map_eq_some_iff.mp h
        have hnil : s.todo = [] := hs.inCall.resolve_right fun hidle => hbusy hidle.1
        exact ⟨hs.account, hs.leftOpen, .inl hnil, hs.printable⟩
    | unbar =>
      obtain ⟨b, hb, rfl⟩ := Option.map_eq_some_iff.mp h
      obtain ⟨e, he, -⟩ := unbar_block hb
      refine kept_base hs (.inl (hs.inCall.resolve_right fun hidle => ?_))
      rw [he] at hidle
      cases hidle.1
    | eval | work | ret | poll =>
      obtain ⟨b, hb, rfl⟩ := Option.map_eq_some_iff.mp h
      exact kept_base hs (.inr (step_other (by simp) hb).net)

theorem Kept.of_reach (h : Reach (kindSystem E cmd cfg .python ready) printed s) : Kept s := by
  have hboth : Ready s ∧ Kept s := by
    refine h.invariant (fun s => Ready s ∧ Kept s) ?_ fun _ _ _ _ hs ha ht =>
      ⟨ready_step hs.1 ht, kept_step hs.2 hs.1 ha ht⟩
    rintro _ ⟨v, -, rfl⟩
    refine ⟨⟨rfl, nofun⟩, ⟨[], [], rfl, rfl, nofun, rfl, .none⟩, ?_, .inl rfl, nofun⟩
    exact iff_of_false (not_not.mpr rfl) leftOpen_nil
  exact hboth.2

/-- No line is lost, and the lines of a block go together. -/
structure LosesNothing (s : KindShell σ) : Prop where
  text : (s.handed.map completed).flatten = withNewlines s.lines
  pieces : ∃ pieces : List (List Bytes), pieces.flatten = s.lines ∧ s.handed = pieces.map handOver ∧
    ∀ p ∈ pieces, Piece p
  pending : s.pendingLines = []

/-- The client sends a block with its blank line, and leaves. -/
def blockSession : List Act :=
  List.flatten [[.line (ascii "def f(x):"), .line (ascii "    return x"), .line [], .net],
    List.replicate 3 .eval, [.poll], List.replicate 3 .net, [.unbar], List.replicate 2 .net,
    [.close], List.replicate 3 .net, List.replicate 5 .eval, [.ret], List.replicate 3 .eval,
    List.replicate 15 .poll, List.replicate 16 .eval, [.net]]

/-- The same block without the blank line, as from a file. -/
def openSession : List Act :=
  [.line (ascii "def f(x):"), .line (ascii "    return x"), .close, .net, .net, .net, .net]

def sendsPrintable : Act → Bool
  | .line l => l.all printable
  | _ => true

theorem reach_printed {s : KindShell Bytes} (as : List Act) (has : as.all sendsPrintable = true)
    (h : exec (kindSystem echoEval id plainConfig .python fun _ => True) (fresh []) as = some s) :
    Reach (kindSystem echoEval id plainConfig .python fun _ => True) printed s := by
  refine reach_of_actions as (fun a ha l hl => ?_) ⟨[], trivial, rfl⟩ h
  subst hl
  exact List.all_eq_true.mp (List.all_eq_true.mp has _ ha)

end KindShell

end CogServer
