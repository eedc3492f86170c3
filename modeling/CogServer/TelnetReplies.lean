import CogServer.LineScan

/-! What the console and a shell reply to telnet negotiations. -/
namespace CogServer

open Telnet LineScan

namespace Iac

def Command.askDo (a : UInt8) : Command := .three doIt a (by decide)

def Command.askWill (a : UInt8) : Command := .three will a (by decide)

/-- A whole command about the option `a` is in a reply. -/
def Complete (a : UInt8) (r : Bytes) : Prop := ∃ v, Negotiates v ∧ [iac, v, a] <:+: r

/-- The replies to the command at a position. -/
def repliesAt (sent : List (ℕ × Bytes)) (p : ℕ) : List Bytes :=
  (sent.filter fun x => decide (x.1 = p)).map Prod.snd

/-- The console answers each IAC DO of a line with one whole command, in order, and its replies to
IAC WILL are whole commands. -/
structure ConsoleAnswers (cmds : List Command) : Prop where
  one : ∀ pre a post, cmds = pre ++ .askDo a :: post →
    ∃ r, repliesAt (handle (encode cmds)).sent (encode pre).length = [r] ∧ Complete a r
  will : ∀ pre a post, cmds = pre ++ .askWill a :: post →
    ∀ r ∈ repliesAt (handle (encode cmds)).sent (encode pre).length, Complete a r
  ordered : (handle (encode cmds)).sent.Pairwise fun x y => x.1 < y.1

/-- The replies to a list of commands whose first one is at `i`. -/
def sentFor : ℕ → List Command → List (ℕ × Bytes)
  | _, [] => []
  | i, k :: cmds =>
    if k.code = teof then []
    else k.replies.map (fun r => (i, r)) ++ sentFor (i + k.bytes.length) cmds

theorem handleFrom_sent {line : Bytes} {i : ℕ} (cmds : List Command)
    (h : line.drop i = encode cmds) : (handleFrom line line.length i).sent = sentFor i cmds := by
  induction cmds generalizing i with
  | nil => rw [handleFrom_end h, sentFor]
  | cons k cmds ih =>
    rw [encode_cons] at h
    rw [(handleFrom_command k h).2, sentFor, ih (drop_of_append h)]

theorem handle_sent {cmds : List Command} (h : (encode cmds).length < 2 ^ 31) :
    (handle (encode cmds)).sent = sentFor 0 cmds := by
  have hsize : toInt (encode cmds).length = (encode cmds).length :=
    toInt_of_lt (by omega) (by omega)
  rw [handle, hsize]
  exact handleFrom_sent cmds List.drop_zero

theorem sentFor_le (i : ℕ) (cmds : List Command) : ∀ x ∈ sentFor i cmds, i ≤ x.1 := by
  induction cmds generalizing i with
  | nil => exact List.forall_mem_nil _
  | cons k cmds ih =>
    rw [sentFor]
    split
    · exact List.forall_mem_nil _
    · rw [List.forall_mem_append]
      refine ⟨?_, ?_⟩
      · intro x hx
        obtain ⟨r, -, rfl⟩ := List.mem_map.mp hx
        exact Nat.le_refl i
      · intro x hx
        exact Nat.le_trans (Nat.le_add_right _ _) (ih _ x hx)

theorem Command.length_replies (k : Command) : k.replies.length ≤ 1 := by
  cases k <;> simp only [Command.replies] <;> split_ifs <;> simp

theorem sentFor_pairwise (i : ℕ) (cmds : List Command) :
    (sentFor i cmds).Pairwise fun x y => x.1 < y.1 := by
  induction cmds generalizing i with
  | nil => exact List.Pairwise.nil
  | cons k cmds ih =>
    rw [sentFor]
    split
    · exact List.Pairwise.nil
    · have hk := k.length_bytes
      refine List.pairwise_append.mpr ⟨?_, ih _, ?_⟩
      · have hlen := k.length_replies
        match hr : k.replies with
        | [] => exact List.Pairwise.nil
        | [r] => exact List.pairwise_singleton _ _
        | r :: r' :: rest => rw [hr, List.length_cons, List.length_cons] at hlen; omega
      · intro x hx y hy
        obtain ⟨r, -, rfl⟩ := List.mem_map.mp hx
        have hle := sentFor_le _ cmds y hy
        show i < y.1
        omega

theorem repliesAt_append (sent sent' : List (ℕ × Bytes)) (p : ℕ) :
    repliesAt (sent ++ sent') p = repliesAt sent p ++ repliesAt sent' p := by
  rw [repliesAt, List.filter_append, List.map_append, repliesAt, repliesAt]

theorem repliesAt_map (rs : List Bytes) (i p : ℕ) :
    repliesAt (rs.map fun r => (i, r)) p = if i = p then rs else [] := by
  induction rs with
  | nil => simp [repliesAt]
  | cons r rs ih =>
    by_cases hp : i = p <;> simp_all [repliesAt]

theorem repliesAt_of_lt {sent : List (ℕ × Bytes)} {p : ℕ} (h : ∀ x ∈ sent, p < x.1) :
    repliesAt sent p = [] := by
  rw [repliesAt, List.map_eq_nil_iff, List.filter_eq_nil_iff]
  intro x hx
  have hlt := h x hx
  simp only [decide_eq_true_eq]
  omega

/-- The replies to one command of a line. -/
theorem repliesAt_sentFor (i : ℕ) (pre : List Command) (k : Command) (post : List Command) :
    repliesAt (sentFor i (pre ++ k :: post)) (i + (encode pre).length) =
      if (∀ q ∈ pre, q.code ≠ teof) ∧ k.code ≠ teof then k.replies else [] := by
  induction pre generalizing i with
  | nil =>
    have hk := k.length_bytes
    rw [List.nil_append, sentFor, encode, List.flatMap_nil, List.length_nil, Nat.add_zero]
    by_cases hteof : k.code = teof
    · simp [hteof, repliesAt]
    · have hafter : repliesAt (sentFor (i + k.bytes.length) post) i = [] := by
        apply repliesAt_of_lt
        intro x hx
        have hle := sentFor_le _ post x hx
        omega
      rw [if_neg hteof, repliesAt_append, hafter, repliesAt_map, if_pos rfl, List.append_nil,
        if_pos ⟨List.forall_mem_nil _, hteof⟩]
  | cons q pre ih =>
    have hq := q.length_bytes
    rw [List.cons_append, sentFor, encode_cons, List.length_append]
    by_cases hteof : q.code = teof
    · simp [hteof, repliesAt]
    · rw [if_neg hteof, repliesAt_append, repliesAt_map, if_neg (by omega), List.nil_append,
        ← Nat.add_assoc, ih]
      simp only [List.forall_mem_cons, ne_eq, hteof, not_false_eq_true, true_and]

theorem cStr_wont {a : UInt8} (h : a ≠ 0) (rest : Bytes) :
    cStr (iac :: wont :: a :: rest) = iac :: wont :: a :: cStr rest := by
  have hiac : iac ≠ 0 := by decide
  have hwont : wont ≠ 0 := by decide
  simp only [cStr, ne_eq, hiac, hwont, h, not_false_eq_true, decide_true,
    List.takeWhile_cons_of_pos]

theorem complete_of_begins {v a : UInt8} {r : Bytes} (hv : Negotiates v) (h : [iac, v, a] <+: r) :
    Complete a r := ⟨v, hv, h.isInfix⟩

theorem not_complete_of_short {a : UInt8} {r : Bytes} (h : r.length < 3) : ¬ Complete a r := by
  rintro ⟨v, -, hr⟩
  have hle := hr.length_le
  simp only [List.length_cons, List.length_nil] at hle
  omega

/-- The console's reply to IAC DO is whole unless the option is zero. -/
theorem complete_consoleDo (a : UInt8) : Complete a (consoleDo a) ↔ a ≠ 0 := by
  constructor
  · rintro h rfl
    exact not_complete_of_short (by decide) h
  · intro h
    have hzero : a ≠ transmitBinary := h
    rw [consoleDo]
    by_cases h1 : a = suppressGoAhead
    · rw [if_pos h1, h1]
      exact complete_of_begins (v := wont) (by decide) (by decide)
    · rw [if_neg h1]
      by_cases h2 : a = Telnet.echo
      · rw [if_pos h2, h2]
        exact complete_of_begins (v := wont) (by decide) (by decide)
      · rw [if_neg h2, if_neg hzero, cStr_wont h]
        exact complete_of_begins (v := wont) (by decide) (List.prefix_append _ _)

/-- A shell's reply to IAC DO is whole unless the option is zero. -/
theorem complete_answerDo (a : UInt8) : Complete a (answerDo a) ↔ a ≠ 0 := by
  constructor
  · rintro h rfl
    exact not_complete_of_short (by decide) h
  · intro h
    rw [answerDo]
    by_cases h1 : a = suppressGoAhead
    · rw [if_pos h1, h1]
      exact complete_of_begins (v := will) (by decide) (by decide)
    · rw [if_neg h1]
      by_cases h2 : a = Telnet.echo
      · rw [if_pos h2, h2]
        exact complete_of_begins (v := wont) (by decide) (by decide)
      · rw [if_neg h2, cStr_wont h]
        exact complete_of_begins (v := wont) (by decide) (List.prefix_append [iac, wont, a] _)

/-- What a shell puts out for a line at once. -/
def output : Discipline → Bytes
  | .enqueue ok _ | .interrupt ok | .reply ok => ok
  | .leave => []

/-- A shell's reply to an IAC DO or IAC WILL of the line, if there is one, is a whole command. The
loop of `line_discipline` ends at the command that it replies to. -/
structure ShellAnswers (prompt : Bytes) (inputPending : Bool) (cmds : List Command) : Prop where
  doIt : ∀ pre a post, cmds = pre ++ .askDo a :: post →
    StopsAt (encode cmds) (encode pre).length →
    Complete a (output (lineDiscipline prompt inputPending (encode cmds)))
  will : ∀ pre a post, cmds = pre ++ .askWill a :: post →
    StopsAt (encode cmds) (encode pre).length →
    output (lineDiscipline prompt inputPending (encode cmds)) = [] ∨
      Complete a (output (lineDiscipline prompt inputPending (encode cmds)))

theorem encode_append (cmds cmds' : List Command) :
    encode (cmds ++ cmds') = encode cmds ++ encode cmds' :=
  List.flatMap_append

/-- The bytes of a command at its place. -/
theorem byteAt_encode (pre : List Command) {c a : UInt8} (hc : Negotiates c) (post : List Command) :
    byteAt (encode (pre ++ .three c a hc :: post)) (encode pre).length = iac ∧
      byteAt (encode (pre ++ .three c a hc :: post)) ((encode pre).length + 1) = c ∧
      byteAt (encode (pre ++ .three c a hc :: post)) ((encode pre).length + 2) = a := by
  have hdrop : (encode (pre ++ .three c a hc :: post)).drop (encode pre).length =
      iac :: c :: a :: encode post := by
    rw [encode_append, List.drop_left]
    rfl
  exact ⟨byteAt_of_drop hdrop 0, byteAt_of_drop hdrop 1, byteAt_of_drop hdrop 2⟩

theorem output_do {prompt : Bytes} {inputPending : Bool} {pre post : List Command} {a : UInt8}
    (h : StopsAt (encode (pre ++ .askDo a :: post)) (encode pre).length) :
    output (lineDiscipline prompt inputPending (encode (pre ++ .askDo a :: post))) =
      if a = timingMark then [iac, Telnet.will, timingMark, newline] else answerDo a := by
  obtain ⟨h0, h1, h2⟩ := byteAt_encode pre (a := a) (c := Telnet.doIt) (by decide) post
  rw [Command.askDo] at h ⊢
  obtain ⟨fuel, j, -, hrun⟩ := lineDiscipline_stop prompt inputPending h
  obtain ⟨-, -, hle, -, -⟩ := h
  rw [hrun, scanIac_do fuel _ _ hle h0 h1, Option.getD_some, h2]
  by_cases hmark : a = timingMark
  · simp only [hmark, ↓reduceIte]
    split <;> rfl
  · simp only [hmark, ↓reduceIte, output]

theorem output_will {prompt : Bytes} {inputPending : Bool} {pre post : List Command} {a : UInt8}
    (h : StopsAt (encode (pre ++ .askWill a :: post)) (encode pre).length) :
    output (lineDiscipline prompt inputPending (encode (pre ++ .askWill a :: post))) =
      if a = linemode then [iac, dont, linemode, newline] else [] := by
  obtain ⟨h0, h1, h2⟩ := byteAt_encode pre (a := a) (c := Telnet.will) (by decide) post
  rw [Command.askWill] at h ⊢
  obtain ⟨fuel, j, -, hrun⟩ := lineDiscipline_stop prompt inputPending h
  obtain ⟨-, -, hle, -, -⟩ := h
  rw [hrun, scanIac_will fuel _ _ hle h0 h1, Option.getD_some, h2]
  rfl

theorem consoleAnswers_iff {cmds : List Command} (hlen : (encode cmds).length < 2 ^ 31) :
    ConsoleAnswers cmds ↔ ∀ pre a post, cmds = pre ++ .askDo a :: post →
      a ≠ 0 ∧ ∀ k ∈ pre, k.code ≠ teof := by
  have hreplies (pre post : List Command) (k : Command) (h : cmds = pre ++ k :: post) :
      repliesAt (handle (encode cmds)).sent (encode pre).length =
        if (∀ q ∈ pre, q.code ≠ teof) ∧ k.code ≠ teof then k.replies else [] := by
    have hat := repliesAt_sentFor 0 pre k post
    rw [Nat.zero_add] at hat
    rw [handle_sent hlen, h, hat]
  constructor
  · intro h pre a post hcmds
    obtain ⟨r, hr, hcomplete⟩ := h.one pre a post hcmds
    rw [hreplies pre post _ hcmds] at hr
    by_cases hteof : (∀ q ∈ pre, q.code ≠ teof) ∧ (Command.askDo a).code ≠ teof
    · rw [if_pos hteof] at hr
      obtain rfl : consoleDo a = r := List.singleton_inj.mp hr
      exact ⟨(complete_consoleDo a).mp hcomplete, hteof.1⟩
    · rw [if_neg hteof] at hr
      cases hr
  · intro h
    refine ⟨?_, ?_, ?_⟩
    · intro pre a post hcmds
      obtain ⟨hzero, hteof⟩ := h pre a post hcmds
      have hdo : (Command.askDo a).code ≠ teof := by
        show Telnet.doIt ≠ teof
        decide
      rw [hreplies pre post _ hcmds, if_pos ⟨hteof, hdo⟩]
      exact ⟨consoleDo a, rfl, (complete_consoleDo a).mpr hzero⟩
    · intro pre a post hcmds r hr
      rw [hreplies pre post _ hcmds] at hr
      split at hr
      · have hne : Telnet.will ≠ Telnet.doIt := by decide
        simp only [Command.askWill, Command.replies, hne, ↓reduceIte, true_and] at hr
        by_cases hmode : a = linemode
        · rw [if_pos hmode, List.mem_singleton] at hr
          rw [hr, hmode]
          exact complete_of_begins (v := dont) (by decide) (by decide)
        · rw [if_neg hmode] at hr
          cases hr
      · cases hr
    · rw [handle_sent hlen]
      exact sentFor_pairwise 0 cmds

theorem shellAnswers_iff (prompt : Bytes) (inputPending : Bool) (cmds : List Command) :
    ShellAnswers prompt inputPending cmds ↔ ∀ pre a post, cmds = pre ++ .askDo a :: post →
      StopsAt (encode cmds) (encode pre).length → a ≠ 0 := by
  constructor
  · rintro h pre a post rfl hstop
    have hcomplete := h.doIt pre a post rfl hstop
    rw [output_do hstop] at hcomplete
    by_cases hmark : a = timingMark
    · rw [hmark]
      decide
    · rw [if_neg hmark] at hcomplete
      exact (complete_answerDo a).mp hcomplete
  · intro h
    refine ⟨?_, ?_⟩
    · rintro pre a post rfl hstop
      rw [output_do hstop]
      by_cases hmark : a = timingMark
      · rw [if_pos hmark, hmark]
        exact complete_of_begins (v := Telnet.will) (by decide) (by decide)
      · rw [if_neg hmark]
        exact (complete_answerDo a).mpr (h pre a post rfl hstop)
    · rintro pre a post rfl hstop
      rw [output_will hstop]
      by_cases hmode : a = linemode
      · rw [if_pos hmode, hmode]
        exact .inr (complete_of_begins (v := dont) (by decide) (by decide))
      · rw [if_neg hmode]
        exact .inl rfl

end Iac

open Iac

/-- The replies to the negotiations of a line are whole commands, one for each IAC DO, exactly if no
DO that is answered is about option zero; the console stops at telnet EOF. -/
theorem negotiation_replies (prompt : Bytes) (inputPending : Bool) (cmds : List Command) :
    ((encode cmds).length < 2 ^ 31 →
        (ConsoleAnswers cmds ↔ ∀ pre a post, cmds = pre ++ .askDo a :: post →
          a ≠ 0 ∧ ∀ k ∈ pre, k.code ≠ teof)) ∧
      (ShellAnswers prompt inputPending cmds ↔ ∀ pre a post, cmds = pre ++ .askDo a :: post →
        StopsAt (encode cmds) (encode pre).length → a ≠ 0) :=
  ⟨consoleAnswers_iff, shellAnswers_iff prompt inputPending cmds⟩

/-- The console takes a negotiation of echo, which it answers. -/
theorem negotiation_replies_echo : ConsoleAnswers [.askDo Telnet.echo] := by
  refine ((negotiation_replies [] false [.askDo Telnet.echo]).1 (by decide)).mpr ?_
  intro pre a post h
  cases pre with
  | nil =>
    obtain ⟨ha, -⟩ := List.cons.inj h
    cases ha
    exact ⟨by decide, List.forall_mem_nil _⟩
  | cons k pre =>
    have hlen := congrArg List.length h
    simp only [List.length_cons, List.length_append, List.length_nil] at hlen
    omega

/-- IAC DO TRANSMIT-BINARY is answered by two bytes. -/
theorem negotiation_replies_cut :
    handleTelnetIac [iac, doIt, transmitBinary] = (true, [[iac, will]]) ∧
      lineDiscipline [] false [iac, doIt, transmitBinary] = .reply [iac, wont] ∧
      ¬ ConsoleAnswers [.askDo transmitBinary] ∧
      ¬ ShellAnswers [] false [.askDo transmitBinary] := by
  have hfirst : StopsAt (encode [.askDo transmitBinary]) (encode []).length :=
    ⟨0, by decide, by decide, by decide, nofun⟩
  refine ⟨by decide, by decide, ?_, ?_⟩
  · intro h
    exact ((consoleAnswers_iff (by decide)).mp h [] transmitBinary [] rfl).1 rfl
  · intro h
    exact (shellAnswers_iff [] false _).mp h [] transmitBinary [] rfl hfirst rfl

end CogServer
