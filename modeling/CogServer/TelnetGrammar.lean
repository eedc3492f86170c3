import CogServer.ServerConsole

/-! Telnet commands and their bytes, and `handle_telnet_iac` position for position: which lines it
accepts. -/
namespace CogServer

open Telnet

namespace Iac

/-- The begin of a subnegotiation. -/
def sb : UInt8 := 0xfa

/-- The command bytes that an option byte follows. -/
def Negotiates (c : UInt8) : Prop := c = wont ∨ c = dont ∨ c = doIt ∨ c = will

instance (c : UInt8) : Decidable (Negotiates c) := inferInstanceAs (Decidable (_ ∨ _))

/-- A telnet command. -/
inductive Command
  | two (c : UInt8) (hc : ¬ Negotiates c)
  | three (c a : UInt8) (hc : Negotiates c)
  deriving DecidableEq

namespace Command

/-- The command byte. -/
def code : Command → UInt8
  | two c _ | three c _ _ => c

def bytes : Command → Bytes
  | two c _ => [iac, c]
  | three c a _ => [iac, c, a]

end Command

/-- The line that some commands make. -/
def encode (cmds : List Command) : Bytes := cmds.flatMap Command.bytes

/-- What a run of `handle_telnet_iac` did: its result, the positions that it read, and its replies,
each with the position of the command that it answers. -/
structure Handled where
  ok : Bool
  reads : List ℕ
  sent : List (ℕ × Bytes)
  deriving DecidableEq, Repr

namespace Handled

/-- The run with what came before it. -/
def after (h : Handled) (reads : List ℕ) (sent : List (ℕ × Bytes)) : Handled :=
  ⟨h.ok, reads ++ h.reads, sent ++ h.sent⟩

end Handled

/-- What the console replies to an IAC DO. -/
def consoleDo (a : UInt8) : Bytes :=
  if a = suppressGoAhead then cStr [iac, wont, suppressGoAhead, 0]
  else if a = Telnet.echo then cStr [iac, wont, Telnet.echo, 0]
  else if a = transmitBinary then cStr [iac, will, transmitBinary, 0]
  else cStr [iac, wont, a, 0]

/-- The loop of `handle_telnet_iac` from `i` on. -/
def handleFrom (line : Bytes) (sz : ℤ) (i : ℕ) : Handled :=
  if i < sz then
    if byteAt line i ≠ iac then ⟨false, [i], []⟩
    else if sz ≤ i + 1 then ⟨false, [i], []⟩
    else
      let c := byteAt line (i + 1)
      if c = wont ∨ c = dont then
        if sz ≤ i + 2 then ⟨false, [i, i + 1], []⟩
        else (handleFrom line sz (i + 3)).after [i, i + 1] []
      else if c = doIt then
        if sz ≤ i + 2 then ⟨false, [i, i + 1], []⟩
        else
          let a := byteAt line (i + 2)
          (handleFrom line sz (i + 3)).after [i, i + 1, i + 2] [(i, consoleDo a)]
      else if c = will then
        if sz ≤ i + 2 then ⟨false, [i, i + 1], []⟩
        else
          let a := byteAt line (i + 2)
          (handleFrom line sz (i + 3)).after [i, i + 1, i + 2]
            (if a = linemode then [(i, cStr [iac, dont, linemode, 0])] else [])
      else if c = ip ∨ c = ao ∨ c = susp then
        (handleFrom line sz (i + 2)).after [i, i + 1] [(i, cStr [newline, 0])]
      else if c = el ∨ c = ec ∨ c = abrt ∨ c = ayt ∨ c = ga ∨ c = nop then
        (handleFrom line sz (i + 2)).after [i, i + 1] []
      else if c = brk then (handleFrom line sz (i + 2)).after [i, i + 1] []
      else if c = teof then ⟨false, [i, i + 1], []⟩
      else (handleFrom line sz (i + 2)).after [i, i + 1] []
  else ⟨true, [], []⟩
termination_by (sz - i).toNat

/-- `handle_telnet_iac`, which `OnLine` calls for lines of less than 40 characters. -/
def handle (line : Bytes) : Handled := handleFrom line (toInt line.length) 0

namespace Command

/-- What the console replies to a command. -/
def replies (k : Command) : List Bytes :=
  match k with
  | two c _ => if c = ip ∨ c = ao ∨ c = susp then [cStr [newline, 0]] else []
  | three c a _ =>
    if c = doIt then [consoleDo a]
    else if c = will ∧ a = linemode then [cStr [iac, dont, linemode, 0]]
    else []

theorem length_bytes (k : Command) : 2 ≤ k.bytes.length ∧ k.bytes.length ≤ 3 := by
  cases k <;> exact ⟨by simp [bytes], by simp [bytes]⟩

end Command

theorem not_negotiates_teof : ¬ Negotiates teof := by decide

/-- The console at a command: telnet EOF ends the run, and each other one is answered. -/
theorem handleTelnetIac_command (k : Command) (rest : Bytes) :
    handleTelnetIac (k.bytes ++ rest) =
      if k.code = teof then (false, [])
      else ((handleTelnetIac rest).1, k.replies ++ (handleTelnetIac rest).2) := by
  cases k with
  | two c hc =>
    have hneg : ¬ (c = wont ∨ c = dont ∨ c = doIt ∨ c = will) := hc
    have hteof : ¬ (teof = ip ∨ teof = ao ∨ teof = susp) := by decide
    rw [Command.bytes, List.cons_append, List.singleton_append, handleTelnetIac.eq_def]
    simp only [ne_eq, not_true_eq_false, ↓reduceIte, hneg, Command.code, Command.replies]
    by_cases hint : c = ip ∨ c = ao ∨ c = susp
    · have hne : c ≠ teof := fun h => hteof (h ▸ hint)
      simp only [hint, hne, ↓reduceIte, List.singleton_append]
    · simp only [hint, ↓reduceIte, List.nil_append]
  | three c a hc =>
    have hneg : c = wont ∨ c = dont ∨ c = doIt ∨ c = will := hc
    have hne : c ≠ teof := fun h => not_negotiates_teof (h ▸ hc)
    simp only [Command.bytes, List.cons_append, List.nil_append, handleTelnetIac, ne_eq,
      not_true_eq_false, ↓reduceIte, hneg, Command.code, Command.replies, hne]
    by_cases hdo : c = doIt
    · simp only [hdo, ↓reduceIte, consoleDo, apply_ite (fun r : Bytes => [r])]
    · simp only [hdo, ↓reduceIte]

variable {line rest : Bytes} {i : ℕ}

theorem byteAt_add (line : Bytes) (i j : ℕ) : byteAt line (i + j) = byteAt (line.drop i) j := by
  rw [byteAt, byteAt, List.getD_eq_getElem?_getD, List.getD_eq_getElem?_getD, List.getElem?_drop]

theorem byteAt_of_drop {s : Bytes} (h : line.drop i = s) (j : ℕ) :
    byteAt line (i + j) = byteAt s j := by
  rw [byteAt_add, h]

theorem length_of_drop {s : Bytes} (h : line.drop i = s) (hs : s ≠ []) :
    line.length = i + s.length := by
  have hlen := congrArg List.length h
  have hpos := List.length_pos_iff.mpr hs
  rw [List.length_drop] at hlen
  omega

theorem drop_of_append {s : Bytes} (h : line.drop i = s ++ rest) :
    line.drop (i + s.length) = rest := by
  rw [← List.drop_drop, h, List.drop_left]

theorem handleFrom_end (h : line.drop i = []) : handleFrom line line.length i = ⟨true, [], []⟩ := by
  have hlen := List.drop_eq_nil_iff.mp h
  rw [handleFrom, if_neg (by omega)]

/-- The loop at a command of two bytes. -/
theorem handleFrom_two {c : UInt8} (hc : ¬ Negotiates c) (h : line.drop i = iac :: c :: rest) :
    handleFrom line line.length i =
      if c = teof then ⟨false, [i, i + 1], []⟩
      else (handleFrom line line.length (i + 2)).after [i, i + 1]
        ((Command.two c hc).replies.map fun r => (i, r)) := by
  have hlen := length_of_drop h (by simp)
  have h0 : byteAt line i = iac := by
    have hb := byteAt_add line i 0
    rwa [h] at hb
  have h1 : byteAt line (i + 1) = c := by rw [byteAt_add, h]; rfl
  have hneg : ¬ (c = wont ∨ c = dont) ∧ c ≠ doIt ∧ c ≠ will := by
    simpa only [Negotiates, not_or, and_assoc, ne_eq] using hc
  have hi : (i : ℤ) < line.length := by rw [hlen, List.length_cons]; omega
  have hi1 : ¬ (line.length : ℤ) ≤ i + 1 := by
    rw [hlen, List.length_cons, List.length_cons]
    omega
  rw [handleFrom]
  simp only [h0, h1, hneg, hi, hi1, ne_eq, not_true_eq_false, ↓reduceIte, Command.replies]
  by_cases hint : c = ip ∨ c = ao ∨ c = susp
  · have hne : c ≠ teof := by
      rintro rfl
      exact absurd hint (by decide)
    simp only [hint, hne, ↓reduceIte, List.map_cons, List.map_nil]
  · simp only [hint, ↓reduceIte, List.map_nil]
    by_cases hnote : c = el ∨ c = ec ∨ c = abrt ∨ c = ayt ∨ c = ga ∨ c = nop
    · have hne : c ≠ teof := by
        rintro rfl
        exact absurd hnote (by decide)
      simp only [hnote, hne, ↓reduceIte]
    · simp only [hnote, ↓reduceIte]
      by_cases hbrk : c = brk
      · have hne : brk ≠ teof := by decide
        simp only [hbrk, hne, ↓reduceIte]
      · simp only [hbrk, ↓reduceIte]

/-- The loop at a command of three bytes. -/
theorem handleFrom_three {c a : UInt8} (hc : Negotiates c)
    (h : line.drop i = iac :: c :: a :: rest) :
    handleFrom line line.length i =
      (handleFrom line line.length (i + 3)).after
        (if c = wont ∨ c = dont then [i, i + 1] else [i, i + 1, i + 2])
        ((Command.three c a hc).replies.map fun r => (i, r)) := by
  have hlen := length_of_drop h (by simp)
  have h0 : byteAt line i = iac := by
    have hb := byteAt_add line i 0
    rwa [h] at hb
  have h1 : byteAt line (i + 1) = c := by rw [byteAt_add, h]; rfl
  have h2 : byteAt line (i + 2) = a := by rw [byteAt_add, h]; rfl
  have hi : (i : ℤ) < line.length := by rw [hlen, List.length_cons]; omega
  have hi1 : ¬ (line.length : ℤ) ≤ i + 1 := by
    rw [hlen, List.length_cons, List.length_cons]
    omega
  have hi2 : ¬ (line.length : ℤ) ≤ i + 2 := by
    rw [hlen, List.length_cons, List.length_cons, List.length_cons]
    omega
  rw [handleFrom]
  simp only [h0, h1, h2, hi, hi1, hi2, ne_eq, not_true_eq_false, ↓reduceIte, Command.replies]
  by_cases hskip : c = wont ∨ c = dont
  · have hdo : c ≠ doIt := by rintro rfl; exact absurd hskip (by decide)
    have hwill : c ≠ will := by rintro rfl; exact absurd hskip (by decide)
    simp only [hskip, hdo, hwill, false_and, ↓reduceIte, List.map_nil]
  · simp only [hskip, ↓reduceIte]
    by_cases hdo : c = doIt
    · simp only [hdo, ↓reduceIte, List.map_cons, List.map_nil]
    · have hwill : c = will := by
        rcases hc with h | h | h | h
        · exact absurd (.inl h) hskip
        · exact absurd (.inr h) hskip
        · exact absurd h hdo
        · exact h
      have hne : will ≠ doIt := by decide
      simp only [hwill, hne, ↓reduceIte, true_and]
      split <;> rfl

/-- Something is left, and no whole command stands at its front. -/
def Broken (s : Bytes) : Prop := s ≠ [] ∧ ∀ (k : Command) (rest : Bytes), s ≠ k.bytes ++ rest

/-- The ways to be broken: a byte that is not IAC, a lone IAC, an option that is missing. -/
theorem Broken.cases {s : Bytes} (h : Broken s) :
    (∃ b rest, s = b :: rest ∧ b ≠ iac) ∨ s = [iac] ∨ ∃ c, Negotiates c ∧ s = [iac, c] := by
  obtain ⟨hne, hk⟩ := h
  cases s with
  | nil => exact absurd rfl hne
  | cons b rest =>
    by_cases hb : b = iac
    · subst hb
      cases rest with
      | nil => exact .inr (.inl rfl)
      | cons c rest =>
        by_cases hc : Negotiates c
        · cases rest with
          | nil => exact .inr (.inr ⟨c, hc, rfl⟩)
          | cons a rest => exact absurd rfl (hk (.three c a hc) rest)
        · exact absurd rfl (hk (.two c hc) rest)
    · exact .inl ⟨b, rest, rfl, hb⟩

theorem broken_or (s : Bytes) :
    s = [] ∨ (∃ (k : Command) (rest : Bytes), s = k.bytes ++ rest) ∨ Broken s := by
  by_cases hne : s = []
  · exact .inl hne
  · by_cases hk : ∃ (k : Command) (rest : Bytes), s = k.bytes ++ rest
    · exact .inr (.inl hk)
    · refine .inr (.inr ⟨hne, ?_⟩)
      intro k rest h
      exact hk ⟨k, rest, h⟩

/-- What is broken is refused, and nothing is replied to it. -/
theorem handleFrom_broken (h : Broken (line.drop i)) :
    (handleFrom line line.length i).ok = false ∧ (handleFrom line line.length i).sent = [] := by
  have h0 := byteAt_add line i 0
  have h1 := byteAt_add line i 1
  have hlen := length_of_drop rfl h.1
  have hpos := List.length_pos_iff.mpr h.1
  have hi : (i : ℤ) < line.length := by omega
  rw [Nat.add_zero] at h0
  rw [handleFrom, if_pos hi]
  rcases h.cases with ⟨b, rest, hs, hb⟩ | hs | ⟨c, hc, hs⟩
  · have hne : byteAt line i ≠ iac := by
      rw [h0, hs]
      exact hb
    rw [if_pos hne]
    exact ⟨rfl, rfl⟩
  · have hiac : byteAt line i = iac := by rw [h0, hs]; rfl
    have hi1 : (line.length : ℤ) ≤ i + 1 := by
      rw [hlen, hs]
      exact Int.le_refl _
    simp only [hiac, hi1, ne_eq, not_true_eq_false, ↓reduceIte, and_self]
  · have hiac : byteAt line i = iac := by rw [h0, hs]; rfl
    have hc1 : byteAt line (i + 1) = c := by rw [h1, hs]; rfl
    have hi1 : ¬ (line.length : ℤ) ≤ i + 1 := by
      rw [hlen, hs, List.length_cons, List.length_singleton]
      omega
    have hi2 : (line.length : ℤ) ≤ i + 2 := by
      rw [hlen, hs]
      exact Int.le_refl _
    simp only [hiac, hc1, hi1, hi2, ne_eq, not_true_eq_false, ↓reduceIte]
    rcases hc with rfl | rfl | rfl | rfl <;> exact ⟨rfl, rfl⟩

/-- The loop at any command. -/
theorem handleFrom_command (k : Command) (h : line.drop i = k.bytes ++ rest) :
    ((handleFrom line line.length i).ok =
        if k.code = teof then false else (handleFrom line line.length (i + k.bytes.length)).ok) ∧
      (handleFrom line line.length i).sent =
        if k.code = teof then []
        else k.replies.map (fun r => (i, r)) ++
          (handleFrom line line.length (i + k.bytes.length)).sent := by
  cases k with
  | two c hc =>
    rw [handleFrom_two hc h]
    by_cases hteof : c = teof
    · simp only [hteof, ↓reduceIte, Command.code, and_self]
    · simp only [hteof, ↓reduceIte, Command.code]
      exact ⟨rfl, rfl⟩
  | three c a hc =>
    have hne : c ≠ teof := fun h => not_negotiates_teof (h ▸ hc)
    rw [handleFrom_three hc h]
    simp only [hne, ↓reduceIte, Command.code]
    exact ⟨rfl, rfl⟩

theorem encode_cons (k : Command) (cmds : List Command) :
    encode (k :: cmds) = k.bytes ++ encode cmds :=
  rfl

/-- The command at the front of a line is determined by its bytes. -/
theorem bytes_append_inj {k k' : Command} {r r' : Bytes} (h : k.bytes ++ r = k'.bytes ++ r') :
    k = k' ∧ r = r' := by
  cases k with
  | two c hc =>
    cases k' with
    | two c' hc' =>
      simp only [Command.bytes, List.cons_append, List.nil_append, List.cons.injEq, true_and] at h
      obtain ⟨rfl, rfl⟩ := h
      exact ⟨rfl, rfl⟩
    | three c' a' hc' =>
      simp only [Command.bytes, List.cons_append, List.nil_append, List.cons.injEq, true_and] at h
      exact absurd (h.1 ▸ hc') hc
  | three c a hc =>
    cases k' with
    | two c' hc' =>
      simp only [Command.bytes, List.cons_append, List.nil_append, List.cons.injEq, true_and] at h
      exact absurd (h.1 ▸ hc) hc'
    | three c' a' hc' =>
      simp only [Command.bytes, List.cons_append, List.nil_append, List.cons.injEq, true_and] at h
      obtain ⟨rfl, rfl, rfl⟩ := h
      exact ⟨rfl, rfl⟩

/-- From any position on: what is accepted is a list of commands, none of them telnet EOF. -/
theorem handleFrom_ok (line : Bytes) (i : ℕ) :
    (handleFrom line line.length i).ok = true ↔
      ∃ cmds, line.drop i = encode cmds ∧ ∀ k ∈ cmds, k.code ≠ teof := by
  induction hn : line.length - i using Nat.strongRecOn generalizing i with
  | ind n ih =>
    rcases broken_or (line.drop i) with hs | ⟨k, rest, hs⟩ | hs
    · rw [handleFrom_end hs, hs]
      exact ⟨fun _ => ⟨[], rfl, List.forall_mem_nil _⟩, fun _ => rfl⟩
    · have hlen := length_of_drop hs (by cases k <;> simp [Command.bytes])
      have hk := k.length_bytes
      have hnext := drop_of_append hs
      rw [List.length_append] at hlen
      have hrest := ih (line.length - (i + k.bytes.length)) (by omega) (i + k.bytes.length) rfl
      rw [hnext] at hrest
      rw [(handleFrom_command k hs).1, hs]
      constructor
      · intro h
        by_cases hteof : k.code = teof
        · rw [if_pos hteof] at h
          cases h
        · rw [if_neg hteof] at h
          obtain ⟨cmds, hcmds, hall⟩ := hrest.mp h
          exact ⟨k :: cmds, by rw [encode_cons, hcmds], List.forall_mem_cons.mpr ⟨hteof, hall⟩⟩
      · rintro ⟨cmds, hcmds, hall⟩
        cases cmds with
        | nil => cases k <;> cases hcmds
        | cons k' cmds =>
          rw [encode_cons] at hcmds
          obtain ⟨rfl, hcmds'⟩ := bytes_append_inj hcmds
          obtain ⟨hteof, hall'⟩ := List.forall_mem_cons.mp hall
          rw [if_neg hteof]
          exact hrest.mpr ⟨cmds, hcmds', hall'⟩
    · rw [(handleFrom_broken hs).1]
      constructor
      · intro h
        cases h
      · rintro ⟨cmds, hcmds, -⟩
        cases cmds with
        | nil => exact absurd hcmds hs.1
        | cons k cmds => exact absurd hcmds (hs.2 k (encode cmds))

theorem handleTelnetIac_broken {s : Bytes} (h : Broken s) : handleTelnetIac s = (false, []) := by
  rcases h.cases with ⟨b, rest, rfl, hb⟩ | rfl | ⟨c, hc, rfl⟩
  · cases rest with
    | nil => rfl
    | cons c rest =>
      rw [handleTelnetIac.eq_def]
      simp only [hb, ne_eq, not_false_eq_true, ↓reduceIte]
  · rfl
  · have hneg : c = wont ∨ c = dont ∨ c = doIt ∨ c = will := hc
    simp only [handleTelnetIac, hneg, ne_eq, not_true_eq_false, ↓reduceIte]

/-- The positions aside, the run is that of the console's model, which takes the line apart. -/
theorem handleFrom_eq (line : Bytes) (i : ℕ) :
    ((handleFrom line line.length i).ok, (handleFrom line line.length i).sent.map Prod.snd) =
      handleTelnetIac (line.drop i) := by
  induction hn : line.length - i using Nat.strongRecOn generalizing i with
  | ind n ih =>
    rcases broken_or (line.drop i) with hs | ⟨k, rest, hs⟩ | hs
    · rw [handleFrom_end hs, hs]
      rfl
    · have hlen := length_of_drop hs (by cases k <;> simp [Command.bytes])
      have hk := k.length_bytes
      rw [List.length_append] at hlen
      have hrest := ih (line.length - (i + k.bytes.length)) (by omega) (i + k.bytes.length) rfl
      rw [drop_of_append hs] at hrest
      rw [(handleFrom_command k hs).1, (handleFrom_command k hs).2, hs, handleTelnetIac_command,
        ← hrest]
      by_cases hteof : k.code = teof
      · simp only [hteof, ↓reduceIte, List.map_nil]
      · have hsnd : k.replies.map (Prod.snd ∘ fun r => (i, r)) = k.replies :=
          List.map_id'' (fun _ => rfl) _
        simp only [hteof, ↓reduceIte, List.map_append, List.map_map, hsnd]
    · rw [(handleFrom_broken hs).1, (handleFrom_broken hs).2, handleTelnetIac_broken hs]
      rfl

theorem handle_eq {line : Bytes} (h : line.length < 2 ^ 31) :
    ((handle line).ok, (handle line).sent.map Prod.snd) = handleTelnetIac line := by
  have hsize : toInt line.length = line.length := toInt_of_lt (by omega) (by omega)
  rw [handle, hsize, handleFrom_eq, List.drop_zero]

theorem after_reads {h : Handled} {reads : List ℕ} {sent : List (ℕ × Bytes)} {sz : ℤ}
    (hr : ∀ r ∈ reads, (r : ℤ) < sz) (hh : ∀ r ∈ h.reads, (r : ℤ) < sz) :
    ∀ r ∈ (h.after reads sent).reads, (r : ℤ) < sz :=
  List.forall_mem_append.mpr ⟨hr, hh⟩

/-- Each read is below the size that the loop goes by. -/
theorem handleFrom_reads (line : Bytes) (sz : ℤ) (i : ℕ) :
    ∀ r ∈ (handleFrom line sz i).reads, (r : ℤ) < sz := by
  induction hn : (sz - i).toNat using Nat.strongRecOn generalizing i with
  | ind n ih =>
    rw [handleFrom]
    by_cases hi : (i : ℤ) < sz
    · have h2 := ih (sz - (i + 2 : ℕ)).toNat (by omega) (i + 2) rfl
      have h3 := ih (sz - (i + 3 : ℕ)).toNat (by omega) (i + 3) rfl
      have hr1 : ∀ r ∈ [i], (r : ℤ) < sz := List.forall_mem_singleton.mpr hi
      simp only [hi, ↓reduceIte]
      by_cases hiac : byteAt line i ≠ iac
      · simpa only [hiac, ne_eq, not_false_eq_true, ↓reduceIte] using hr1
      · by_cases hi1 : sz ≤ i + 1
        · simpa only [hiac, hi1, ↓reduceIte] using hr1
        · have hr2 : ∀ r ∈ [i, i + 1], (r : ℤ) < sz := by
            rw [List.forall_mem_cons, List.forall_mem_singleton]
            omega
          simp only [hiac, hi1, ↓reduceIte]
          by_cases hi2 : sz ≤ i + 2
          · simp only [hi2, ↓reduceIte]
            repeat' split
            all_goals first | exact hr2 | exact after_reads hr2 h2
          · have hr3 : ∀ r ∈ [i, i + 1, i + 2], (r : ℤ) < sz := by
              rw [List.forall_mem_cons, List.forall_mem_cons, List.forall_mem_singleton]
              omega
            simp only [hi2, ↓reduceIte]
            repeat' split
            all_goals first
              | exact hr2 | exact after_reads hr2 h2 | exact after_reads hr2 h3 | exact after_reads hr3 h3
    · rw [if_neg hi]
      exact List.forall_mem_nil _

end Iac

end CogServer
