import CogServer.HttpRequests
import Mathlib.Data.List.TakeWhile

/-! How `handle_connection` cuts what comes in on a telnet or MCP connection into the lines that it
passes to `OnLine`. -/
namespace CogServer

/-- Bytes that come in at once. Late ones are found by `available` after a read has reported the end
of the stream. -/
structure Chunk where
  late : Bool
  bytes : Bytes
  nonempty : bytes ≠ []

/-- A line that was taken: the buffer and the end of the match in it, what is passed to `OnLine`,
and what stays in the buffer. -/
structure Taken where
  buffer : Bytes
  matchEnd : ℕ
  line : Option Bytes
  left : Bytes
  deriving DecidableEq, Repr

namespace Telnet

/-- `match_eol_or_escape`, with the number of bytes up to the end of the match. -/
def matchEnd : Bool → Bytes → Option ℕ
  | _, [] => none
  | telnetMode, c :: s =>
    let telnetMode := telnetMode || c = iac
    if c = newline || c = eot || (telnetMode && c ≤ 0xf0) then some 1
    else (matchEnd telnetMode s).map (· + 1)

/-- `read_until`: the end of the match, if any, the buffer, and what has not come in yet. Bytes that
were searched are not searched again. -/
def readUntil (searched : ℕ) (buffer : Bytes) : List Chunk → Option ℕ × Bytes × List Chunk
  | [] => ((matchEnd false (buffer.drop searched)).map (searched + ·), buffer, [])
  | c :: net =>
    match matchEnd false (buffer.drop searched) with
    | some k => (some (searched + k), buffer, c :: net)
    | none => if c.late then (none, buffer, c :: net) else readUntil buffer.length (buffer ++ c.bytes) net

/-- What `get_telnet_line` takes from the buffer once there is a match, and what the loop passes on
of it: nothing, if the D-Bus daemon talks to us. -/
def takeLine (buffer : Bytes) : Option Bytes × Bytes :=
  let (line, left) := getline buffer
  (if [0x1, 0x21] <+: line then none else some (stripReturn line), left)

/-- The loop of `handle_connection`: the lines that it takes, and the buffer when it breaks. -/
def readLoop : ℕ → Bytes → List Chunk → Option (List Taken × Bytes)
  | 0, _, _ => none
  | fuel + 1, buffer, net =>
    match readUntil 0 buffer net with
    | (some k, buffer, net) =>
      match takeLine buffer with
      | (none, left) => some ([⟨buffer, k, none, left⟩], left)
      | (some line, left) =>
        (readLoop fuel left net).map fun (taken, rest) =>
          (⟨buffer, k, some line, left⟩ :: taken, rest)
    | (none, buffer, []) => some ([], buffer)
    | (none, buffer, c :: net) => readLoop fuel (buffer ++ c.bytes) net

theorem getline_length {b : Bytes} (h : b ≠ []) : (getline b).2.length < b.length := by
  have hdrop : (b.dropWhile (· ≠ newline)).length ≤ b.length := (List.dropWhile_suffix _).length_le
  have hpos : 0 < b.length := List.length_pos_of_ne_nil h
  unfold getline
  rw [List.length_drop]
  omega

/-- The loop at the end of `handle_connection`. -/
def drain (buffer : Bytes) : List Bytes :=
  if h : buffer = [] then []
  else
    let line := stripReturn (getline buffer).1
    have := getline_length h
    (if line = [] then [] else [line]) ++ drain (getline buffer).2
termination_by buffer.length

/-- What is passed to `OnLine`, which returns each time. -/
def onLines (r : List Taken × Bytes) : List Bytes := r.1.filterMap Taken.line ++ drain r.2

def handleConnection (fuel : ℕ) (net : List Chunk) : Option (List Bytes) :=
  (readLoop fuel [] net).map onLines

/-- All bytes of the connection. -/
def stream (net : List Chunk) : Bytes := net.flatMap Chunk.bytes

/-- How often the loop goes round at most. -/
def rounds (buffer : Bytes) (net : List Chunk) : ℕ :=
  buffer.length + (stream net).length + net.length

/-- The pieces of a stream, the last one only if there is something in it. -/
def lines (s : Bytes) : List Bytes :=
  let last := stripReturn ((s.splitOn newline).getLast (List.splitOn_ne_nil _ _))
  (s.splitOn newline).dropLast.map stripReturn ++ if last = [] then [] else [last]

/-- The lines of a text whose lines end in a newline. -/
theorem splitOn_flatMap_lines {ls : List Bytes} (h : ∀ l ∈ ls, newline ∉ l) :
    (ls.flatMap (· ++ [newline])).splitOn newline = ls ++ [[]] := by
  induction ls with
  | nil => rfl
  | cons l ls ih =>
    obtain ⟨hl, hls⟩ := List.forall_mem_cons.mp h
    rw [List.flatMap_cons, List.append_assoc, List.singleton_append,
      List.splitOn_append_cons_self_of_not_mem hl, ih hls]
    rfl

variable {m : Bool} {s b buffer : Bytes} {net : List Chunk} {k n : ℕ}

theorem isSome_matchEnd (m : Bool) (s : Bytes) : (matchEnd m s).isSome = matchEolOrEscape m s := by
  induction s generalizing m with
  | nil => rfl
  | cons c s ih =>
    simp only [matchEnd, matchEolOrEscape]
    split
    · rename_i h
      rw [h, Bool.true_or, Option.isSome_some]
    · rename_i h
      rw [Option.isSome_map, ih, Bool.eq_false_iff.mpr h, Bool.false_or]

/-- Only the last byte of a match can be a newline, and it is one if there are no other bytes to
match. -/
theorem matchEnd_some (h : matchEnd m s = some k) :
    ∃ before c after, s = before ++ c :: after ∧ before.length + 1 = k ∧ newline ∉ before ∧
      (m = false → eot ∉ s → iac ∉ s → c = newline) := by
  induction s generalizing m k with
  | nil => cases h
  | cons c s ih =>
    simp only [matchEnd] at h
    split at h
    · rename_i hc
      refine ⟨[], c, s, rfl, Option.some.inj h, List.not_mem_nil, ?_⟩
      intro hm heot hiac
      have h1 : c ≠ eot := fun he => heot (he ▸ List.mem_cons_self)
      have h2 : c ≠ iac := fun he => hiac (he ▸ List.mem_cons_self)
      simpa [hm, h1, h2] using hc
    · rename_i hc
      obtain ⟨j, hj, rfl⟩ := Option.map_eq_some_iff.mp h
      obtain ⟨before, d, after, rfl, hlen, hnl, hd⟩ := ih hj
      have hne : c ≠ newline := by
        intro he
        simp [he] at hc
      refine ⟨c :: before, d, after, rfl, by rw [List.length_cons, hlen], ?_, ?_⟩
      · intro hmem
        rcases List.mem_cons.mp hmem with he | hmem
        · exact hne he.symm
        · exact hnl hmem
      · intro hm heot hiac
        have h2 : c ≠ iac := fun he => hiac (he ▸ List.mem_cons_self)
        apply hd
        · simp [hm, h2]
        · exact fun hmem => heot (List.mem_cons_of_mem _ hmem)
        · exact fun hmem => hiac (List.mem_cons_of_mem _ hmem)

theorem matchEnd_none (h : matchEnd m s = none) : newline ∉ s := by
  intro hmem
  have htrue := matchEolOrEscape_of_newline (m := m) hmem
  rw [← isSome_matchEnd, h] at htrue
  cases htrue

/-- The search from where the last one ended. None of the bytes that were searched is a newline. -/
theorem search_some (h : newline ∉ buffer.take n) (hk : matchEnd false (buffer.drop n) = some k) :
    ∃ before c after, buffer = before ++ c :: after ∧ before.length + 1 = n + k ∧ newline ∉ before ∧
      (eot ∉ buffer → iac ∉ buffer → c = newline) := by
  obtain ⟨before, c, after, hdrop, hlen, hnl, hc⟩ := matchEnd_some hk
  have hn : n ≤ buffer.length := by
    by_contra hlt
    rw [List.drop_of_length_le (by omega)] at hdrop
    simp at hdrop
  refine ⟨buffer.take n ++ before, c, after, ?_, ?_, ?_, ?_⟩
  · rw [List.append_assoc, ← hdrop, List.take_append_drop]
  · rw [List.length_append, List.length_take]
    omega
  · rw [List.mem_append]
    exact not_or.mpr ⟨h, hnl⟩
  · intro heot hiac
    exact hc rfl (fun hmem => heot (List.mem_of_mem_drop hmem)) 
      fun hmem => hiac (List.mem_of_mem_drop hmem)

theorem search_none (h : newline ∉ buffer.take n) (hk : matchEnd false (buffer.drop n) = none) :
    newline ∉ buffer := by
  intro hmem
  rw [← List.take_append_drop n buffer, List.mem_append] at hmem
  rcases hmem with hmem | hmem
  · exact h hmem
  · exact matchEnd_none hk hmem

/-- What `read_until` has when it is done. -/
structure ReadDone (buffer : Bytes) (net : List Chunk) (r : Option ℕ × Bytes × List Chunk) :
  Prop where
  stream : r.2.1 ++ stream r.2.2 = buffer ++ stream net
  shorter : r.2.2.length ≤ net.length
  matched : ∀ k, r.1 = some k → ∃ before c after, r.2.1 = before ++ c :: after ∧ before.length + 1 = k ∧
    newline ∉ before ∧ (eot ∉ r.2.1 → iac ∉ r.2.1 → c = newline)
  ended : r.1 = none → newline ∉ r.2.1

theorem readUntil_spec (h : newline ∉ buffer.take n) :
    ReadDone buffer net (readUntil n buffer net) := by
  induction net generalizing n buffer with
  | nil =>
    refine ⟨rfl, le_rfl, ?_, ?_⟩
    · intro k hk
      obtain ⟨j, hj, rfl⟩ := Option.map_eq_some_iff.mp hk
      exact search_some h hj
    · intro hk
      exact search_none h (Option.map_eq_none_iff.mp hk)
  | cons c net ih =>
    simp only [readUntil]
    split
    · rename_i j hj
      refine ⟨rfl, le_rfl, ?_, fun hk => nomatch hk⟩
      intro k hk
      obtain rfl := Option.some.inj hk
      exact search_some h hj
    · rename_i hj
      have hnl := search_none h hj
      split
      · exact ⟨rfl, le_rfl, fun k hk => (nomatch hk), fun _ => hnl⟩
      · -- the new bytes are searched, and the old ones have no newline
        have hold : newline ∉ (buffer ++ c.bytes).take buffer.length := by rwa [List.take_left]
        have hdone := ih hold
        refine ⟨?_, Nat.le_succ_of_le hdone.shorter, hdone.matched, hdone.ended⟩
        rw [hdone.stream, List.append_assoc]
        rfl

/-- A line that was taken at a match. No byte before the last one of the match is a newline. -/
structure Matched (t : Taken) : Prop where
  ends : ∃ before c after, t.buffer = before ++ c :: after ∧ before.length + 1 = t.matchEnd ∧
    newline ∉ before ∧ (eot ∉ t.buffer → iac ∉ t.buffer → c = newline)
  takes : takeLine t.buffer = (t.line, t.left)

theorem Matched.shorter {t : Taken} (h : Matched t) : t.left.length < t.buffer.length := by
  obtain ⟨before, c, after, hb, -⟩ := h.ends
  have hleft : (getline t.buffer).2 = t.left := congrArg Prod.snd h.takes
  rw [← hleft]
  apply getline_length
  rw [hb]
  simp

/-- What one round of the loop does: it takes a line, it ends, or it goes on with late bytes. -/
theorem readLoop_cases (fuel : ℕ) (buffer : Bytes) (net : List Chunk) :
    (∃ t net', Matched t ∧ t.buffer ++ stream net' = buffer ++ stream net ∧
      net'.length ≤ net.length ∧ readLoop (fuel + 1) buffer net =
        if t.line = none then some ([t], t.left)
        else (readLoop fuel t.left net').map fun (taken, rest) => (t :: taken, rest)) ∨
    (newline ∉ buffer ++ stream net ∧
      readLoop (fuel + 1) buffer net = some ([], buffer ++ stream net)) ∨
    ∃ b net', b ++ stream net' = buffer ++ stream net ∧ net'.length < net.length ∧
    readLoop (fuel + 1) buffer net = readLoop fuel b net' := by
  have hdone : ReadDone buffer net (readUntil 0 buffer net) := readUntil_spec (by simp)
  simp only [readLoop]
  rcases hr : readUntil 0 buffer net with ⟨_ | k, b, net'⟩
  · rw [hr] at hdone
    obtain ⟨hstream, hshort, -, hended⟩ := hdone
    cases net' with
    | nil =>
      have hb : b = buffer ++ stream net := by rw [← hstream, stream, List.flatMap_nil, List.append_nil]
      rw [← hb]
      exact .inr (.inl ⟨hended rfl, rfl⟩)
    | cons c net' =>
      refine .inr (.inr ⟨b ++ c.bytes, net', ?_, hshort, rfl⟩)
      rw [← hstream, List.append_assoc]
      rfl
  · rw [hr] at hdone
    obtain ⟨hstream, hshort, hmatched, -⟩ := hdone
    refine .inl ⟨⟨b, k, (takeLine b).1, (takeLine b).2⟩, net', ⟨hmatched k rfl, rfl⟩, hstream,
      hshort, ?_⟩
    rcases htake : takeLine b with ⟨_ | line, left⟩
    · simp only [htake, ↓reduceIte]
    · simp only [htake, reduceCtorEq, ↓reduceIte]

/-- The loop comes to its end. -/
theorem readLoop_total {fuel : ℕ} (h : rounds buffer net < fuel) :
    ∃ r, readLoop fuel buffer net = some r := by
  induction fuel generalizing buffer net with
  | zero => omega
  | succ fuel ih =>
    rcases readLoop_cases fuel buffer net with ⟨t, net', ht, hstream, hshort, hloop⟩ | ⟨-, hloop⟩ |
      ⟨b, net', hstream, hshort, hloop⟩
    · have hlen := congrArg List.length hstream
      have hless := ht.shorter
      rw [hloop]
      split
      · exact ⟨_, rfl⟩
      · have hrounds : rounds t.left net' < fuel := by
          simp only [rounds, List.length_append] at *
          omega
        obtain ⟨r, hr⟩ := ih hrounds
        exact ⟨_, by rw [hr]; rfl⟩
    · exact ⟨_, hloop⟩
    · have hlen := congrArg List.length hstream
      rw [hloop]
      apply ih
      simp only [rounds, List.length_append] at *
      omega

/-- All lines are taken at a match. -/
theorem readLoop_matched {fuel : ℕ} {taken : List Taken} {rest : Bytes}
    (h : readLoop fuel buffer net = some (taken, rest)) : ∀ t ∈ taken, Matched t := by
  induction fuel generalizing buffer net taken rest with
  | zero => cases h
  | succ fuel ih =>
    rcases readLoop_cases fuel buffer net with
      ⟨t, net', ht, -, -, hloop⟩ | ⟨-, hloop⟩ | ⟨b, net', -, -, hloop⟩
    · rw [hloop] at h
      split at h
      · obtain rfl := (Prod.mk.inj (Option.some.inj h)).1
        intro u hu
        rwa [List.mem_singleton.mp hu]
      · obtain ⟨⟨more, rest'⟩, hmore, he⟩ := Option.map_eq_some_iff.mp h
        obtain rfl := (Prod.mk.inj he).1
        exact List.forall_mem_cons.mpr ⟨ht, ih hmore⟩
    · rw [hloop] at h
      obtain rfl := (Prod.mk.inj (Option.some.inj h)).1
      exact fun t ht => absurd ht List.not_mem_nil
    · rw [hloop] at h
      exact ih h

theorem getline_of_notMem (h : newline ∉ b) : getline b = (b, []) := by
  have hall : ∀ c ∈ b, decide (c ≠ newline) = true := fun c hc => by
    simpa using ne_of_mem_of_not_mem hc h
  unfold getline
  rw [List.takeWhile_eq_self_iff.mpr hall, List.dropWhile_eq_nil_iff.mpr hall]
  rfl

@[simp] theorem drain_nil : drain [] = [] := by
  rw [drain, dif_pos rfl]

theorem drain_of_notMem (h : newline ∉ b) :
    drain b = if stripReturn b = [] then [] else [stripReturn b] := by
  by_cases hb : b = []
  · subst hb
    simp [stripReturn]
  · rw [drain, dif_neg hb]
    simp [getline_of_notMem h]

theorem lines_of_notMem (h : newline ∉ s) :
    lines s = if stripReturn s = [] then [] else [stripReturn s] := by
  have hsplit := List.splitOn_eq_singleton h
  simp [lines, hsplit]

theorem lines_append {before : Bytes} (after : Bytes) (h : newline ∉ before) :
    lines (before ++ newline :: after) = stripReturn before :: lines after := by
  have hne : after.splitOn newline ≠ [] := List.splitOn_ne_nil _ _
  simp only [lines, List.splitOn_append_cons_self_of_not_mem h, List.dropLast_cons_of_ne_nil hne,
    List.getLast_cons hne, List.map_cons, List.cons_append]

/-- No terminated line is the greeting of the D-Bus daemon. -/
def NoDBus (s : Bytes) : Prop := ∀ line ∈ (s.splitOn newline).dropLast, ¬ [0x1, 0x21] <+: line

theorem noDBus_append {before after : Bytes} (h : newline ∉ before) :
    NoDBus (before ++ newline :: after) ↔ ¬ [0x1, 0x21] <+: before ∧ NoDBus after := by
  have hne : after.splitOn newline ≠ [] := List.splitOn_ne_nil _ _
  rw [NoDBus, List.splitOn_append_cons_self_of_not_mem h, List.dropLast_cons_of_ne_nil hne,
    List.forall_mem_cons]
  rfl

/-- The lines of the loop and those at the end are the pieces of what is buffered and what comes
in. -/
theorem readLoop_lines {fuel : ℕ} (heot : eot ∉ buffer ++ stream net)
    (hiac : iac ∉ buffer ++ stream net) (hbus : NoDBus (buffer ++ stream net))
    (hfuel : rounds buffer net < fuel) :
    (readLoop fuel buffer net).map onLines = some (lines (buffer ++ stream net)) := by
  induction fuel generalizing buffer net with
  | zero => omega
  | succ fuel ih =>
    rcases readLoop_cases fuel buffer net with ⟨t, net', ht, hstream, hshort, hloop⟩ | ⟨hnl, hloop⟩ |
      ⟨b, net', hstream, hshort, hloop⟩
    · have hlen := congrArg List.length hstream
      have hless := ht.shorter
      rw [← hstream] at heot hiac hbus ⊢
      obtain ⟨before, c, after, hb, -, hnl, hc⟩ := ht.ends
      -- only a newline can have ended the line
      obtain rfl : c = newline := hc (fun hmem => heot (List.mem_append_left _ hmem))
        fun hmem => hiac (List.mem_append_left _ hmem)
      have htake := ht.takes
      rw [hb, List.append_assoc, List.cons_append, noDBus_append hnl] at hbus
      rw [hb, takeLine, getline_append after hnl] at htake
      simp only [hbus.1, ↓reduceIte] at htake
      obtain ⟨hline, hleft⟩ := Prod.mk.inj htake
      have hrounds : rounds after net' < fuel := by
        simp only [rounds, List.length_append, hb, List.length_cons] at *
        omega
      have hrest := ih
        (fun hmem => heot (by
          rw [hb, List.append_assoc]
          exact List.mem_append_right _ (List.mem_cons_of_mem _ hmem)))
        (fun hmem => hiac (by
          rw [hb, List.append_assoc]
          exact List.mem_append_right _ (List.mem_cons_of_mem _ hmem)))
        hbus.2 hrounds
      obtain ⟨⟨taken, rest⟩, hr, hlines⟩ := Option.map_eq_some_iff.mp hrest
      rw [hloop, if_neg (by rw [← hline]; exact Option.some_ne_none _), ← hleft, hr, hb, List.append_assoc,
        List.cons_append, lines_append _ hnl, ← hlines]
      simp only [Option.map_some, onLines, List.filterMap_cons, ← hline, List.cons_append]
    · rw [hloop, Option.map_some, onLines, lines_of_notMem hnl, drain_of_notMem hnl]
      rfl
    · have hlen := congrArg List.length hstream
      rw [← hstream] at heot hiac hbus ⊢
      rw [hloop]
      apply ih heot hiac hbus
      simp only [rounds, List.length_append] at *
      omega

/-- However a stream is cut, `OnLine` gets its pieces, and the last one if there is something in
it. -/
theorem lines_whole (net : List Chunk) (heot : eot ∉ stream net) (hiac : iac ∉ stream net)
    (hbus : NoDBus (stream net)) {fuel : ℕ} (hfuel : rounds [] net < fuel) :
    handleConnection fuel net = some (lines (stream net)) :=
  @readLoop_lines [] net fuel heot hiac hbus hfuel

/-- Two lines, of which the second one is not terminated, in four chunks. -/
def cutLines : List Chunk :=
  [⟨false, ascii "a\x0d", by decide⟩, ⟨false, ascii "\n\n", by decide⟩, ⟨false, ascii "b", by decide⟩,
    ⟨true, ascii "c", by decide⟩]

theorem lines_whole_cut : handleConnection 20 cutLines = some [ascii "a", [], ascii "bc"] := by
  have hlines : lines (stream cutLines) = [ascii "a", [], ascii "bc"] := by decide
  rw [← hlines]
  exact lines_whole cutLines (by decide) (by decide) (by unfold NoDBus; decide) (by decide)

/-- A line without its newline. -/
def stripNewline (line : Bytes) : Bytes := if line.getLast? = some newline then line.dropLast else line

end Telnet

namespace Taken

open Telnet

/-- The line is what there is up to the end of the match, and the rest stays. -/
def Exact (t : Taken) : Prop :=
  t.line = some (stripReturn (stripNewline (t.buffer.take t.matchEnd))) ∧
    t.left = t.buffer.drop t.matchEnd

/-- The line is the one of a buffer that ends with the match, and the rest stays. -/
def Alone (t : Taken) : Prop :=
  t.line = (takeLine (t.buffer.take t.matchEnd)).1 ∧ t.left = t.buffer.drop t.matchEnd

/-- The match is a newline, or nothing is buffered behind it. -/
def Clean (t : Taken) : Prop :=
  (t.buffer.take t.matchEnd).getLast? = some newline ∨ t.buffer.drop t.matchEnd = []

/-- The D-Bus daemon talks to us. -/
def DBus (t : Taken) : Prop := [0x1, 0x21] <+: stripNewline (t.buffer.take t.matchEnd)

instance (t : Taken) : Decidable t.DBus := inferInstanceAs (Decidable (_ <+: _))

end Taken

namespace Telnet

variable {t : Taken}

/-- What is taken where a newline ends the match or nothing is behind it. -/
theorem getline_clean {before after : Bytes} {c : UInt8} (h : newline ∉ before)
    (hc : c = newline ∨ after = []) :
    getline (before ++ c :: after) = (stripNewline (before ++ [c]), after) := by
  by_cases hn : c = newline
  · subst hn
    rw [getline_append after h, stripNewline, if_pos List.getLast?_concat, List.dropLast_concat]
  · obtain rfl := hc.resolve_left hn
    have hall : newline ∉ before ++ [c] := by
      rw [List.mem_append, List.mem_singleton]
      exact not_or.mpr ⟨h, fun he => hn he.symm⟩
    rw [getline_of_notMem hall, stripNewline, if_neg]
    rw [List.getLast?_concat, Option.some.injEq]
    exact hn

/-- Other matches leave less than what is behind them. -/
theorem getline_dirty {before after : Bytes} {c : UInt8} (h : newline ∉ before) (hc : c ≠ newline)
    (ha : after ≠ []) : (getline (before ++ c :: after)).2 ≠ after := by
  have hall : ∀ d ∈ before ++ [c], decide (d ≠ newline) = true := by
    intro d hd
    rcases List.mem_append.mp hd with hd | hd
    · simpa using ne_of_mem_of_not_mem hd h
    · simpa [List.mem_singleton.mp hd] using hc
  intro he
  have hsplit : before ++ c :: after = (before ++ [c]) ++ after := by simp
  have hleft : (getline (before ++ c :: after)).2 = (getline after).2 := by
    rw [hsplit]
    unfold getline
    rw [List.dropWhile_append_of_pos hall]
  have hless := getline_length ha
  rw [← hleft, he] at hless
  omega

/-- What was taken, by the byte that ends the match. -/
theorem Matched.cases (h : Matched t) :
    ∃ before c after, newline ∉ before ∧ t.buffer = before ++ c :: after ∧
      t.buffer.take t.matchEnd = before ++ [c] ∧ t.buffer.drop t.matchEnd = after ∧
      (t.Clean ↔ c = newline ∨ after = []) := by
  obtain ⟨before, c, after, hb, hk, hnl, -⟩ := h.ends
  have hsplit : t.buffer = (before ++ [c]) ++ after := by rw [hb, List.append_assoc]; rfl
  have hlen : t.matchEnd = (before ++ [c]).length := by rw [← hk, List.length_append]; rfl
  have htake : t.buffer.take t.matchEnd = before ++ [c] := by rw [hsplit, hlen, List.take_left]
  have hdrop : t.buffer.drop t.matchEnd = after := by rw [hsplit, hlen, List.drop_left]
  refine ⟨before, c, after, hnl, hb, htake, hdrop, ?_⟩
  rw [Taken.Clean, htake, hdrop, List.getLast?_concat, Option.some.injEq]

theorem Matched.takes_clean (h : Matched t) (hc : t.Clean) :
    t.line = (if t.DBus then none else some (stripReturn (stripNewline (t.buffer.take t.matchEnd)))) ∧
      t.left = t.buffer.drop t.matchEnd := by
  obtain ⟨before, c, after, hnl, hb, htake, hdrop, hclean⟩ := h.cases
  have ht := h.takes
  rw [hb, takeLine, getline_clean hnl (hclean.mp hc)] at ht
  obtain ⟨hline, hleft⟩ := Prod.mk.inj ht
  have hbus : t.DBus ↔ [0x1, 0x21] <+: stripNewline (before ++ [c]) := by rw [Taken.DBus, htake]
  simp only [hbus, htake, hdrop]
  exact ⟨hline.symm, hleft.symm⟩

theorem Matched.clean_of_left (h : Matched t) (hleft : t.left = t.buffer.drop t.matchEnd) :
    t.Clean := by
  obtain ⟨before, c, after, hnl, hb, htake, hdrop, hclean⟩ := h.cases
  by_contra hc
  rw [hclean, not_or] at hc
  have ht : (getline t.buffer).2 = t.left := congrArg Prod.snd h.takes
  rw [hleft, hdrop, hb] at ht
  exact getline_dirty hnl hc.1 hc.2 ht

theorem Matched.exact_iff (h : Matched t) : t.Exact ↔ t.Clean ∧ ¬ t.DBus := by
  constructor
  · intro he
    have hc := h.clean_of_left he.2
    refine ⟨hc, ?_⟩
    intro hbus
    have hline := (h.takes_clean hc).1
    rw [if_pos hbus, he.1] at hline
    cases hline
  · intro hc
    have ht := h.takes_clean hc.1
    rwa [if_neg hc.2] at ht

theorem Matched.alone_iff (h : Matched t) : t.Alone ↔ t.Clean := by
  constructor
  · intro ha
    exact h.clean_of_left ha.2
  · intro hc
    have ht := h.takes_clean hc
    refine ⟨?_, ht.2⟩
    obtain ⟨before, c, after, hnl, -, htake, -, -⟩ := h.cases
    -- the buffer that ends with the match is clean too
    have halone := getline_clean (c := c) hnl (.inr (rfl : ([] : Bytes) = []))
    have hbus : t.DBus ↔ [0x1, 0x21] <+: stripNewline (before ++ [c]) := by rw [Taken.DBus, htake]
    rw [ht.1, htake, takeLine, halone]
    simp only [hbus]

/-- Each match that the reader of a connection finds is handed on exactly, and as if nothing were
buffered behind it, if it is a newline or nothing is. -/
theorem controls_delivered (net : List Chunk) {fuel : ℕ} (hfuel : rounds [] net < fuel) :
    ∃ taken rest, readLoop fuel [] net = some (taken, rest) ∧
      ∀ t ∈ taken, (t.Exact ↔ t.Clean ∧ ¬ t.DBus) ∧ (t.Alone ↔ t.Clean) := by
  obtain ⟨⟨taken, rest⟩, hloop⟩ := readLoop_total hfuel
  refine ⟨taken, rest, hloop, ?_⟩
  intro t ht
  have hmatched := readLoop_matched hloop t ht
  exact ⟨hmatched.exact_iff, hmatched.alone_iff⟩

/-- A control-D in a chunk of its own, and one with a line behind it. -/
def controlD (together : Bool) : List Chunk :=
  if together then [⟨false, eot :: ascii "foo\n", by decide⟩]
  else [⟨false, [eot], by decide⟩, ⟨false, ascii "foo\n", by decide⟩]

theorem controls_delivered_alone :
    ∃ taken rest, readLoop 20 [] (controlD false) = some (taken, rest) ∧
      ∀ t ∈ taken, (t.Exact ↔ t.Clean ∧ ¬ t.DBus) ∧ (t.Alone ↔ t.Clean) :=
  controls_delivered (controlD false) (by decide)

/-- The control-D and the line behind it are handed on as one line. -/
theorem controls_delivered_fails :
    ¬ (∀ net fuel taken rest, readLoop fuel [] net = some (taken, rest) → ∀ t ∈ taken, t.Exact) ∧
      handleConnection 20 (controlD false) = some [[eot], ascii "foo"] ∧
      handleConnection 20 (controlD true) = some [eot :: ascii "foo"] := by
  refine ⟨?_, ?_, ?_⟩
  · intro h
    have ht := h (controlD true) 20 [⟨eot :: ascii "foo\n", 1, some (eot :: ascii "foo"), []⟩] []
      (by decide) _
      List.mem_cons_self
    exact absurd ht.2 (by decide)
  · have hrun : readLoop 20 [] (controlD false) =
        some ([⟨[eot], 1, some [eot], []⟩, ⟨ascii "foo\n", 4, some (ascii "foo"), []⟩], []) := by decide
    rw [handleConnection, hrun, Option.map_some, onLines, drain_nil]
    rfl
  · have hrun : readLoop 20 [] (controlD true) =
        some ([⟨eot :: ascii "foo\n", 1, some (eot :: ascii "foo"), []⟩], []) := by decide
    rw [handleConnection, hrun, Option.map_some, onLines, drain_nil]
    rfl

end Telnet

end CogServer
