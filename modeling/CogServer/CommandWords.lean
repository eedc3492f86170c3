import CogServer.ServerConsole

/-! `simple_tokenize`, position for position: the words of a command line are the arguments that
were written on it. -/
namespace CogServer

namespace CommandWords

/-- What an inner loop does: the characters it took, the position where it ends, and the positions
it read. -/
structure Scan where
  buff : Bytes
  pos : ℕ
  reads : List ℕ
  deriving DecidableEq, Repr

/-- The inner loops: `while (p(line[pos]) and pos < len)`. The character is tested first. -/
def scan (p : UInt8 → Bool) (line : Bytes) (pos : ℕ) : Scan :=
  if p (byteAt line pos) && decide (pos < line.length) then
    let s := scan p line (pos + 1)
    ⟨byteAt line pos :: s.buff, s.pos, pos :: s.reads⟩
  else ⟨[], pos, [pos]⟩
termination_by line.length - pos
decreasing_by
  simp_all only [Bool.and_eq_true, decide_eq_true_eq]
  omega

theorem scan_stop {p : UInt8 → Bool} {line : Bytes} {pos : ℕ}
    (h : ¬ (p (byteAt line pos) = true ∧ pos < line.length)) :
    scan p line pos = ⟨[], pos, [pos]⟩ := by
  rw [scan, if_neg]
  simpa using h

theorem scan_go {p : UInt8 → Bool} {line : Bytes} {pos : ℕ} (hp : p (byteAt line pos) = true)
    (hpos : pos < line.length) :
    scan p line pos = ⟨byteAt line pos :: (scan p line (pos + 1)).buff, (scan p line (pos + 1)).pos,
      pos :: (scan p line (pos + 1)).reads⟩ := by
  rw [scan, if_pos]
  simpa using ⟨hp, hpos⟩

/-- An inner loop ends at or after its start. -/
theorem scan_pos_le (p : UInt8 → Bool) (line : Bytes) (pos : ℕ) : pos ≤ (scan p line pos).pos := by
  induction hn : line.length - pos generalizing pos with
  | zero =>
    have hstop : scan p line pos = ⟨[], pos, [pos]⟩ := scan_stop (by omega)
    simp only [hstop, Nat.le_refl]
  | succ n ih =>
    by_cases hp : p (byteAt line pos) = true
    · have hnext := ih (pos + 1) (by omega)
      rw [scan_go hp (by omega)]
      exact Nat.le_of_succ_le hnext
    · have hstop : scan p line pos = ⟨[], pos, [pos]⟩ := scan_stop fun h => hp h.1
      simp only [hstop, Nat.le_refl]

/-- It gets on if the character at its start is one to take. -/
theorem scan_progress {p : UInt8 → Bool} {line : Bytes} {pos : ℕ} (hp : p (byteAt line pos) = true)
    (hpos : pos < line.length) : pos < (scan p line pos).pos := by
  rw [scan_go hp hpos]
  exact scan_pos_le p line (pos + 1)

/-- What the scan of a line gives: the words, and the positions that were read. -/
structure Words where
  params : List Bytes
  reads : List ℕ
  deriving DecidableEq, Repr

/-- `simple_tokenize` from a position on. -/
def tokenizeAt (line : Bytes) (pos : ℕ) : Words :=
  if pos < line.length then
    if byteAt line pos = quote then
      let s := scan (· ≠ quote) line (pos + 1)
      let r := tokenizeAt line (s.pos + 1)
      ⟨s.buff :: r.params, pos :: s.reads ++ r.reads⟩
    else if byteAt line pos ≠ blank then
      let s := scan (· ≠ blank) line pos
      let r := tokenizeAt line s.pos
      ⟨s.buff :: r.params, pos :: s.reads ++ r.reads⟩
    else
      let s := scan (· = blank) line pos
      let r := tokenizeAt line s.pos
      ⟨r.params, pos :: s.reads ++ r.reads⟩
  else ⟨[], []⟩
termination_by line.length - pos
decreasing_by
  · have h := scan_pos_le (· ≠ quote) line (pos + 1)
    omega
  · rename_i hpos _ hb
    have h := scan_progress (p := (· ≠ blank)) (by simpa using hb) hpos
    omega
  · rename_i hpos _ hb
    have h := scan_progress (p := (· = blank)) (by simpa using hb) hpos
    omega

variable {line : Bytes} {pos : ℕ}

theorem drop_eq_cons (hpos : pos < line.length) :
    line.drop pos = byteAt line pos :: line.drop (pos + 1) := by
  rw [List.drop_eq_getElem_cons hpos, byteAt, List.getD_eq_getElem?_getD, List.getElem?_eq_getElem hpos,
    Option.getD_some]

/-- The inner loops take the characters up to the first one that they do not take. -/
theorem scan_eq (p : UInt8 → Bool) (line : Bytes) {pos : ℕ} (hpos : pos ≤ line.length) :
    (scan p line pos).buff = (line.drop pos).takeWhile p ∧
      line.drop (scan p line pos).pos = (line.drop pos).dropWhile p ∧
      (scan p line pos).pos ≤ line.length ∧ ∀ i ∈ (scan p line pos).reads, i ≤ line.length := by
  induction hn : line.length - pos generalizing pos with
  | zero =>
    rw [scan_stop (by omega), List.drop_eq_nil_of_le (by omega)]
    simpa using hpos
  | succ n ih =>
    have hlt : pos < line.length := by omega
    have hdrop := drop_eq_cons hlt
    rw [hdrop]
    by_cases hp : p (byteAt line pos) = true
    · obtain ⟨h1, h2, h3, h4⟩ := @ih (pos + 1) hlt (by omega)
      rw [scan_go hp hlt, List.takeWhile_cons_of_pos hp, List.dropWhile_cons_of_pos hp, h1]
      refine ⟨rfl, h2, h3, ?_⟩
      rw [List.forall_mem_cons]
      exact ⟨hpos, h4⟩
    · rw [scan_stop fun h => hp h.1, List.takeWhile_cons_of_neg hp, List.dropWhile_cons_of_neg hp]
      refine ⟨rfl, hdrop, hpos, ?_⟩
      rw [List.forall_mem_singleton]
      exact hpos

/-- The three modes of the scan. -/
theorem tokenizeAt_end (hpos : line.length ≤ pos) : tokenizeAt line pos = ⟨[], []⟩ := by
  rw [tokenizeAt, if_neg (by omega)]

theorem tokenizeAt_quote (hpos : pos < line.length) (hq : byteAt line pos = quote) :
    tokenizeAt line pos =
      ⟨(scan (· ≠ quote) line (pos + 1)).buff ::
          (tokenizeAt line ((scan (· ≠ quote) line (pos + 1)).pos + 1)).params,
        pos :: (scan (· ≠ quote) line (pos + 1)).reads ++
          (tokenizeAt line ((scan (· ≠ quote) line (pos + 1)).pos + 1)).reads⟩ := by
  rw [tokenizeAt, if_pos hpos, if_pos hq]

theorem tokenizeAt_word (hpos : pos < line.length) (hq : byteAt line pos ≠ quote)
    (hb : byteAt line pos ≠ blank) :
    tokenizeAt line pos =
      ⟨(scan (· ≠ blank) line pos).buff :: (tokenizeAt line (scan (· ≠ blank) line pos).pos).params,
        pos :: (scan (· ≠ blank) line pos).reads ++
          (tokenizeAt line (scan (· ≠ blank) line pos).pos).reads⟩ := by
  rw [tokenizeAt, if_pos hpos, if_neg hq, if_pos hb]

theorem tokenizeAt_blank (hpos : pos < line.length) (hb : byteAt line pos = blank) :
    tokenizeAt line pos =
      ⟨(tokenizeAt line (scan (· = blank) line pos).pos).params,
        pos :: (scan (· = blank) line pos).reads ++
          (tokenizeAt line (scan (· = blank) line pos).pos).reads⟩ := by
  have hq : byteAt line pos ≠ quote := by rw [hb]; decide
  rw [tokenizeAt, if_pos hpos, if_neg hq, if_neg (not_not.mpr hb)]

/-- Every read is at most at the position after the last character. -/
theorem tokenizeAt_reads (line : Bytes) (pos : ℕ) :
    ∀ i ∈ (tokenizeAt line pos).reads, i ≤ line.length := by
  induction pos using tokenizeAt.induct line with
  | case1 pos hpos hq s ih =>
    have hscan := (scan_eq (· ≠ quote) _ hpos).2.2.2
    rw [tokenizeAt_quote hpos hq]
    simp only [List.cons_append, List.forall_mem_cons, List.forall_mem_append]
    exact ⟨(Nat.le_of_lt hpos), hscan, ih⟩
  | case2 pos hpos hq hb s ih =>
    have hscan := (scan_eq (· ≠ blank) _ (Nat.le_of_lt hpos)).2.2.2
    rw [tokenizeAt_word hpos hq hb]
    simp only [List.cons_append, List.forall_mem_cons, List.forall_mem_append]
    exact ⟨(Nat.le_of_lt hpos), hscan, ih⟩
  | case3 pos hpos hq hb s ih =>
    have hscan := (scan_eq (· = blank) _ (Nat.le_of_lt hpos)).2.2.2
    rw [tokenizeAt_blank hpos (not_not.mp hb)]
    simp only [List.cons_append, List.forall_mem_cons, List.forall_mem_append]
    exact ⟨(Nat.le_of_lt hpos), hscan, ih⟩
  | case4 pos hpos =>
    rw [tokenizeAt_end (by omega)]
    exact List.forall_mem_nil _

theorem simpleTokenizeFrom_nil (fuel : ℕ) : simpleTokenizeFrom fuel [] = [] := by
  cases fuel <;> rfl

theorem simpleTokenizeFrom_quote (fuel : ℕ) (rest : Bytes) :
    simpleTokenizeFrom (fuel + 1) (quote :: rest) =
      rest.takeWhile (· ≠ quote) ::
        simpleTokenizeFrom fuel ((rest.dropWhile (· ≠ quote)).drop 1) := by
  rw [simpleTokenizeFrom, if_pos rfl]

theorem simpleTokenizeFrom_word (fuel : ℕ) {c : UInt8} (rest : Bytes) (hq : c ≠ quote)
    (hb : c ≠ blank) :
    simpleTokenizeFrom (fuel + 1) (c :: rest) =
      (c :: rest).takeWhile (· ≠ blank) ::
        simpleTokenizeFrom fuel ((c :: rest).dropWhile (· ≠ blank)) := by
  rw [simpleTokenizeFrom, if_neg hq, if_pos hb]

theorem simpleTokenizeFrom_blank (fuel : ℕ) (rest : Bytes) :
    simpleTokenizeFrom (fuel + 1) (blank :: rest) =
      simpleTokenizeFrom fuel (rest.dropWhile (· = blank)) := by
  rw [simpleTokenizeFrom, if_neg (by decide), if_neg (by decide)]

/-- The words do not depend on the fuel, if there is enough: they are those that the positions
give. -/
theorem tokenizeAt_params (line : Bytes) (pos : ℕ) : ∀ fuel, line.length ≤ pos + fuel →
    (tokenizeAt line pos).params = simpleTokenizeFrom fuel (line.drop pos) := by
  induction pos using tokenizeAt.induct line with
  | case1 pos hpos hq s ih =>
    intro fuel hfuel
    obtain ⟨fuel, rfl⟩ : ∃ n, fuel = n + 1 := ⟨fuel - 1, by omega⟩
    obtain ⟨hbuff, hdrop, -, -⟩ := scan_eq (· ≠ quote) line (show pos + 1 ≤ line.length from hpos)
    have hle : pos + 1 ≤ s.pos := scan_pos_le (· ≠ quote) line (pos + 1)
    rw [tokenizeAt_quote hpos hq, drop_eq_cons hpos, hq, simpleTokenizeFrom_quote, ← hbuff, ← hdrop,
      List.drop_drop]
    exact congrArg _ (ih fuel (by omega))
  | case2 pos hpos hq hb s ih =>
    intro fuel hfuel
    obtain ⟨fuel, rfl⟩ : ∃ n, fuel = n + 1 := ⟨fuel - 1, by omega⟩
    obtain ⟨hbuff, hdrop, -, -⟩ := scan_eq (· ≠ blank) line (Nat.le_of_lt hpos)
    have hlt : pos < s.pos := scan_progress (p := (· ≠ blank)) (by simpa using hb) hpos
    rw [drop_eq_cons hpos] at hbuff hdrop
    rw [tokenizeAt_word hpos hq hb, drop_eq_cons hpos, simpleTokenizeFrom_word fuel _ hq hb, ← hbuff,
      ← hdrop]
    exact congrArg _ (ih fuel (by omega))
  | case3 pos hpos hq hb s ih =>
    intro fuel hfuel
    obtain ⟨fuel, rfl⟩ : ∃ n, fuel = n + 1 := ⟨fuel - 1, by omega⟩
    have hblank := not_not.mp hb
    obtain ⟨-, hdrop, -, -⟩ := scan_eq (· = blank) line (Nat.le_of_lt hpos)
    have hlt : pos < s.pos := scan_progress (p := (· = blank)) (by simpa using hblank) hpos
    rw [drop_eq_cons hpos, hblank, List.dropWhile_cons_of_pos (by simp)] at hdrop
    rw [tokenizeAt_blank hpos hblank, drop_eq_cons hpos, hblank, simpleTokenizeFrom_blank, ← hdrop]
    exact ih fuel (by omega)
  | case4 pos hpos =>
    intro fuel _
    rw [tokenizeAt_end (by omega), List.drop_eq_nil_of_le (by omega), simpleTokenizeFrom_nil]

theorem simpleTokenizeFrom_enough {fuel : ℕ} {line : Bytes} (h : line.length ≤ fuel) :
    simpleTokenizeFrom fuel line = simpleTokenize line := by
  have h1 := tokenizeAt_params line 0 fuel (by omega)
  have h2 := tokenizeAt_params line 0 line.length (by omega)
  rw [List.drop_zero] at h1 h2
  rw [simpleTokenize, ← h1, ← h2]

theorem simpleTokenize_blank (rest : Bytes) :
    simpleTokenize (blank :: rest) = simpleTokenize rest := by
  have hskip (s : Bytes) :
      simpleTokenize (blank :: s) = simpleTokenize (s.dropWhile (· = blank)) := by
    rw [simpleTokenize, List.length_cons, simpleTokenizeFrom_blank]
    exact simpleTokenizeFrom_enough (List.dropWhile_sublist _).length_le
  rw [hskip]
  cases rest with
  | nil => rfl
  | cons c rest =>
    by_cases hc : c = blank
    · rw [hc, hskip, List.dropWhile_cons_of_pos (by simp)]
    · rw [List.dropWhile_cons_of_neg (by simpa using hc)]

theorem simpleTokenize_blanks (k : ℕ) (rest : Bytes) :
    simpleTokenize (List.replicate k blank ++ rest) = simpleTokenize rest := by
  induction k with
  | zero => rfl
  | succ k ih => rw [List.replicate_succ, List.cons_append, simpleTokenize_blank, ih]

/-- A word between quotes. -/
theorem simpleTokenize_quoted {a : Bytes} (rest : Bytes) (hq : quote ∉ a) :
    simpleTokenize (quote :: (a ++ quote :: rest)) = a :: simpleTokenize rest := by
  have hall : ∀ c ∈ a, decide (c ≠ quote) = true := by
    intro c hc
    exact decide_eq_true (ne_of_mem_of_not_mem hc hq)
  have htake : (a ++ quote :: rest).takeWhile (· ≠ quote) = a := by
    rw [List.takeWhile_append_of_pos hall, List.takeWhile_cons_of_neg (by simp), List.append_nil]
  have hdrop : (a ++ quote :: rest).dropWhile (· ≠ quote) = quote :: rest := by
    rw [List.dropWhile_append_of_pos hall, List.dropWhile_cons_of_neg (by simp)]
  rw [simpleTokenize, List.length_cons, simpleTokenizeFrom_quote, htake, hdrop]
  refine congrArg _ (simpleTokenizeFrom_enough ?_)
  simp only [List.drop_succ_cons, List.drop_zero, List.length_append, List.length_cons]
  omega

/-- A word without quotes, up to a blank or the end of the line. -/
theorem simpleTokenize_bare {a rest : Bytes} (hq : quote ∉ a) (hb : blank ∉ a) (hne : a ≠ [])
    (hrest : rest = [] ∨ ∃ s, rest = blank :: s) :
    simpleTokenize (a ++ rest) = a :: simpleTokenize rest := by
  have hall : ∀ c ∈ a, decide (c ≠ blank) = true := by
    intro c hc
    exact decide_eq_true (ne_of_mem_of_not_mem hc hb)
  have htake : (a ++ rest).takeWhile (· ≠ blank) = a := by
    rw [List.takeWhile_append_of_pos hall]
    rcases hrest with rfl | ⟨s, rfl⟩
    · rw [List.takeWhile_nil, List.append_nil]
    · rw [List.takeWhile_cons_of_neg (by simp), List.append_nil]
  have hdrop : (a ++ rest).dropWhile (· ≠ blank) = rest := by
    rw [List.dropWhile_append_of_pos hall]
    rcases hrest with rfl | ⟨s, rfl⟩
    · rfl
    · rw [List.dropWhile_cons_of_neg (by simp)]
  cases a with
  | nil => exact absurd rfl hne
  | cons c a =>
    rw [List.cons_append] at htake hdrop ⊢
    rw [List.mem_cons, not_or] at hq hb
    rw [simpleTokenize, List.length_cons,
      simpleTokenizeFrom_word _ _ (Ne.symm hq.1) (Ne.symm hb.1), htake, hdrop]
    refine congrArg _ (simpleTokenizeFrom_enough ?_)
    rw [List.length_append]
    omega

/-- An argument without quotes, and a text for it: between quotes, or bare. -/
inductive Spelled : Bytes → Bytes → Prop
  | quoted {a : Bytes} (hq : quote ∉ a) : Spelled a (quote :: (a ++ [quote]))
  | bare {a : Bytes} (hq : quote ∉ a) (hb : blank ∉ a) (hne : a ≠ []) : Spelled a a

/-- Arguments, and a line on which they are written: blanks stand between them, before them and
behind them. -/
inductive Written : List Bytes → Bytes → Prop
  | blanks (k : ℕ) : Written [] (List.replicate k blank)
  | last (k : ℕ) {a t : Bytes} (ht : Spelled a t) : Written [a] (List.replicate k blank ++ t)
  | cons (k : ℕ) {a t : Bytes} {args : List Bytes} {rest : Bytes} (ht : Spelled a t)
      (hrest : Written args rest) :
      Written (a :: args) (List.replicate k blank ++ (t ++ blank :: rest))

theorem Spelled.simpleTokenize {a t rest : Bytes} (h : Spelled a t)
    (hrest : rest = [] ∨ ∃ s, rest = blank :: s) :
    simpleTokenize (t ++ rest) = a :: CogServer.simpleTokenize rest := by
  cases h with
  | quoted hq =>
    rw [List.cons_append, List.append_assoc, List.singleton_append]
    exact simpleTokenize_quoted rest hq
  | bare hq hb hne => exact simpleTokenize_bare hq hb hne hrest

/-- The words are the arguments. -/
theorem Written.simpleTokenize {args : List Bytes} {line : Bytes} (h : Written args line) :
    simpleTokenize line = args := by
  induction h with
  | blanks k =>
    have hskip := simpleTokenize_blanks k []
    rw [List.append_nil] at hskip
    exact hskip
  | last k ht =>
    have hword := ht.simpleTokenize (.inl (rfl : ([] : Bytes) = []))
    rw [List.append_nil] at hword
    rw [simpleTokenize_blanks, hword]
    rfl
  | cons k ht hrest ih =>
    rw [simpleTokenize_blanks, ht.simpleTokenize (.inr ⟨_, rfl⟩), simpleTokenize_blank, ih]

/-- The characters of the words come from the line, in order. -/
theorem simpleTokenizeFrom_sublist (fuel : ℕ) (s : Bytes) :
    (simpleTokenizeFrom fuel s).flatten.Sublist s := by
  induction fuel generalizing s with
  | zero => exact List.nil_sublist s
  | succ fuel ih =>
    cases s with
    | nil => exact List.nil_sublist []
    | cons c rest =>
      by_cases hq : c = quote
      · have htail := (ih ((rest.dropWhile (· ≠ quote)).drop 1)).trans (List.drop_sublist 1 _)
        have hsplit := (List.Sublist.refl (rest.takeWhile (· ≠ quote))).append htail
        rw [List.takeWhile_append_dropWhile] at hsplit
        rw [hq, simpleTokenizeFrom_quote, List.flatten_cons]
        exact hsplit.cons quote
      · by_cases hb : c = blank
        · rw [hb, simpleTokenizeFrom_blank]
          exact ((ih _).trans (List.dropWhile_sublist _)).cons blank
        · have hsplit := (List.Sublist.refl ((c :: rest).takeWhile (· ≠ blank))).append
            (ih ((c :: rest).dropWhile (· ≠ blank)))
          rw [List.takeWhile_append_dropWhile] at hsplit
          rw [simpleTokenizeFrom_word fuel rest hq hb, List.flatten_cons]
          exact hsplit

/-- `simple_tokenize` gives back the arguments that were written on a line. On any line it ends,
reads at most the position after the last character, and gives characters of the line in order. -/
theorem tokenize_inverts :
    (∀ args line, Written args line → (tokenizeAt line 0).params = args) ∧
      ∀ line, (tokenizeAt line 0).params = CogServer.simpleTokenize line ∧
        (∀ i ∈ (tokenizeAt line 0).reads, i ≤ line.length) ∧
        (tokenizeAt line 0).params.flatten.Sublist line := by
  have hparams (line : Bytes) : (tokenizeAt line 0).params = CogServer.simpleTokenize line :=
    tokenizeAt_params line 0 line.length (by omega)
  refine ⟨?_, ?_⟩
  · intro args line h
    rw [hparams]
    exact h.simpleTokenize
  · intro line
    refine ⟨hparams line, tokenizeAt_reads line 0, ?_⟩
    rw [hparams]
    exact simpleTokenizeFrom_sublist line.length line

/-- A line with an empty argument, one with a blank in it and a bare one. -/
theorem tokenize_inverts_three :
    (tokenizeAt (ascii " \"\" \"a b\"  c ") 0).params = [[], ascii "a b", ascii "c"] := by
  have hc : Written [ascii "c"] (ascii " c ") :=
    .cons 1 (t := ascii "c") (.bare (by decide) (by decide) (by decide)) (.blanks 0)
  have hb : Written [ascii "a b", ascii "c"] (ascii "\"a b\"  c ") :=
    .cons 0 (.quoted (by decide)) hc
  have ha : Written [[], ascii "a b", ascii "c"] (ascii " \"\" \"a b\"  c ") :=
    .cons 1 (.quoted (by decide)) hb
  exact tokenize_inverts.1 _ _ ha

end CommandWords

end CogServer
