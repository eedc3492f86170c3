import CogServer.ServerSocket
import Mathlib.Data.List.TakeWhile

/-! The JSON objects of a line, as `MCPServer::OnLine` hands them to the evaluator. -/
namespace CogServer

/-- The inner loop: the rest of the line, and `brace_count`, which is an `int` and wraps around. -/
def scanBraces : Bytes → BitVec 32 → Bool → Bool → Bytes × BitVec 32
  | [], braceCount, _, _ => ([], braceCount)
  | c :: s, braceCount, inString, escapeNext =>
    -- a backslash counts outside of a literal too
    if ¬escapeNext ∧ c = 92 then scanBraces s braceCount inString true
    else if ¬escapeNext ∧ c = 34 then scanBraces s braceCount (!inString) escapeNext
    else if ¬inString ∧ ¬escapeNext then
      if c = 123 then scanBraces s (braceCount + 1) inString escapeNext
      else if c = 125 then
        -- the brace that was opened first is closed, and the scan stops behind it
        if braceCount - 1 = 0 then (s, 0) else scanBraces s (braceCount - 1) inString escapeNext
      else scanBraces s braceCount inString escapeNext
    -- in a literal, or behind a backslash
    else scanBraces s braceCount inString false

/-- The pieces that are evaluated, at most `fuel` of them. -/
def evaluated : ℕ → Bytes → List Bytes
  | 0, _ => []
  | fuel + 1, buffer =>
    let start := buffer.dropWhile isSpace
    if start = [] then []
    else
      let (rest, braceCount) := scanBraces start 0 false false
      if braceCount = 0 then start.take (start.length - rest.length) :: evaluated fuel rest
      else [start]

/-- `OnLine` without a shell. No line has more pieces than bytes. -/
def onLinePieces (line : Bytes) : List Bytes := evaluated (line.length + 1) line

/-- What stands in a string literal: bytes as they are, and escapes. -/
inductive LiteralPart
  | byte (c : UInt8) (h : c ≠ 34 ∧ c ≠ 92)
  | escape (c : UInt8)

def LiteralPart.bytes : LiteralPart → Bytes
  | .byte c _ => [c]
  | .escape c => [92, c]

/-- A string literal. -/
def literal (parts : List LiteralPart) : Bytes :=
  34 :: ((parts.map LiteralPart.bytes).flatten ++ [34])

/-- What stands between two braces: the braces in it are balanced outside of the string literals,
and nest at most so deep. -/
inductive Inside : ℕ → Bytes → Prop
  | nil (depth : ℕ) : Inside depth []
  | byte {depth : ℕ} {s : Bytes} (c : UInt8) (hc : c ≠ 34 ∧ c ≠ 92 ∧ c ≠ 123 ∧ c ≠ 125)
    (hs : Inside depth s) : Inside depth (c :: s)
  | literal {depth : ℕ} {s : Bytes} (parts : List LiteralPart) (hs : Inside depth s) :
    Inside depth (literal parts ++ s)
  | braces {depth : ℕ} {t s : Bytes} (ht : Inside depth t) (hs : Inside (depth + 1) s) :
    Inside (depth + 1) (123 :: (t ++ 125 :: s))

/-- The text of an object whose braces nest at most so deep. -/
def ObjectText (depth : ℕ) (text : Bytes) : Prop :=
  ∃ t inner, text = 123 :: (t ++ [125]) ∧ Inside inner t ∧ inner + 1 ≤ depth

/-- Consecutive parts of a line, with nothing but whitespace around them. -/
inductive Consecutive : List Bytes → Bytes → Prop
  | nil (blanks : Bytes) (h : ∀ c ∈ blanks, isSpace c) : Consecutive [] blanks
  | cons {piece rest : Bytes} {pieces : List Bytes} (blanks : Bytes) (h : ∀ c ∈ blanks, isSpace c)
    (hpiece : piece ≠ []) (hrest : Consecutive pieces rest) :
    Consecutive (piece :: pieces) (blanks ++ (piece ++ rest))

/-- The scan gives back an end of what it got. -/
theorem scanBraces_suffix (s : Bytes) (n : BitVec 32) (inString escapeNext : Bool) :
    (scanBraces s n inString escapeNext).1 <:+ s := by
  induction s generalizing n inString escapeNext with
  | nil => exact List.suffix_refl []
  | cons c s ih =>
    have hstep : ∀ n b e, (scanBraces s n b e).1 <:+ c :: s :=
      fun n b e => (ih n b e).trans (List.suffix_cons c s)
    rw [scanBraces]
    split_ifs
    · exact hstep ..
    · exact hstep ..
    · exact hstep ..
    · exact List.suffix_cons c s
    · exact hstep ..
    · exact hstep ..
    · exact hstep ..

/-- It takes at least one byte. -/
theorem scanBraces_length {s : Bytes} (hs : s ≠ []) (n : BitVec 32) (inString escapeNext : Bool) :
    (scanBraces s n inString escapeNext).1.length < s.length := by
  cases s with
  | nil => exact absurd rfl hs
  | cons c s =>
    have hstep : ∀ n b e, (scanBraces s n b e).1.length < (c :: s).length :=
      fun n b e => Nat.lt_succ_of_le (scanBraces_suffix s n b e).length_le
    rw [scanBraces]
    split_ifs
    · exact hstep ..
    · exact hstep ..
    · exact hstep ..
    · exact Nat.lt_succ_self s.length
    · exact hstep ..
    · exact hstep ..
    · exact hstep ..

theorem take_append_suffix {s rest : Bytes} (h : rest <:+ s) :
    s.take (s.length - rest.length) ++ rest = s := by
  obtain ⟨front, rfl⟩ := h
  simp

/-- The pieces of any line are consecutive, and the last one ends where the line does or before
blanks. -/
theorem evaluated_consecutive {fuel : ℕ} {line : Bytes} (h : line.length < fuel) :
    Consecutive (evaluated fuel line) line := by
  induction fuel generalizing line with
  | zero => exact absurd h (Nat.not_lt_zero _)
  | succ fuel ih =>
    have hblanks : ∀ c ∈ line.takeWhile isSpace, isSpace c := fun c hc => List.mem_takeWhile_imp hc
    have hline : line.takeWhile isSpace ++ line.dropWhile isSpace = line :=
      List.takeWhile_append_dropWhile
    rw [evaluated]
    dsimp only
    split_ifs with hstart hcount
    · -- only blanks are left
      rw [hstart, List.append_nil] at hline
      rw [← hline]
      exact .nil _ hblanks
    · -- the piece ends where the scan stopped
      have hsuffix := scanBraces_suffix (line.dropWhile isSpace) 0 false false
      have hlength := scanBraces_length hstart 0 false false
      have hdrop := (List.dropWhile_suffix (l := line) isSpace).length_le
      have hrest : Consecutive _ (scanBraces (line.dropWhile isSpace) 0 false false).1 :=
        ih (by omega)
      have hne : (line.dropWhile isSpace).take ((line.dropWhile isSpace).length -
          (scanBraces (line.dropWhile isSpace) 0 false false).1.length) ≠ [] := by
        apply List.ne_nil_of_length_pos
        rw [List.length_take]
        omega
      have hpieces := Consecutive.cons (line.takeWhile isSpace) hblanks hne hrest
      rw [take_append_suffix hsuffix, hline] at hpieces
      exact hpieces
    · -- the braces are not closed: all that is left is the piece
      have hpieces := Consecutive.cons (line.takeWhile isSpace) hblanks hstart (.nil [] (by simp))
      rw [List.append_nil, hline] at hpieces
      exact hpieces

/-- The loop comes to its end: more rounds change nothing. -/
theorem evaluated_fuel {fuel fuel' : ℕ} {line : Bytes} (h : line.length < fuel)
    (h' : line.length < fuel') : evaluated fuel line = evaluated fuel' line := by
  induction fuel generalizing fuel' line with
  | zero => exact absurd h (Nat.not_lt_zero _)
  | succ fuel ih =>
    cases fuel' with
    | zero => exact absurd h' (Nat.not_lt_zero _)
    | succ fuel' =>
      rw [evaluated, evaluated]
      dsimp only
      split_ifs with hstart hcount
      · rfl
      · have hlength := scanBraces_length hstart 0 false false
        have hdrop := (List.dropWhile_suffix (l := line) isSpace).length_le
        exact congrArg _ (ih (by omega) (by omega))
      · rfl

/-- A literal is passed over, whatever is in it. -/
theorem scanBraces_literal (parts : List LiteralPart) (rest : Bytes) (n : BitVec 32) :
    scanBraces (literal parts ++ rest) n false false = scanBraces rest n false false := by
  -- between the quotes, a quote or a backslash comes only behind a backslash
  have hparts : ∀ s, scanBraces ((parts.map LiteralPart.bytes).flatten ++ s) n true false =
      scanBraces s n true false := by
    intro s
    induction parts with
    | nil => rfl
    | cons part parts ih =>
      rw [List.map_cons, List.flatten_cons, List.append_assoc]
      cases part with
      | byte c h =>
        rw [LiteralPart.bytes, List.singleton_append, scanBraces]
        simp only [h.1, h.2, and_false, not_true_eq_false, false_and, ↓reduceIte]
        exact ih
      | escape c =>
        show scanBraces (92 :: c :: _) n true false = _
        rw [scanBraces]
        simp only [Bool.false_eq_true, not_false_eq_true, and_self, ↓reduceIte]
        rw [scanBraces]
        simp only [not_true_eq_false, false_and, and_self, ↓reduceIte]
        exact ih
  have hquote : ∀ b s, scanBraces (34 :: s) n b false = scanBraces s n (!b) false := by
    intro b s
    rw [scanBraces]
    simp
  rw [literal, List.cons_append, hquote, List.append_assoc, Bool.not_false, hparts]
  exact hquote true rest

/-- A byte outside of the literals that is neither a quote nor a backslash nor a brace. -/
theorem scanBraces_byte {c : UInt8} (hc : c ≠ 34 ∧ c ≠ 92 ∧ c ≠ 123 ∧ c ≠ 125) (s : Bytes)
    (n : BitVec 32) : scanBraces (c :: s) n false false = scanBraces s n false false := by
  rw [scanBraces]
  simp [hc]

theorem scanBraces_open (s : Bytes) (n : BitVec 32) :
    scanBraces (123 :: s) n false false = scanBraces s (n + 1) false false := by
  rw [scanBraces]
  simp

theorem scanBraces_close (s : Bytes) (n : BitVec 32) : scanBraces (125 :: s) n false false =
    if n - 1 = 0 then (s, 0) else scanBraces s (n - 1) false false := by
  rw [scanBraces]
  simp

theorem add_one_sub_one (n : BitVec 32) : n + 1 - 1 = n := BitVec.add_sub_cancel n 1

/-- What stands between two braces leaves the counter as it was. -/
theorem scanBraces_inside {depth : ℕ} {t : Bytes} (h : Inside depth t) (rest : Bytes) {n : ℕ}
    (hn : 0 < n) (hlimit : n + depth < 2 ^ 32) :
    scanBraces (t ++ rest) (.ofNat 32 n) false false =
      scanBraces rest (.ofNat 32 n) false false := by
  induction h generalizing rest n with
  | nil => rfl
  | byte c hc _ ih => rw [List.cons_append, scanBraces_byte hc, ih rest hn hlimit]
  | literal parts _ ih =>
    rw [List.append_assoc, scanBraces_literal, ih rest hn hlimit]
  | @braces depth t s _ _ iht ihs =>
    have hsucc : BitVec.ofNat 32 n + 1 = BitVec.ofNat 32 (n + 1) := (BitVec.ofNat_add n 1).symm
    -- the counter has not come back to zero, as it has not wrapped around
    have hne : ¬ BitVec.ofNat 32 n = 0 := by
      intro hzero
      have hmod := congrArg BitVec.toNat hzero
      rw [BitVec.toNat_ofNat, Nat.mod_eq_of_lt (by omega)] at hmod
      exact absurd hmod (Nat.ne_of_gt hn)
    rw [List.cons_append, List.append_assoc, List.cons_append, scanBraces_open, hsucc,
      iht _ (Nat.succ_pos n) (by omega), scanBraces_close, ← hsucc, add_one_sub_one, if_neg hne,
      ihs rest hn hlimit]

/-- An object is scanned to its last brace. -/
theorem scanBraces_object {depth : ℕ} {text : Bytes} (h : ObjectText depth text)
    (hdepth : depth < 2 ^ 32) (rest : Bytes) :
    scanBraces (text ++ rest) 0 false false = (rest, 0) := by
  obtain ⟨t, inner, rfl, ht, hinner⟩ := h
  have hscan := scanBraces_inside ht (125 :: rest) Nat.one_pos (by omega)
  -- the first brace brings the counter to one, and only the last one brings it back
  rw [List.cons_append, List.append_assoc, scanBraces_open]
  exact hscan.trans (scanBraces_close rest 1)

/-- The objects of a line, each with the whitespace before it, are the pieces. -/
theorem evaluated_objects {depth : ℕ} (hdepth : depth < 2 ^ 32) (blanks : Bytes)
    (hblanks : ∀ c ∈ blanks, isSpace c) (objects : List (Bytes × Bytes))
    (h : ∀ o ∈ objects, (∀ c ∈ o.1, isSpace c) ∧ ObjectText depth o.2) {fuel : ℕ}
    (hfuel : objects.length < fuel) :
    evaluated fuel ((objects.map fun o => o.1 ++ o.2).flatten ++ blanks) = objects.map (·.2) := by
  induction objects generalizing fuel with
  | nil =>
    obtain ⟨fuel, rfl⟩ := Nat.exists_eq_succ_of_ne_zero (Nat.ne_of_gt hfuel)
    -- after the last object only blanks are left
    have hnil : blanks.dropWhile isSpace = [] := List.dropWhile_eq_nil_iff.mpr hblanks
    rw [List.map_nil, List.flatten_nil, List.nil_append, evaluated]
    simp only [hnil, ↓reduceIte, List.map_nil]
  | cons o objects ih =>
    obtain ⟨fuel, rfl⟩ := Nat.exists_eq_succ_of_ne_zero (Nat.ne_of_gt (Nat.zero_lt_of_lt hfuel))
    obtain ⟨⟨hspace, htext⟩, hrest⟩ := List.forall_mem_cons.mp h
    have hpieces := ih hrest (Nat.lt_of_succ_lt_succ hfuel)
    have hscan := scanBraces_object htext hdepth
      ((objects.map fun o => o.1 ++ o.2).flatten ++ blanks)
    obtain ⟨t, inner, hbrace, -, -⟩ := htext
    -- the object starts behind the blanks, as a brace is no blank
    have hstart : ((o.1 ++ o.2) ++ ((objects.map fun o => o.1 ++ o.2).flatten ++ blanks)).dropWhile
        isSpace = o.2 ++ ((objects.map fun o => o.1 ++ o.2).flatten ++ blanks) := by
      rw [List.append_assoc, List.dropWhile_append_of_pos hspace, hbrace]
      rfl
    have hne : ¬ o.2 ++ ((objects.map fun o => o.1 ++ o.2).flatten ++ blanks) = [] := by
      rw [hbrace]
      simp
    rw [List.map_cons, List.flatten_cons, List.append_assoc, evaluated]
    dsimp only
    rw [hstart, if_neg hne, hscan, if_pos rfl, hpieces, List.map_cons]
    congr 1
    rw [List.length_append, Nat.add_sub_cancel, List.take_left]

theorem ofInt_eq_zero {n : ℤ} (h : n.natAbs < 2 ^ 31) : BitVec.ofInt 32 n = 0 ↔ n = 0 := by
  constructor
  · intro hzero
    have hint := congrArg BitVec.toInt hzero
    rw [BitVec.toInt_ofInt, Int.bmod_eq_of_le (by omega) (by omega)] at hint
    exact hint
  · rintro rfl
    rfl

/-- Where it cannot overflow, the counter is an integer without bounds. -/
theorem scanBraces_eq (s : Bytes) {n : ℤ} (inString escapeNext : Bool)
    (h : n.natAbs + s.length < 2 ^ 31) :
    scanBraces s (.ofInt 32 n) inString escapeNext =
        ((scanObject s n inString escapeNext).1, .ofInt 32 (scanObject s n inString escapeNext).2) ∧
      (scanObject s n inString escapeNext).2.natAbs < 2 ^ 31 := by
  induction s generalizing n inString escapeNext with
  | nil => exact ⟨rfl, by simpa [scanObject] using h⟩
  | cons c s ih =>
    rw [List.length_cons] at h
    have hup : BitVec.ofInt 32 n + 1 = .ofInt 32 (n + 1) := (BitVec.ofInt_add n 1).symm
    have hback : BitVec.ofInt 32 (n - 1) + 1 = .ofInt 32 n := by
      rw [← Int.sub_add_cancel n 1, BitVec.ofInt_add (n - 1) 1, Int.sub_add_cancel]
      rfl
    have hdown : BitVec.ofInt 32 n - 1 = .ofInt 32 (n - 1) := by
      rw [← hback, add_one_sub_one]
    have hsame := fun b e => ih (n := n) b e (by omega)
    have hmore := fun b e => ih (n := n + 1) b e (by omega)
    have hless := fun b e => ih (n := n - 1) b e (by omega)
    have hzero : BitVec.ofInt 32 (n - 1) = 0 ↔ n - 1 = 0 :=
      ofInt_eq_zero (by omega)
    rw [scanBraces, scanObject, hup, hdown]
    -- both scans take the same branch
    simp only [hzero]
    split_ifs
    · exact hsame ..
    · exact hsame ..
    · exact hmore ..
    · exact ⟨rfl, Nat.two_pow_pos 31⟩
    · exact hless ..
    · exact hsame ..
    · exact hsame ..

/-- So the pieces of a line of less than two gigabytes are those of `splitObjects`. -/
theorem evaluated_eq_splitObjects {line : Bytes} (h : line.length < 2 ^ 31) (fuel : ℕ) :
    evaluated fuel line = splitObjects fuel line := by
  induction fuel generalizing line with
  | zero => rfl
  | succ fuel ih =>
    have hdrop := (List.dropWhile_suffix (l := line) isSpace).length_le
    obtain ⟨hscan, hsmall⟩ := scanBraces_eq (line.dropWhile isSpace) (n := 0) false false
      (by simp; omega)
    have hsuffix := (scanBraces_suffix (line.dropWhile isSpace) 0 false false).length_le
    have hzero : scanBraces (line.dropWhile isSpace) 0 false false =
        scanBraces (line.dropWhile isSpace) (.ofInt 32 0) false false := rfl
    rw [hzero, hscan] at hsuffix
    rw [evaluated, splitObjects]
    dsimp only
    rw [hzero, hscan]
    simp only [ofInt_eq_zero hsmall]
    rw [ih (by dsimp only at hsuffix; omega)]

/-- Objects that nest no deeper than an `int` can count are split exactly; and any line is cut into
consecutive pieces, after which the loop comes to its end. -/
theorem onLine_splits :
    (∀ (objects : List (Bytes × Bytes)) (blanks : Bytes),
      (∀ o ∈ objects, (∀ c ∈ o.1, isSpace c) ∧ ObjectText (2 ^ 31 - 1) o.2) →
      (∀ c ∈ blanks, isSpace c) →
      onLinePieces ((objects.map fun o => o.1 ++ o.2).flatten ++ blanks) = objects.map (·.2)) ∧
    ∀ line, Consecutive (onLinePieces line) line ∧
      ∀ fuel, line.length < fuel → evaluated fuel line = onLinePieces line := by
  refine ⟨?_, ?_⟩
  · intro objects blanks hobjects hblanks
    apply evaluated_objects (by decide) blanks hblanks objects hobjects
    -- each object has bytes, so there are no more objects than rounds
    have hone : ∀ n ∈ objects.map (List.length ∘ fun o => o.1 ++ o.2), 1 ≤ n := by
      intro n hn
      obtain ⟨o, ho, rfl⟩ := List.mem_map.mp hn
      obtain ⟨t, inner, htext, -, -⟩ := (hobjects o ho).2
      simp only [Function.comp_apply, htext, List.length_append, List.length_cons]
      omega
    have hlength := List.length_le_sum_of_one_le _ hone
    rw [List.length_map] at hlength
    rw [List.length_append, List.length_flatten, List.map_map]
    omega
  · intro line
    exact ⟨evaluated_consecutive (Nat.lt_succ_self _),
      fun fuel hfuel => evaluated_fuel hfuel (Nat.lt_succ_self _)⟩

/-- Braces that nest so deep, with nothing else. -/
def deepText (n : ℕ) : Bytes := List.replicate n 123 ++ List.replicate n 125

theorem deepText_succ (n : ℕ) : deepText (n + 1) = 123 :: (deepText n ++ [125]) := by
  rw [deepText, List.replicate_succ, List.replicate_succ' (a := 125), deepText]
  simp

theorem inside_deepText (n : ℕ) : Inside n (deepText n) := by
  induction n with
  | zero => exact .nil 0
  | succ n ih =>
    rw [deepText_succ]
    exact .braces ih (.nil _)

theorem scanBraces_opens (n : ℕ) (s : Bytes) (m : BitVec 32) :
    scanBraces (List.replicate n 123 ++ s) m false false =
      scanBraces s (m + .ofNat 32 n) false false := by
  induction n generalizing m with
  | zero => simp
  | succ n ih =>
    rw [List.replicate_succ, List.cons_append, scanBraces_open, ih, BitVec.ofNat_add n 1,
      BitVec.add_assoc, BitVec.add_comm 1]
    rfl

/-- A depth that the counter takes for one: the object is cut at its first closing brace. -/
theorem onLinePieces_deepText {n : ℕ} (hn : BitVec.ofNat 32 (n + 1) = 1) (hpos : 0 < n) :
    onLinePieces (deepText (n + 1)) ≠ [deepText (n + 1)] := by
  -- the counter stands at one after all braces are opened
  have hscan : scanBraces (deepText (n + 1)) 0 false false = (List.replicate n 125, 0) := by
    rw [deepText, scanBraces_opens, hn, List.replicate_succ (a := 125), scanBraces_close]
    rfl
  have hstart : (deepText (n + 1)).dropWhile isSpace = deepText (n + 1) := by
    rw [deepText_succ]
    rfl
  have hne : ¬ deepText (n + 1) = [] := by simp [deepText_succ]
  rw [onLinePieces, evaluated]
  dsimp only
  rw [hstart, if_neg hne, hscan, if_pos rfl]
  intro heq
  have hlength := congrArg List.length (List.cons.inj heq).1
  rw [List.length_take, List.length_replicate] at hlength
  have hlong : 0 < (deepText (n + 1)).length := by simp [deepText_succ]
  omega

/-- An object that nests deeper than an `int` can count is not evaluated as it is. -/
theorem onLine_miscounts : ObjectText (2 ^ 32 + 1) (deepText (2 ^ 32 + 1)) ∧
    onLinePieces (deepText (2 ^ 32 + 1)) ≠ [deepText (2 ^ 32 + 1)] :=
  ⟨⟨_, _, deepText_succ _, inside_deepText _, Nat.le_refl _⟩,
    onLinePieces_deepText rfl (Nat.two_pow_pos 32)⟩

/-- An object with an escape and a brace in its literal, and an empty one right after it. -/
def firstObject : Bytes := ascii "\x7b\"\\\"\x7d\":\x7b\x7d\x7d"

def secondObject : Bytes := ascii "\x7b\x7d"

theorem onLine_splits_two :
    onLinePieces (firstObject ++ secondObject ++ [blank]) = [firstObject, secondObject] := by
  have hfirst : ObjectText (2 ^ 31 - 1) firstObject :=
    ⟨_, 1, rfl, .literal [.escape 34, .byte 125 (by decide)]
      (.byte 58 (by decide) (.braces (.nil 0) (.nil 1))), by decide⟩
  have hsecond : ObjectText (2 ^ 31 - 1) secondObject := ⟨[], 0, rfl, .nil 0, by decide⟩
  have hsplit := onLine_splits.1 [([], firstObject), ([], secondObject)] [blank]
    (List.forall_mem_cons.mpr ⟨⟨by simp, hfirst⟩,
      List.forall_mem_singleton.mpr ⟨by simp, hsecond⟩⟩) (List.forall_mem_singleton.mpr rfl)
  exact hsplit

end CogServer
