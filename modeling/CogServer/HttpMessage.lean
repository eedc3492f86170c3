import CogServer.Decimals
import Mathlib.Data.List.TakeWhile

/-! HTTP messages that announce the length of their body, and how a client gets them back, one after
the other, from the stream that they were written to. -/
namespace Http

open CogServer

def crlf : Bytes := [13, 10]

/-- No part of a line break. -/
def inLine (c : UInt8) : Bool := c ≠ 13 && c ≠ 10

def IsText (line : Bytes) : Prop := ∀ c ∈ line, inLine c = true

instance (line : Bytes) : Decidable (IsText line) :=
  decidable_of_iff (line.all inLine = true) List.all_eq_true

/-- A field line. -/
def IsField (line : Bytes) : Prop := line ≠ [] ∧ IsText line

instance (line : Bytes) : Decidable (IsField line) := inferInstanceAs (Decidable (_ ∧ _))

/-- The texts of the lengths that some fields announce. -/
def lengthTexts (fields : List Bytes) : List Bytes :=
  fields.filterMap fun l => if ascii "Content-Length: " <+: l then some (l.drop 16) else none

/-- The length that is announced, if it is announced once, and in digits. -/
def lengthOf (fields : List Bytes) : Option ℕ :=
  match lengthTexts fields with
  | [text] => if text ≠ [] ∧ text.all isDigit = true then some (digitsValue text) else none
  | _ => none

/-- A message: its start line, its other header lines, and a body of the length that they announce. -/
@[ext]
structure Message where
  start : Bytes
  fields : List Bytes
  body : Bytes
  start_text : IsText start
  fields_text : ∀ l ∈ fields, IsField l
  announced : lengthOf fields = some body.length

def Message.bytes (m : Message) : Bytes :=
  m.start ++ crlf ++ (m.fields.flatMap (· ++ crlf) ++ crlf ++ m.body)

/-- The line at the front of a stream, and what follows it. -/
def readLine (s : Bytes) : Option (Bytes × Bytes) :=
  if crlf <+: s.dropWhile inLine then some (s.takeWhile inLine, (s.dropWhile inLine).drop 2) else none

/-- The lines up to an empty one. -/
def readFields : ℕ → Bytes → Option (List Bytes × Bytes)
  | 0, _ => none
  | n + 1, s => (readLine s).bind fun (line, s) =>
    if line = [] then some ([], s) else (readFields n s).map fun (lines, s) => (line :: lines, s)

/-- The message of these parts, if they are well formed. -/
def Message.ofParts (start : Bytes) (fields : List Bytes) (body : Bytes) : Option Message :=
  if h : IsText start ∧ (∀ l ∈ fields, IsField l) ∧ lengthOf fields = some body.length then
    some ⟨start, fields, body, h.1, h.2.1, h.2.2⟩
  else none

/-- The message at the front of a stream, and what follows it. -/
def read (s : Bytes) : Option (Message × Bytes) :=
  (readLine s).bind fun (start, s) => (readFields s.length s).bind fun (fields, s) =>
    (lengthOf fields).bind fun n => (Message.ofParts start fields (s.take n)).map fun m => (m, s.drop n)

def readAll : ℕ → Bytes → Option (List Message)
  | _, [] => some []
  | 0, _ :: _ => none
  | n + 1, c :: s => (read (c :: s)).bind fun (m, s) => (readAll n s).map (m :: ·)

/-- The messages of a stream. -/
def messages (s : Bytes) : Option (List Message) := readAll s.length s

theorem readLine_iff {s line rest : Bytes} :
    readLine s = some (line, rest) ↔ IsText line ∧ s = line ++ crlf ++ rest := by
  constructor
  · intro h
    unfold readLine at h
    split at h
    · next hcrlf =>
      obtain ⟨t, ht⟩ := hcrlf
      obtain ⟨rfl, rfl⟩ := Prod.mk.inj (Option.some.inj h)
      refine ⟨fun c hc => List.mem_takeWhile_imp hc, ?_⟩
      have hrest : List.drop 2 (crlf ++ t) = t := rfl
      rw [← ht, hrest, List.append_assoc, ht, List.takeWhile_append_dropWhile]
    · cases h
  · rintro ⟨hline, rfl⟩
    have hhead : ¬ inLine 13 = true := by decide
    have hdrop : (line ++ crlf ++ rest).dropWhile inLine = crlf ++ rest := by
      rw [List.append_assoc, List.dropWhile_append_of_pos hline]
      exact List.dropWhile_cons_of_neg hhead
    have htake : (line ++ crlf ++ rest).takeWhile inLine = line := by
      rw [List.append_assoc, List.takeWhile_append_of_pos hline]
      exact (congrArg (line ++ ·) (List.takeWhile_cons_of_neg hhead)).trans (List.append_nil line)
    rw [readLine, hdrop, htake, if_pos (List.prefix_append _ _)]
    rfl

theorem readFields_iff {n : ℕ} {s rest : Bytes} {fields : List Bytes} :
    readFields n s = some (fields, rest) ↔ fields.length < n ∧ (∀ l ∈ fields, IsField l) ∧
      s = fields.flatMap (· ++ crlf) ++ crlf ++ rest := by
  induction n generalizing s fields with
  | zero => simp [readFields]
  | succ n ih =>
    constructor
    · intro h
      obtain ⟨⟨line, t⟩, hline, h⟩ := Option.bind_eq_some_iff.mp h
      obtain ⟨htext, hs⟩ := readLine_iff.mp hline
      dsimp only at h
      split at h
      · next hempty =>
        obtain ⟨rfl, rfl⟩ := Prod.mk.inj (Option.some.inj h)
        exact ⟨Nat.zero_lt_succ n, nofun, by rw [hs, hempty]; rfl⟩
      · next hne =>
        obtain ⟨⟨lines, u⟩, hlines, he⟩ := Option.map_eq_some_iff.mp h
        obtain ⟨rfl, rfl⟩ := Prod.mk.inj he
        obtain ⟨hlength, hfields, rfl⟩ := ih.mp hlines
        refine ⟨Nat.succ_lt_succ hlength, List.forall_mem_cons.mpr ⟨⟨hne, htext⟩, hfields⟩, ?_⟩
        simp only [hs, List.flatMap_cons, List.append_assoc]
    · rintro ⟨hlength, hfields, rfl⟩
      cases fields with
      | nil =>
        have hline : readLine ([] ++ crlf ++ rest) = some ([], rest) := readLine_iff.mpr ⟨nofun, rfl⟩
        rw [readFields, List.flatMap_nil, hline]
        rfl
      | cons line lines =>
        obtain ⟨⟨hne, htext⟩, hrest⟩ := List.forall_mem_cons.mp hfields
        have hline : readLine ((line :: lines).flatMap (· ++ crlf) ++ crlf ++ rest) =
            some (line, lines.flatMap (· ++ crlf) ++ crlf ++ rest) :=
          readLine_iff.mpr ⟨htext, by simp only [List.flatMap_cons, List.append_assoc]⟩
        have hlines : readFields n (lines.flatMap (· ++ crlf) ++ crlf ++ rest) = some (lines, rest) :=
          ih.mpr ⟨Nat.lt_of_succ_lt_succ hlength, hrest, rfl⟩
        rw [readFields, hline, Option.bind_some]
        simp only [hne, ↓reduceIte, hlines, Option.map_some]

theorem ofParts_iff {start body : Bytes} {fields : List Bytes} {m : Message} :
    Message.ofParts start fields body = some m ↔ m.start = start ∧ m.fields = fields ∧ m.body = body := by
  unfold Message.ofParts
  constructor
  · intro h
    split at h
    · obtain rfl := Option.some.inj h
      exact ⟨rfl, rfl, rfl⟩
    · cases h
  · rintro ⟨rfl, rfl, rfl⟩
    rw [dif_pos ⟨m.start_text, m.fields_text, m.announced⟩]

/-- There are fewer field lines than bytes in a header. -/
theorem length_fields (fields : List Bytes) (rest : Bytes) :
    fields.length < (fields.flatMap (· ++ crlf) ++ crlf ++ rest).length := by
  induction fields with
  | nil => simp [crlf]
  | cons line fields ih =>
    simp only [List.flatMap_cons, List.length_append, List.length_cons, List.length_nil, crlf] at ih ⊢
    omega

/-- A message is read exactly where one stands, and exactly to its end. -/
theorem read_iff {s rest : Bytes} {m : Message} : read s = some (m, rest) ↔ s = m.bytes ++ rest := by
  constructor
  · intro h
    obtain ⟨⟨start, t⟩, hstart, h⟩ := Option.bind_eq_some_iff.mp h
    obtain ⟨⟨fields, u⟩, hfields, h⟩ := Option.bind_eq_some_iff.mp h
    obtain ⟨n, -, h⟩ := Option.bind_eq_some_iff.mp h
    obtain ⟨m', hm, he⟩ := Option.map_eq_some_iff.mp h
    obtain ⟨rfl, rfl⟩ := Prod.mk.inj he
    obtain ⟨rfl, rfl, hbody⟩ := ofParts_iff.mp hm
    obtain ⟨-, rfl⟩ := readLine_iff.mp hstart
    -- each of the readers took exactly its part from the front of the stream
    obtain ⟨-, -, rfl⟩ := readFields_iff.mp hfields
    simp only [Message.bytes, hbody, List.append_assoc, List.take_append_drop]
  · rintro rfl
    have hbytes : m.bytes ++ rest =
        m.start ++ crlf ++ (m.fields.flatMap (· ++ crlf) ++ crlf ++ (m.body ++ rest)) := by
      simp only [Message.bytes, List.append_assoc]
    have hparts : Message.ofParts m.start m.fields m.body = some m := ofParts_iff.mpr ⟨rfl, rfl, rfl⟩
    rw [hbytes, read, readLine_iff.mpr ⟨m.start_text, rfl⟩, Option.bind_some]
    simp only [readFields_iff.mpr ⟨length_fields m.fields (m.body ++ rest), m.fields_text, rfl⟩,
      Option.bind_some, m.announced, List.take_left, List.drop_left, hparts, Option.map_some]

theorem Message.bytes_ne_nil (m : Message) : m.bytes ≠ [] := by
  simp [Message.bytes, crlf]

theorem readAll_iff {n : ℕ} {s : Bytes} {ms : List Message} (hn : s.length ≤ n) :
    readAll n s = some ms ↔ s = ms.flatMap Message.bytes := by
  induction n generalizing s ms with
  | zero =>
    obtain rfl : s = [] := List.eq_nil_of_length_eq_zero (Nat.le_zero.mp hn)
    cases ms with
    | nil => exact iff_of_true rfl rfl
    | cons m ms => simp [readAll, m.bytes_ne_nil]
  | succ n ih =>
    cases s with
    | nil =>
      cases ms with
      | nil => exact iff_of_true rfl rfl
      | cons m ms => simp [readAll, m.bytes_ne_nil]
    | cons c s =>
      -- a message is never empty, so the fuel is enough for the rest
      have hshort {m : Message} {rest : Bytes} (h : c :: s = m.bytes ++ rest) : rest.length ≤ n := by
        have hlength := congrArg List.length h
        have hpos := List.length_pos_of_ne_nil m.bytes_ne_nil
        rw [List.length_append] at hlength
        omega
      constructor
      · intro h
        obtain ⟨⟨m, rest⟩, hread, h⟩ := Option.bind_eq_some_iff.mp h
        obtain ⟨ms', hall, rfl⟩ := Option.map_eq_some_iff.mp h
        have hs := read_iff.mp hread
        rw [hs, (ih (hshort hs)).mp hall, List.flatMap_cons]
      · intro h
        cases ms with
        | nil => cases h
        | cons m ms =>
          rw [List.flatMap_cons] at h
          simp only [readAll, read_iff.mpr h, Option.bind_some, (ih (hshort h)).mpr rfl, Option.map_some]

theorem isText_append {s t : Bytes} : IsText (s ++ t) ↔ IsText s ∧ IsText t := List.forall_mem_append

theorem isText_digits {s : Bytes} (h : ∀ c ∈ s, isDigit c = true) : IsText s := by
  intro c hc
  simp only [inLine, Bool.and_eq_true, decide_eq_true_eq]
  exact ⟨ne_of_isDigit (h c hc) (by decide), ne_of_isDigit (h c hc) (by decide)⟩

/-- The length is announced in one of the fields, and no other one looks like it. -/
theorem lengthOf_digits {before after : List Bytes} {digits : Bytes} (hbefore : lengthTexts before = [])
    (hafter : lengthTexts after = []) (hne : digits ≠ []) (hdigits : ∀ c ∈ digits, isDigit c = true) :
    lengthOf (before ++ (ascii "Content-Length: " ++ digits) :: after) = some (digitsValue digits) := by
  have htexts : lengthTexts (before ++ (ascii "Content-Length: " ++ digits) :: after) = [digits] := by
    unfold lengthTexts at hbefore hafter ⊢
    rw [List.filterMap_append, hbefore, List.filterMap_cons, if_pos (List.prefix_append _ _), hafter]
    exact congrArg (fun d => [d]) (List.drop_left' rfl)
  rw [lengthOf, htexts]
  exact if_pos ⟨hne, List.all_eq_true.mpr hdigits⟩

/-- A stream of messages is cut into them, and into nothing else. -/
theorem messages_iff {s : Bytes} {ms : List Message} :
    messages s = some ms ↔ s = ms.flatMap Message.bytes :=
  readAll_iff le_rfl

end Http
