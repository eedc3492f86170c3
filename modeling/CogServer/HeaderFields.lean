import CogServer.HttpExceptions
import CogServer.HttpRequests
import Mathlib.Data.List.Forall2

/-! Which spellings of its header fields a web connection knows. -/
namespace CogServer

open Telnet

/-- The ASCII letters without their case. -/
def lowerCase (c : UInt8) : UInt8 := if 65 ≤ c ∧ c ≤ 90 then c + 32 else c

def colon : UInt8 := 58

/-- The blanks that may stand after the colon of a header field. -/
def isBlank (c : UInt8) : Bool := c = blank || c = 9

/-- A line of an HTTP header: a field name, a colon, blanks, and the value. -/
structure FieldLine where
  name : Bytes
  blanks : Bytes
  value : Bytes
  name_colon : colon ∉ name
  blanks_blank : ∀ c ∈ blanks, isBlank c = true
  value_blank : ∀ c, value.head? = some c → isBlank c = false

/-- What a header field tells `HandshakeLine`. -/
inductive FieldKind
  | contentLength | host | keepAlive | upgrade | webkey
  deriving DecidableEq, Repr

namespace FieldLine

def text (l : FieldLine) : Bytes := l.name ++ colon :: (l.blanks ++ l.value)

/-- The same field with the same value: the name in another case, or other blanks. -/
structure Respelled (l l' : FieldLine) : Prop where
  name : l.name.map lowerCase = l'.name.map lowerCase
  value : l.value = l'.value

/-- The spellings that are known. Two names have two of them; two fields need their only blank. -/
def kind? (l : FieldLine) : Option FieldKind :=
  if (l.name = ascii "Content-Length" ∨ l.name = ascii "content-length") ∧
      l.blanks.head? = some blank then some .contentLength
  else if (l.name = ascii "Host" ∨ l.name = ascii "host") ∧ l.blanks.head? = some blank then
    some .host
  else if l.name = ascii "connection" ∧ l.blanks = [blank] ∧ ascii "keep-alive" <+: l.value then
    some .keepAlive
  else if l.name = ascii "Upgrade" ∧ l.blanks = [blank] ∧ ascii "websocket" <+: l.value then
    some .upgrade
  else if l.name = ascii "Sec-WebSocket-Key" ∧ l.blanks.head? = some blank then some .webkey
  else none

/-- Both lines are known as the same kind, or both are not known. The blanks but the first one
become a part of a host and of a key. -/
structure HeardAlike (l l' : FieldLine) : Prop where
  kind : l.kind? = l'.kind?
  blanks : l.kind? = some .host ∨ l.kind? = some .webkey → l.blanks = l'.blanks

/-- What a line sets, and what it throws. -/
def contentLength? (l : FieldLine) : Option ℕ :=
  if l.kind? = some .contentLength then (stoi l.value).toOption.map toSize else none

def error? (l : FieldLine) : Option HttpError :=
  if l.kind? = some .contentLength then
    match stoi l.value with
    | .error e => some e
    | .ok _ => none
  else none

def host? (l : FieldLine) : Option Bytes :=
  if l.kind? = some .host then some (l.blanks.tail ++ l.value) else none

def webkey? (l : FieldLine) : Option Bytes :=
  if l.kind? = some .webkey then some (l.blanks.tail ++ l.value) else none

def keepAlive? (l : FieldLine) : Option Bool :=
  if l.kind? = some .keepAlive then some true else none

def upgrade? (l : FieldLine) : Option Bool :=
  if l.kind? = some .upgrade then some true else none

/-! A test of `HandshakeLine`, by the name and the blanks. -/

theorem name_prefix {name literal rest tail : Bytes} (hl : colon ∉ literal) (hn : colon ∉ name) :
    literal ++ colon :: tail <+: name ++ colon :: rest ↔ name = literal ∧ tail <+: rest := by
  induction literal generalizing name with
  | nil =>
    cases name with
    | nil => simp
    | cons c name =>
      have hc : colon ≠ c := fun h => hn (h ▸ List.mem_cons_self)
      simp [hc]
  | cons d literal ih =>
    have hd : d ≠ colon := fun h => hl (h ▸ List.mem_cons_self)
    cases name with
    | nil => simp [hd]
    | cons c name =>
      have ih := ih (List.not_mem_of_not_mem_cons hl) (List.not_mem_of_not_mem_cons hn)
      simp only [List.cons_append, List.cons_prefix_cons, ih, List.cons.injEq]
      constructor
      · rintro ⟨rfl, rfl, h⟩
        exact ⟨⟨rfl, rfl⟩, h⟩
      · rintro ⟨⟨rfl, rfl⟩, h⟩
        exact ⟨rfl, rfl, h⟩

theorem blank_prefix (l : FieldLine) :
    [blank] <+: l.blanks ++ l.value ↔ l.blanks.head? = some blank := by
  cases hb : l.blanks with
  | nil =>
    cases hv : l.value with
    | nil => simp
    | cons c v =>
      have hc : blank ≠ c := by
        rintro rfl
        cases l.value_blank blank (by simp [hv])
      simp [hc]
  | cons c b => simp [eq_comm]

theorem value_prefix (l : FieldLine) {c : UInt8} {tail : Bytes} (hc : isBlank c = false) :
    blank :: c :: tail <+: l.blanks ++ l.value ↔ l.blanks = [blank] ∧ c :: tail <+: l.value := by
  rcases hb : l.blanks with _ | ⟨d, _ | ⟨e, b⟩⟩
  · cases hv : l.value with
    | nil => simp
    | cons d v =>
      have hd : blank ≠ d := by
        rintro rfl
        cases l.value_blank blank (by simp [hv])
      simp [hd]
  · -- the only blank is the one behind the colon
    simp [eq_comm]
  · have he : c ≠ e := by
      rintro rfl
      cases hc.symm.trans (l.blanks_blank c (by simp [hb]))
    simp [he]

theorem spaced_prefix (l : FieldLine) {literal : Bytes} (hl : colon ∉ literal) :
    literal ++ [colon, blank] <+: l.text ↔ l.name = literal ∧ l.blanks.head? = some blank := by
  rw [text, name_prefix hl l.name_colon, blank_prefix]

theorem exact_prefix (l : FieldLine) {literal : Bytes} {c : UInt8} {tail : Bytes}
    (hl : colon ∉ literal) (hc : isBlank c = false) :
    literal ++ colon :: blank :: c :: tail <+: l.text ↔
      l.name = literal ∧ l.blanks = [blank] ∧ c :: tail <+: l.value := by
  rw [text, name_prefix hl l.name_colon, l.value_prefix hc]

theorem text_drop (l : FieldLine) {n : ℕ} (hn : l.name.length + 2 = n)
    (hb : l.blanks.head? = some blank) : l.text.drop n = l.blanks.tail ++ l.value := by
  obtain ⟨b, hb⟩ := List.head?_eq_some_iff.mp hb
  subst hn
  simp [text, hb, List.drop_append]

/-- `stoi` skips the blanks. -/
theorem stoi_blanks (l : FieldLine) : stoi (l.blanks.tail ++ l.value) = stoi l.value := by
  have hspace : ∀ c ∈ l.blanks.tail, isSpace c = true := by
    intro c hc
    have hblank := l.blanks_blank c (List.mem_of_mem_tail hc)
    simp only [isBlank, Bool.or_eq_true, decide_eq_true_eq] at hblank
    rcases hblank with rfl | rfl <;> decide
  unfold stoi
  rw [List.dropWhile_append_of_pos hspace]

/-- What `HandshakeLine` does with a field. -/
def hear (l : FieldLine) (s : HttpSocket) : HttpSocket × Option HttpError :=
  ({ s with
    contentLength := l.contentLength?.getD s.contentLength
    hostHeader := l.host?.getD s.hostHeader
    webkey := l.webkey?.getD s.webkey
    keepAlive := l.keepAlive?.getD s.keepAlive
    gotWebsockHeader := l.upgrade?.getD s.gotWebsockHeader }, l.error?)

theorem kind?_contentLength (l : FieldLine) : l.kind? = some .contentLength ↔
    (l.name = ascii "Content-Length" ∨ l.name = ascii "content-length") ∧
    l.blanks.head? = some blank := by
  by_cases hc : (l.name = ascii "Content-Length" ∨ l.name = ascii "content-length") ∧
    l.blanks.head? = some blank
  · exact iff_of_true (if_pos hc) hc
  · refine iff_of_false ?_ hc
    rw [kind?, if_neg hc]
    split_ifs <;> simp

theorem lengthText_text (l : FieldLine) :
    HttpSocket.lengthText l.text =
      if l.kind? = some .contentLength then some (l.blanks.tail ++ l.value) else none := by
  have hupper : ascii "Content-Length: " <+: l.text ↔ _ :=
    l.spaced_prefix (by decide : colon ∉ ascii "Content-Length")
  have hlower : ascii "content-length: " <+: l.text ↔ _ :=
    l.spaced_prefix (by decide : colon ∉ ascii "content-length")
  simp only [HttpSocket.lengthText, hupper, hlower, kind?_contentLength]
  by_cases hb : l.blanks.head? = some blank
  · by_cases hu : l.name = ascii "Content-Length"
    · have hlen : l.name.length + 2 = 16 := by rw [hu]; decide
      rw [if_pos ⟨hu, hb⟩, if_pos ⟨.inl hu, hb⟩, l.text_drop hlen hb]
    · by_cases hl : l.name = ascii "content-length"
      · have hlen : l.name.length + 2 = 16 := by rw [hl]; decide
        rw [if_neg fun h => hu h.1, if_pos ⟨hl, hb⟩, if_pos ⟨.inr hl, hb⟩, l.text_drop hlen hb]
      · rw [if_neg fun h => hu h.1, if_neg fun h => hl h.1, if_neg fun h => h.1.elim hu hl]
  · rw [if_neg fun h => hb h.2, if_neg fun h => hb h.2, if_neg fun h => hb h.2]

/-- The tests of `HandshakeLine` find the kind of the line. -/
theorem headerLine_text (l : FieldLine) (s : HttpSocket) : s.headerLine l.text = l.hear s := by
  have hupper : ascii "Host: " <+: l.text ↔ _ := l.spaced_prefix (by decide : colon ∉ ascii "Host")
  have hlower : ascii "host: " <+: l.text ↔ _ := l.spaced_prefix (by decide : colon ∉ ascii "host")
  have hkeep : ascii "connection: keep-alive" <+: l.text ↔ _ ∧ _ ∧ ascii "keep-alive" <+: l.value :=
    l.exact_prefix (by decide : colon ∉ ascii "connection") (by decide)
  have hupgrade : ascii "Upgrade: websocket" <+: l.text ↔ _ ∧ _ ∧ ascii "websocket" <+: l.value :=
    l.exact_prefix (by decide : colon ∉ ascii "Upgrade") (by decide)
  have hkey : ascii "Sec-WebSocket-Key: " <+: l.text ↔ _ :=
    l.spaced_prefix (by decide : colon ∉ ascii "Sec-WebSocket-Key")
  simp only [HttpSocket.headerLine, lengthText_text, hupper, hlower, hkeep, hupgrade, hkey, hear,
    contentLength?, error?, host?, webkey?, keepAlive?, upgrade?]
  -- one case for each kind, in the order of the tests
  by_cases hc : (l.name = ascii "Content-Length" ∨ l.name = ascii "content-length") ∧
    l.blanks.head? = some blank
  · rw [show l.kind? = some .contentLength from if_pos hc]
    cases hn : stoi l.value <;> simp [stoi_blanks, hn, Except.toOption]
  by_cases hh : (l.name = ascii "Host" ∨ l.name = ascii "host") ∧ l.blanks.head? = some blank
  · rw [show l.kind? = some .host by rw [kind?, if_neg hc, if_pos hh]]
    have hlen : l.name.length + 2 = 6 := by
      rcases hh.1 with h | h <;> rw [h] <;> decide
    rw [l.text_drop hlen hh.2]
    rcases hh.1 with h | h <;> simp [h, hh.2]
  have hnot : ¬ (l.name = ascii "Host" ∧ l.blanks.head? = some blank) := fun h => hh ⟨.inl h.1, h.2⟩
  have hnotLower : ¬ (l.name = ascii "host" ∧ l.blanks.head? = some blank) :=
    fun h => hh ⟨.inr h.1, h.2⟩
  rw [if_neg hnot, if_neg hnotLower]
  by_cases hk : l.name = ascii "connection" ∧ l.blanks = [blank] ∧ ascii "keep-alive" <+: l.value
  · rw [show l.kind? = some .keepAlive by rw [kind?, if_neg hc, if_neg hh, if_pos hk], if_pos hk]
    simp
  by_cases hu : l.name = ascii "Upgrade" ∧ l.blanks = [blank] ∧ ascii "websocket" <+: l.value
  · rw [show l.kind? = some .upgrade by rw [kind?, if_neg hc, if_neg hh, if_neg hk, if_pos hu],
      if_neg hk, if_pos hu]
    simp
  by_cases hw : l.name = ascii "Sec-WebSocket-Key" ∧ l.blanks.head? = some blank
  · have hkind : l.kind? = some .webkey := by
      rw [kind?, if_neg hc, if_neg hh, if_neg hk, if_neg hu, if_pos hw]
    rw [hkind, if_neg hk, if_neg hu, if_pos hw]
    have hlen : l.name.length + 2 = 19 := by rw [hw.1]; decide
    rw [l.text_drop hlen hw.2]
    simp
  · have hkind : l.kind? = none := by
      rw [kind?, if_neg hc, if_neg hh, if_neg hk, if_neg hu, if_neg hw]
    rw [hkind, if_neg hk, if_neg hu, if_neg hw]
    simp

/-- A field is known only with a space after its colon. -/
theorem kind?_blank {l : FieldLine} {k : FieldKind} (h : l.kind? = some k) :
    l.blanks = blank :: l.blanks.tail := by
  have hhead : l.blanks.head? = some blank := by
    unfold kind? at h
    split_ifs at h with hlength hhost hkeep hupgrade hkey
    · exact hlength.2
    · exact hhost.2
    · rw [hkeep.2.1]; rfl
    · rw [hupgrade.2.1]; rfl
    · exact hkey.2
  obtain ⟨b, hb⟩ := List.head?_eq_some_iff.mp hhead
  rw [hb, List.tail_cons]

theorem blanks_alike {l l' : FieldLine} {k : FieldKind} (hl : l.kind? = some k)
    (hl' : l'.kind? = some k) (hv : l.value = l'.value)
    (h : l.blanks.tail ++ l.value = l'.blanks.tail ++ l'.value) : l.blanks = l'.blanks := by
  rw [hv] at h
  rw [kind?_blank hl, kind?_blank hl', List.append_cancel_right h]

/-- The kind of a line shows in what it sets or throws. -/
theorem kind?_shown (l : FieldLine) (k : FieldKind) : l.kind? = some k ↔
    match k with
    | .contentLength => l.error?.isSome = true ∨ l.contentLength?.isSome = true
    | .host => l.host?.isSome = true
    | .keepAlive => l.keepAlive?.isSome = true
    | .upgrade => l.upgrade?.isSome = true
    | .webkey => l.webkey?.isSome = true := by
  cases k with
  | contentLength =>
    unfold error? contentLength?
    cases stoi l.value <;> simp [Except.toOption]
  | host => simp [host?]
  | keepAlive => simp [keepAlive?]
  | upgrade => simp [upgrade?]
  | webkey => simp [webkey?]

/-- Of two spellings of one field the code hears the same exactly if it knows both alike. -/
theorem heard_alike {l l' : FieldLine} (h : Respelled l l') : HeardAlike l l' ↔
    l.error? = l'.error? ∧ l.contentLength? = l'.contentLength? ∧ l.host? = l'.host? ∧
    l.webkey? = l'.webkey? ∧ l.keepAlive? = l'.keepAlive? ∧ l.upgrade? = l'.upgrade? := by
  constructor
  · intro ha
    have hk := ha.kind
    refine ⟨by simp only [error?, hk, h.value], by simp only [contentLength?, hk, h.value], ?_, ?_,
      by simp only [keepAlive?, hk], by simp only [upgrade?, hk]⟩
    · by_cases hhost : l.kind? = some .host
      · simp only [host?, hk, h.value, ha.blanks (.inl hhost)]
      · simp only [host?, ← hk, hhost, ↓reduceIte]
    · by_cases hkey : l.kind? = some .webkey
      · simp only [webkey?, hk, h.value, ha.blanks (.inr hkey)]
      · simp only [webkey?, ← hk, hkey, ↓reduceIte]
  · rintro ⟨herror, hlength, hhost, hkey, hkeep, hupgrade⟩
    -- the kind shows in what the line sets, so it is the same for both
    have hk : l.kind? = l'.kind? := by
      refine Option.ext fun k => ?_
      rw [kind?_shown l, kind?_shown l', herror, hlength, hhost, hkey, hkeep, hupgrade]
    refine ⟨hk, ?_⟩
    rintro (hl | hl)
    · -- the text of a host has all blanks but the first, and so has that of a key
      have hl' := hk ▸ hl
      simp only [host?, hl, hl', ↓reduceIte, Option.some.injEq] at hhost
      exact blanks_alike hl hl' h.value hhost
    · have hl' := hk ▸ hl
      simp only [webkey?, hl, hl', ↓reduceIte, Option.some.injEq] at hkey
      exact blanks_alike hl hl' h.value hkey

theorem hear_error {l : FieldLine} {e : HttpError} (he : l.error? = some e) (s : HttpSocket) :
    l.hear s = (s, some e) := by
  have hk : l.kind? = some .contentLength :=
    (l.kind?_shown .contentLength).mpr (.inl (by rw [he]; rfl))
  -- only a length throws, and then nothing is set
  have hn : stoi l.value = .error e := by
    cases hn : stoi l.value with
    | ok n => simp [error?, hk, hn] at he
    | error f => simpa [error?, hk, hn] using he
  simp [hear, he, contentLength?, host?, webkey?, keepAlive?, upgrade?, hk, hn, Except.toOption]

/-- The lines before the first one that throws. -/
def heard (block : List FieldLine) : List FieldLine := block.takeWhile fun l => l.error?.isNone

/-- The last value that a block sets, or the one from before. -/
def final {α : Type} (set : FieldLine → Option α) (old : α) (block : List FieldLine) : α :=
  ((heard block).filterMap set).getLast?.getD old

theorem final_cons {α : Type} (set : FieldLine → Option α) (old : α) {l : FieldLine}
    (block : List FieldLine) (hl : l.error? = none) :
    final set old (l :: block) = final set ((set l).getD old) block := by
  unfold final heard
  rw [List.takeWhile_cons_of_pos (by rw [hl]; rfl), List.filterMap_cons]
  cases set l with
  | none => rfl
  | some v => simp [List.getLast?_cons]

theorem final_error {α : Type} (set : FieldLine → Option α) (old : α) {l : FieldLine}
    (block : List FieldLine) {e : HttpError} (hl : l.error? = some e) :
    final set old (l :: block) = old := by
  unfold final heard
  rw [List.takeWhile_cons_of_neg (by simp [hl])]
  rfl

end FieldLine

namespace HttpSocket

open FieldLine

/-- The lines of a header, one after the other, up to an exception. -/
def handshakeLines (W : HttpHost) : List Bytes → HttpSocket → HttpSocket × Option HttpError
  | [], s => (s, none)
  | line :: lines, s =>
    let r := s.handshakeLine W line
    match r.2 with
    | none => handshakeLines W lines r.1
    | some e => (r.1, some e)

/-- The first line of a request was read, and the header is not over. -/
structure InHeader (s : HttpSocket) : Prop where
  first : s.gotFirstLine = true
  header : s.gotHttpHeader = false

/-- What a block of header fields sets. -/
def hearBlock (block : List FieldLine) (s : HttpSocket) : HttpSocket × Option HttpError :=
  ({ s with
    contentLength := final contentLength? s.contentLength block
    hostHeader := final host? s.hostHeader block
    webkey := final webkey? s.webkey block
    keepAlive := final keepAlive? s.keepAlive block
    gotWebsockHeader := final upgrade? s.gotWebsockHeader block }, block.findSome? error?)

theorem handshakeLine_text {W : HttpHost} {s : HttpSocket} (hs : InHeader s) (l : FieldLine) :
    s.handshakeLine W l.text = l.hear s := by
  have hne : l.text ≠ [] := by simp [text]
  rw [handshakeLine_header hs.first hs.header hne, headerLine_text]

theorem handshakeLines_text (W : HttpHost) (block : List FieldLine) {s : HttpSocket}
    (hs : InHeader s) : handshakeLines W (block.map text) s = hearBlock block s := by
  induction block generalizing s with
  | nil => rfl
  | cons l block ih =>
    have hheard : InHeader (l.hear s).1 := ⟨hs.first, hs.header⟩
    simp only [List.map_cons, handshakeLines, handshakeLine_text hs]
    cases he : l.error? with
    | none =>
      -- what the line sets is the old value for the lines behind it
      rw [show (l.hear s).2 = none from he]
      refine (ih hheard).trans ?_
      simp only [hearBlock, hear, List.findSome?_cons, he, final_cons _ _ _ he]
    | some e => simp only [hear_error he, hearBlock, List.findSome?_cons, he, final_error _ _ _ he]

theorem handshakeLines_append (W : HttpHost) (lines more : List Bytes) (s : HttpSocket) :
    handshakeLines W (lines ++ more) s =
      match (handshakeLines W lines s).2 with
      | none => handshakeLines W more (handshakeLines W lines s).1
      | some _ => handshakeLines W lines s := by
  induction lines generalizing s with
  | nil => rfl
  | cons line lines ih =>
    simp only [List.cons_append, handshakeLines]
    cases h : (s.handshakeLine W line).2 with
    | none => exact ih _
    | some e => rfl

/-- What `HandshakeLine` leaves after two blocks is the same. -/
structure SameHeader (r r' : HttpSocket × Option HttpError) : Prop where
  contentLength : r.1.contentLength = r'.1.contentLength
  hostHeader : r.1.hostHeader = r'.1.hostHeader
  webkey : r.1.webkey = r'.1.webkey
  keepAlive : r.1.keepAlive = r'.1.keepAlive
  gotWebsockHeader : r.1.gotWebsockHeader = r'.1.gotWebsockHeader
  error : r.2 = r'.2

/-- Of each kind, the last line that is known has the same value in both blocks; where none is
known, the value from before counts. -/
structure FinalAlike (s : HttpSocket) (block block' : List FieldLine) : Prop where
  contentLength : final contentLength? s.contentLength block =
    final contentLength? s.contentLength block'
  hostHeader : final host? s.hostHeader block = final host? s.hostHeader block'
  webkey : final webkey? s.webkey block = final webkey? s.webkey block'
  keepAlive : final keepAlive? s.keepAlive block = final keepAlive? s.keepAlive block'
  gotWebsockHeader : final upgrade? s.gotWebsockHeader block =
    final upgrade? s.gotWebsockHeader block'
  error : block.findSome? error? = block'.findSome? error?

theorem sameHeader_iff (s : HttpSocket) (block block' : List FieldLine) :
    SameHeader (hearBlock block s) (hearBlock block' s) ↔ FinalAlike s block block' :=
  ⟨fun h => ⟨h.contentLength, h.hostHeader, h.webkey, h.keepAlive, h.gotWebsockHeader, h.error⟩,
    fun h => ⟨h.contentLength, h.hostHeader, h.webkey, h.keepAlive, h.gotWebsockHeader, h.error⟩⟩

/-- A header sets nothing else. -/
theorem hearBlock_eq {s : HttpSocket} {block block' : List FieldLine}
    (h : FinalAlike s block block') : hearBlock block s = hearBlock block' s := by
  unfold hearBlock
  rw [h.contentLength, h.hostHeader, h.webkey, h.keepAlive, h.gotWebsockHeader, h.error]

theorem finalAlike_of_heard {block block' : List FieldLine}
    (h : List.Forall₂ Respelled block block') (ha : List.Forall₂ HeardAlike block block')
    (s : HttpSocket) : FinalAlike s block block' := by
  induction h generalizing s with
  | nil => exact ⟨rfl, rfl, rfl, rfl, rfl, rfl⟩
  | @cons l l' block block' hl h ih =>
    obtain ⟨hhead, htail⟩ := List.forall₂_cons.mp ha
    obtain ⟨herror, hlength, hhost, hkey, hkeep, hupgrade⟩ := (heard_alike hl).mp hhead
    cases he : l.error? with
    | some e =>
      -- both blocks end here, with the same exception
      have he' := herror ▸ he
      constructor <;> simp only [final_error _ _ _ he, final_error _ _ _ he', List.findSome?_cons,
        he, he']
    | none =>
      have he' := herror ▸ he
      have ih := ih htail (l.hear s).1
      constructor
      · rw [final_cons _ _ _ he, final_cons _ _ _ he', ← hlength]
        exact ih.contentLength
      · rw [final_cons _ _ _ he, final_cons _ _ _ he', ← hhost]
        exact ih.hostHeader
      · rw [final_cons _ _ _ he, final_cons _ _ _ he', ← hkey]
        exact ih.webkey
      · rw [final_cons _ _ _ he, final_cons _ _ _ he', ← hkeep]
        exact ih.keepAlive
      · rw [final_cons _ _ _ he, final_cons _ _ _ he', ← hupgrade]
        exact ih.gotWebsockHeader
      · simp only [List.findSome?_cons, he, he', ih.error]

theorem getD_ext {α : Type} [Nontrivial α] {o o' : Option α} (h : ∀ d, o.getD d = o'.getD d) :
    o = o' := by
  cases o with
  | none =>
    cases o' with
    | none => rfl
    | some v =>
      -- a default that is not the value tells the two apart
      obtain ⟨d, hd⟩ := exists_ne v
      exact absurd (h d) hd
  | some u =>
    cases o' with
    | none =>
      obtain ⟨d, hd⟩ := exists_ne u
      exact absurd (h d).symm hd
    | some v => exact congrArg some (h u)

instance : Nontrivial Bytes := ⟨[], [0], by simp⟩

theorem handshakeLines_single {W : HttpHost} {s : HttpSocket} (hs : InHeader s) (l : FieldLine) :
    handshakeLines W [l.text] s = l.hear s := by
  simp only [handshakeLines, handshakeLine_text hs]
  cases h : (l.hear s).2 <;> exact Prod.ext rfl h.symm

/-- From every state of a header the two spellings of a field leave the same only if both are heard
alike. -/
theorem heard_of_same {W : HttpHost} {l l' : FieldLine} (hl : Respelled l l')
    (h : ∀ s, InHeader s →
      SameHeader (handshakeLines W [l.text] s) (handshakeLines W [l'.text] s)) :
    HeardAlike l l' := by
  have hsame (s : HttpSocket) (hs : InHeader s) : SameHeader (l.hear s) (l'.hear s) := by
    simpa only [handshakeLines_single hs] using h s hs
  let header : HttpSocket := { opened with gotFirstLine := true }
  refine (heard_alike hl).mpr ⟨?_, ?_, ?_, ?_, ?_, ?_⟩
  · exact (hsame header ⟨rfl, rfl⟩).error
  · -- whatever the socket had before, both lines leave the same
    exact getD_ext fun d => (hsame { header with contentLength := d } ⟨rfl, rfl⟩).contentLength
  · exact getD_ext fun d => (hsame { header with hostHeader := d } ⟨rfl, rfl⟩).hostHeader
  · exact getD_ext fun d => (hsame { header with webkey := d } ⟨rfl, rfl⟩).webkey
  · exact getD_ext fun d => (hsame { header with keepAlive := d } ⟨rfl, rfl⟩).keepAlive
  · exact getD_ext fun d =>
      (hsame { header with gotWebsockHeader := d } ⟨rfl, rfl⟩).gotWebsockHeader

/-- A header and its respelling leave the same exactly if their last known lines agree, and then
the rest of the handshake is the same; they do if every field is heard alike, and a field that is
not makes a difference. -/
theorem header_respelled (W : HttpHost) {block block' : List FieldLine}
    (h : List.Forall₂ Respelled block block') :
    (∀ s, InHeader s →
      (SameHeader (handshakeLines W (block.map text) s) (handshakeLines W (block'.map text) s) ↔
        FinalAlike s block block') ∧
      (FinalAlike s block block' → ∀ more,
        handshakeLines W (block.map text ++ more) s =
          handshakeLines W (block'.map text ++ more) s)) ∧
    (List.Forall₂ HeardAlike block block' → ∀ s, FinalAlike s block block') ∧
    ∀ l l', (l, l') ∈ block.zip block' → (HeardAlike l l' ↔
      ∀ s, InHeader s →
        SameHeader (handshakeLines W [l.text] s) (handshakeLines W [l'.text] s)) := by
  refine ⟨fun s hs => ⟨?_, fun ha more => ?_⟩, finalAlike_of_heard h,
    fun l l' hmem => ⟨fun ha s hs => ?_, ?_⟩⟩
  · rw [handshakeLines_text W block hs, handshakeLines_text W block' hs]
    exact sameHeader_iff s block block'
  · rw [handshakeLines_append, handshakeLines_append, handshakeLines_text W block hs,
      handshakeLines_text W block' hs, hearBlock_eq ha]
  · have hsingle := finalAlike_of_heard (.cons (List.forall₂_zip h hmem) .nil) (.cons ha .nil) s
    have hsame := (sameHeader_iff s [l] [l']).mpr hsingle
    rw [← handshakeLines_text W [l] hs, ← handshakeLines_text W [l'] hs] at hsame
    exact hsame
  · exact heard_of_same (List.forall₂_zip h hmem)

/-- A length and a host, in the two spellings that are known, with more blanks before the length. -/
def spelledUpper : List FieldLine :=
  [⟨ascii "Content-Length", [blank], ascii "5", by decide, by simp [isBlank],
    by simp [ascii, isBlank, blank]⟩,
    ⟨ascii "Host", [blank], ascii "a", by decide, by simp [isBlank],
      by simp [ascii, isBlank, blank]⟩]

def spelledLower : List FieldLine :=
  [⟨ascii "content-length", [blank, blank], ascii "5", by decide, by simp [isBlank],
    by simp [ascii, isBlank, blank]⟩,
    ⟨ascii "host", [blank], ascii "a", by decide, by simp [isBlank],
      by simp [ascii, isBlank, blank]⟩]

/-- The server after the first line of a request. -/
def posting : HttpSocket := { opened with gotFirstLine := true, url := ascii "/json" }

theorem header_respelled_known :
    handshakeLines (accepting id) (spelledUpper.map text ++ [[]]) posting =
      handshakeLines (accepting id) (spelledLower.map text ++ [[]]) posting := by
  have hspelled : List.Forall₂ Respelled spelledUpper spelledLower :=
    .cons ⟨by decide, rfl⟩ (.cons ⟨by decide, rfl⟩ .nil)
  have hheard : List.Forall₂ HeardAlike spelledUpper spelledLower :=
    .cons ⟨by decide +kernel, by decide +kernel⟩ (.cons ⟨by decide +kernel, by decide +kernel⟩ .nil)
  obtain ⟨hblocks, hfinal, -⟩ := header_respelled (accepting id) hspelled
  exact (hblocks posting ⟨rfl, rfl⟩).2 (hfinal hheard posting) [[]]

/-- A length in a spelling that is not known. -/
def spelledLoud : List FieldLine :=
  [⟨ascii "CONTENT-LENGTH", [blank], ascii "5", by decide, by simp [isBlank],
    by simp [ascii, isBlank, blank]⟩,
    ⟨ascii "Host", [blank], ascii "a", by decide, by simp [isBlank],
      by simp [ascii, isBlank, blank]⟩]

/-- The body of such a request will be taken for the next request. -/
theorem header_misheard : List.Forall₂ Respelled spelledUpper spelledLoud ∧ InHeader posting ∧
    (handshakeLines (accepting id) (spelledUpper.map text) posting).1.contentLength = 5 ∧
    (handshakeLines (accepting id) (spelledLoud.map text) posting).1.contentLength = 0 :=
  ⟨.cons ⟨by decide, rfl⟩ (.cons ⟨rfl, rfl⟩ .nil), ⟨rfl, rfl⟩, by decide +kernel, by decide +kernel⟩

end HttpSocket

end CogServer
