import CogServer.HttpFraming

/-! Requests that are sent back to back on one connection. -/
namespace CogServer

open Transition Telnet

/-- A character of a text: no control character, and no telnet command. -/
def Printable (c : UInt8) : Prop := blank ≤ c ∧ c ≠ iac

instance (c : UInt8) : Decidable (Printable c) := inferInstanceAs (Decidable (_ ∧ _))

/-- A line that a client sends: its text, and whether it ends in CR LF. -/
structure SentLine where
  text : Bytes
  cr : Bool
  printable : ∀ c ∈ text, Printable c

namespace SentLine

/-- The line up to its newline. -/
def stem (l : SentLine) : Bytes := l.text ++ if l.cr then [carriageReturn] else []

def bytes (l : SentLine) : Bytes := l.stem ++ [newline]

def empty (cr : Bool) : SentLine := ⟨[], cr, by simp⟩

end SentLine

/-- The first line of a request for `url`. -/
def RequestLine (line url : Bytes) : Prop :=
  ∃ method ∈ [ascii "GET ", ascii "POST "], ∃ version, line = method ++ (url ++ version) ∧
    (version = [] ∨ version.head? = some blank)

/-- The length that some header lines announce. -/
def Announced (headers : List SentLine) (n : ℕ) : Prop :=
  (headers.filterMap fun l => HttpSocket.lengthText l.text) = [] ∧ n = 0 ∨
    ∃ text, (headers.filterMap fun l => HttpSocket.lengthText l.text) = [text] ∧ text ≠ [] ∧
      (∀ c ∈ text, isDigit c = true) ∧ digitsValue text = n ∧ n < 2 ^ 31

/-- A request as a client sends it. -/
structure HttpRequest where
  first : SentLine
  url : Bytes
  headers : List SentLine
  last : Bool
  body : Bytes
  first_url : RequestLine first.text url
  url_ne : url ≠ []
  url_blank : blank ∉ url
  headers_ne : ∀ l ∈ headers, l.text ≠ []
  headers_upgrade : ∀ l ∈ headers, ¬ ascii "Upgrade: websocket" <+: l.text
  headers_length : Announced headers body.length

namespace HttpRequest

/-- What comes after some of the header lines. -/
def rest (r : HttpRequest) (headers : List SentLine) : Bytes :=
  headers.flatMap SentLine.bytes ++ ((SentLine.empty r.last).bytes ++ r.body)

def bytes (r : HttpRequest) : Bytes := r.first.bytes ++ r.rest r.headers

/-- What the subclass gets to see of a request. -/
def calls (r : HttpRequest) : List HttpCall := [.connection r.url, .line r.body]

end HttpRequest

/-- A subclass that accepts every URL. -/
def accepting (key : Bytes → Bytes) : HttpHost := ⟨fun _ _ => ([], none), key⟩

/-! A line in the stream, and how it is read. -/

theorem printable_ne {c d : UInt8} (h : Printable c) (hd : ¬ Printable d) : c ≠ d := fun e => hd (e ▸ h)

theorem SentLine.stem_chars (l : SentLine) {c : UInt8} (h : c ∈ l.stem) :
    c ≠ newline ∧ c ≠ eot ∧ c ≠ iac := by
  rcases List.mem_append.mp h with h | h
  · have hp := l.printable c h
    exact ⟨printable_ne hp (by decide), printable_ne hp (by decide), printable_ne hp (by decide)⟩
  · cases hcr : l.cr <;> simp only [hcr, Bool.false_eq_true, ↓reduceIte, List.not_mem_nil,
      List.mem_singleton] at h
    subst h
    decide

theorem SentLine.stripReturn_stem (l : SentLine) : stripReturn l.stem = l.text := by
  unfold stripReturn SentLine.stem
  cases l.cr with
  | true => simp
  | false =>
    simp only [Bool.false_eq_true, ↓reduceIte, List.append_nil]
    rw [if_neg]
    intro h
    exact printable_ne (l.printable _ (List.mem_of_getLast? h)) (by decide) rfl

theorem matchEolOrEscape_of_newline {b : Bytes} {m : Bool} (h : newline ∈ b) :
    matchEolOrEscape m b = true := by
  induction b generalizing m with
  | nil => cases h
  | cons c b ih =>
    rcases List.mem_cons.mp h with rfl | h
    · simp [matchEolOrEscape]
    · simp [matchEolOrEscape, ih h]

theorem matchEolOrEscape_chars {b : Bytes} (h : ∀ c ∈ b, c ≠ newline ∧ c ≠ eot ∧ c ≠ iac) :
    matchEolOrEscape false b = false := by
  induction b with
  | nil => rfl
  | cons c b ih =>
    obtain ⟨h1, h2, h3⟩ := h c List.mem_cons_self
    simp [matchEolOrEscape, h1, h2, h3, ih fun d hd => h d (List.mem_cons_of_mem _ hd)]

theorem getline_append {stem : Bytes} (more : Bytes) (h : newline ∉ stem) :
    getline (stem ++ newline :: more) = (stem, more) := by
  have hall : ∀ c ∈ stem, decide (c ≠ newline) = true := fun c hc => by
    simpa using ne_of_mem_of_not_mem hc h
  unfold getline
  rw [List.takeWhile_append_of_pos hall, List.dropWhile_append_of_pos hall]
  simp

/-- Of a stream that begins with this line, the buffer holds a part of the line that has no end
yet, or the whole line. -/
theorem SentLine.split (l : SentLine) {buffer future more : Bytes}
    (h : buffer ++ future = l.bytes ++ more) :
    (∃ tail, l.stem = buffer ++ tail) ∨ ∃ b, buffer = l.bytes ++ b ∧ more = b ++ future := by
  have h : buffer ++ future = l.stem ++ newline :: more := by simpa [bytes] using h
  rcases List.append_eq_append_iff.mp h with ⟨tail, ht, hm⟩ | ⟨b, hb, hm⟩
  · exact .inl ⟨tail, ht⟩
  · cases b with
    | nil => exact .inl ⟨[], by simpa using hb.symm⟩
    | cons c b =>
      obtain ⟨rfl, rfl⟩ := List.cons_eq_cons.mp hm
      exact .inr ⟨b, by simp [hb, bytes], rfl⟩

/-- `read_until` on such a stream: it sees the end of the line exactly if that is there. -/
theorem SentLine.read (l : SentLine) {buffer future more : Bytes} {n : ℕ}
    (h : buffer ++ future = l.bytes ++ more) (hn : newline ∉ buffer.take n) :
    (matchEolOrEscape false (buffer.drop n) = false ∧ newline ∉ buffer) ∨
      matchEolOrEscape false (buffer.drop n) = true ∧
        ∃ b, getline buffer = (l.stem, b) ∧ more = b ++ future := by
  rcases l.split h with ⟨tail, ht⟩ | ⟨b, hb, hm⟩
  · have hchars (c : UInt8) (hc : c ∈ buffer) : c ≠ newline ∧ c ≠ eot ∧ c ≠ iac :=
      l.stem_chars (ht ▸ List.mem_append_left _ hc)
    exact .inl ⟨matchEolOrEscape_chars fun c hc => hchars c (List.mem_of_mem_drop hc),
      fun hc => (hchars _ hc).1 rfl⟩
  · have hmem : newline ∈ buffer.take n ++ buffer.drop n := by simp [hb, bytes]
    refine .inr ⟨matchEolOrEscape_of_newline ((List.mem_append.mp hmem).resolve_left hn), b, ?_, hm⟩
    rw [hb, bytes, List.append_assoc, List.singleton_append]
    exact getline_append b fun hc => (l.stem_chars hc).1 rfl

namespace HttpSocket

variable {key : Bytes → Bytes} {reqs : List HttpRequest} {s t : HttpSocket} {future : Bytes}

/-- The socket reads lines, and no newline is in what it searched. -/
def Reading (s : HttpSocket) : Prop :=
  (∃ n, s.pc = .line n ∧ newline ∉ s.buffer.take n) ∨ s.pc = .lineWait ∧ newline ∉ s.buffer

/-- The length as announced so far, by the header lines `seen` of `r`. -/
def Counted (r : HttpRequest) (seen : List SentLine) (n : ℕ) : Prop :=
  (seen.filterMap fun l => lengthText l.text) = [] ∧ n = 0 ∨
    (seen.filterMap fun l => lengthText l.text) ≠ [] ∧ n = r.body.length

/-- How far the socket is with the requests, when `rest` is the stream that is still unread. -/
inductive Ahead (reqs : List HttpRequest) (s : HttpSocket) (rest : Bytes) : Prop
  | first {done todo : List HttpRequest} (hreqs : reqs = done ++ todo) (hreading : Reading s)
      (hfirst : s.gotFirstLine = false) (hheader : s.gotHttpHeader = false) (hlength : s.contentLength = 0)
      (hcalls : s.calls = done.flatMap HttpRequest.calls) (hrest : rest = todo.flatMap HttpRequest.bytes)
  | headers {done todo : List HttpRequest} {r : HttpRequest} {seen ahead : List SentLine}
      (hreqs : reqs = done ++ r :: todo) (hseen : r.headers = seen ++ ahead) (hreading : Reading s)
      (hfirst : s.gotFirstLine = true) (hheader : s.gotHttpHeader = false) (hurl : s.url = r.url)
      (hlength : Counted r seen s.contentLength) (hcalls : s.calls = done.flatMap HttpRequest.calls)
      (hrest : rest = r.rest ahead ++ todo.flatMap HttpRequest.bytes)
  | body {done todo : List HttpRequest} {r : HttpRequest} {n : ℕ} (hreqs : reqs = done ++ r :: todo)
      (hpc : s.pc = .body n) (hn : s.buffer.length + n = r.body.length) (hpos : 0 < n)
      (hlength : s.contentLength = r.body.length)
      (hcalls : s.calls = done.flatMap HttpRequest.calls ++ [.connection r.url])
      (hrest : rest = r.body ++ todo.flatMap HttpRequest.bytes)

/-- No websocket was asked for. -/
structure Plain (s : HttpSocket) : Prop where
  header : s.gotWebsockHeader = false
  frames : s.doFrameIo = false

/-- How many more steps there are at most before the socket waits for bytes. -/
def stepsLeft (s : HttpSocket) : ℕ :=
  match s.pc with
  | .line _ => s.buffer.length + 1
  | _ => 0

/-- What becomes of `s`, while `future` is still to come. -/
structure Kept (reqs : List HttpRequest) (future : Bytes) (s t : HttpSocket) : Prop where
  plain : Plain t
  received : t.received = s.received
  shorter : t.buffer.length ≤ s.buffer.length
  ahead : Ahead reqs t (t.buffer ++ future)

theorem stem_not_dBus (l : SentLine) : ¬ [0x1, 0x21] <+: l.stem := by
  intro h
  have hmem : (0x1 : UInt8) ∈ l.stem := h.subset (by simp)
  rcases List.mem_append.mp hmem with hm | hm
  · exact absurd (l.printable _ hm) (by decide)
  · cases hcr : l.cr <;> simp [hcr, carriageReturn] at hm

theorem requestLine_spec {line url : Bytes} (h : RequestLine line url) (hblank : blank ∉ url) (s : HttpSocket) :
    s.requestLine line = ({ s with gotFirstLine := true, url := url }, none) := by
  obtain ⟨method, hm, version, rfl, hv⟩ := h
  have htake : (url ++ version).takeWhile (· ≠ blank) = url := by
    rw [List.takeWhile_append_of_pos fun c hc => by simpa using ne_of_mem_of_not_mem hc hblank]
    cases version with
    | nil => simp
    | cons c v =>
      obtain rfl : c = blank := by simpa using hv
      simp
  unfold requestLine
  rcases List.mem_pair.mp hm with rfl | rfl
  · rw [if_pos (List.prefix_append _ _), show (ascii "GET " ++ (url ++ version)).drop 4 = url ++ version from rfl,
      htake]
  · have hget : ¬ ascii "GET " <+: ascii "POST " ++ (url ++ version) := by
      rintro ⟨x, hx⟩
      have hhead : (71 : UInt8) = 80 := Option.some.inj (congrArg List.head? hx)
      exact absurd hhead (by decide)
    rw [if_neg hget, if_pos (List.prefix_append _ _),
      show (ascii "POST " ++ (url ++ version)).drop 5 = url ++ version from rfl, htake]

/-- What a header line leaves alone. -/
structure SameRequest (s t : HttpSocket) : Prop where
  buffer : t.buffer = s.buffer
  received : t.received = s.received
  first : t.gotFirstLine = s.gotFirstLine
  header : t.gotHttpHeader = s.gotHttpHeader
  websock : t.gotWebsockHeader = s.gotWebsockHeader
  frames : t.doFrameIo = s.doFrameIo
  url : t.url = s.url
  calls : t.calls = s.calls

theorem headerLine_length {line text : Bytes} {n : ℤ} (ht : lengthText line = some text) (hn : stoi text = .ok n)
    (s : HttpSocket) : s.headerLine line = ({ s with contentLength := toSize n }, none) := by
  simp only [headerLine, ht, hn]

theorem headerLine_other {line : Bytes} (ht : lengthText line = none)
    (hup : ¬ ascii "Upgrade: websocket" <+: line) (s : HttpSocket) :
    (s.headerLine line).2 = none ∧ SameRequest s (s.headerLine line).1 ∧
      (s.headerLine line).1.contentLength = s.contentLength := by
  simp only [headerLine, ht, hup, ↓reduceIte]
  split
  · exact ⟨rfl, ⟨rfl, rfl, rfl, rfl, rfl, rfl, rfl, rfl⟩, rfl⟩
  split
  · exact ⟨rfl, ⟨rfl, rfl, rfl, rfl, rfl, rfl, rfl, rfl⟩, rfl⟩
  split
  · exact ⟨rfl, ⟨rfl, rfl, rfl, rfl, rfl, rfl, rfl, rfl⟩, rfl⟩
  split <;> exact ⟨rfl, ⟨rfl, rfl, rfl, rfl, rfl, rfl, rfl, rfl⟩, rfl⟩

/-- With the next header line the length is counted one line further. -/
theorem headerLine_counted {r : HttpRequest} {seen ahead : List SentLine} {l : SentLine}
    (hseen : r.headers = seen ++ l :: ahead) (hlength : Counted r seen s.contentLength) :
    (s.headerLine l.text).2 = none ∧ SameRequest s (s.headerLine l.text).1 ∧
      Counted r (seen ++ [l]) (s.headerLine l.text).1.contentLength := by
  have hmem : l ∈ r.headers := hseen ▸ by simp
  cases ht : lengthText l.text with
  | none =>
    obtain ⟨h1, h2, h3⟩ := headerLine_other ht (r.headers_upgrade l hmem) s
    refine ⟨h1, h2, ?_⟩
    rw [h3]
    simpa [Counted, ht] using hlength
  | some text =>
    rcases r.headers_length with ⟨hnone, -⟩ | ⟨text', hone, hne, hdigits, hvalue, hlt⟩
    · simp [hseen, ht] at hnone
    · obtain rfl : text = text' := by
        have hx : text ∈ [text'] := hone ▸ List.mem_filterMap.mpr ⟨l, hmem, ht⟩
        simpa using hx
      rw [headerLine_length ht (stoi_digits hne hdigits (hvalue ▸ hlt))]
      refine ⟨rfl, ⟨rfl, rfl, rfl, rfl, rfl, rfl, rfl, rfl⟩, .inr ⟨by simp [ht], ?_⟩⟩
      rw [toSize_natCast (by omega), hvalue]

theorem counted_all {r : HttpRequest} {n : ℕ} (h : Counted r r.headers n) : n = r.body.length := by
  rcases h with ⟨hnil, rfl⟩ | ⟨-, hn⟩
  · rcases r.headers_length with ⟨-, h0⟩ | ⟨text, hone, -⟩
    · exact h0.symm
    · rw [hnil] at hone
      cases hone
  · exact hn

theorem handleLine_again {W : HttpHost} {l : SentLine} (hheader : s.gotHttpHeader = false)
    (h : s.handshakeLine W l.text = (t, none)) (ht : t.gotHttpHeader = false) :
    s.handleLine W l.stem = { t with pc := .line 0 } := by
  simp only [handleLine, stem_not_dBus l, l.stripReturn_stem, hheader, h, Bool.false_eq_true,
    ↓reduceIte]
  rw [if_pos (by simp [ht])]

theorem handleLine_body {W : HttpHost} {l : SentLine} (hheader : s.gotHttpHeader = false)
    (h : s.handshakeLine W l.text = (t, none)) (ht : t.gotHttpHeader = true)
    (hf : t.doFrameIo = false) : s.handleLine W l.stem = t.getHttpBody := by
  simp only [handleLine, stem_not_dBus l, l.stripReturn_stem, hheader, h, Bool.false_eq_true,
    ↓reduceIte]
  rw [if_neg (by simp [ht]), if_neg (by simp [hf])]

/-- The first line of a request. -/
theorem ahead_first {done todo : List HttpRequest} {r : HttpRequest} {W : HttpHost}
    (hreqs : reqs = done ++ r :: todo) (hp : Plain s) (hfirst : s.gotFirstLine = false)
    (hheader : s.gotHttpHeader = false) (hlength : s.contentLength = 0)
    (hcalls : s.calls = done.flatMap HttpRequest.calls)
    (hrest : s.buffer ++ future = r.rest r.headers ++ todo.flatMap HttpRequest.bytes) :
    Kept reqs future s (s.handleLine W r.first.stem) := by
  have hline : s.handshakeLine W r.first.text = ({ s with gotFirstLine := true, url := r.url }, none) := by
    simp only [handshakeLine, hfirst, Bool.false_eq_true, not_false_eq_true, ↓reduceIte]
    exact requestLine_spec r.first_url r.url_blank s
  rw [handleLine_again hheader hline hheader]
  exact ⟨⟨hp.header, hp.frames⟩, rfl, Nat.le_refl _,
    .headers hreqs (show r.headers = [] ++ r.headers from rfl) (.inl ⟨0, rfl, by simp⟩) rfl hheader
      rfl (.inl ⟨rfl, hlength⟩) hcalls hrest⟩

/-- A header line. -/
theorem ahead_header {done todo : List HttpRequest} {r : HttpRequest} {W : HttpHost}
    {seen ahead : List SentLine} {l : SentLine} (hreqs : reqs = done ++ r :: todo)
    (hseen : r.headers = seen ++ l :: ahead) (hp : Plain s) (hfirst : s.gotFirstLine = true)
    (hheader : s.gotHttpHeader = false) (hurl : s.url = r.url)
    (hlength : Counted r seen s.contentLength) (hcalls : s.calls = done.flatMap HttpRequest.calls)
    (hrest : s.buffer ++ future = r.rest ahead ++ todo.flatMap HttpRequest.bytes) :
    Kept reqs future s (s.handleLine W l.stem) := by
  have hne : l.text ≠ [] := r.headers_ne l (hseen ▸ by simp)
  obtain ⟨herror, hsame, hcounted⟩ := headerLine_counted hseen hlength
  have hline : s.handshakeLine W l.text = ((s.headerLine l.text).1, none) := by
    simp only [handshakeLine, hfirst, hheader, hne, not_true_eq_false, Bool.false_eq_true, not_false_eq_true,
      and_false, ↓reduceIte]
    rw [← herror]
  rw [handleLine_again hheader hline (hsame.header.trans hheader)]
  refine ⟨⟨hsame.websock.trans hp.header, hsame.frames.trans hp.frames⟩, hsame.received,
    (congrArg List.length hsame.buffer).le, .headers hreqs
      (show r.headers = (seen ++ [l]) ++ ahead by simp [hseen]) (.inl ⟨0, rfl, by simp⟩)
      (hsame.first.trans hfirst) (hsame.header.trans hheader) (hsame.url.trans hurl) hcounted
      (hsame.calls.trans hcalls) ?_⟩
  simp only [hsame.buffer, hrest]

/-- A body of which everything is in the buffer. -/
theorem ahead_takeBody {done todo : List HttpRequest} {r : HttpRequest}
    (hreqs : reqs = done ++ r :: todo) (hp : Plain s) (hlength : s.contentLength = r.body.length)
    (hle : r.body.length ≤ s.buffer.length)
    (hcalls : s.calls = done.flatMap HttpRequest.calls ++ [.connection r.url])
    (hrest : s.buffer ++ future = r.body ++ todo.flatMap HttpRequest.bytes) :
    Kept reqs future s s.takeBody := by
  have hmax : ¬ maxSize < s.contentLength := by
    rcases r.headers_length with ⟨-, h0⟩ | ⟨-, -, -, -, -, hlt⟩
    · simp [hlength, h0]
    · unfold maxSize
      omega
  obtain ⟨b, hb, hmore⟩ : ∃ b, s.buffer = r.body ++ b ∧ todo.flatMap HttpRequest.bytes = b ++ future := by
    rcases List.append_eq_append_iff.mp hrest with ⟨x, hx, hf⟩ | ⟨x, hx, hf⟩
    · have hnil : x = [] := by
        have := congrArg List.length hx
        rw [List.length_append] at this
        exact List.length_eq_zero_iff.mp (by omega)
      exact ⟨[], by simp [hx, hnil], by simp [hf, hnil]⟩
    · exact ⟨x, hx, hf⟩
  have htake : s.takeBody = onBody r.body { s with buffer := b } := by
    rw [takeBody, if_neg hmax]
    simp only [hlength, hb, List.take_left, List.drop_left]
  rw [htake]
  refine ⟨⟨hp.header, hp.frames⟩, rfl, by simp [onBody, hb],
    .first (show reqs = (done ++ [r]) ++ todo by simp [hreqs]) (.inl ⟨0, rfl, by simp⟩) rfl rfl rfl
      ?_ hmore.symm⟩
  simp [onBody, hcalls, HttpRequest.calls]

/-- The empty line, after which the body is read. -/
theorem ahead_empty {done todo : List HttpRequest} {r : HttpRequest}
    (hreqs : reqs = done ++ r :: todo) (hp : Plain s) (hfirst : s.gotFirstLine = true)
    (hheader : s.gotHttpHeader = false) (hurl : s.url = r.url)
    (hlength : s.contentLength = r.body.length) (hcalls : s.calls = done.flatMap HttpRequest.calls)
    (hrest : s.buffer ++ future = r.body ++ todo.flatMap HttpRequest.bytes) :
    Kept reqs future s (s.handleLine (accepting key) (SentLine.empty r.last).stem) := by
  have hline : s.handshakeLine (accepting key) (SentLine.empty r.last).text =
      ({ s with gotHttpHeader := true, calls := s.calls ++ [.connection s.url] }, none) := by
    simp [handshakeLine, hfirst, hheader, connect, accepting, SentLine.empty, hp.header]
  rw [handleLine_body hheader hline rfl hp.frames, getHttpBody]
  by_cases h0 : s.contentLength = 0
  · rw [if_pos h0]
    have hbody : r.body = [] := List.length_eq_zero_iff.mp (hlength ▸ h0)
    refine ⟨⟨hp.header, hp.frames⟩, rfl, Nat.le_refl _,
      .first (show reqs = (done ++ [r]) ++ todo by simp [hreqs]) (.inl ⟨0, rfl, by simp⟩) rfl rfl
        rfl ?_ (by simpa [onBody, hbody] using hrest)⟩
    simp [onBody, hcalls, HttpRequest.calls, hbody, hurl]
  rw [if_neg h0]
  by_cases hlt : s.buffer.length < s.contentLength
  · rw [if_pos hlt]
    refine ⟨⟨hp.header, hp.frames⟩, rfl, Nat.le_refl _, .body (r := r) hreqs rfl ?_ ?_ hlength ?_ hrest⟩
    · dsimp only
      omega
    · exact Nat.sub_pos_of_lt hlt
    · simp [hcalls, hurl]
  · rw [if_neg hlt]
    have hkept := ahead_takeBody (s := { s with
      gotHttpHeader := true, calls := s.calls ++ [.connection s.url] }) hreqs ⟨hp.header, hp.frames⟩ hlength
      (by dsimp only; omega) (by simp [hcalls, hurl]) hrest
    exact ⟨hkept.plain, hkept.received, hkept.shorter, hkept.ahead⟩

theorem next_lineWait {n : ℕ} (hpc : s.pc = .line n)
    (hm : matchEolOrEscape false (s.buffer.drop n) = false) : s.next? .step = none := by
  simp [next?, hpc, hm]

theorem next_line {l : SentLine} {n : ℕ} {b : Bytes} (hpc : s.pc = .line n)
    (hm : matchEolOrEscape false (s.buffer.drop n) = true) (hb : getline s.buffer = (l.stem, b)) :
    s.next? .step = some (l.stem, { s with buffer := b }) := by
  simp [next?, hpc, hm, hb]

/-- The line that the stream begins with is read whole, or is waited for. -/
theorem step_reading {W : HttpHost} {l : SentLine} {more : Bytes} (hreading : Reading s)
    (hrest : s.buffer ++ future = l.bytes ++ more) (h : s.step W .step = some t) :
    (t = { s with pc := .lineWait } ∧ Reading t ∧ stepsLeft t < stepsLeft s) ∨
      ∃ b, t = handleLine W l.stem { s with buffer := b } ∧ b ++ future = more ∧
        b.length + 1 < stepsLeft s := by
  rcases hreading with ⟨n, hpc, hn⟩ | ⟨hpc, -⟩
  · rcases l.read hrest hn with ⟨hm, hnone⟩ | ⟨hm, b, hb, hmore⟩
    · simp only [step, next_lineWait hpc hm, hpc] at h
      cases h
      exact .inl ⟨rfl, .inr ⟨rfl, hnone⟩, by simp [stepsLeft, hpc]⟩
    · simp only [step, next_line hpc hm hb] at h
      cases h
      refine .inr ⟨b, rfl, hmore.symm, ?_⟩
      have hlen := congrArg List.length hrest
      simp only [List.length_append, hmore, SentLine.bytes, List.length_singleton] at hlen
      simp only [stepsLeft, hpc]
      omega
  · simp [step, next?, hpc] at h

/-- What a step of the thread does to `s`, while `future` is still to come. -/
structure Moved (reqs : List HttpRequest) (future : Bytes) (s t : HttpSocket) : Prop where
  plain : Plain t
  received : t.received = s.received
  sooner : stepsLeft t < stepsLeft s
  ahead : Ahead reqs t (t.buffer ++ future)

theorem Kept.moved {b : Bytes} (h : Kept reqs future { s with buffer := b } t) (hb : b.length + 1 < stepsLeft s) :
    Moved reqs future s t := by
  refine ⟨h.plain, h.received, ?_, h.ahead⟩
  have hle : stepsLeft t ≤ t.buffer.length + 1 := by
    unfold stepsLeft
    split <;> omega
  have hshorter : t.buffer.length ≤ b.length := h.shorter
  omega

theorem ahead_step (hp : Plain s) (ha : Ahead reqs s (s.buffer ++ future))
    (h : s.step (accepting key) .step = some t) : Moved reqs future s t := by
  have hp' (b : Bytes) : Plain { s with buffer := b } := ⟨hp.header, hp.frames⟩
  cases ha with
  | first hreqs hreading hfirst hheader hlength hcalls hrest =>
    rename_i done todo
    cases todo with
    | nil =>
      -- nothing is left to be sent
      obtain ⟨hbuffer, -⟩ := List.append_eq_nil_iff.mp hrest
      rcases hreading with ⟨n, hpc, -⟩ | ⟨hpc, -⟩
      · have hm : matchEolOrEscape false (s.buffer.drop n) = false := by
          rw [hbuffer, List.drop_nil]
          rfl
        simp only [step, next_lineWait hpc hm, hpc] at h
        cases h
        exact ⟨⟨hp.header, hp.frames⟩, rfl, by simp [stepsLeft, hpc],
          .first hreqs (.inr ⟨rfl, by simp [hbuffer]⟩) hfirst hheader hlength hcalls hrest⟩
      · simp [step, next?, hpc] at h
    | cons r todo =>
      have hline : s.buffer ++ future =
          r.first.bytes ++ (r.rest r.headers ++ todo.flatMap HttpRequest.bytes) := by
        simpa [HttpRequest.bytes] using hrest
      rcases step_reading hreading hline h with ⟨rfl, ht, hlt⟩ | ⟨b, rfl, hb, hlt⟩
      · exact ⟨⟨hp.header, hp.frames⟩, rfl, hlt, .first hreqs ht hfirst hheader hlength hcalls hrest⟩
      · exact (ahead_first hreqs (hp' b) hfirst hheader hlength hcalls hb).moved hlt
  | headers hreqs hseen hreading hfirst hheader hurl hlength hcalls hrest =>
    rename_i done todo r seen ahead
    cases ahead with
    | nil =>
      have hline : s.buffer ++ future =
          (SentLine.empty r.last).bytes ++ (r.body ++ todo.flatMap HttpRequest.bytes) := by
        simpa [HttpRequest.rest] using hrest
      rw [List.append_nil] at hseen
      rcases step_reading hreading hline h with ⟨rfl, ht, hlt⟩ | ⟨b, rfl, hb, hlt⟩
      · exact ⟨⟨hp.header, hp.frames⟩, rfl, hlt,
          .headers hreqs (show r.headers = seen ++ [] by simp [hseen]) ht hfirst hheader hurl hlength
            hcalls hrest⟩
      · have hlength := counted_all (hseen ▸ hlength)
        exact (ahead_empty hreqs (hp' b) hfirst hheader hurl hlength hcalls hb).moved hlt
    | cons l ahead =>
      have hline : s.buffer ++ future =
          l.bytes ++ (r.rest ahead ++ todo.flatMap HttpRequest.bytes) := by
        simpa [HttpRequest.rest] using hrest
      rcases step_reading hreading hline h with ⟨rfl, ht, hlt⟩ | ⟨b, rfl, hb, hlt⟩
      · exact ⟨⟨hp.header, hp.frames⟩, rfl, hlt,
          .headers hreqs hseen ht hfirst hheader hurl hlength hcalls hrest⟩
      · exact (ahead_header hreqs hseen (hp' b) hfirst hheader hurl hlength hcalls hb).moved hlt
  | body hreqs hpc hn hpos hlength hcalls hrest => simp [step, next?, hpc] at h

theorem ahead_recv {bytes : Bytes} (hp : Plain s)
    (ha : Ahead reqs s (s.buffer ++ (bytes ++ future))) (h : s.recv bytes = some t) :
    Plain t ∧ t.received = s.received ++ bytes ∧ Ahead reqs t (t.buffer ++ future) := by
  have hread (hreading : Reading s) : t.received = s.received ++ bytes ∧ Reading t ∧ 
      t = { s with buffer := s.buffer ++ bytes, received := s.received ++ bytes, pc := .line s.buffer.length } := by
    rcases hreading with ⟨n, hpc, -⟩ | ⟨hpc, hn⟩
    · simp [recv, hpc] at h
    · simp only [recv, hpc] at h
      split at h <;> cases h
      exact ⟨rfl, .inl ⟨_, rfl, by simpa using hn⟩, rfl⟩
  cases ha with
  | first hreqs hreading hfirst hheader hlength hcalls hrest =>
    obtain ⟨hreceived, ht, rfl⟩ := hread hreading
    exact ⟨⟨hp.header, hp.frames⟩, hreceived, .first hreqs ht hfirst hheader hlength hcalls (by simpa using hrest)⟩
  | headers hreqs hseen hreading hfirst hheader hurl hlength hcalls hrest =>
    obtain ⟨hreceived, ht, rfl⟩ := hread hreading
    exact ⟨⟨hp.header, hp.frames⟩, hreceived, .headers hreqs hseen ht hfirst hheader hurl hlength hcalls
      (by simpa using hrest)⟩
  | body hreqs hpc hn hpos hlength hcalls hrest =>
    simp only [recv, hpc] at h
    split at h
    · cases h
    rename_i hne
    split at h
    · cases h
    rename_i hle
    have hlen : (s.buffer ++ bytes).length = s.buffer.length + bytes.length := List.length_append
    split at h <;> cases h <;> rename_i heq
    · have hkept : Kept reqs future { s with buffer := s.buffer ++ bytes, received := s.received ++ bytes } _ :=
        ahead_takeBody hreqs ⟨hp.header, hp.frames⟩ hlength (by dsimp only; omega) hcalls (by simpa using hrest)
      exact ⟨hkept.plain, hkept.received, hkept.ahead⟩
    · exact ⟨⟨hp.header, hp.frames⟩, rfl, .body hreqs rfl (by dsimp only; omega) (by omega) hlength hcalls
        (by simpa using hrest)⟩

/-- What comes in is the stream, cut anyhow. -/
def arrives (stream : Bytes) (s : HttpSocket) (a : Act) : Prop :=
  a = .step ∨ ∃ bytes, a = .recv bytes ∧ s.received ++ bytes <+: stream

theorem ahead_of_reach
    (h : Reach (framingSystem (accepting key)) (arrives (reqs.flatMap HttpRequest.bytes)) s) :
    ∃ future, s.received ++ future = reqs.flatMap HttpRequest.bytes ∧ Plain s ∧
    Ahead reqs s (s.buffer ++ future) := by
  refine h.invariant (fun s => ∃ future, s.received ++ future = reqs.flatMap HttpRequest.bytes ∧ Plain s ∧
    Ahead reqs s (s.buffer ++ future)) ?_ ?_
  · rintro _ rfl
    exact ⟨_, rfl, ⟨rfl, rfl⟩,
      .first (show reqs = [] ++ reqs from rfl) (.inl ⟨0, rfl, by simp⟩) rfl rfl rfl rfl rfl⟩
  · rintro s a t - ⟨future, hf, hp, ha⟩ (rfl | ⟨bytes, rfl, future', hf'⟩) ht
    · have hm := ahead_step hp ha ht
      exact ⟨future, hm.received ▸ hf, hm.plain, hm.ahead⟩
    · obtain rfl : future = bytes ++ future' := by
        rw [← hf', List.append_assoc] at hf
        exact List.append_cancel_left hf
      obtain ⟨hp', hreceived, ha'⟩ := ahead_recv hp ha ht
      exact ⟨future', hreceived ▸ hf', hp', ha'⟩

theorem ahead_calls {rest : Bytes} (ha : Ahead reqs s rest) :
    s.calls <+: reqs.flatMap HttpRequest.calls := by
  cases ha with
  | first hreqs hreading hfirst hheader hlength hcalls hrest =>
    rw [hcalls, hreqs, List.flatMap_append]
    exact List.prefix_append _ _
  | headers hreqs hseen hreading hfirst hheader hurl hlength hcalls hrest =>
    rw [hcalls, hreqs, List.flatMap_append]
    exact List.prefix_append _ _
  | body hreqs hpc hn hpos hlength hcalls hrest =>
    rename_i done todo r n
    refine ⟨.line r.body :: todo.flatMap HttpRequest.calls, ?_⟩
    simp [hcalls, hreqs, HttpRequest.calls]

/-- A line that is still to come has an end that is still to come. -/
theorem newline_of_line (l : SentLine) {buffer : Bytes} (more : Bytes)
    (h : buffer = l.bytes ++ more) : newline ∈ buffer := by
  simp [h, SentLine.bytes]

/-- A socket that has nothing more to do, with the whole stream received, has served it. -/
theorem ahead_done (ha : Ahead reqs s s.buffer) (hstuck : ∀ n, s.pc ≠ .line n) :
    s.pc = .lineWait ∧ s.calls = reqs.flatMap HttpRequest.calls := by
  have hwait (hreading : Reading s) : s.pc = .lineWait ∧ newline ∉ s.buffer := by
    rcases hreading with ⟨n, hpc, -⟩ | h
    · exact absurd hpc (hstuck n)
    · exact h
  cases ha with
  | first hreqs hreading hfirst hheader hlength hcalls hrest =>
    rename_i done todo
    obtain ⟨hpc, hnone⟩ := hwait hreading
    cases todo with
    | nil => exact ⟨hpc, by rw [hcalls, hreqs, List.append_nil]⟩
    | cons r todo =>
      refine absurd (newline_of_line r.first (r.rest r.headers ++ todo.flatMap HttpRequest.bytes) ?_) hnone
      simpa [HttpRequest.bytes] using hrest
  | headers hreqs hseen hreading hfirst hheader hurl hlength hcalls hrest =>
    rename_i done todo r seen ahead
    obtain ⟨hpc, hnone⟩ := hwait hreading
    refine absurd ?_ hnone
    rw [hrest]
    simp [HttpRequest.rest, SentLine.bytes]
  | body hreqs hpc hn hpos hlength hcalls hrest =>
    have hlen := congrArg List.length hrest
    rw [List.length_append] at hlen
    omega

theorem step_of_line {W : HttpHost} {n : ℕ} (h : s.pc = .line n) :
    ∃ t, s.step W .step = some t := by
  unfold step
  cases hn : s.next? .step with
  | none => exact ⟨_, by simp only [h]; rfl⟩
  | some x => exact ⟨_, rfl⟩

/-- However the stream is cut, the subclass gets to see the requests that were sent, in order
and each with its own body; and once the whole stream is there, all of them. -/
theorem http_framed (key : Bytes → Bytes) (reqs : List HttpRequest) {s : HttpSocket}
    (h : Reach (framingSystem (accepting key)) (arrives (reqs.flatMap HttpRequest.bytes)) s) :
    s.calls <+: reqs.flatMap HttpRequest.calls ∧
      (s.received = reqs.flatMap HttpRequest.bytes →
        ∃ t, Path (framingSystem (accepting key)) (fun _ a => a = .step) s t ∧ t.pc = .lineWait ∧
          t.calls = reqs.flatMap HttpRequest.calls) := by
  obtain ⟨future, hf, hp, ha⟩ := ahead_of_reach h
  refine ⟨ahead_calls ha, fun hall => ?_⟩
  obtain rfl : future = [] := by simpa [hall] using hf
  have hadvance (u : HttpSocket) (hu : Plain u ∧ Ahead reqs u (u.buffer ++ [])) (hline : ¬ ∀ n, u.pc ≠ .line n) :
      ∃ v, Path (framingSystem (accepting key)) (fun _ a => a = .step) u v ∧
        (Plain v ∧ Ahead reqs v (v.buffer ++ [])) ∧ stepsLeft v < stepsLeft u := by
    obtain ⟨n, hn⟩ := not_forall_not.mp hline
    obtain ⟨v, hv⟩ := step_of_line (W := accepting key) hn
    have hm := ahead_step hu.1 hu.2 hv
    exact ⟨v, .single rfl hv, ⟨hm.plain, hm.ahead⟩, hm.sooner⟩
  obtain ⟨t, hpath, ⟨-, ht⟩, hstuck⟩ := Path.progress _ _ stepsLeft hadvance s ⟨hp, ha⟩
  rw [List.append_nil] at ht
  exact ⟨t, hpath, ahead_done ht hstuck⟩

/-- A request without a body, and one whose body looks like the end of a header. -/
def getRequest : HttpRequest where
  first := ⟨ascii "GET /x HTTP/1.1", true, by decide +kernel⟩
  url := ascii "/x"
  headers := [⟨ascii "Host: a", true, by decide +kernel⟩]
  last := true
  body := []
  first_url := ⟨ascii "GET ", by simp, ascii " HTTP/1.1", rfl, .inr rfl⟩
  url_ne := by decide +kernel
  url_blank := by decide +kernel
  headers_ne := by decide +kernel
  headers_upgrade := by decide +kernel
  headers_length := .inl ⟨by decide +kernel, rfl⟩

def postRequest : HttpRequest where
  first := ⟨ascii "POST /y", false, by decide +kernel⟩
  url := ascii "/y"
  headers := [⟨ascii "content-length: 2", false, by decide +kernel⟩]
  last := true
  body := [newline, newline]
  first_url := ⟨ascii "POST ", by simp, [], rfl, .inl rfl⟩
  url_ne := by decide +kernel
  url_blank := by decide +kernel
  headers_ne := by decide +kernel
  headers_upgrade := by decide +kernel
  headers_length := .inr ⟨ascii "2", by decide +kernel, by decide +kernel, by decide +kernel,
    by decide +kernel, by decide +kernel⟩

/-- Both requests, cut within a line and within the line end before the body. -/
def inPieces (stream : Bytes) : List Act :=
  [.step, .recv (stream.take 20), .step, .step, .recv ((stream.drop 20).take 20), .step, .step, .step, .step,
    .recv (stream.drop 40)]

theorem http_framed_example : ∃ t : HttpSocket, t.pc = .lineWait ∧
    t.calls = [.connection (ascii "/x"), .line [], .connection (ascii "/y"), .line [newline, newline]] := by
  have hx : (exec (framingSystem (accepting id)) opened
      (inPieces ([getRequest, postRequest].flatMap HttpRequest.bytes))).map received =
        some ([getRequest, postRequest].flatMap HttpRequest.bytes) := by decide +kernel
  obtain ⟨s, hs, h⟩ := Option.map_eq_some_iff.mp hx
  have hr : Reach (framingSystem (accepting id))
      (arrives ([getRequest, postRequest].flatMap HttpRequest.bytes)) s := by
    refine Reach.of_exec (fun s a => match a with
      | .recv bytes => decide (s.received ++ bytes <+: [getRequest, postRequest].flatMap HttpRequest.bytes)
      | a => decide (a = .step)) ?_ (.init rfl) (by decide +kernel) hs
    rintro u (_ | bytes | data | e) hu
    · exact .inl rfl
    · exact .inr ⟨bytes, rfl, of_decide_eq_true hu⟩
    · cases of_decide_eq_true hu
    · cases of_decide_eq_true hu
  obtain ⟨t, -, hpc, hcalls⟩ := (http_framed id [getRequest, postRequest] hr).2 h
  exact ⟨t, hpc, hcalls⟩

end HttpSocket

end CogServer
