import CogServer.Base64
import CogServer.PageServer
import CogServer.ShellProgress
import CogServer.WebReplies

/-! All that the web server writes to a client that speaks HTTP: what of it the client can cut into
messages, and that nothing of what the client sent gets into their headers. -/
namespace CogServer

open Transition

namespace WebOutput

/-- The start lines and the content types in the source. -/
def starts : List Bytes := ["HTTP/1.1 200 OK", "HTTP/1.1 400 Bad Request", "HTTP/1.1 404 Not Found"].map ascii

def types : List Bytes :=
  ["text/plain", "text/html", "text/css", "application/json", "application/javascript",
    "application/octet-stream", "image/x-icon", "image/vnd.microsoft.icon"].map ascii

/-- A header line of the source, other than a length. -/
def Fixed (l : Bytes) : Prop := l ∈ ascii "Server: CogServer" :: types.map (ascii "Content-Type: " ++ ·)

/-- The header of a message is made of texts of the source, and of the length of its body. -/
structure Own (m : Http.Message) : Prop where
  start : m.start ∈ starts
  fields : ∀ l ∈ m.fields, Fixed l ∨
    ∃ digits, l = ascii "Content-Length: " ++ digits ∧ (∀ c ∈ digits, isDigit c = true) ∧
      digitsValue digits = m.body.length

theorem fixed_facts {l : Bytes} (h : Fixed l) : Http.IsField l ∧ ¬ ascii "Content-Length: " <+: l := by
  have hall : ∀ l ∈ ascii "Server: CogServer" :: types.map (ascii "Content-Type: " ++ ·),
      Http.IsField l ∧ ¬ ascii "Content-Length: " <+: l := by decide
  exact hall l h

theorem lengthTexts_fixed {fields : List Bytes} (h : ∀ l ∈ fields, Fixed l) : Http.lengthTexts fields = [] := by
  refine List.filterMap_eq_nil_iff.mpr fun l hl => ?_
  rw [if_neg (fixed_facts (h l hl)).2]

/-- Such a header, with its length somewhere in it, makes a message. -/
theorem exists_own {start body digits : Bytes} {before after : List Bytes} (hstart : start ∈ starts)
    (hbefore : ∀ l ∈ before, Fixed l) (hafter : ∀ l ∈ after, Fixed l) (hne : digits ≠ [])
    (hdigits : ∀ c ∈ digits, isDigit c = true) (hvalue : digitsValue digits = body.length) :
    ∃ m : Http.Message, Own m ∧ m.bytes = start ++ Http.crlf ++
      ((before ++ (ascii "Content-Length: " ++ digits) :: after).flatMap (· ++ Http.crlf) ++
        Http.crlf ++ body) := by
  have htexts : ∀ s ∈ starts, Http.IsText s := by decide
  have hlength : Http.IsText (ascii "Content-Length: ") := by decide
  have hfield : Http.IsField (ascii "Content-Length: " ++ digits) :=
    ⟨List.append_ne_nil_of_left_ne_nil (by decide) _,
      Http.isText_append.mpr ⟨hlength, Http.isText_digits hdigits⟩⟩
  refine ⟨⟨start, before ++ (ascii "Content-Length: " ++ digits) :: after, body, htexts start hstart, ?_, ?_⟩,
    ⟨hstart, ?_⟩, rfl⟩
  · exact List.forall_mem_append.mpr ⟨fun l hl => (fixed_facts (hbefore l hl)).1,
      List.forall_mem_cons.mpr ⟨hfield, fun l hl => (fixed_facts (hafter l hl)).1⟩⟩
  · rw [Http.lengthOf_digits (lengthTexts_fixed hbefore) (lengthTexts_fixed hafter) hne hdigits, hvalue]
  · exact List.forall_mem_append.mpr ⟨fun l hl => .inl (hbefore l hl),
      List.forall_mem_cons.mpr ⟨.inr ⟨digits, rfl, hdigits, hvalue⟩, fun l hl => .inl (hafter l hl)⟩⟩

/-- The text is one message with a header of the source. -/
def OneMessage (page : Bytes) : Prop := ∃ m : Http.Message, Own m ∧ m.bytes = page

theorem fixed_type {contentType : Bytes} (h : contentType ∈ types) :
    ∀ l ∈ [ascii "Server: CogServer", ascii "Content-Type: " ++ contentType], Fixed l :=
  List.forall_mem_cons.mpr ⟨List.mem_cons_self, List.forall_mem_singleton.mpr
    (List.mem_cons_of_mem _ (List.mem_map_of_mem h))⟩

/-- The header that most responses have. -/
theorem oneMessage_typed {start contentType digits body : Bytes} (hstart : start ∈ starts)
    (htype : contentType ∈ types) (hne : digits ≠ []) (hdigits : ∀ c ∈ digits, isDigit c = true)
    (hvalue : digitsValue digits = body.length) :
    OneMessage (start ++ (ascii "\r\nServer: CogServer\r\nContent-Type: " ++ (contentType ++
      (ascii "\r\nContent-Length: " ++ (digits ++ (ascii "\r\n\r\n" ++ body)))))) := by
  obtain ⟨m, hm, hbytes⟩ :=
    @exists_own start body digits _ [] hstart (fixed_type htype) nofun hne hdigits hvalue
  have hserver : ascii "\r\nServer: CogServer\r\nContent-Type: " =
      Http.crlf ++ (ascii "Server: CogServer" ++ (Http.crlf ++ ascii "Content-Type: ")) := by decide
  have hlength : ascii "\r\nContent-Length: " = Http.crlf ++ ascii "Content-Length: " := by decide
  have hend : ascii "\r\n\r\n" = Http.crlf ++ Http.crlf := by decide
  refine ⟨m, hm, ?_⟩
  simp only [hbytes, hserver, hlength, hend, List.cons_append, List.nil_append, List.flatMap_cons,
    List.flatMap_nil, List.append_nil, List.append_assoc]

theorem oneMessage_withHeader (msg : Bytes) {contentType : Bytes} (h : contentType ∈ types) :
    OneMessage (withHeader msg contentType) := by
  obtain ⟨hne, hdigits, hvalue⟩ := WebReplies.toString_digits msg.length
  have hstart : ascii "HTTP/1.1 200 OK\r\nServer: CogServer\r\nContent-Type: " =
      ascii "HTTP/1.1 200 OK" ++ ascii "\r\nServer: CogServer\r\nContent-Type: " := by decide
  have hmem : ascii "HTTP/1.1 200 OK" ∈ starts := by decide
  have hmessage := oneMessage_typed hmem h hne hdigits hvalue
  simpa only [withHeader, hstart, List.flatten_cons, List.flatten_nil, List.append_nil, List.append_assoc]
    using hmessage

/-- The start of a page of `PageServer`. -/
theorem oneMessage_page {status mimeType body : Bytes} (hstatus : ascii "HTTP/1.1 " ++ status ∈ starts)
    (hmime : mimeType ∈ types) (hbody : body ≠ []) : OneMessage (PageServer.page status mimeType body) := by
  have hlength : 1 ≤ body.length := List.length_pos_of_ne_nil hbody
  have hmessage := oneMessage_typed hstatus hmime (decimal_ne_nil hlength) (decimal_digits body.length)
    (digitsValue_decimal body.length)
  simpa only [PageServer.page, List.append_assoc] using hmessage

theorem getMimeType_types (filename : Bytes) : PageServer.getMimeType filename ∈ types := by
  unfold PageServer.getMimeType
  dsimp only
  split_ifs <;> decide

theorem oneMessage_notFound (url : Bytes) : OneMessage (PageServer.notFound url) :=
  oneMessage_page (by decide) (by decide) (List.append_ne_nil_of_right_ne_nil _ (by decide))

theorem oneMessage_serve {ν : Type*} (F : FileTree ν) (installPrefix : InstallPrefix) (url : Bytes) :
    OneMessage (PageServer.serve F installPrefix url).response := by
  have hfile (filepath : Bytes) (paths : List Bytes) :
      OneMessage (PageServer.serveFile F url filepath paths).response := by
    unfold PageServer.serveFile
    dsimp only
    split
    · exact oneMessage_notFound url
    · next hcontent => exact oneMessage_page (by decide) (getMimeType_types filepath) hcontent
  unfold PageServer.serve
  dsimp only
  split
  · split
    · exact hfile _ _
    · split
      · exact hfile _ _
      · exact oneMessage_notFound url
    · exact oneMessage_notFound url
  · exact oneMessage_notFound url

/-- `favicon`, of the text in base64. -/
def favicon (bicon : Bytes) : Bytes :=
  let icon := base64Decode bicon
  List.flatten [ascii "HTTP/1.1 200 OK\r\nServer: CogServer\r\nContent-Length: ", ascii (toString icon.length),
    ascii "\r\nContent-Type: image/vnd.microsoft.icon\r\n\r\n", icon]

/-- A response of the OAuth endpoints. -/
def jsonPage (status jsonBody : Bytes) : Bytes :=
  List.flatten [ascii "HTTP/1.1 ", status, ascii "\r\nServer: CogServer\r\nContent-Type: application/json",
    ascii "\r\nContent-Length: ", ascii (toString jsonBody.length), ascii "\r\n\r\n", jsonBody]

def oauthProtectedResource : Bytes := jsonPage (ascii "200 OK") (ascii "\x7b\x7d")

/-- The issuer is the host that the client asked for, if it said so. -/
def oauthAuthorizationServer (port : ℤ) (hostHeader : Bytes) : Bytes :=
  let issuerUrl := ascii "http://" ++
    if hostHeader = [] then ascii "localhost:" ++ ascii (toString port) else hostHeader
  jsonPage (ascii "200 OK") (ascii "\x7b\"issuer\":\"" ++ issuerUrl ++ ascii "\"\x7d")

def oauthRegisterNotRequired : Bytes :=
  jsonPage (ascii "400 Bad Request") (ascii "\x7b\"error\":\"registration_not_supported\"," ++
    ascii "\"error_description\":\"This MCP server does not require OAuth registration\"\x7d")

/-- `html_stats`, around a page of statistics. It announces no length. -/
def htmlStats (html : Bytes) : Bytes :=
  ascii "HTTP/1.1 200 OK\r\nServer: CogServer\r\nContent-Type: text/html\r\n\r\n" ++ html

/-- What a web server has to serve. -/
structure Site (ν : Type*) where
  commands : Bytes → Option Command
  bicon : Bytes
  html : Bytes
  port : ℤ
  files : FileTree ν
  installPrefix : InstallPrefix

def Site.pages {ν : Type*} (S : Site ν) : WebPages where
  commands name := (S.commands name).isSome
  favicon := favicon S.bicon
  htmlStats := htmlStats S.html
  oauthProtectedResource := oauthProtectedResource
  oauthAuthorizationServer := oauthAuthorizationServer S.port
  oauthRegisterNotRequired := oauthRegisterNotRequired
  serve url := (PageServer.serve S.files S.installPrefix url).response

theorem oneMessage_jsonPage {status : Bytes} (jsonBody : Bytes) (h : ascii "HTTP/1.1 " ++ status ∈ starts) :
    OneMessage (jsonPage status jsonBody) := by
  obtain ⟨hne, hdigits, hvalue⟩ := WebReplies.toString_digits jsonBody.length
  have htype : ascii "application/json" ∈ types := by decide
  have hheader : ascii "\r\nServer: CogServer\r\nContent-Type: application/json" =
      ascii "\r\nServer: CogServer\r\nContent-Type: " ++ ascii "application/json" := by decide
  have hmessage := oneMessage_typed h htype hne hdigits hvalue
  simpa only [jsonPage, hheader, List.flatten_cons, List.flatten_nil, List.append_nil, List.append_assoc]
    using hmessage

/-- Here the length comes before the type. -/
theorem oneMessage_favicon (bicon : Bytes) : OneMessage (favicon bicon) := by
  obtain ⟨hne, hdigits, hvalue⟩ := WebReplies.toString_digits (base64Decode bicon).length
  have hstart : ascii "HTTP/1.1 200 OK" ∈ starts := by decide
  have hbefore : ∀ l ∈ [ascii "Server: CogServer"], Fixed l :=
    List.forall_mem_singleton.mpr List.mem_cons_self
  have hafter : ∀ l ∈ [ascii "Content-Type: image/vnd.microsoft.icon"], Fixed l :=
    List.forall_mem_singleton.mpr (List.mem_cons_of_mem _ (by decide))
  obtain ⟨m, hm, hbytes⟩ := exists_own hstart hbefore hafter hne hdigits hvalue
  have hlength : ascii "HTTP/1.1 200 OK\r\nServer: CogServer\r\nContent-Length: " =
      ascii "HTTP/1.1 200 OK" ++ (Http.crlf ++ (ascii "Server: CogServer" ++
        (Http.crlf ++ ascii "Content-Length: "))) := by decide
  have htype : ascii "\r\nContent-Type: image/vnd.microsoft.icon\r\n\r\n" =
      Http.crlf ++ (ascii "Content-Type: image/vnd.microsoft.icon" ++ (Http.crlf ++ Http.crlf)) := by decide
  refine ⟨m, hm, ?_⟩
  simp only [hbytes, favicon, hlength, htype, List.flatten_cons, List.flatten_nil, List.cons_append,
    List.nil_append, List.flatMap_cons, List.flatMap_nil, List.append_nil, List.append_assoc]

end WebOutput

namespace HttpSocket

variable {P : WebPages} {key : Bytes → Bytes} {s t : HttpSocket}

/-- A last word of the server, before it ends the connection. -/
def Parting (P : WebPages) (o : Bytes) : Prop :=
  o = notImplemented ∨ ∃ url hostHeader, P.onConnection url hostHeader = ([o], some .silent)

/-- As long as no websocket is agreed on, nothing was sent but a last word. -/
def PartsOnce (P : WebPages) (s : HttpSocket) : Prop :=
  s.doFrameIo = false → s.sent = [] ∨ s.pc = .closed ∧ ∃ o, s.sent = [o] ∧ Parting P o

theorem onConnection_forms (P : WebPages) (url hostHeader : Bytes) :
    (∃ o, P.onConnection url hostHeader = ([o], some .silent)) ∨
      P.onConnection url hostHeader = ([], some .outOfRange) ∨ P.onConnection url hostHeader = ([], none) := by
  unfold WebPages.onConnection
  split
  · exact .inl ⟨_, rfl⟩
  · split_ifs
    · exact .inr (.inl rfl)
    · exact .inr (.inr rfl)
    · exact .inl ⟨_, rfl⟩

/-- What `HandshakeLine` may have sent, by the exception that leaves it. -/
def SentBy (P : WebPages) (r : HttpSocket × Option HttpError) : Prop :=
  r.1.doFrameIo = false → r.1.sent = [] ∨ r.2 = some .silent ∧ ∃ o, r.1.sent = [o] ∧ Parting P o

theorem sentBy_requestLine (line : Bytes) (h : s.sent = []) : SentBy P (s.requestLine line) := by
  intro _
  unfold requestLine
  dsimp only
  split_ifs
  · exact .inl h
  · exact .inl h
  · refine .inr ⟨rfl, notImplemented, ?_, .inl rfl⟩
    have hsendable : sendable notImplemented = true := by decide
    simp only [send, hsendable, ↓reduceIte, h, List.nil_append]

theorem sentBy_connect (h : s.sent = []) : SentBy P (s.connect (P.host key)) := by
  rcases onConnection_forms P s.url s.hostHeader with ⟨o, ho⟩ | ho | ho
  · intro _
    simp only [connect, WebPages.host, ho, List.foldl_cons, List.foldl_nil]
    unfold send
    split
    · exact .inr ⟨trivial, o, by simp [h], .inr ⟨_, _, ho⟩⟩
    · exact .inl h
  · intro _
    simp only [connect, WebPages.host, ho, List.foldl_nil]
    exact .inl h
  · intro hframes
    refine .inl ?_
    cases hw : s.gotWebsockHeader with
    | false =>
      simp only [connect, WebPages.host, ho, hw, List.foldl_nil, Bool.false_eq_true,
        not_false_eq_true, ↓reduceIte]
      exact h
    | true =>
      simp only [connect, WebPages.host, ho, hw, List.foldl_nil, not_true_eq_false, ↓reduceIte] at hframes
      cases hframes

theorem sentBy_handshakeLine (line : Bytes) (h : s.sent = []) : SentBy P (s.handshakeLine (P.host key) line) := by
  cases hf : s.gotFirstLine with
  | false =>
    rw [handshakeLine_first line hf]
    exact sentBy_requestLine line h
  | true =>
    cases hh : s.gotHttpHeader with
    | false =>
      by_cases hl : line = []
      · rw [hl, handshakeLine_end hf hh]
        exact sentBy_connect h
      · rw [handshakeLine_header hf hh hl]
        exact fun _ => .inl ((headerLine_sent line s).trans h)
    | true =>
      simp only [handshakeLine, hf, hh, not_true_eq_false, false_and, ↓reduceIte]
      exact sentBy_connect h

theorem connect_frames (h : s.doFrameIo = true) : (s.connect (P.host key)).1.doFrameIo = true := by
  obtain ⟨o, ho⟩ := foldl_send (P.onConnection s.url s.hostHeader).1
    { s with calls := s.calls ++ [.connection s.url] }
  unfold connect WebPages.host
  simp only [ho]
  split
  · exact h
  · unfold send
    split_ifs <;> first | exact h | rfl

/-- Once websocket frames are agreed on, they stay so. -/
theorem handshakeLine_frames (line : Bytes) (h : s.doFrameIo = true) :
    (s.handshakeLine (P.host key) line).1.doFrameIo = true := by
  have hheader : (s.headerLine line).1.doFrameIo = true := by
    unfold headerLine
    split
    · split <;> exact h
    · split_ifs <;> exact h
  cases hf : s.gotFirstLine with
  | false =>
    rw [handshakeLine_first line hf]
    unfold requestLine send
    dsimp only
    split_ifs <;> exact h
  | true =>
    cases hh : s.gotHttpHeader with
    | false =>
      by_cases hl : line = []
      · rw [hl, handshakeLine_end hf hh]
        exact connect_frames h
      · rw [handshakeLine_header hf hh hl]
        exact hheader
    | true =>
      simp only [handshakeLine, hf, hh, not_true_eq_false, false_and, ↓reduceIte]
      exact connect_frames h

theorem next_frames {a : Act} {line : Bytes} (h : s.next? a = some (line, t)) : t.doFrameIo = s.doFrameIo := by
  cases a with
  | step =>
    cases hp : s.pc <;> simp only [next?, hp, reduceCtorEq] at h
    split at h <;> cases h
    rfl
  | frame data =>
    simp only [next?] at h
    split at h <;> cases h
    rfl
  | recv bytes => cases h
  | ends e => cases h

theorem getHttpBody_frames (s : HttpSocket) : s.getHttpBody.doFrameIo = s.doFrameIo := by
  unfold getHttpBody takeBody onBody
  split_ifs <;> rfl

/-- After the handshake only the exception decides whether the connection ends. -/
theorem partsOnce_afterHandshake (line : Bytes) {r : HttpSocket × Option HttpError} (h : SentBy P r) :
    PartsOnce P (afterHandshake line r) := by
  unfold afterHandshake
  cases he : r.2 with
  | some e =>
    intro hframes
    rcases h hframes with hsent | ⟨hsilent, ho⟩
    · exact .inl hsent
    · obtain rfl : e = .silent := Option.some.inj (he.symm.trans hsilent)
      exact .inr ⟨rfl, ho⟩
  | none =>
    -- nothing was thrown, so no last word was sent either
    have hsent (hframes : r.1.doFrameIo = false) : r.1.sent = [] :=
      (h hframes).resolve_right fun hs => nomatch he.symm.trans hs.1
    dsimp only
    split
    · exact fun hframes => .inl (hsent hframes)
    split
    · exact fun hframes => .inl (hsent hframes)
    · intro hframes
      rw [getHttpBody_frames] at hframes
      exact .inl ((getHttpBody_sent _).trans (hsent hframes))

theorem partsOnce_handleLine (line : Bytes) (h : s.doFrameIo = false → s.sent = []) :
    PartsOnce P (s.handleLine (P.host key) line) := by
  by_cases hbus : [0x1, 0x21] <+: line
  · intro hframes
    simp only [handleLine, hbus, ↓reduceIte] at hframes ⊢
    exact .inl (h hframes)
  rw [handleLine_eq _ hbus]
  refine partsOnce_afterHandshake _ ?_
  split
  · exact fun hframes => .inl (h hframes)
  · cases hd : s.doFrameIo with
    | true =>
      exact fun hframes => absurd (hframes.symm.trans (handshakeLine_frames _ hd)) Bool.false_ne_true
    | false => exact sentBy_handshakeLine _ (h hd)

theorem partsOnce_step {a : Act} (hs : PartsOnce P s) (h : s.step (P.host key) a = some t) : PartsOnce P t := by
  -- a connection that still steps is not closed
  have hempty (hframes : s.doFrameIo = false) : s.sent = [] :=
    (hs hframes).resolve_right fun hc => step_open h (.inl hc.1)
  have hsame (hsent : t.sent = s.sent) (hframes : t.doFrameIo = s.doFrameIo) : PartsOnce P t :=
    fun hf => .inl (hsent.trans (hempty (hframes ▸ hf)))
  unfold step at h
  cases hn : s.next? a with
  | some x =>
    obtain ⟨line, u⟩ := x
    simp only [hn, Option.some.injEq] at h
    rw [← h]
    refine partsOnce_handleLine line fun hframes => (next_first hn).2.trans (hempty ?_)
    rw [← next_frames hn]
    exact hframes
  | none =>
    simp only [hn] at h
    cases a with
    | step =>
      cases hp : s.pc <;> simp only [hp, reduceCtorEq] at h
      cases h
      exact hsame rfl rfl
    | recv bytes =>
      simp only [recv] at h
      split at h
      · cases h
      cases hp : s.pc <;> simp only [hp, reduceCtorEq] at h
      · cases h
        exact hsame rfl rfl
      · unfold takeBody onBody at h
        split_ifs at h <;> cases h <;> exact hsame rfl rfl
    | ends e =>
      unfold readEnds at h
      dsimp only at h
      split at h
      case h_4 | h_5 | h_6 => cases h
      all_goals
        cases e <;> dsimp only at h
        case eof => split at h <;> cases h <;> exact hsame rfl rfl
        case gone => cases h; exact hsame rfl rfl
        case otherError => cases h; exact hsame rfl rfl
        case silent => split at h <;> cases h <;> exact hsame rfl rfl
    | frame data => cases h

theorem partsOnce_of_reach (h : Reach (framingSystem (P.host key)) anyStep s) : PartsOnce P s := by
  refine h.invariant (PartsOnce P) ?_ fun s a t _ hs _ ht => partsOnce_step hs ht
  rintro _ rfl
  exact fun _ => .inl rfl

end HttpSocket

namespace WebOutput

variable {ν σ : Type*} {S : Site ν} {E : Bytes → GenericEval σ} {rounds : ℕ}
  {commands : Bytes → Option Command}
  {P : WebPages}

/-- A last word is one message, except for the two texts that announce no length. -/
theorem parting_forms {o : Bytes} (h : HttpSocket.Parting S.pages o) :
    OneMessage o ∨ o = HttpSocket.notImplemented ∨ o = htmlStats S.html := by
  rcases h with rfl | ⟨url, hostHeader, ho⟩
  · exact .inr (.inl rfl)
  -- a page of `OnConnection` is one of its own, or one that the page server finds
  have hpage : (S.pages.fixed? url hostHeader).getD (S.pages.serve url) = o := by
    unfold WebPages.onConnection at ho
    cases hf : S.pages.fixed? url hostHeader with
    | some page =>
      rw [hf] at ho
      exact (List.cons.inj (Prod.mk.inj ho).1).1
    | none =>
      simp only [hf] at ho
      split_ifs at ho
      · cases ho
      · cases ho
      · exact (List.cons.inj (Prod.mk.inj ho).1).1
  rw [← hpage]
  unfold WebPages.fixed?
  split_ifs
  · exact .inl (oneMessage_favicon S.bicon)
  · exact .inr (.inr rfl)
  · exact .inl (oneMessage_jsonPage _ (by decide))
  · exact .inl (oneMessage_jsonPage _ (by decide))
  · exact .inl (oneMessage_jsonPage _ (by decide))
  · exact .inl (oneMessage_serve S.files S.installPrefix url)

theorem contentType_types (shell : Bytes) : WebReplies.contentType shell ∈ types := by
  unfold WebReplies.contentType
  split <;> decide

/-- The text is a sequence of messages with headers of the source. -/
def Messages (text : Bytes) : Prop :=
  ∃ ms : List Http.Message, (∀ m ∈ ms, Own m) ∧ ms.flatMap Http.Message.bytes = text

theorem Messages.append {text more : Bytes} (h : Messages text) (h' : Messages more) : Messages (text ++ more) := by
  obtain ⟨ms, hms, rfl⟩ := h
  obtain ⟨ms', hms', rfl⟩ := h'
  exact ⟨ms ++ ms', List.forall_mem_append.mpr ⟨hms, hms'⟩, List.flatMap_append⟩

theorem OneMessage.messages {text : Bytes} (h : OneMessage text) : Messages text := by
  obtain ⟨m, hm, rfl⟩ := h
  exact ⟨[m], List.forall_mem_singleton.mpr hm, List.flatMap_singleton ..⟩

/-- A body is answered with a message or with nothing, whatever the evaluator makes of it. -/
theorem messages_evalBody {shell body : Bytes} {v u : σ} {sent : List Bytes}
    (h : WebReplies.evalBody E rounds shell v body = some (sent, u)) : Messages (McpPort.written sent) := by
  unfold WebReplies.evalBody at h
  dsimp only at h
  split at h
  · cases h
  obtain ⟨⟨result, w⟩, -, he⟩ := Option.map_eq_some_iff.mp h
  rw [← (Prod.mk.inj he).1]
  split
  · exact ⟨[], nofun, rfl⟩
  -- the result becomes the body; of the header it gives only the length
  · obtain ⟨m, hm, hbytes⟩ := oneMessage_withHeader result (contentType_types shell)
    rw [← hbytes, WebReplies.written_bytes]
    exact OneMessage.messages ⟨m, hm, rfl⟩

theorem messages_onCall {s t : WebServer × σ} {c : HttpCall} {sent : List Bytes}
    (h : WebReplies.onCall P commands E rounds s c = some (sent, t)) : Messages (McpPort.written sent) := by
  cases c with
  | connection url =>
    cases h
    exact ⟨[], nofun, rfl⟩
  | line body =>
    obtain ⟨shell, -, h⟩ := Option.bind_eq_some_iff.mp h
    obtain ⟨⟨texts, u⟩, heval, he⟩ := Option.map_eq_some_iff.mp h
    rw [← (Prod.mk.inj he).1]
    exact messages_evalBody heval

theorem messages_onCalls {s t : WebServer × σ} {calls : List HttpCall} {sent : List Bytes}
    (h : WebReplies.onCalls P commands E rounds s calls = some (sent, t)) : Messages (McpPort.written sent) := by
  induction calls generalizing s t sent with
  | nil =>
    cases h
    exact ⟨[], nofun, rfl⟩
  | cons c calls ih =>
    obtain ⟨⟨first, u⟩, hfirst, h⟩ := Option.bind_eq_some_iff.mp h
    obtain ⟨⟨more, w⟩, hmore, he⟩ := Option.map_eq_some_iff.mp h
    rw [← (Prod.mk.inj he).1, WebReplies.written_append]
    exact (messages_onCall hfirst).append (ih hmore)

/-- A file system with nothing in it. -/
def emptyTree : FileTree Unit where
  root := ()
  cwd := ()
  parent _ := ()
  kind _ := .directory
  entry _ _ := none
  readable _ := true
  pathMax := 4096
  maxLinks := 40

def bareSite : Site Unit := ⟨builtinCommand, [], [], 18080, emptyTree, ⟨[], nofun⟩⟩

/-- A request that is answered, and one for a page, after which the server ends the connection. -/
def pageStream : Bytes := ascii "POST /json\ncontent-length: 2\n\nhiGET /register\n\n"

end WebOutput

end CogServer
