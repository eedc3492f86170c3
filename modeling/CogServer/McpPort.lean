import CogServer.JsonLines
import CogServer.McpAnswers
import CogServer.TelnetLines
import Mathlib.Data.Bool.AllAny

/-! A connection to the MCP port: from the bytes that come in to those that go out. -/
namespace CogServer

open Telnet Mcp

namespace McpPort

variable {α : Type*} (H : McpHost α) (errorString : Bytes)

/-- What `OnLine` does with a piece: `begin_eval`, `eval_expr`, and the text of `poll_result`, which
it sends. `none` is an exception. -/
def evalPiece (v : McpEval α) (piece : Bytes) : Option (Bytes × McpEval α) :=
  let E := mcpProtocol H errorString
  let begun := E.beginEval v
  if E.throws piece begun then none else E.pollResult (E.evalExpr piece begun)

/-- The pieces of a line, one after the other. -/
def evalPieces : McpEval α → List Bytes → Option (List Bytes × McpEval α)
  | v, [] => some ([], v)
  | v, piece :: pieces =>
    (evalPiece H errorString v piece).bind fun (text, u) =>
      (evalPieces u pieces).map fun (texts, u) => (text :: texts, u)

/-- `OnLine` without a shell, for one line after the other. -/
def onLines : McpEval α → List Bytes → Option (List Bytes × McpEval α)
  | v, [] => some ([], v)
  | v, line :: rest =>
    (evalPieces H errorString v (onLinePieces line)).bind fun (texts, u) =>
      (onLines u rest).map fun (more, u) => (texts ++ more, u)

/-- What `Send` writes to the socket of the texts that it gets. -/
def written (texts : List Bytes) : Bytes := (texts.filter sendable).flatten

/-- The connection with this input: the bytes that are written to it, and the evaluator at its
end. -/
def connection (fuel : ℕ) (v : McpEval α) (net : List Chunk) : Option (Bytes × McpEval α) :=
  (handleConnection fuel net).bind fun lines =>
    (onLines H errorString v lines).map fun (texts, u) => (written texts, u)

/-- A message that is to be answered: it is looked at, and it is no cancellation. -/
def answered (expr : Bytes) : Bool :=
  heard H expr && (request? H expr).all fun q => McpMethod.ofName q.1 ≠ .cancelled

/-- `r` is a reply to the message. It has the id of the message, or none for a notification, or a null
id if the message cannot be read or something throws in its course. -/
structure Replies (expr : Bytes) (r : Json) : Prop where
  response : IsResponse r
  unread : request? H expr = none → r.member? "id" = some .null
  id : ∀ method params id, request? H expr = some (method, params, id) →
    McpMethod.ofName method ≠ .initialized → r.member? "id" = some id ∨
      r.member? "id" = some .null ∧ ∃ w, ¬ Sound H w method params

/-- The text of a reply on the connection. -/
def line (r : Json) : Bytes := (H.json.write r).text ++ [newline]

variable {H errorString}

/-- The outcome of a message: a reply exactly if it is to be answered. -/
theorem evalMessage_outcome (w : α) {expr : Bytes} (hw : ¬ WildMessage H w expr) :
    (answered H expr = true ∧ ∃ r, (evalMessage H w expr).1 = some (.reply r) ∧ Replies H expr r) ∨
    answered H expr = false ∧ ((∃ r, (evalMessage H w expr).1 = some (.held r)) ∨
      (evalMessage H w expr).1 = some .empty) := by
  rcases evalMessage_cases H w expr with ⟨hh, -, hr⟩ | ⟨hh, hq, what, hr⟩ |
    ⟨hh, method, params, id, hq, hr⟩
  · exact .inr ⟨by rw [answered, hh]; rfl, .inl hr⟩
  · refine .inl ⟨by rw [answered, hh, hq]; rfl, _, hr, isResponse_error .., fun _ => rfl, ?_⟩
    intro method params id h
    rw [hq] at h
    cases h
  have hanswered : answered H expr = decide (McpMethod.ofName method ≠ .cancelled) := by
    rw [answered, hh, hq]
    rfl
  rw [hr, hanswered]
  by_cases hc : McpMethod.ofName method = .cancelled
  -- a cancellation is looked at, and leaves `_result` empty
  · exact .inr ⟨by simpa using hc, .inr (by simp only [dispatchMethod, hc]; rfl)⟩
  have hnone : request? H expr ≠ none := by
    rw [hq]
    exact Option.some_ne_none _
  have hparts : ∀ m p i, request? H expr = some (m, p, i) → m = method ∧ p = params ∧ i = id := by
    intro m p i h
    rw [hq] at h
    simpa using (Option.some.inj h).symm
  have hd := dispatched H w method params id
  -- what is left depends on the dispatch only through its result
  generalize (dispatchMethod H w method params id).1 = o at hd
  refine .inl ⟨by simpa using hc, ?_⟩
  cases hd with
  | answered hs hwild hres hid =>
    refine ⟨_, rfl, hres, fun h => absurd h hnone, ?_⟩
    intro m p i h hi
    obtain ⟨rfl, rfl, rfl⟩ := hparts m p i h
    exact .inl (hid hi).2
  | cancelled hm => exact absurd hm hc
  | threw hs hwild =>
    refine ⟨_, rfl, isResponse_error .., fun _ => rfl, ?_⟩
    intro m p i h hi
    obtain ⟨rfl, rfl, rfl⟩ := hparts m p i h
    exact .inr ⟨rfl, w, hs⟩
  | wild hs hwild => exact absurd ⟨method, params, id, hq, hwild⟩ hw

/-- A piece that is a message: its reply is sent, or nothing. -/
theorem evalPiece_spec (errorString : Bytes) (v : McpEval α) {piece : Bytes} (hne : piece ≠ [])
    (hnl : piece ≠ [newline]) (hw : ¬ WildMessage H v.world piece) :
    ∃ text u, evalPiece H errorString v piece = some (text, u) ∧
      ((answered H piece = true ∧ ∃ r, text = line H r ∧ Replies H piece r) ∨
        answered H piece = false ∧ text = []) := by
  have houtcome := evalMessage_outcome v.world hw
  unfold evalPiece mcpProtocol mcpEval letsOut McpEval.evalExpr respond
  simp only [hne, hnl, ↓reduceIte]
  rcases houtcome with ⟨ha, r, hr, hreplies⟩ | ⟨ha, ⟨r, hr⟩ | hr⟩
  · simp only [hr, McpEval.pollResult, Option.isNone_some, Bool.and_false, Bool.false_eq_true, ↓reduceIte]
    exact ⟨_, _, rfl, .inl ⟨ha, r, rfl, hreplies⟩⟩
  · simp only [hr, McpEval.pollResult, Option.isNone_some, Bool.and_false, Bool.false_eq_true, ↓reduceIte]
    exact ⟨_, _, rfl, .inr ⟨ha, rfl⟩⟩
  · simp only [hr, McpEval.pollResult, Option.isNone_some, Bool.and_false, Bool.false_eq_true, ↓reduceIte]
    exact ⟨_, _, rfl, .inr ⟨ha, rfl⟩⟩

/-- The text of a reply is not one of those that `Send` drops. -/
theorem sendable_line (r : Json) : sendable (line H r) = true := by
  have hpos := List.length_pos_of_ne_nil (H.json.write r).nonempty
  have hlength : 2 ≤ (line H r).length := by
    rw [line, List.length_append, List.length_singleton]
    omega
  have hnil : line H r ≠ [] := by
    intro h
    simp [h] at hlength
  have hone : line H r ≠ [newline] := by
    intro h
    simp [h] at hlength
  simp [sendable, hnil, hone]

/-- What is written of the pieces of a connection. -/
def Served (H : McpHost α) (pieces texts : List Bytes) : Prop :=
  ∃ replies, written texts = (replies.map (line H)).flatten ∧
    List.Forall₂ (Replies H) (pieces.filter (answered H)) replies

theorem served_nil : Served H [] [] := ⟨[], rfl, .nil⟩

theorem Served.cons {piece text : Bytes} {pieces texts : List Bytes}
    (h : (answered H piece = true ∧ ∃ r, text = line H r ∧ Replies H piece r) ∨
      answered H piece = false ∧ text = [])
    (hs : Served H pieces texts) : Served H (piece :: pieces) (text :: texts) := by
  obtain ⟨replies, hwritten, hreplies⟩ := hs
  rcases h with ⟨ha, r, rfl, hr⟩ | ⟨ha, rfl⟩
  · refine ⟨r :: replies, ?_, ?_⟩
    · rw [written, List.filter_cons_of_pos (sendable_line r), List.flatten_cons, List.map_cons,
        List.flatten_cons, ← hwritten, written]
    · rw [List.filter_cons_of_pos ha]
      exact .cons hr hreplies
  · refine ⟨replies, ?_, ?_⟩
    · rw [← hwritten, written, List.filter_cons_of_neg (by decide), written]
    · rw [List.filter_cons_of_neg (by rw [ha]; exact Bool.false_ne_true)]
      exact hreplies

/-- Pieces that are messages are served, one after the other. -/
theorem evalPieces_spec (errorString : Bytes) (v : McpEval α) (pieces : List Bytes)
    (h : ∀ piece ∈ pieces, piece ≠ [] ∧ piece ≠ [newline] ∧ ∀ w, ¬ WildMessage H w piece) :
    ∃ texts u, evalPieces H errorString v pieces = some (texts, u) ∧ Served H pieces texts := by
  induction pieces generalizing v with
  | nil => exact ⟨[], v, rfl, served_nil⟩
  | cons piece pieces ih =>
    obtain ⟨⟨hne, hnl, hw⟩, hrest⟩ := List.forall_mem_cons.mp h
    obtain ⟨text, u, hpiece, htext⟩ := evalPiece_spec errorString v hne hnl (hw _)
    obtain ⟨texts, u', hpieces, hserved⟩ := ih u hrest
    refine ⟨text :: texts, u', ?_, hserved.cons htext⟩
    simp only [evalPieces, hpiece, hpieces, Option.bind_some, Option.map_some]

/-- The objects of a line are its pieces. -/
theorem onLinePieces_objects {depth : ℕ} (hdepth : depth < 2 ^ 32) {objects : List Bytes} {s : Bytes}
    (h : Consecutive objects s) (hobjects : ∀ o ∈ objects, ObjectText depth o) :
    onLinePieces s = objects := by
  -- each object together with the blanks before it, as the scan goes through them
  have hlaid : ∃ (parts : List (Bytes × Bytes)) (blanks : Bytes), objects = parts.map (·.2) ∧
      s = (parts.map fun o => o.1 ++ o.2).flatten ++ blanks ∧ (∀ c ∈ blanks, isSpace c) ∧
      (∀ o ∈ parts, ∀ c ∈ o.1, isSpace c) ∧ parts.length ≤ s.length := by
    clear hobjects
    induction h with
    | nil blanks h => exact ⟨[], blanks, rfl, rfl, h, by simp, Nat.zero_le _⟩
    | @cons piece rest pieces blanks h hpiece hrest ih =>
      obtain ⟨parts, after, rfl, rfl, hafter, hparts, hlength⟩ := ih
      have hpos := List.length_pos_of_ne_nil hpiece
      refine ⟨(blanks, piece) :: parts, after, rfl, ?_, hafter, List.forall_mem_cons.mpr ⟨h, hparts⟩, ?_⟩
      · simp only [List.map_cons, List.flatten_cons, List.append_assoc]
      · simp only [List.length_append, List.length_cons] at hlength ⊢
        omega
  obtain ⟨parts, blanks, rfl, rfl, hblanks, hparts, hlength⟩ := hlaid
  exact evaluated_objects hdepth blanks hblanks parts
    (fun o ho => ⟨hparts o ho, hobjects o.2 (List.mem_map_of_mem ho)⟩) (Nat.lt_succ_of_le hlength)

theorem head_of_objectText {depth : ℕ} {o : Bytes} (h : ObjectText depth o) : o.head? = some 123 := by
  obtain ⟨t, inner, rfl, -, -⟩ := h
  rfl

/-- An object is not one of the texts that `eval_expr` does not look at. -/
theorem ne_of_objectText {depth : ℕ} {o : Bytes} (h : ObjectText depth o) : o ≠ [] ∧ o ≠ [newline] := by
  have hhead := head_of_objectText h
  constructor <;> rintro rfl <;> exact absurd hhead (by decide)

theorem evalPieces_append (v : McpEval α) (before after : List Bytes) :
    evalPieces H errorString v (before ++ after) =
      (evalPieces H errorString v before).bind fun r =>
        (evalPieces H errorString r.2 after).map fun q => (r.1 ++ q.1, q.2) := by
  induction before generalizing v with
  | nil => simp [evalPieces]
  | cons piece before ih =>
    rw [List.cons_append, evalPieces, evalPieces]
    cases evalPiece H errorString v piece with
    | none => rfl
    | some r =>
      simp only [Option.bind_some, ih]
      cases evalPieces H errorString r.2 before with
      | none => rfl
      | some q => simp [Function.comp_def]

/-- It does not matter how the objects are laid out in lines. -/
theorem onLines_objects {depth : ℕ} (hdepth : depth < 2 ^ 32) (v : McpEval α)
    {messages : List (List Bytes)} {ls : List Bytes} (h : List.Forall₂ Consecutive messages ls)
    (hobjects : ∀ m ∈ messages.flatten, ObjectText depth m) :
    onLines H errorString v ls = evalPieces H errorString v messages.flatten := by
  induction h generalizing v with
  | nil => rfl
  | @cons ms l messages ls hline hrest ih =>
    rw [List.flatten_cons, List.forall_mem_append] at hobjects
    rw [onLines, onLinePieces_objects hdepth hline hobjects.1, List.flatten_cons, evalPieces_append]
    simp only [ih _ hobjects.2]

/-- A line of objects does not start like the greeting of the D-Bus daemon. -/
theorem consecutive_head {depth : ℕ} {objects : List Bytes} {s : Bytes} (h : Consecutive objects s)
    (hobjects : ∀ o ∈ objects, ObjectText depth o) : s.head? ≠ some 0x1 := by
  have hspace : ∀ blanks : Bytes, (∀ c ∈ blanks, isSpace c) →
      ∀ c, blanks.head? = some c → c ≠ 0x1 := by
    rintro blanks h c hc rfl
    exact absurd (h _ (List.mem_of_mem_head? hc)) (by decide)
  cases h with
  | nil blanks h => exact fun hc => hspace s h _ hc rfl
  | @cons piece rest pieces blanks h hpiece hrest =>
    have hhead := head_of_objectText (hobjects piece List.mem_cons_self)
    intro hc
    cases blanks with
    | nil =>
      rw [List.nil_append, List.head?_append, hhead, Option.some_or] at hc
      exact absurd hc (by decide)
    | cons b blanks => exact hspace _ h _ hc rfl

/-- A line starts as before once its carriage return is gone. -/
theorem head_of_stripReturn {s : Bytes} (h : [0x1, 0x21] <+: s) : (stripReturn s).head? = some 0x1 := by
  obtain ⟨t, rfl⟩ := h
  unfold stripReturn
  split
  · rfl
  · rfl

/-- No line of objects is the greeting of the D-Bus daemon. -/
theorem noDBus_objects {depth : ℕ} {messages : List (List Bytes)} {s : Bytes}
    (h : List.Forall₂ Consecutive messages (lines s))
    (hobjects : ∀ m ∈ messages.flatten, ObjectText depth m) : NoDBus s := by
  have hheads : ∀ l ∈ lines s, l.head? ≠ some 0x1 := by
    generalize lines s = ls at h
    induction h with
    | nil => exact nofun
    | @cons ms l messages ls hline hrest ih =>
      rw [List.flatten_cons, List.forall_mem_append] at hobjects
      exact List.forall_mem_cons.mpr ⟨consecutive_head hline hobjects.1, ih hobjects.2⟩
  intro l hl hbus
  have hmem : stripReturn l ∈ lines s := List.mem_append_left _ (List.mem_map_of_mem hl)
  exact hheads _ hmem (head_of_stripReturn hbus)

/-- The text of replies is cut at the newlines into the replies. -/
theorem splitOn_lines (hwrite : ∀ r, newline ∉ (H.json.write r).text) (replies : List Json) :
    ((replies.map (line H)).flatten).splitOn newline =
      replies.map (fun r => (H.json.write r).text) ++ [[]] := by
  have hlines : (replies.map (line H)).flatten =
      (replies.map fun r => (H.json.write r).text).flatMap (· ++ [newline]) := by
    rw [List.flatMap_map]
    rfl
  rw [hlines]
  exact splitOn_flatMap_lines (List.forall_mem_map.mpr fun r _ => hwrite r)

/-- A JSON library that writes a newline as an escape. -/
def escapingJson (table : List (Bytes × Json)) : JsonCpp :=
  { JsonCpp.ofTable table with
    write := fun r =>
      ⟨((JsonCpp.ofTable table).write r).text.flatMap fun c => if c = newline then ascii "\\n" else [c], by
        obtain ⟨_ | ⟨c, s⟩, h⟩ := (JsonCpp.ofTable table).write r
        · exact absurd rfl h
        · rw [List.flatMap_cons]
          split <;> simp [ascii]⟩ }

/-- A request without a method. -/
def nameless : Bytes := ascii "\x7b\"id\":1,\"jsonrpc\":\"2.0\"\x7d"

def namelessMembers : List (Bytes × Json) :=
  [(ascii "id", .number (ascii "1")), (ascii "jsonrpc", text "2.0")]

/-- A host without plugins. -/
def portHost : McpHost Unit where
  json := escapingJson [(nameless, .object namelessMembers), (secondObject, .object [])]
  plugins := []
  toolToPlugin _ := none
  installPrefix := []
  readFile _ _ := none

/-- Three messages on two lines, the second of them not terminated and cut in two. -/
def portStream : List Chunk :=
  [⟨false, nameless ++ secondObject ++ ascii "\x0d\n\x7b\"id", by decide⟩,
    ⟨true, nameless.drop 4, by decide⟩]

/-- Nothing wild comes out of no plugins. -/
theorem portHost_tame (w : Unit) (m : Bytes) : ¬ WildMessage portHost w m := by
  rintro ⟨method, params, id, -, hw⟩
  unfold Wild toolOutcome at hw
  split at hw
  · cases hw
  · split at hw <;> cases hw
  · exact hw

theorem inside_word {depth : ℕ} {s t : Bytes} (h : ∀ c ∈ s, c ≠ 34 ∧ c ≠ 92) (ht : Inside depth t) :
    Inside depth (34 :: (s ++ [34]) ++ t) := by
  have hword := Inside.literal (s.pmap LiteralPart.byte h) ht
  have hbytes : (((s.pmap LiteralPart.byte h).map LiteralPart.bytes).flatten) = s := by
    clear ht hword
    induction s with
    | nil => rfl
    | cons c s ih =>
      obtain ⟨hc, hs⟩ := List.forall_mem_cons.mp h
      exact congrArg (c :: ·) (ih hs)
  rw [literal, hbytes] at hword
  exact hword

end McpPort

end CogServer
