import CogServer.McpProtocol

/-! Which messages `McpEval` answers, and which answers carry the id of their message. -/
namespace CogServer

/-- A member of a value. -/
def Json.member? (v : Json) (key : String) : Option Json :=
  v.members?.bind fun ms => ms.lookup (ascii key)

/-- `v` may be asked for a text under this key. -/
def Json.Readable (v : Json) (key : String) : Prop :=
  v.members? ≠ none ∧ ∀ x, v.member? key = some x → x.string? ≠ none

/-- Nothing says that `v` is no JSON-RPC 2.0: it has the version, or one that cannot be read. -/
def Json.versioned (v : Json) : Bool :=
  match v.members? with
  | none => true
  | some ms =>
    match ms.lookup (ascii "jsonrpc") with
    | none => false
    | some j => j.string?.all (· = ascii "2.0")

/-- A JSON-RPC 2.0 response has exactly one of `result` and `error`. -/
structure IsResponse (r : Json) : Prop where
  version : r.member? "jsonrpc" = some (Mcp.text "2.0")
  one : (r.member? "result").isSome = !(r.member? "error").isSome

namespace JsonCpp

variable {J : JsonCpp} {v : Json}

theorem stringOr_cases (J : JsonCpp) (v : Json) (key : String) :
    (v.Readable key ∧ ∃ s, J.stringOr v (ascii key) = .ok s) ∨
      ¬ v.Readable key ∧ ∃ what, J.stringOr v (ascii key) = .error (.std what) := by
  cases hm : v.members? with
  | none => exact .inr ⟨fun h => h.1 hm, _, stringOr_none hm⟩
  | some ms =>
    have hmember : v.member? key = ms.lookup (ascii key) := by rw [Json.member?, hm]; rfl
    cases hk : ms.lookup (ascii key) with
    | none => exact .inl ⟨⟨by simp [hm], by simp [hmember, hk]⟩, [], by rw [stringOr_members hm, hk]; rfl⟩
    | some x =>
      rw [stringOr_members hm, hk]
      cases hs : x.string? with
      | none =>
        refine .inr ⟨fun h => h.2 x (hmember.trans hk) hs, J.notString, ?_⟩
        simp [asString_none hs]
      | some s =>
        refine .inl ⟨⟨by simp [hm], fun y hy => ?_⟩, s, by simp [asString_ok hs]⟩
        rw [hmember, hk] at hy
        exact Option.some.inj hy ▸ (by simp [hs])

end JsonCpp

namespace Mcp

variable {α : Type*} (H : McpHost α) (w : α)

theorem isResponse_result (id r : Json) : IsResponse (rpcResult id r) := ⟨rfl, rfl⟩

theorem isResponse_error (id : Json) (code : String) (message : Bytes) :
    IsResponse (rpcError id code message) := ⟨rfl, rfl⟩

theorem isResponse_notified : IsResponse rpcNotified := ⟨rfl, rfl⟩

/-- A response to the message with this id. -/
def Answers (id r : Json) : Prop := IsResponse r ∧ r.member? "id" = some id

theorem answers_result (id r : Json) : Answers id (rpcResult id r) := ⟨isResponse_result id r, rfl⟩

theorem answers_error (id : Json) (code : String) (message : Bytes) :
    Answers id (rpcError id code message) := ⟨isResponse_error id code message, rfl⟩

theorem answers_published (uri file : Bytes) (id : Json) :
    Answers id (publishResource H w uri file id) := by
  unfold publishResource
  dsimp only
  split
  · exact answers_error ..
  · exact answers_result ..

/-- The plugins that `tools/list` asks describe their tools. -/
def Described : Prop := ∃ tools, H.plugins.mapM (pluginTools H w) = .ok tools

theorem toolsList_cases (id : Json) :
    (Described H w ∧ ∃ r, toolsList H w id = .ok r ∧ Answers id r) ∨ ∃ t,
    H.plugins.mapM (pluginTools H w) = .error t ∧ toolsList H w id = .error t := by
  unfold toolsList Described
  cases h : H.plugins.mapM (pluginTools H w) with
  | error t => exact .inr ⟨t, rfl, rfl⟩
  | ok tools => exact .inl ⟨⟨tools, rfl⟩, _, rfl, answers_result ..⟩

theorem resourcesRead_cases (params id : Json) :
    (params.Readable "uri" ∧ ∃ r, resourcesRead H w params id = .ok r ∧ Answers id r) ∨
      ¬ params.Readable "uri" ∧ ∃ what, resourcesRead H w params id = .error (.std what) := by
  rcases H.json.stringOr_cases params "uri" with ⟨hr, uri, hs⟩ | ⟨hr, what, hs⟩
  · refine .inl ⟨hr, ?_⟩
    simp only [resourcesRead, hs, bind, Except.bind]
    split
    · exact ⟨_, rfl, answers_published ..⟩
    · exact ⟨_, rfl, answers_error ..⟩
  · exact .inr ⟨hr, what, by simp only [resourcesRead, hs, bind, Except.bind]⟩

theorem toolCall_cases (params : Json) :
    (params.Readable "name" ∧ ∃ call, toolCall H params = .ok call) ∨
      ¬ params.Readable "name" ∧ ∃ what, toolCall H params = .error (.std what) := by
  rcases H.json.stringOr_cases params "name" with ⟨hr, name, hs⟩ | ⟨hr, what, hs⟩
  · obtain ⟨ms, hm⟩ := Option.ne_none_iff_exists'.mp hr.1
    refine .inl ⟨hr, (name, (ms.lookup (ascii "arguments")).getD (.object [])), ?_⟩
    simp only [toolCall, hs, JsonCpp.getOr_members hm, bind, Except.bind]
    rfl
  · exact .inr ⟨hr, what, by simp only [toolCall, hs, bind, Except.bind]⟩

/-- The outcome of the tool that a `tools/call` names, if there is one. -/
def toolOutcome (params : Json) : Option (Except Thrown Bytes) :=
  match toolCall H params with
  | .error _ => none
  | .ok (name, arguments) =>
    (H.toolToPlugin name).map fun plugin => (plugin.invokeTool name (H.json.write arguments).text w).1

/-- The tool that a `tools/call` names behaves: what it throws is a `std::exception`, and
the parser does not throw on what it returns. -/
def Behaves (params : Json) : Prop :=
  ∀ o, toolOutcome H w params = some o → o ≠ .error .other ∧
    ∀ result, o = .ok result → ∀ what, H.json.parse result ≠ .threw what

/-- A `tools/call` is answered, or throws what one of its parts threw. -/
theorem toolsCall_cases (params id : Json) :
    (params.Readable "name" ∧ Behaves H w params ∧
      ∃ r, (toolsCall H w params id).1 = .ok r ∧ Answers id r) ∨
    (¬ (params.Readable "name" ∧ Behaves H w params) ∧
      ((toolOutcome H w params ≠ some (.error .other) ∧
          ∃ what, (toolsCall H w params id).1 = .error (.std what)) ∨
        toolOutcome H w params = some (.error .other) ∧ (toolsCall H w params id).1 = .error .other)) := by
  rcases toolCall_cases H params with ⟨hr, ⟨name, arguments⟩, hc⟩ | ⟨hr, what, hc⟩
  · unfold toolsCall Behaves toolOutcome
    simp only [hc]
    cases hp : H.toolToPlugin name with
    | none => exact .inl ⟨hr, by simp, _, rfl, answers_error ..⟩
    | some plugin =>
      simp only [Option.map_some, Option.some.injEq, forall_eq']
      cases ho : (plugin.invokeTool name (H.json.write arguments).text w).1 with
      | error t =>
        cases t with
        | std what => exact .inl ⟨hr, by simp, _, rfl, answers_result ..⟩
        | other => exact .inr ⟨by simp, .inr ⟨rfl, rfl⟩⟩
      | ok result =>
        cases hparse : H.json.parse result with
        | value v =>
          exact .inl ⟨hr, by simp [hparse], rpcResult id v, by simp only [toolResult, hparse],
            answers_result ..⟩
        | errors e =>
          exact .inl ⟨hr, by simp [hparse], rpcError id "-32700" (ascii "Failed to parse tool result"),
            by simp only [toolResult, hparse], answers_error ..⟩
        | threw what =>
          refine .inr ⟨?_, .inl ⟨by simp, what, by simp only [toolResult, hparse]⟩⟩
          rintro ⟨-, -, h⟩
          exact h result rfl what hparse
  · refine .inr ⟨fun h => hr h.1, .inl ⟨?_, what, ?_⟩⟩
    · simp [toolOutcome, hc]
    · simp only [toolsCall, hc]

/-- A plugin that the request makes run throws something that is no `std::exception`. -/
def Wild (method : Bytes) (params : Json) : Prop :=
  match McpMethod.ofName method with
  | .toolsList => H.plugins.mapM (pluginTools H w) = .error .other
  | .toolsCall => toolOutcome H w params = some (.error .other)
  | _ => False

/-- Nothing throws in the course of the request: its parameters can be read, and the
plugins that it makes run behave. -/
def Sound (method : Bytes) (params : Json) : Prop :=
  match McpMethod.ofName method with
  | .toolsList => Described H w
  | .resourcesRead => params.Readable "uri"
  | .toolsCall => params.Readable "name" ∧ Behaves H w params
  | _ => True

/-- The four ends of the chain of methods. -/
inductive Dispatched (method : Bytes) (params id : Json) : Except Thrown (Option Json) → Prop
  | answered {r : Json} (hs : Sound H w method params) (hw : ¬ Wild H w method params)
      (hr : IsResponse r) (hid : McpMethod.ofName method ≠ .initialized → Answers id r) :
      Dispatched method params id (.ok (some r))
  | cancelled (hm : McpMethod.ofName method = .cancelled) : Dispatched method params id (.ok none)
  | threw {what : Bytes} (hs : ¬ Sound H w method params) (hw : ¬ Wild H w method params) :
      Dispatched method params id (.error (.std what))
  | wild (hs : ¬ Sound H w method params) (hw : Wild H w method params) :
      Dispatched method params id (.error .other)

theorem dispatched (method : Bytes) (params id : Json) :
    Dispatched H w method params id (dispatchMethod H w method params id).1 := by
  unfold dispatchMethod
  cases hm : McpMethod.ofName method with
  | init | ping | resourcesList =>
    exact .answered (by simp [Sound, hm]) (by simp [Wild, hm]) (isResponse_result ..)
      fun _ => answers_result ..
  | unknown =>
    exact .answered (by simp [Sound, hm]) (by simp [Wild, hm]) (isResponse_error ..)
      fun _ => answers_error ..
  | initialized =>
    exact .answered (by simp [Sound, hm]) (by simp [Wild, hm]) isResponse_notified fun h =>
      absurd hm h
  | cancelled => exact .cancelled hm
  | toolsList =>
    rcases toolsList_cases H w id with ⟨hd, r, hr, ha⟩ | ⟨t, ht, hr⟩
    · have ⟨tools, htools⟩ := hd
      simp only [hr, Except.map]
      exact .answered (by simpa [Sound, hm] using hd) (by simp [Wild, hm, htools]) ha.1 fun _ => ha
    · simp only [hr, Except.map]
      have hs : ¬ Sound H w method params := by simp [Sound, hm, Described, ht]
      cases t with
      | std what => exact .threw hs (by simp [Wild, hm, ht])
      | other => exact .wild hs (by simp [Wild, hm, ht])
  | resourcesRead =>
    rcases resourcesRead_cases H w params id with ⟨hu, r, hr, ha⟩ | ⟨hu, what, hr⟩
    · simp only [hr, Except.map]
      exact .answered (by simpa [Sound, hm] using hu) (by simp [Wild, hm]) ha.1 fun _ => ha
    · simp only [hr, Except.map]
      exact .threw (by simpa [Sound, hm] using hu) (by simp [Wild, hm])
  | toolsCall =>
    rcases toolsCall_cases H w params id with ⟨hn, hb, r, hr, ha⟩ | ⟨hs, ⟨hne, what, hr⟩ | ⟨ho, hr⟩⟩
    · simp only [hr, Except.map]
      refine .answered (by simpa [Sound, hm] using ⟨hn, hb⟩) ?_ ha.1 fun _ => ha
      simp only [Wild, hm]
      exact fun h => (hb _ h).1 rfl
    · simp only [hr, Except.map]
      exact .threw (by simpa only [Sound, hm] using hs) (by simpa only [Wild, hm] using hne)
    · simp only [hr, Except.map]
      exact .wild (by simpa only [Sound, hm] using hs) (by simpa only [Wild, hm] using ho)

theorem versionOk_member {v j : Json} {ms : List (Bytes × Json)} (hm : v.members? = some ms)
    (hk : ms.lookup (ascii "jsonrpc") = some j) :
    versionOk H v = (H.json.asString j).map fun t => decide (t = ascii "2.0") := by
  simp only [versionOk, JsonCpp.isMember, JsonCpp.get, hm, hk, Option.isSome_some, Option.getD_some, pure,
    Except.pure, bind, Except.bind, ↓reduceIte]
  cases H.json.asString j <;> rfl

theorem versionOk_cases (v : Json) :
    (v.versioned = false ∧ versionOk H v = .ok false) ∨
      v.versioned = true ∧ ((∃ what, versionOk H v = .error (.std what)) ∨
        versionOk H v = .ok true ∧ v.members? ≠ none) := by
  cases hm : v.members? with
  | none =>
    refine .inr ⟨by simp [Json.versioned, hm], .inl ⟨H.json.notObject, ?_⟩⟩
    simp [versionOk, JsonCpp.isMember, hm, throw, throwThe, MonadExceptOf.throw, bind, Except.bind]
  | some ms =>
    cases hk : ms.lookup (ascii "jsonrpc") with
    | none =>
      refine .inl ⟨by simp [Json.versioned, hm, hk], ?_⟩
      simp [versionOk, JsonCpp.isMember, hm, hk, pure, Except.pure, bind, Except.bind]
    | some j =>
      have hv : v.versioned = j.string?.all (· = ascii "2.0") := by simp [Json.versioned, hm, hk]
      rw [hv, versionOk_member H hm hk]
      cases hs : j.string? with
      | none => exact .inr ⟨rfl, .inl ⟨_, by rw [JsonCpp.asString_none hs]; rfl⟩⟩
      | some t =>
        rw [JsonCpp.asString_ok hs]
        by_cases ht : t = ascii "2.0"
        · exact .inr ⟨by simp [ht], .inr ⟨by simp [ht, Except.map], by simp⟩⟩
        · exact .inl ⟨by simp [ht], by simp [ht, Except.map]⟩

/-- The parts of an object are read unless its method is no text. -/
theorem requestParts_cases {v : Json} {ms : List (Bytes × Json)} (hm : v.members? = some ms) :
    (v.Readable "method" ∧ ∃ method, requestParts H v = .ok (method,
        (ms.lookup (ascii "params")).getD (.object []), (ms.lookup (ascii "id")).getD .null)) ∨
      ¬ v.Readable "method" ∧ ∃ what, requestParts H v = .error (.std what) := by
  rcases H.json.stringOr_cases v "method" with ⟨hr, method, hs⟩ | ⟨hr, what, hs⟩
  · refine .inl ⟨hr, method, ?_⟩
    simp only [requestParts, hs, JsonCpp.getOr_members hm, bind, Except.bind]
    rfl
  · exact .inr ⟨hr, what, by simp only [requestParts, hs, bind, Except.bind]⟩

/-- A message that is looked at: it can be parsed, and nothing says that it is no
JSON-RPC 2.0. -/
def heard (expr : Bytes) : Bool :=
  match H.json.parse expr with
  | .value v => v.versioned
  | .errors _ => false
  | .threw _ => true

/-- The method, the parameters and the id of a message from which they can be read. -/
def request? (expr : Bytes) : Option (Bytes × Json × Json) :=
  match H.json.parse expr with
  | .value v => if versionOk H v = .ok true then (requestParts H v).toOption else none
  | _ => none

/-- A well-formed `notifications/cancelled`. -/
def Cancels (expr : Bytes) : Prop :=
  ∃ method params id, request? H expr = some (method, params, id) ∧ McpMethod.ofName method = .cancelled

/-- A plugin that the message makes run throws something that is no `std::exception`. -/
def WildMessage (expr : Bytes) : Prop :=
  ∃ method params id, request? H expr = some (method, params, id) ∧ Wild H w method params

/-- What becomes of a message. -/
theorem evalMessage_cases (expr : Bytes) :
    (heard H expr = false ∧ request? H expr = none ∧ ∃ r, (evalMessage H w expr).1 = some (.held r)) ∨
    (heard H expr = true ∧ request? H expr = none ∧
      ∃ what, (evalMessage H w expr).1 = some (.reply (caught what))) ∨
    heard H expr = true ∧ ∃ method params id, request? H expr = some (method, params, id) ∧
      (evalMessage H w expr).1 = catchAll ((dispatchMethod H w method params id).1.map replyOrEmpty) := by
  unfold evalMessage heard request?
  cases hp : H.json.parse expr with
  | errors e => exact .inl ⟨rfl, rfl, _, rfl⟩
  | threw what => exact .inr (.inl ⟨rfl, rfl, what, rfl⟩)
  | value v =>
    rcases versionOk_cases H v with ⟨hv, hok⟩ | ⟨hv, ⟨what, hok⟩ | ⟨hok, hm⟩⟩
    · exact .inl ⟨hv, by simp [hok], _, by simp only [evalRequest, hok]; rfl⟩
    · exact .inr (.inl ⟨hv, by simp [hok], what, by simp only [evalRequest, hok]; rfl⟩)
    · obtain ⟨ms, hms⟩ := Option.ne_none_iff_exists'.mp hm
      rcases requestParts_cases H hms with ⟨-, method, hr⟩ | ⟨-, what, hr⟩
      · generalize (ms.lookup (ascii "params")).getD (.object []) = params at hr
        generalize (ms.lookup (ascii "id")).getD .null = id at hr
        refine .inr (.inr ⟨hv, method, params, id, ?_, ?_⟩)
        · simp only [hok, ↓reduceIte, hr]
          rfl
        · simp only [evalRequest, hok, hr]
      · refine .inr (.inl ⟨hv, ?_, what, ?_⟩)
        · simp only [hok, ↓reduceIte, hr]
          rfl
        · simp only [evalRequest, hok, hr, catchAll]

/-- After `eval_expr` of the message, the polls give one response, and then nothing. -/
def AnswersOnce (errorString : Bytes) (v : McpEval α) (expr : Bytes) : Prop :=
  let E := mcpProtocol H errorString
  let u := E.evalExpr expr (E.beginEval v)
  E.throws expr (E.beginEval v) = false ∧
    ∃ r, IsResponse r ∧ u.pollResult.1 = (H.json.write r).text ++ [newline] ∧
      u.pollResult.2.pollResult = ([], u.pollResult.2)

/-- A message that is not empty is answered exactly if its outcome is a reply. -/
theorem answersOnce_iff {errorString : Bytes} {v : McpEval α} {expr : Bytes} (hne : expr ≠ [])
    (hnl : expr ≠ [newline])
    (hresponse : ∀ r, (evalMessage H v.world expr).1 = some (.reply r) → IsResponse r) :
    AnswersOnce H errorString v expr ↔ ∃ r, (evalMessage H v.world expr).1 = some (.reply r) := by
  unfold AnswersOnce mcpProtocol mcpEval letsOut McpEval.evalExpr respond
  simp only [hne, hnl, ↓reduceIte]
  cases ha : (evalMessage H v.world expr).1 with
  | none => simp [hne, hnl]
  | some a =>
    cases a with
    | held r => simp [McpEval.pollResult]
    | empty => simp [McpEval.pollResult]
    | reply r =>
      simp only [McpEval.pollResult]
      exact ⟨fun _ => ⟨r, rfl⟩, fun _ => ⟨by simp, r, hresponse r ha, by simp⟩⟩

theorem response_of_reply {expr : Bytes} {r : Json}
    (h : (evalMessage H w expr).1 = some (.reply r)) : IsResponse r := by
  rcases evalMessage_cases H w expr with ⟨-, -, r', hr⟩ | ⟨-, -, what, hr⟩ |
    ⟨-, method, params, id, -, hr⟩
  · simp [hr] at h
  · rw [hr] at h
    cases h
    exact isResponse_error ..
  · rw [hr] at h
    have hd := dispatched H w method params id
    generalize (dispatchMethod H w method params id).1 = o at hd h
    cases hd with
    | answered hs hw hres hid =>
      cases h
      exact hres
    | cancelled hm => cases h
    | threw hs hw =>
      cases h
      exact isResponse_error ..
    | wild hs hw => cases h

/-- A message other than a cancellation gets a reply exactly if it is heard and no plugin that
it makes run throws anything but a `std::exception`. -/
theorem replies_iff {expr : Bytes} (hc : ¬ Cancels H expr) :
    (∃ r, (evalMessage H w expr).1 = some (.reply r)) ↔ heard H expr = true ∧
    ¬ WildMessage H w expr := by
  rcases evalMessage_cases H w expr with ⟨hh, -, r, hr⟩ | ⟨hh, hq, what, hr⟩ |
    ⟨hh, method, params, id, hq, hr⟩
  · simp [hh, hr]
  · simp [hh, hr, WildMessage, hq]
  · have hwild : WildMessage H w expr ↔ Wild H w method params := by
      simp [WildMessage, hq]
    rw [hr, hwild]
    have hd := dispatched H w method params id
    generalize (dispatchMethod H w method params id).1 = o at hd
    cases hd with
    | answered hs hw hres hid => exact ⟨fun _ => ⟨hh, hw⟩, fun _ => ⟨_, rfl⟩⟩
    | cancelled hm => exact absurd ⟨method, params, id, hq, hm⟩ hc
    | threw hs hw => exact ⟨fun _ => ⟨hh, hw⟩, fun _ => ⟨_, rfl⟩⟩
    | wild hs hw => exact ⟨fun ⟨r, h⟩ => (by cases h), fun h => absurd hw h.2⟩

/-- A message other than a cancellation is answered, and answered once, exactly if it is
heard and no plugin that it makes run throws anything but a `std::exception`. -/
theorem mcp_answers_once (errorString : Bytes) (v : McpEval α) (expr : Bytes) (hne : expr ≠ [])
    (hnl : expr ≠ [newline]) (hc : ¬ Cancels H expr) :
    AnswersOnce H errorString v expr ↔ heard H expr = true ∧ ¬ WildMessage H v.world expr := by
  rw [answersOnce_iff H hne hnl fun r hr => response_of_reply H v.world hr]
  exact replies_iff H v.world hc

/-- The messages of the examples: a ping, and a call of a tool with a list of parameters. -/
def ping : Bytes := ascii "\x7b\"id\":1,\"jsonrpc\":\"2.0\",\"method\":\"ping\"\x7d"

def listCall : Bytes :=
  ascii "\x7b\"id\":1,\"jsonrpc\":\"2.0\",\"method\":\"tools/call\",\"params\":[]\x7d"

def pingMembers : List (Bytes × Json) :=
  [(ascii "id", .number (ascii "1")), (ascii "jsonrpc", text "2.0"), (ascii "method", text "ping")]

def listCallMembers : List (Bytes × Json) :=
  [(ascii "id", .number (ascii "1")), (ascii "jsonrpc", text "2.0"), (ascii "method", text "tools/call"),
    (ascii "params", .array [])]

/-- A host without plugins and files. -/
def bareHost : McpHost Unit where
  json := .ofTable [(ping, .object pingMembers), (listCall, .object listCallMembers)]
  plugins := []
  toolToPlugin _ := none
  installPrefix := ascii "/usr/local"
  readFile _ _ := none

theorem mcp_answers_once_ping : AnswersOnce bareHost [] (McpEval.new ()) ping := by
  have hq : request? bareHost ping = some (ascii "ping", .object [], .number (ascii "1")) := rfl
  refine (mcp_answers_once bareHost [] (McpEval.new ()) ping (by decide) (by decide) ?_).mpr ⟨rfl, ?_⟩
  · rintro ⟨method, params, id, h, hm⟩
    cases hq.symm.trans h
    exact absurd hm (by decide)
  · rintro ⟨method, params, id, h, hw⟩
    cases hq.symm.trans h
    exact hw

/-- A message that is no JSON gets no answer, nor does one without the version. -/
theorem mcp_answers_once_fails :
    ¬ AnswersOnce bareHost [] (McpEval.new ()) (ascii "\x7b") ∧
      (mcpEval (respond bareHost) []).pollResult (McpEval.evalExpr (respond bareHost) (ascii "\x7b")
        (McpEval.new ())) = some ([], McpEval.evalExpr (respond bareHost) (ascii "\x7b") (McpEval.new ())) := by
  refine ⟨?_, rfl⟩
  rintro ⟨-, r, -, h, -⟩
  have h : ([] : Bytes) = (bareHost.json.write r).text ++ [newline] := h
  exact absurd h.symm (by simp)

/-- The message's response carries the id of the message. -/
def Correlated (expr : Bytes) (id : Json) : Prop :=
  ∃ r, (evalMessage H w expr).1 = some (.reply r) ∧ Answers id r

/-- The request is read and carried out without an exception. -/
def SoundRequest (v : Json) : Prop :=
  v.Readable "method" ∧ ∀ method params id, requestParts H v = .ok (method, params, id) →
    Sound H w method params

/-- A request with an id, other than a notification, gets a response with that id exactly
if nothing throws in its course; or, if its id is null, something that is caught. -/
theorem mcp_correlates {expr : Bytes} {v : Json} {ms : List (Bytes × Json)} {id : Json}
    (hp : H.json.parse expr = .value v) (hv : v = .object ms)
    (hversion : ms.lookup (ascii "jsonrpc") = some (text "2.0")) (hid : ms.lookup (ascii "id") = some id)
    (hn : ∀ method, H.json.stringOr v (ascii "method") = .ok method →
      McpMethod.ofName method ≠ .initialized ∧ McpMethod.ofName method ≠ .cancelled) :
    Correlated H w expr id ↔ SoundRequest H w v ∨ id = .null ∧ ¬ WildMessage H w expr := by
  have hm : v.members? = some ms := by rw [hv]; rfl
  have hok : versionOk H v = .ok true := by
    rw [versionOk_member H hm hversion, JsonCpp.asString_ok (s := ascii "2.0") rfl]
    simp [Except.map]
  have hcaught (what : Bytes) : Answers id (caught what) ↔ id = .null := by
    refine ⟨fun h => ?_, fun h => h ▸ answers_error ..⟩
    exact (Option.some.inj h.2).symm
  unfold Correlated
  rcases requestParts_cases H hm with ⟨hread, method, hr⟩ | ⟨hread, what, hr⟩
  · rw [hid, Option.getD_some] at hr
    have hq : request? H expr = some (method, (ms.lookup (ascii "params")).getD (.object []), id) := by
      simp only [request?, hp, hok, ↓reduceIte, hr]
      rfl
    generalize (ms.lookup (ascii "params")).getD (.object []) = params at hr hq
    have hmethod : H.json.stringOr v (ascii "method") = .ok method := by
      rcases H.json.stringOr_cases v "method" with ⟨-, m, hs⟩ | ⟨hn, -⟩
      · simp only [requestParts, hs, JsonCpp.getOr_members hm, bind, Except.bind] at hr
        rw [hs, (Prod.mk.inj (Except.ok.inj hr)).1]
      · exact absurd hread hn
    obtain ⟨hni, hnc⟩ := hn method hmethod
    have hsound : SoundRequest H w v ↔ Sound H w method params := by
      refine ⟨fun h => h.2 _ _ _ hr, fun h => ⟨hread, fun m p i hr' => ?_⟩⟩
      rw [hr] at hr'
      obtain ⟨rfl, rfl, rfl⟩ : _ ∧ _ ∧ _ := by simpa using hr'
      exact h
    have hwild : WildMessage H w expr ↔ Wild H w method params := by simp [WildMessage, hq]
    rw [hsound, hwild]
    have heval : (evalMessage H w expr).1 =
        catchAll ((dispatchMethod H w method params id).1.map replyOrEmpty) := by
      simp only [evalMessage, hp, evalRequest, hok, hr]
    rw [heval]
    have hd := dispatched H w method params id
    generalize (dispatchMethod H w method params id).1 = o at hd
    cases hd with
    | answered hs hw hres ha => exact ⟨fun _ => .inl hs, fun _ => ⟨_, rfl, ha hni⟩⟩
    | cancelled hm => exact absurd hm hnc
    | threw hs hw =>
      refine ⟨fun ⟨r, h, ha⟩ => ?_, fun h => ?_⟩
      · cases h
        exact .inr ⟨(hcaught _).mp ha, hw⟩
      · exact ⟨_, rfl, (hcaught _).mpr (h.resolve_left hs).1⟩
    | wild hs hw =>
      refine ⟨fun ⟨r, h, ha⟩ => (by cases h), fun h => ?_⟩
      exact absurd hw (h.resolve_left hs).2
  · have hq : request? H expr = none := by
      simp only [request?, hp, hok, ↓reduceIte, hr]
      rfl
    have heval : (evalMessage H w expr).1 = some (.reply (caught what)) := by
      simp only [evalMessage, hp, evalRequest, hok, hr, catchAll]
    rw [heval]
    refine ⟨fun ⟨r, h, ha⟩ => ?_, fun h => ?_⟩
    · cases h
      exact .inr ⟨(hcaught what).mp ha, by simp [WildMessage, hq]⟩
    · exact ⟨_, rfl, (hcaught what).mpr (h.resolve_left fun hs => hread hs.1).1⟩

theorem mcp_correlates_ping : Correlated bareHost () ping (.number (ascii "1")) := by
  refine (mcp_correlates bareHost () (v := .object pingMembers) rfl rfl rfl rfl ?_).mpr (.inl ⟨?_, ?_⟩)
  · intro method h
    cases h
    decide
  · exact ⟨nofun, fun x hx => by cases hx; exact nofun⟩
  · intro method params id h
    cases h
    exact trivial

/-- A call of a tool whose parameters are a list is answered without its id. -/
theorem mcp_correlates_fails : ¬ Correlated bareHost () listCall (.number (ascii "1")) ∧
    ∃ what, (evalMessage bareHost () listCall).1 = some (.reply (caught what)) := by
  refine ⟨?_, _, rfl⟩
  rintro ⟨r, hr, -, hid⟩
  cases hr
  cases hid

end Mcp

end CogServer
