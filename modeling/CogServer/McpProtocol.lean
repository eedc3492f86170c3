import CogServer.Json

/-! What `McpEval::eval_expr` answers to a message, with its plugins. -/
namespace CogServer

/-- A plugin: the descriptions of its tools, and what a tool does with its arguments. -/
structure McpPlugin (α : Type*) where
  getToolDescriptions : α → Except Thrown Bytes
  invokeTool : Bytes → Bytes → α → Except Thrown Bytes × α

/-- What an `McpEval` works with. `readFile` is `none` for a file that cannot be opened. -/
structure McpHost (α : Type*) where
  json : JsonCpp
  plugins : List (McpPlugin α)
  toolToPlugin : Bytes → Option (McpPlugin α)
  installPrefix : Bytes
  readFile : α → Bytes → Option Bytes

/-- What `eval_expr` leaves behind: a `_result` without `_done`, an empty `_result`, or
a reply. -/
inductive McpAnswer
  | held (r : Json) | empty | reply (r : Json)

/-- The methods that `eval_expr` knows. -/
inductive McpMethod
  | init | initialized | cancelled | ping | toolsList | resourcesList | resourcesRead | toolsCall
  | unknown
  deriving DecidableEq, Repr

def McpMethod.ofName (method : Bytes) : McpMethod :=
  if method = ascii "initialize" then .init
  else if method = ascii "notifications/initialized" ∨ method = ascii "initialized" then .initialized
  else if method = ascii "notifications/cancelled" then .cancelled
  else if method = ascii "ping" then .ping
  else if method = ascii "tools/list" then .toolsList
  else if method = ascii "resources/list" then .resourcesList
  else if method = ascii "resources/read" then .resourcesRead
  else if method = ascii "tools/call" then .toolsCall
  else .unknown

/-- A resource that `resources/list` lists. -/
structure McpResource where
  uri : String
  name : String
  description : String
  file : String

namespace Mcp

def text (s : String) : Json := .string (ascii s)

def rpcResult (id result : Json) : Json :=
  .object [(ascii "id", id), (ascii "jsonrpc", text "2.0"), (ascii "result", result)]

def rpcError (id : Json) (code : String) (message : Bytes) : Json :=
  .object [(ascii "error", .object [(ascii "code", .number (ascii code)),
    (ascii "message", .string message)]), (ascii "id", id), (ascii "jsonrpc", text "2.0")]

/-- The answer to a notification has no id. -/
def rpcNotified : Json := .object [(ascii "jsonrpc", text "2.0"), (ascii "result", .object [])]

def initResult : Json :=
  .object [(ascii "capabilities", .object [
      (ascii "resources", .object [(ascii "listChanged", .bool false), (ascii "subscribe", .bool false)]),
      (ascii "tools", .object [(ascii "listChanged", .bool false)])]),
    (ascii "protocolVersion", text "2025-06-18"),
    (ascii "serverInfo", .object [
      (ascii "instructions", text ("The CogServer MCP provides access to a live, running instance of the " ++
        "AtomSpace. It allows the MCP client to view and manipulate the contents " ++
        "of the AtomSpace. This includes creating and deleting Atoms, changing " ++
        "the Values attached to them, running the executable Atoms, and sending " ++
        "messages to those Atoms that implement an Object interface.")),
      (ascii "name", text "CogServer MCP"), (ascii "version", text "0.2.1")])]

def resources : List McpResource :=
  [⟨"atomspace://docs/introduction", "AtomSpace Introduction",
      "Overview of the AtomSpace, Atoms, and basic concepts", "AtomSpace-Overview.md"⟩,
    ⟨"atomspace://docs/atomspace-guide", "AtomSpace Detailed Guide",
      "Comprehensive guide to Atomese, the AtomSpace, and the CogServer", "AtomSpace-Details.md"⟩,
    ⟨"atomspace://docs/cogserver-mcp", "CogServer and MCP Access",
      "How to access the CogServer, MCP tools, port numbers, and documentation locations",
      "CogServer-Resource.md"⟩,
    ⟨"atomspace://docs/atom-types", "Atom Types Reference",
      "Comprehensive reference for 170+ Atom types organized by functional category",
      "AtomTypes-Resource.md"⟩,
    ⟨"atomspace://docs/create-atom", "Creating Atoms Guide",
      "Guide for creating Nodes and Links in the AtomSpace", "CreateAtom-Resource.md"⟩,
    ⟨"atomspace://docs/designing-structures", "Designing Structures Guide",
      "Guide for designing data structures in Atomese: global uniqueness, avoiding IDs, Atomese vs programming languages",
      "DesigningStructures-Resource.md"⟩,
    ⟨"atomspace://docs/query-atom", "Querying the AtomSpace",
      "Guide for querying and exploring the AtomSpace effectively", "QueryAtom-Resource.md"⟩,
    ⟨"atomspace://docs/working-with-values", "Working with Values",
      "Guide for working with Values and key-value pairs", "WorkingWithValues-Resource.md"⟩,
    ⟨"atomspace://docs/pattern-matching", "Pattern Matching Guide",
      "Guide for using MeetLink and QueryLink to search the AtomSpace with patterns",
      "PatternMatching-Resource.md"⟩,
    ⟨"atomspace://docs/advanced-pattern-matching", "Advanced Pattern Matching",
      "Guide for using AbsentLink, ChoiceLink, AlwaysLink, and GroupLink in sophisticated queries",
      "AdvancedPatternMatching-Resource.md"⟩,
    ⟨"atomspace://docs/streams", "Working with Streams",
      "Comprehensive guide for creating and processing data streams: FormulaStream, FutureStream, FlatStream, FilterLink, DrainLink",
      "Streams-Resource.md"⟩,
    ⟨"atomspace://docs/using-storage", "Using StorageNodes",
      "Guide for using StorageNodes to persist Atoms to databases and remote systems",
      "UsingStorage.md"⟩]

def McpResource.listed (r : McpResource) : Json :=
  .object [(ascii "description", text r.description), (ascii "mimeType", text "text/markdown"),
    (ascii "name", text r.name), (ascii "uri", text r.uri)]

/-- What `tools/call` makes of an exception of the tool. -/
def toolFailure (what : Bytes) : Json :=
  .object [(ascii "content", .array [.object [(ascii "text", .string what), (ascii "type", text "text")]]),
    (ascii "isError", .bool true)]

variable {α : Type*}

/-- `publish_resource` -/
def publishResource (H : McpHost α) (w : α) (uri file : Bytes) (id : Json) : Json :=
  let path := H.installPrefix ++ ascii "/share/cogserver/mcp/" ++ file
  match H.readFile w path with
  | none => rpcError id "-32602" (ascii "Failed to read documentation file: " ++ path)
  | some contents =>
    rpcResult id (.object [(ascii "contents", .array [.object [(ascii "mimeType", text "text/markdown"),
      (ascii "text", .string contents), (ascii "uri", .string uri)]])])

/-- The tools of one plugin. A description that is no JSON is skipped. -/
def pluginTools (H : McpHost α) (w : α) (plugin : McpPlugin α) : Except Thrown (List Json) :=
  match plugin.getToolDescriptions w with
  | .error t => .error t
  | .ok tools =>
    match H.json.parse tools with
    | .value v => H.json.elements v
    | .errors _ => .ok []
    | .threw what => .error (.std what)

/-- `tools/list` -/
def toolsList (H : McpHost α) (w : α) (id : Json) : Except Thrown Json := do
  let tools ← H.plugins.mapM (pluginTools H w)
  return rpcResult id (.object [(ascii "tools", .array tools.flatten)])

/-- `resources/read` -/
def resourcesRead (H : McpHost α) (w : α) (params id : Json) : Except Thrown Json := do
  let uri ← H.json.stringOr params (ascii "uri")
  match resources.find? fun r => ascii r.uri = uri with
  | some r => return publishResource H w uri (ascii r.file) id
  | none => return rpcError id "-32602" (ascii "Resource not found: " ++ uri)

/-- What `tools/call` reads off its parameters. -/
def toolCall (H : McpHost α) (params : Json) : Except Thrown (Bytes × Json) := do
  let name ← H.json.stringOr params (ascii "name")
  let arguments ← H.json.getOr params (ascii "arguments") (.object [])
  return (name, arguments)

/-- The response to the result of a tool. -/
def toolResult (H : McpHost α) (id : Json) : Except Thrown Bytes → Except Thrown Json
  | .error (.std what) => .ok (rpcResult id (toolFailure what))
  | .error .other => .error .other
  | .ok result =>
    match H.json.parse result with
    | .value v => .ok (rpcResult id v)
    | .errors _ => .ok (rpcError id "-32700" (ascii "Failed to parse tool result"))
    | .threw what => .error (.std what)

/-- `tools/call` -/
def toolsCall (H : McpHost α) (w : α) (params id : Json) : Except Thrown Json × α :=
  match toolCall H params with
  | .error t => (.error t, w)
  | .ok (name, arguments) =>
    match H.toolToPlugin name with
    | none => (.ok (rpcError id "-32601" (ascii "Tool not found: " ++ name)), w)
    | some plugin =>
      let (outcome, w') := plugin.invokeTool name (H.json.write arguments).text w
      (toolResult H id outcome, w')

/-- The chain of methods. `none` is the answer to a cancellation. -/
def dispatchMethod (H : McpHost α) (w : α) (method : Bytes) (params id : Json) :
    Except Thrown (Option Json) × α :=
  match McpMethod.ofName method with
  | .init => (.ok (some (rpcResult id initResult)), w)
  | .initialized => (.ok (some rpcNotified), w)
  | .cancelled => (.ok none, w)
  | .ping => (.ok (some (rpcResult id (.object []))), w)
  | .toolsList => ((toolsList H w id).map some, w)
  | .resourcesList =>
    (.ok (some (rpcResult id (.object [(ascii "resources", .array (resources.map McpResource.listed))]))), w)
  | .resourcesRead => ((resourcesRead H w params id).map some, w)
  | .toolsCall =>
    let (outcome, w') := toolsCall H w params id
    (outcome.map some, w')
  | .unknown => (.ok (some (rpcError id "-32601" (ascii "Method not found: " ++ method))), w)

/-- The check of the protocol version. -/
def versionOk (H : McpHost α) (request : Json) : Except Thrown Bool := do
  if ← H.json.isMember request (ascii "jsonrpc") then
    return (← H.json.asString (← H.json.get request (ascii "jsonrpc"))) = ascii "2.0"
  else return false

/-- The method, the parameters and the id of a request. -/
def requestParts (H : McpHost α) (request : Json) : Except Thrown (Bytes × Json × Json) := do
  let method ← H.json.stringOr request (ascii "method")
  let params ← H.json.getOr request (ascii "params") (.object [])
  let id ← H.json.getOr request (ascii "id") .null
  return (method, params, id)

/-- The answer of the outer catch clause, which knows no id. -/
def caught (what : Bytes) : Json := rpcError .null "-32700" (ascii "Parse error: " ++ what)

/-- The end of the chain of methods: a response, or none to a cancellation. -/
def replyOrEmpty : Option Json → McpAnswer
  | some r => .reply r
  | none => .empty

/-- What becomes of an exception: only a `std::exception` is caught. -/
def catchAll : Except Thrown McpAnswer → Option McpAnswer
  | .ok a => some a
  | .error (.std what) => some (.reply (caught what))
  | .error .other => none

/-- The body of the outer try block, once the message is parsed. -/
def evalRequest (H : McpHost α) (w : α) (request : Json) : Except Thrown McpAnswer × α :=
  match versionOk H request with
  | .error t => (.error t, w)
  | .ok false => (.ok (.held (rpcError .null "-32600" (ascii "Invalid Request - missing jsonrpc 2.0"))), w)
  | .ok true =>
    match requestParts H request with
    | .error t => (.error t, w)
    | .ok (method, params, id) =>
      let (outcome, w') := dispatchMethod H w method params id
      (outcome.map replyOrEmpty, w')

/-- `eval_expr` of a message that is not empty. `none` is an exception that it lets out. -/
def evalMessage (H : McpHost α) (w : α) (expr : Bytes) : Option McpAnswer × α :=
  match H.json.parse expr with
  | .errors errors => (some (.held (rpcError .null "-32700" (ascii "Parse error: " ++ errors))), w)
  | .threw what => (some (.reply (caught what)), w)
  | .value request =>
    let (outcome, w') := evalRequest H w request
    (catchAll outcome, w')

/-- The answer as the evaluator keeps it. After an exception the state does not matter. -/
def respond (H : McpHost α) (w : α) (expr : Bytes) : McpResponse × α :=
  let (answer, w') := evalMessage H w expr
  (match answer with
    | some (.held r) => .held (H.json.write r)
    | some (.reply r) => .reply (H.json.write r)
    | some .empty | none => .empty, w')

/-- `eval_expr` lets an exception out. -/
def letsOut (H : McpHost α) (w : α) (expr : Bytes) : Bool :=
  expr ≠ [] && expr ≠ [newline] && (evalMessage H w expr).1.isNone

end Mcp

/-- `McpEval` with its plugins, behind a shell or a socket. -/
def mcpProtocol {α : Type*} (H : McpHost α) (errorString : Bytes) : GenericEval (McpEval α) :=
  { mcpEval (Mcp.respond H) errorString with throws := fun expr v => Mcp.letsOut H v.world expr }

end CogServer
