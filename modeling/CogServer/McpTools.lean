import CogServer.McpPlugins

/-! The plugins that come with the server, `McpPlugEcho` and `McpPlugAtomSpace`: the tools that they
describe, and what the tools do. -/
namespace CogServer

open Mcp

mutual

/-- A value as the source of a plugin writes it: with a blank behind each comma and colon. -/
def Json.spaced : Json → Bytes
  | .null => ascii "null"
  | .bool b => ascii (if b then "true" else "false")
  | .number t => t
  | .string s => ascii "\"" ++ s.flatMap (fun c => if c = 34 ∨ c = 92 then [92, c] else [c]) ++ ascii "\""
  | .array items => ascii "[" ++ Json.spacedItems items ++ ascii "]"
  | .object ms => ascii "\x7b" ++ Json.spacedMembers ms ++ ascii "\x7d"

def Json.spacedItems : List Json → Bytes
  | [] => []
  | [v] => v.spaced
  | v :: w :: rest => v.spaced ++ ascii ", " ++ Json.spacedItems (w :: rest)

def Json.spacedMembers : List (Bytes × Json) → Bytes
  | [] => []
  | [(k, v)] => ascii "\"" ++ k ++ ascii "\": " ++ v.spaced
  | (k, v) :: m :: rest => ascii "\"" ++ k ++ ascii "\": " ++ v.spaced ++ ascii ", " ++
    Json.spacedMembers (m :: rest)

end

/-- A member at its place among the members of an object, which are kept sorted. -/
def Json.insertMember (m : Bytes × Json) : List (Bytes × Json) → List (Bytes × Json)
  | [] => [m]
  | n :: ns => if m.1 < n.1 then m :: n :: ns else n :: Json.insertMember m ns

mutual

/-- A value as the library keeps it. -/
def Json.sorted : Json → Json
  | .array items => .array (Json.sortedItems items)
  | .object ms => .object (Json.sortedMembers ms)
  | v => v

def Json.sortedItems : List Json → List Json
  | [] => []
  | v :: rest => v.sorted :: Json.sortedItems rest

def Json.sortedMembers : List (Bytes × Json) → List (Bytes × Json)
  | [] => []
  | (k, v) :: rest => Json.insertMember (k, v.sorted) (Json.sortedMembers rest)

end

/-- A tool, as a plugin describes it. -/
structure McpTool where
  name : String
  description : String
  inputSchema : Json

namespace McpTool

/-- The description of the tool as a JSON value. -/
def json (tool : McpTool) : Json :=
  .object [(ascii "description", text tool.description), (ascii "inputSchema", tool.inputSchema.sorted),
    (ascii "name", text tool.name)]

def property (type description : String) : Json :=
  .object [(ascii "type", text type), (ascii "description", text description)]

def objectSchema (properties : List (String × Json)) (required : List String) : Json :=
  .object [(ascii "type", text "object"),
    (ascii "properties", .object (properties.map fun p => (ascii p.1, p.2))),
    (ascii "required", .array (required.map text))]

/-- Most tools take an atom. -/
def atomese (what : String) : String × Json :=
  ("atomese", property "string" ("S-expression for the " ++ what))

end McpTool

open McpTool

/-- The tools of `McpPlugEcho`. -/
def echoTools : List McpTool :=
  [⟨"echo", "Echo the input text", objectSchema [("text", property "string" "Text to echo")] ["text"]⟩,
    ⟨"time", "Get current time",
      .object [(ascii "type", text "object"), (ascii "properties", .object [])]⟩]

/-- The tools of `McpPlugAtomSpace`. -/
def atomSpaceTools : List McpTool :=
  [⟨"version", "Get the AtomSpace version string", objectSchema [] []⟩,
    ⟨"getSubTypes", "Get all subtypes of a given atom type. Useful for exploring the type hierarchy.",
      objectSchema [
        ("type", property "string" ("The atom type to get subtypes of. Examples: 'Node', 'Link', 'Value'. " ++
          "Returns all types that inherit from this type.")),
        ("recursive", property "boolean" ("If true, gets all descendants recursively. " ++
          "If false (default), gets only immediate children."))] ["type"]⟩,
    ⟨"getSuperTypes", "Get all supertypes of a given atom type. Useful for exploring the type hierarchy.",
      objectSchema [
        ("type", property "string" ("The atom type to get supertypes of. Examples: 'Concept', 'Edge', " ++
          "'FloatValue'. Returns all types this type inherits from.")),
        ("recursive", property "boolean" ("If true, gets all ancestors recursively up to TopType. " ++
          "If false (default), gets only immediate parents."))] ["type"]⟩,
    ⟨"reportCounts", "A report of how many Atoms there are in the AtomSpace, organized by Atom type.",
      objectSchema [] []⟩,
    ⟨"getAtoms", "Get all atoms of a specific type from the AtomSpace. WARNING: May return large " ++
        "results - check count with reportCounts first.",
      objectSchema [
        ("type", property "string" ("The atom type to retrieve. Examples: 'Concept', 'Predicate', 'Edge', " ++
          "'List'. Use getSubTypes/getSuperTypes to explore type hierarchy.")),
        ("subclass", property "boolean" ("Whether to include atoms of subtypes. " ++
          "If true, retrieves all subtypes of the given type."))] ["type"]⟩,
    ⟨"haveNode", "Check if a node exists in the AtomSpace",
      objectSchema [atomese "node, e.g. (Concept \"cat\")"] ["atomese"]⟩,
    ⟨"haveLink", "Check if a link exists in the AtomSpace",
      objectSchema [atomese "link, e.g. (List (Concept \"a\") (Concept \"b\"))"] ["atomese"]⟩,
    ⟨"haveAtom", "Check if an atom exists in the AtomSpace",
      objectSchema [atomese "atom"] ["atomese"]⟩,
    ⟨"makeAtom", "Create an atom in the AtomSpace",
      objectSchema [atomese ("atom to create. Examples: (Concept \"cat\"), " ++
        "(List (Concept \"a\") (Concept \"b\")), (Edge (Predicate \"likes\") (List (Concept \"Alice\") " ++
        "(Concept \"Bob\"))). Nodes and Links can be arbitrarily nested.")] ["atomese"]⟩,
    ⟨"getIncoming", "Get all links that contain a given atom in their outgoing set",
      objectSchema [atomese "atom"] ["atomese"]⟩,
    ⟨"getKeys", "Get all keys attached to an atom", objectSchema [atomese "atom"] ["atomese"]⟩,
    ⟨"getValueAtKey", "Get the value on an atom located at a given key. Returns a Value (FloatValue, " ++
        "StringValue, LinkValue, or Atom) in s-expression format.",
      objectSchema [atomese "atom. Example: (Anchor \"my-data\")",
        ("key", objectSchema [atomese "key atom. Example: (Predicate \"my-key\")"] ["atomese"])]
        ["atomese", "key"]⟩,
    ⟨"getValues", "Get all values attached to an atom. Returns an association list (alist) of (key . " ++
        "value) pairs in s-expression format.",
      objectSchema [atomese "atom. Example: (Anchor \"my-data\")"] ["atomese"]⟩,
    ⟨"setValue", "Set a value on an atom with a given key",
      objectSchema [atomese "atom. Example: (Anchor \"my-data\")",
        ("key", objectSchema [atomese "key atom. Example: (Predicate \"my-key\")"] ["atomese"]),
        ("value", .object [(ascii "type", text "object"),
          (ascii "description", text ("The value to set. PREFERRED: Use 'atomese' property with " ++
            "s-expression. Examples: \x7b\"atomese\": \"(FloatValue 1.5 2.7 3.14)\"\x7d, \x7b\"atomese\": " ++
            "\"(StringValue \\\"hello\\\" \\\"world\\\")\"\x7d, \x7b\"atomese\": \"(LinkValue " ++
            "(Concept \\\"A\\\") (Concept \\\"B\\\"))\"\x7d. Alternative: verbose JSON format " ++
            "\x7b\"type\": \"FloatValue\", \"value\": [1.5, 2.7, 3.14]\x7d.")),
          (ascii "properties", .object [
            (ascii "atomese", property "string" ("S-expression for the value (PREFERRED). Examples: " ++
              "(FloatValue 1.0 2.0), (StringValue \\\"text\\\"), " ++
              "(LinkValue (Concept \\\"X\\\") (Concept \\\"Y\\\"))")),
            (ascii "type", property "string" "Type name for verbose JSON (not recommended)"),
            (ascii "value", .object [
              (ascii "description", text "Value data for verbose JSON (not recommended)")])])])]
        ["atomese", "key", "value"]⟩,
    ⟨"execute", "Execute an executable atom and get the result. WARNING: Execution has side " ++
        "effects and may modify AtomSpace contents or external systems. Returns a Value.",
      objectSchema [atomese ("executable atom. Examples: (PlusLink (Number 1) (Number 2)), " ++
        "(ValueOf (Concept \"foo\") (Predicate \"key\")), (Query ...). Many Link types are " ++
        "executable - see wiki for details.")] ["atomese"]⟩,
    ⟨"extract", "Remove an atom from the AtomSpace. WARNING: Irreversible operation.",
      objectSchema [atomese "atom to remove. Example: (Concept \"obsolete\")",
        ("recursive", property "boolean" ("If true, recursively removes all Links containing this atom. " ++
          "If false (default), only removes the atom if nothing references it."))] ["atomese"]⟩]

/-- `add_tool` -/
def addTool (tool : McpTool) (last : Bool) : Bytes :=
  List.flatten [ascii "\t\x7b\n", ascii "\t\t\"name\": \"", ascii tool.name, ascii "\",\n",
    ascii "\t\t\"description\": \"", ascii tool.description, ascii "\",\n",
    ascii "\t\t\"inputSchema\": ", tool.inputSchema.spaced, ascii "\n\t\x7d",
    if last then [] else ascii ",", ascii "\n"]

def addTools : List McpTool → Bytes
  | [] => []
  | [tool] => addTool tool true
  | tool :: t :: rest => addTool tool false ++ addTools (t :: rest)

/-- What `McpPlugAtomSpace` says of its tools. -/
def atomSpaceText : Bytes := ascii "[\n" ++ addTools atomSpaceTools ++ ascii "]"

variable {α : Type*}

/-- What the tools of `McpPlugEcho` do; `ctime` is the clock. -/
def echoInvoke (J : JsonCpp) (ctime : α → Bytes) (toolName arguments : Bytes) (w : α) : Except Thrown Json :=
  let content (s : Bytes) : Json :=
    .object [(ascii "content", .array [.object [(ascii "text", .string s), (ascii "type", text "text")]])]
  let error (code : String) (message : Bytes) : Json :=
    .object [(ascii "error", .object [(ascii "code", .number (ascii code)), (ascii "message", .string message)])]
  if toolName = ascii "echo" then
    match J.parse arguments with
    | .value args => do return content (ascii "Echo: " ++ (← J.stringOr args (ascii "text")))
    | .errors errors => .ok (error "-32700" (ascii "Parse error: " ++ errors))
    | .threw what => .error (.std what)
  else if toolName = ascii "time" then .ok (content (ctime w))
  else .ok (error "-32601" (ascii "Tool not found in McpPlugEcho: " ++ toolName))

def mcpPlugEcho (J : JsonCpp) (ctime : α → Bytes) : McpPlugin α where
  getToolDescriptions _ := .ok (J.write (.array (echoTools.map McpTool.json))).text
  invokeTool toolName arguments w :=
    match echoInvoke J ctime toolName arguments w with
    | .ok response => (.ok (J.write response).text, w)
    | .error (.std what) =>
      (.ok (J.write (.object [(ascii "error", .object [(ascii "code", .number (ascii "-32700")),
        (ascii "message", .string (ascii "Parse error: " ++ what))])])).text, w)
    | .error .other => (.error .other, w)

/-- `interpret` is `JSCommands::interpret_command` of the AtomSpace. -/
def mcpPlugAtomSpace (interpret : Bytes → α → Except Thrown Bytes × α) : McpPlugin α where
  getToolDescriptions _ := .ok atomSpaceText
  invokeTool toolName arguments w :=
    interpret (ascii "\x7b \"tool\": \"" ++ toolName ++ ascii "\", \"params\": " ++ arguments ++
      ascii "\x7d") w

/-- The parser reads the descriptions of the tools. -/
structure ReadsTools (J : JsonCpp) : Prop where
  echo : J.parse (J.write (.array (echoTools.map McpTool.json))).text =
    .value (.array (echoTools.map McpTool.json))
  atomSpace : J.parse atomSpaceText = .value (.array (atomSpaceTools.map McpTool.json))

end CogServer
