import CogServer.McpEval

/-! JSON values and their accessors, which throw on a value of the wrong kind. -/
namespace CogServer

/-- What a C++ function throws: a `std::exception` with its `what()`, or anything else. -/
inductive Thrown
  | std (what : Bytes) | other
  deriving DecidableEq, Repr

/-- A `Json::Value`. Of a number only its text matters here. -/
inductive Json
  | null
  | bool (b : Bool)
  | number (text : Bytes)
  | string (s : Bytes)
  | array (items : List Json)
  | object (members : List (Bytes × Json))

/-- What `parse` makes of a text. -/
inductive Parsed
  | value (v : Json) | errors (text : Bytes) | threw (what : Bytes)

/-- The JSON library. `write` is the writer without indentation, and the last three
fields say what the exceptions of the accessors tell. -/
structure JsonCpp where
  parse : Bytes → Parsed
  write : Json → JsonText
  notObject : Bytes
  notString : Bytes
  notArray : Bytes

/-- The members of a value that has members: an object, or null, which has none. -/
def Json.members? : Json → Option (List (Bytes × Json))
  | .null => some []
  | .object ms => some ms
  | _ => none

/-- The text of a value that converts to a string. -/
def Json.string? : Json → Option Bytes
  | .null => some []
  | .bool b => some (ascii (if b then "true" else "false"))
  | .number t => some t
  | .string s => some s
  | _ => none

mutual

/-- A value as the writer writes it, if no string in it needs an escape. -/
def Json.compact : Json → Bytes
  | .null => ascii "null"
  | .bool b => ascii (if b then "true" else "false")
  | .number t => t
  | .string s => ascii "\"" ++ s ++ ascii "\""
  | .array items => ascii "[" ++ Json.compactItems items ++ ascii "]"
  | .object ms => ascii "\x7b" ++ Json.compactMembers ms ++ ascii "\x7d"

def Json.compactItems : List Json → Bytes
  | [] => []
  | [v] => v.compact
  | v :: w :: rest => v.compact ++ ascii "," ++ Json.compactItems (w :: rest)

def Json.compactMembers : List (Bytes × Json) → Bytes
  | [] => []
  | [(k, v)] => ascii "\"" ++ k ++ ascii "\":" ++ v.compact
  | (k, v) :: m :: rest => ascii "\"" ++ k ++ ascii "\":" ++ v.compact ++ ascii "," ++ Json.compactMembers (m :: rest)

end

namespace JsonCpp

/-- A library that parses the texts of a table. -/
def ofTable (table : List (Bytes × Json)) : JsonCpp where
  parse t := match table.lookup t with | some v => .value v | none => .errors (ascii "* Line 1, Column 1\n")
  write v := if h : v.compact = [] then ⟨ascii "0", by decide⟩ else ⟨v.compact, h⟩
  notObject := ascii "requires objectValue or nullValue"
  notString := ascii "Type is not convertible to string"
  notArray := ascii "requires arrayValue"

theorem parse_ofTable {table : List (Bytes × Json)} {t : Bytes} {v : Json}
    (h : table.lookup t = some v) : (ofTable table).parse t = .value v := by
  simp only [ofTable, h]

theorem write_ofTable (table : List (Bytes × Json)) {v : Json} (h : v.compact ≠ []) :
    ((ofTable table).write v).text = v.compact := by
  simp only [ofTable, dif_neg h]

variable (J : JsonCpp)

def isMember (v : Json) (key : Bytes) : Except Thrown Bool :=
  match v.members? with
  | some ms => pure (ms.lookup key).isSome
  | none => throw (.std J.notObject)

/-- `operator[]` with a key. -/
def get (v : Json) (key : Bytes) : Except Thrown Json :=
  match v.members? with
  | some ms => pure ((ms.lookup key).getD .null)
  | none => throw (.std J.notObject)

def asString (v : Json) : Except Thrown Bytes :=
  match v.string? with
  | some s => pure s
  | none => throw (.std J.notString)

/-- What a loop up to `size()` gets from `operator[]` with an index. -/
def elements : Json → Except Thrown (List Json)
  | .array items => pure items
  | .object (_ :: _) => throw (.std J.notArray)
  | _ => pure []

/-- `v.isMember(key) ? v[key] : d` -/
def getOr (v : Json) (key : Bytes) (d : Json) : Except Thrown Json := do
  if ← J.isMember v key then J.get v key else pure d

/-- `v.isMember(key) ? v[key].asString() : ""` -/
def stringOr (v : Json) (key : Bytes) : Except Thrown Bytes := do
  if ← J.isMember v key then J.asString (← J.get v key) else pure []

variable {J} {v : Json} {ms : List (Bytes × Json)} {key : Bytes}

theorem getOr_members (h : v.members? = some ms) (d : Json) :
    J.getOr v key d = .ok ((ms.lookup key).getD d) := by
  cases hk : ms.lookup key <;> simp [getOr, isMember, get, h, hk, pure, Except.pure, bind, Except.bind]

theorem stringOr_members (h : v.members? = some ms) :
    J.stringOr v key = ((ms.lookup key).map J.asString).getD (.ok []) := by
  cases hk : ms.lookup key <;>
    simp [stringOr, isMember, get, h, hk, pure, Except.pure, bind, Except.bind]

theorem stringOr_none (h : v.members? = none) : J.stringOr v key = .error (.std J.notObject) := by
  simp [stringOr, isMember, h, throw, throwThe, MonadExceptOf.throw, bind, Except.bind]

theorem asString_ok {s : Bytes} (h : v.string? = some s) : J.asString v = .ok s := by
  simp [asString, h, pure, Except.pure]

theorem asString_none (h : v.string? = none) : J.asString v = .error (.std J.notString) := by
  simp [asString, h, throw, throwThe, MonadExceptOf.throw]

end JsonCpp

end CogServer
