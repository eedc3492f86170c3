import CogServer.Shell

/-! `McpEval`, the evaluator of the Model Context Protocol, as the shells see it. -/
namespace CogServer

/-- A JSON value, written out. -/
structure JsonText where
  text : Bytes
  nonempty : text ≠ []
  deriving DecidableEq

/-- The object without members. -/
def JsonText.emptyObject : JsonText := ⟨ascii "\x7b\x7d", by decide⟩

/-- What becomes of a request in `eval_expr`. -/
inductive McpResponse
  /-- `_result` is set, but not `_done`. -/
  | held (json : JsonText)
  /-- An empty `_result`, and `_done`. -/
  | empty
  | reply (json : JsonText)
  deriving DecidableEq

/-- The state of a `McpEval`; `world` is what its tools work on, and `made` only
records the responses that were made available. -/
structure McpEval (α : Type*) where
  world : α
  started : Bool
  done : Bool
  result : Bytes
  caughtError : Bool
  made : List Bytes
  deriving DecidableEq

namespace McpEval

variable {α : Type*}

def new (w : α) : McpEval α := ⟨w, false, false, [], false, []⟩

/-- `eval_expr`. The trailing newline is mandatory. -/
def evalExpr (respond : α → Bytes → McpResponse × α) (expr : Bytes) (v : McpEval α) : McpEval α :=
  if expr = [] then v
  else if expr = [newline] then v
  else
    let (response, w) := respond v.world expr
    match response with
    | .held j => { v with world := w, result := j.text ++ [newline] }
    | .empty => { v with world := w, result := [], done := true }
    | .reply j =>
      { v with
        world := w, result := j.text ++ [newline], done := true, made := v.made ++ [j.text ++ [newline]] }

def pollResult (v : McpEval α) : Bytes × McpEval α :=
  if v.done then (v.result, { v with done := false }) else ([], v)

def interrupt (v : McpEval α) : McpEval α :=
  { v with done := true, started := false, caughtError := true }

/-- The response that waits to be polled. -/
def available (v : McpEval α) : List Bytes := if v.done && v.result ≠ [] then [v.result] else []

end McpEval

/-- `McpEval` behind a shell. Its base class keeps the error flag, whose text is
`errorString`. It catches all exceptions of the evaluation. -/
def mcpEval {α : Type*} (respond : α → Bytes → McpResponse × α) (errorString : Bytes) :
    GenericEval (McpEval α) where
  beginEval v := { v with done := false }
  work _ v := v
  evalExpr := McpEval.evalExpr respond
  throws _ _ := false
  pollResult v := some v.pollResult
  interrupt := McpEval.interrupt
  clearPending v := { v with caughtError := false }
  inputPending _ := false
  evalError v := v.caughtError
  errorString _ := errorString

end CogServer
