import CogServer.McpAnswers
import CogServer.McpTools
import Mathlib.Data.List.Nodup

/-! The evaluator that `McpEval::get_evaluator` keeps for a thread, and what becomes of it when it is
fetched again for each request of a connection. -/
namespace CogServer

/-- The classes of plugins that `get_evaluator` makes objects of. -/
inductive McpPlug
  | echo | atomSpace
  deriving DecidableEq, Repr

/-- A plugin object: its class, and which call made it. -/
abbrev PlugPtr := McpPlug × ℕ

/-- The evaluator of a thread, and how many calls of `get_evaluator` there were. -/
structure EvalThread (α : Type*) where
  evaluator : McpPlugins PlugPtr α
  calls : ℕ

/-- The tools of a class of plugins. -/
def McpPlug.tools : McpPlug → List McpTool
  | .echo => echoTools
  | .atomSpace => atomSpaceTools

namespace EvalThread

variable {α : Type*}

/-- A thread before its first call. -/
def new (w : α) : EvalThread α := ⟨.new w, 0⟩

section Model

variable (H : McpHost α) (ctime : α → Bytes) (interpret : Bytes → α → Except Thrown Bytes × α)

def plugin : PlugPtr → McpPlugin α
  | (.echo, _) => mcpPlugEcho H.json ctime
  | (.atomSpace, _) => mcpPlugAtomSpace interpret

/-- `get_evaluator`, with what it throws. The evaluator is made once, its plugins each time. -/
def getEvaluator (t : EvalThread α) : EvalThread α × Option Thrown :=
  match t.evaluator.registerPlugin H (plugin H ctime interpret) (some (.echo, t.calls)) with
  | (v, some e) => (⟨v, t.calls + 1⟩, some e)
  | (v, none) =>
    let (v, e) := v.registerPlugin H (plugin H ctime interpret) (some (.atomSpace, t.calls))
    (⟨v, t.calls + 1⟩, e)

/-- The thread after some calls. -/
def fetched (w : α) : ℕ → EvalThread α
  | 0 => new w
  | n + 1 => (getEvaluator H ctime interpret (fetched w n)).1

/-- `eval_expr` runs with the plugins of the thread. -/
def host (t : EvalThread α) : McpHost α := t.evaluator.host H (plugin H ctime interpret)

/-- `eval_expr` of a line. An empty line leaves no answer. -/
def evalLine (G : McpHost α) (w : α) (line : Bytes) : Option McpAnswer × α :=
  if line = [] ∨ line = [newline] then (some .empty, w) else Mcp.evalMessage G w line

/-- `OnLine` for the requests of a connection: it fetches the evaluator each time. -/
def answers (t : EvalThread α) : List Bytes → List (Option McpAnswer)
  | [] => []
  | line :: lines =>
    let t := (getEvaluator H ctime interpret t).1
    let (answer, w) := evalLine (t.host H ctime interpret) t.evaluator.world line
    answer :: answers { t with evaluator := { t.evaluator with world := w } } lines

end Model

/-- The answers of one evaluator that is not fetched again. -/
def answersOf (G : McpHost α) (w : α) : List Bytes → List (Option McpAnswer)
  | [] => []
  | line :: lines => (evalLine G w line).1 :: answersOf G (evalLine G w line).2 lines

end EvalThread

namespace Mcp

variable {α : Type*} {H : McpHost α} {w : α} {expr : Bytes}

/-- The message is a `tools/list` that `eval_expr` gets to carry out. -/
def Lists (H : McpHost α) (expr : Bytes) : Prop :=
  ∃ method params id, request? H expr = some (method, params, id) ∧
    McpMethod.ofName method = .toolsList

/-- Only `tools/list` looks at the list of plugins. -/
theorem evalMessage_plugins (plugins : List (McpPlugin α)) (h : ¬ Lists H expr) :
    evalMessage { H with plugins := plugins } w expr = evalMessage H w expr := by
  unfold evalMessage
  dsimp only
  cases hp : H.json.parse expr with
  | errors e => rfl
  | threw what => rfl
  | value v =>
    have hversion : versionOk { H with plugins := plugins } v = versionOk H v := rfl
    have hparts : requestParts { H with plugins := plugins } v = requestParts H v := rfl
    simp only [evalRequest, hversion, hparts]
    rcases hv : versionOk H v with t | _ | _
    · rfl
    · rfl
    · rcases hr : requestParts H v with t | ⟨method, params, id⟩
      · rfl
      · have hq : request? H expr = some (method, params, id) := by
          simp only [request?, hp, hv, ↓reduceIte, hr]
          rfl
        have hne : McpMethod.ofName method ≠ .toolsList := fun hm => h ⟨method, params, id, hq, hm⟩
        simp only [dispatchMethod]
        cases hm : McpMethod.ofName method with
        | toolsList => exact absurd hm hne
        | _ => rfl

/-- A `tools/list` is answered with the tools of the plugins. -/
theorem evalMessage_lists {tools : List Json} (h : Lists H expr)
    (ht : ∀ id, toolsList H w id = .ok (rpcResult id (.object [(ascii "tools", .array tools)]))) :
    ∃ id, evalMessage H w expr =
      (some (.reply (rpcResult id (.object [(ascii "tools", .array tools)]))), w) := by
  obtain ⟨method, params, id, hq, hm⟩ := h
  refine ⟨id, ?_⟩
  unfold request? at hq
  unfold evalMessage
  cases hp : H.json.parse expr with
  | errors e => simp [hp] at hq
  | threw what => simp [hp] at hq
  | value v =>
    simp only [hp] at hq
    split at hq
    · rename_i hv
      have hr : requestParts H v = .ok (method, params, id) := by
        cases hr : requestParts H v with
        | error t => simp [hr, Except.toOption] at hq
        | ok parts =>
          exact congrArg Except.ok (Option.some.inj (by simpa [hr, Except.toOption] using hq))
      simp only [evalRequest, hv, hr, dispatchMethod, hm, ht]
      rfl
    · cases hq

end Mcp

namespace EvalThread

variable {α : Type*} {H : McpHost α} {t : EvalThread α} {n : ℕ}

/-- The names of the tools of one evaluator, in the order of the plugins. -/
def toolNames : List Bytes :=
  (McpPlug.echo.tools ++ McpPlug.atomSpace.tools).map fun tool => ascii tool.name

/-- The class of plugins that a tool is called through. -/
def owner (name : Bytes) : Option McpPlug :=
  if name ∈ McpPlug.atomSpace.tools.map (fun tool => ascii tool.name) then some .atomSpace
  else if name ∈ McpPlug.echo.tools.map (fun tool => ascii tool.name) then some .echo
  else none

/-- The plugin objects of some calls. -/
def made (n : ℕ) : List PlugPtr := (List.range n).flatMap fun k => [(.echo, k), (.atomSpace, k)]

theorem made_succ (n : ℕ) : made (n + 1) = made n ++ [(.echo, n), (.atomSpace, n)] := by
  rw [made, made, List.range_succ, List.flatMap_append]
  rfl

theorem toolName_json (J : JsonCpp) (tool : McpTool) :
    McpPlugins.toolName J tool.json = .ok (ascii tool.name) := rfl

section Calls

variable (ctime : α → Bytes) (interpret : Bytes → α → Except Thrown Bytes × α)

theorem pluginTools_plugin (hJ : ReadsTools H.json) (w : α) (p : PlugPtr) :
    Mcp.pluginTools H w (plugin H ctime interpret p) = .ok (p.1.tools.map McpTool.json) := by
  obtain ⟨kind, k⟩ := p
  cases kind with
  | echo => simp only [Mcp.pluginTools, plugin, mcpPlugEcho, hJ.echo]; rfl
  | atomSpace => simp only [Mcp.pluginTools, plugin, mcpPlugAtomSpace, hJ.atomSpace]; rfl

theorem readable_plugin (hJ : ReadsTools H.json) (w : α) (p : PlugPtr) :
    McpPlugins.Readable H (plugin H ctime interpret) w p := by
  refine ⟨_, pluginTools_plugin ctime interpret hJ w p, ?_⟩
  intro tool ht
  obtain ⟨u, -, rfl⟩ := List.mem_map.mp ht
  exact ⟨_, toolName_json H.json u⟩

theorem describes_plugin (hJ : ReadsTools H.json) (w : α) (p : PlugPtr) (name : Bytes) :
    McpPlugins.Describes H (plugin H ctime interpret) w p name ↔
      name ∈ p.1.tools.map fun tool => ascii tool.name := by
  rw [McpPlugins.Describes, pluginTools_plugin ctime interpret hJ w p]
  constructor
  · rintro ⟨tools, ht, tool, hmem, hn⟩
    obtain rfl := Except.ok.inj ht
    obtain ⟨u, hu, rfl⟩ := List.mem_map.mp hmem
    exact List.mem_map.mpr ⟨u, hu, Except.ok.inj hn⟩
  · intro h
    obtain ⟨u, hu, rfl⟩ := List.mem_map.mp h
    exact ⟨_, rfl, u.json, List.mem_map_of_mem hu, rfl⟩

/-- What a thread is after so many calls and one more, whatever the messages in between did. -/
structure Fetched (n : ℕ) (t : EvalThread α) : Prop where
  calls : t.calls = n + 1
  plugins : t.evaluator.plugins = made (n + 1)
  routes : ∀ name, t.evaluator.toolToPlugin name = (owner name).map fun kind => (kind, n)

/-- One call adds two plugins, and leads all names to them. -/
theorem getEvaluator_spec (hJ : ReadsTools H.json) (hp : t.evaluator.plugins = made t.calls)
    (hr : ∀ name, owner name = none → t.evaluator.toolToPlugin name = none) :
    Fetched t.calls (getEvaluator H ctime interpret t).1 ∧
      (getEvaluator H ctime interpret t).1.evaluator.world = t.evaluator.world := by
  obtain ⟨m, hm, hecho⟩ := McpPlugins.registerPlugin_spec (s := t.evaluator)
    (readable_plugin ctime interpret hJ t.evaluator.world (.echo, t.calls))
  obtain ⟨m', hm', hatoms⟩ := McpPlugins.registerPlugin_spec
    (s := ⟨t.evaluator.plugins ++ [(.echo, t.calls)], m, t.evaluator.world⟩)
    (readable_plugin ctime interpret hJ t.evaluator.world (.atomSpace, t.calls))
  have hget : getEvaluator H ctime interpret t =
      (⟨⟨t.evaluator.plugins ++ [(.echo, t.calls)] ++ [(.atomSpace, t.calls)], m', t.evaluator.world⟩,
        t.calls + 1⟩, none) := by
    simp only [getEvaluator, hm, hm']
  rw [hget]
  refine ⟨⟨rfl, ?_, ?_⟩, rfl⟩
  · rw [made_succ, ← hp, List.append_assoc]
    rfl
  · intro name
    simp only [describes_plugin ctime interpret hJ] at hecho hatoms
    unfold owner
    by_cases ha : name ∈ McpPlug.atomSpace.tools.map fun tool => ascii tool.name
    · rw [if_pos ha]
      exact (hatoms name).1 ha
    · rw [if_neg ha]
      have hold := (hatoms name).2 ha
      by_cases he : name ∈ McpPlug.echo.tools.map fun tool => ascii tool.name
      · rw [if_pos he]
        exact hold.trans ((hecho name).1 he)
      · rw [if_neg he]
        exact hold.trans (((hecho name).2 he).trans (hr name (by rw [owner, if_neg ha, if_neg he])))

theorem Fetched.again (hJ : ReadsTools H.json) (h : Fetched n t) :
    Fetched (n + 1) (getEvaluator H ctime interpret t).1 ∧
      (getEvaluator H ctime interpret t).1.evaluator.world = t.evaluator.world := by
  have hr : ∀ name, owner name = none → t.evaluator.toolToPlugin name = none := by
    intro name hname
    rw [h.routes, hname, Option.map_none]
  have hs := getEvaluator_spec ctime interpret hJ (h.calls ▸ h.plugins) hr
  rwa [h.calls] at hs

theorem fetched_first (hJ : ReadsTools H.json) (w : α) :
    Fetched 0 (getEvaluator H ctime interpret (new w)).1 ∧
      (getEvaluator H ctime interpret (new w)).1.evaluator.world = w :=
  getEvaluator_spec ctime interpret (t := new w) hJ rfl fun _ _ => rfl

theorem fetched_spec (hJ : ReadsTools H.json) (w : α) (n : ℕ) :
    Fetched n (fetched H ctime interpret w (n + 1)) := by
  induction n with
  | zero => exact (fetched_first ctime interpret hJ w).1
  | succ n ih => exact (ih.again ctime interpret hJ).1

/-- The evaluators after several calls differ in their lists of plugins only. -/
theorem Fetched.host {u : EvalThread α} (h : Fetched n t) (hu : Fetched 0 u) :
    t.host H ctime interpret =
      { u.host H ctime interpret with
        plugins := (made (n + 1)).map (plugin H ctime interpret) } := by
  have hroutes : (fun name => (t.evaluator.toolToPlugin name).map (plugin H ctime interpret)) =
      fun name => (u.evaluator.toolToPlugin name).map (plugin H ctime interpret) := by
    funext name
    rw [h.routes, hu.routes]
    cases owner name with
    | none => rfl
    | some kind => cases kind <;> rfl
  simp only [EvalThread.host, McpPlugins.host, h.plugins, hroutes]

/-- The tools that are listed after some calls. -/
def listing (n : ℕ) : List Json := ((made n).map fun p => p.1.tools.map McpTool.json).flatten

theorem mapM_pluginTools (hJ : ReadsTools H.json) (w : α) (ps : List PlugPtr) :
    (ps.map (plugin H ctime interpret)).mapM (Mcp.pluginTools H w) =
      .ok (ps.map fun p => p.1.tools.map McpTool.json) := by
  rw [List.mapM_map]
  have h : (fun p => Mcp.pluginTools H w (plugin H ctime interpret p)) =
      fun p : PlugPtr => (pure (p.1.tools.map McpTool.json) : Except Thrown (List Json)) :=
    funext fun p => pluginTools_plugin ctime interpret hJ w p
  exact (congrArg (fun f => List.mapM f ps) h).trans List.mapM_pure

theorem Fetched.toolsList (hJ : ReadsTools H.json) (h : Fetched n t) (w : α) (id : Json) :
    Mcp.toolsList (t.host H ctime interpret) w id =
      .ok (Mcp.rpcResult id (.object [(ascii "tools", .array (listing (n + 1)))])) := by
  have hplugins : (t.host H ctime interpret).plugins =
      (made (n + 1)).map (plugin H ctime interpret) := by
    rw [EvalThread.host, McpPlugins.host, h.plugins]
  have htools : ((made (n + 1)).map (plugin H ctime interpret)).mapM
      (Mcp.pluginTools (t.host H ctime interpret) w) =
      .ok ((made (n + 1)).map fun p => p.1.tools.map McpTool.json) :=
        mapM_pluginTools ctime interpret hJ w _
  rw [Mcp.toolsList, hplugins, htools]
  rfl

theorem listing_succ (n : ℕ) :
    listing (n + 1) = listing n ++
      (McpPlug.echo.tools ++ McpPlug.atomSpace.tools).map McpTool.json := by
  simp only [listing, made_succ, List.map_append, List.flatten_append]
  rfl

theorem listing_length (n : ℕ) : (listing n).length = 18 * n := by
  induction n with
  | zero => rfl
  | succ n ih =>
    rw [listing_succ, List.length_append, ih]
    have hboth : ((McpPlug.echo.tools ++ McpPlug.atomSpace.tools).map McpTool.json).length = 18 :=
      rfl
    omega

theorem made_length (n : ℕ) : (made n).length = 2 * n := by
  induction n with
  | zero => rfl
  | succ n ih =>
    rw [made_succ, List.length_append, ih]
    rfl

/-- The names of listed tools. -/
def listedNames (J : JsonCpp) (tools : List Json) : List Bytes :=
  tools.filterMap fun tool => (McpPlugins.toolName J tool).toOption

theorem listedNames_json (J : JsonCpp) (tools : List McpTool) :
    listedNames J (tools.map McpTool.json) = tools.map fun tool => ascii tool.name := by
  rw [listedNames, List.filterMap_map]
  exact congrFun List.filterMap_eq_map tools

theorem toolNames_nodup : toolNames.Nodup := by decide

/-- Each call lists every tool once more. -/
theorem count_listing (J : JsonCpp) {name : Bytes} (hname : name ∈ toolNames) (n : ℕ) :
    (listedNames J (listing n)).count name = n := by
  induction n with
  | zero => rfl
  | succ n ih =>
    have hsplit : listedNames J (listing (n + 1)) = listedNames J (listing n) ++ toolNames := by
      rw [listing_succ, listedNames, List.filterMap_append]
      exact congrArg (_ ++ ·) (listedNames_json J _)
    rw [hsplit, List.count_append, ih, List.count_eq_one_of_mem toolNames_nodup hname]

theorem Fetched.message {u : EvalThread α} (h : Fetched n t) (hu : Fetched 0 u) (w : α)
    (line : Bytes) (hl : ¬ (n ≠ 0 ∧ Mcp.Lists (u.host H ctime interpret) line)) :
    Mcp.evalMessage (t.host H ctime interpret) w line =
      Mcp.evalMessage (u.host H ctime interpret) w line := by
  rw [h.host ctime interpret hu]
  by_cases hlists : Mcp.Lists (u.host H ctime interpret) line
  · -- after the first call even the plugins are the same
    have hn : n = 0 := by
      by_contra hn
      exact hl ⟨hn, hlists⟩
    subst hn
    rw [← h.host ctime interpret hu, h.host ctime interpret hu, ← hu.host ctime interpret hu]
  · exact Mcp.evalMessage_plugins _ hlists

/-- After more calls the reply to `tools/list` is longer. -/
theorem Fetched.lists (hJ : ReadsTools H.json) {u : EvalThread α} (h : Fetched n t)
    (hu : Fetched 0 u) (hn : n ≠ 0) (w : α) {line : Bytes}
    (hl : Mcp.Lists (u.host H ctime interpret) line) :
    (Mcp.evalMessage (t.host H ctime interpret) w line).1 ≠
      (Mcp.evalMessage (u.host H ctime interpret) w line).1 ∧
    (Mcp.evalMessage (t.host H ctime interpret) w line).2 =
      (Mcp.evalMessage (u.host H ctime interpret) w line).2 := by
  have hl' : Mcp.Lists (t.host H ctime interpret) line := hl
  obtain ⟨id, hfirst⟩ := Mcp.evalMessage_lists hl (hu.toolsList ctime interpret hJ w)
  obtain ⟨id', hlater⟩ := Mcp.evalMessage_lists hl' (h.toolsList ctime interpret hJ w)
  rw [hfirst, hlater]
  refine ⟨?_, rfl⟩
  intro he
  simp only [Mcp.rpcResult, Option.some.injEq, McpAnswer.reply.injEq, Json.object.injEq, List.cons.injEq,
    Prod.mk.injEq, Json.array.injEq, true_and, and_true] at he
  have hlength := congrArg List.length he.2
  rw [listing_length, listing_length] at hlength
  omega

/-- The line is a `tools/list` for the evaluator. -/
def ListsLine (G : McpHost α) (line : Bytes) : Prop :=
  ¬ (line = [] ∨ line = [newline]) ∧ Mcp.Lists G line

/-- What fetching the evaluator again does to the answer to one line. -/
theorem Fetched.line (hJ : ReadsTools H.json) {u : EvalThread α} (h : Fetched n t)
    (hu : Fetched 0 u) (w : α) (line : Bytes) :
    ((evalLine (t.host H ctime interpret) w line).1 =
        (evalLine (u.host H ctime interpret) w line).1 ↔
      n = 0 ∨ ¬ ListsLine (u.host H ctime interpret) line) ∧
    (evalLine (t.host H ctime interpret) w line).2 =
      (evalLine (u.host H ctime interpret) w line).2 := by
  unfold evalLine ListsLine
  by_cases hempty : line = [] ∨ line = [newline]
  · simp [hempty]
  · simp only [hempty, ↓reduceIte, not_false_eq_true, true_and]
    by_cases hl : n ≠ 0 ∧ Mcp.Lists (u.host H ctime interpret) line
    · obtain ⟨hdiff, hworld⟩ := h.lists ctime interpret hJ hu hl.1 w hl.2
      refine ⟨⟨fun he => absurd he hdiff, fun hor => ?_⟩, hworld⟩
      rcases hor with hn | hn
      · exact absurd hn hl.1
      · exact absurd hl.2 hn
    · have he := h.message ctime interpret hu w line hl
      rw [he]
      refine ⟨⟨fun _ => ?_, fun _ => rfl⟩, rfl⟩
      by_cases hn : n = 0
      · exact .inl hn
      · exact .inr fun hlists => hl ⟨hn, hlists⟩

/-- From the second call on, the answers are those of the first evaluator as long as nobody asks
for the list of tools. -/
theorem Fetched.answers (hJ : ReadsTools H.json) {u : EvalThread α} (hu : Fetched 0 u)
    (lines : List Bytes) (h : Fetched n t) :
    t.answers H ctime interpret lines =
        answersOf (u.host H ctime interpret) t.evaluator.world lines ↔
      ∀ line ∈ lines, ¬ ListsLine (u.host H ctime interpret) line := by
  induction lines generalizing t n with
  | nil => exact ⟨fun _ _ hmem => absurd hmem List.not_mem_nil, fun _ => rfl⟩
  | cons line lines ih =>
    obtain ⟨hagain, hworld⟩ := h.again ctime interpret hJ
    obtain ⟨hanswer, hnext⟩ := hagain.line ctime interpret hJ hu
      t.evaluator.world line
    have hnz : n + 1 ≠ 0 := Nat.succ_ne_zero n
    simp only [EvalThread.answers, answersOf, hworld, List.cons.injEq, hanswer, hnz, false_or,
      hnext]
    rw [List.forall_mem_cons]
    apply and_congr_right
    intro _
    -- the world has moved on, which the plugins do not depend on
    have hkept : Fetched (n + 1) (⟨⟨(getEvaluator H ctime interpret t).1.evaluator.plugins,
        (getEvaluator H ctime interpret t).1.evaluator.toolToPlugin,
        (evalLine (u.host H ctime interpret) t.evaluator.world line).2⟩,
        (getEvaluator H ctime interpret t).1.calls⟩ : EvalThread α) :=
      ⟨hagain.calls, hagain.plugins, hagain.routes⟩
    exact ih hkept

/-- Fetching the evaluator again changes the reply to `tools/list` and nothing else: the reply lists
each tool once for each call, and so a connection gets the answers of one evaluator exactly if it
does not ask for the list after its first request. -/
theorem evaluator_idempotent (hJ : ReadsTools H.json) (w : α) (n : ℕ) :
    let first := (fetched H ctime interpret w 1).host H ctime interpret
    let later := (fetched H ctime interpret w (n + 1)).host H ctime interpret
    (∀ v expr, Mcp.evalMessage later v expr = Mcp.evalMessage first v expr ↔
      n = 0 ∨ ¬ Mcp.Lists first expr) ∧
    (∀ v id, ∃ tools, Mcp.toolsList later v id = .ok (Mcp.rpcResult id (.object [(ascii "tools", .array tools)])) ∧
      ∀ name ∈ toolNames, (listedNames H.json tools).count name = 1 ↔ n = 0) ∧
    (later.plugins.length = first.plugins.length ↔ n = 0) ∧
    ∀ lines, (new w).answers H ctime interpret lines = answersOf first w lines ↔
      ∀ line ∈ lines.tail, ¬ ListsLine first line := by
  have hlater := fetched_spec ctime interpret hJ w n
  have hfirst := fetched_spec ctime interpret hJ w 0
  refine ⟨?_, ?_, ?_, ?_⟩
  · intro v expr
    by_cases hl : n ≠ 0 ∧ Mcp.Lists ((fetched H ctime interpret w 1).host H ctime interpret) expr
    · have hdiff := (hlater.lists ctime interpret hJ hfirst hl.1 v hl.2).1
      constructor
      · intro he
        exact absurd (congrArg Prod.fst he) hdiff
      · rintro (hn | hn)
        · exact absurd hn hl.1
        · exact absurd hl.2 hn
    · refine ⟨fun _ => ?_, fun _ => hlater.message ctime interpret hfirst v expr hl⟩
      by_cases hn : n = 0
      · exact .inl hn
      · exact .inr fun hlists => hl ⟨hn, hlists⟩
  · intro v id
    refine ⟨listing (n + 1), hlater.toolsList ctime interpret hJ v id, ?_⟩
    intro name hname
    rw [count_listing H.json hname]
    omega
  · have hcount (k : ℕ) (t : EvalThread α) (ht : Fetched k t) :
        (t.host H ctime interpret).plugins.length = 2 * (k + 1) := by
      rw [EvalThread.host, McpPlugins.host, ht.plugins, List.length_map, made_length]
    rw [hcount n _ hlater, hcount 0 _ hfirst]
    omega
  · intro lines
    cases lines with
    | nil => exact ⟨fun _ _ hmem => absurd hmem List.not_mem_nil, fun _ => rfl⟩
    | cons line lines =>
      -- the first request is the first call
      obtain ⟨hget, hworld⟩ := fetched_first ctime interpret hJ w
      have hkept : Fetched 0 (⟨⟨(getEvaluator H ctime interpret (new w)).1.evaluator.plugins,
          (getEvaluator H ctime interpret (new w)).1.evaluator.toolToPlugin,
          (evalLine ((fetched H ctime interpret w 1).host H ctime interpret) w line).2⟩,
          (getEvaluator H ctime interpret (new w)).1.calls⟩ : EvalThread α) :=
        ⟨hget.calls, hget.plugins, hget.routes⟩
      have hrest := Fetched.answers ctime interpret hJ hfirst lines hkept
      have hsame : (getEvaluator H ctime interpret (new w)).1 = fetched H ctime interpret w 1 := rfl
      simp only [EvalThread.answers, answersOf, hsame, List.cons.injEq, List.tail_cons]
      rw [hsame] at hrest hworld
      rw [hworld]
      exact (and_iff_right rfl).trans hrest

end Calls

/-- The description that `McpPlugEcho` writes. -/
def echoText : Bytes := (Json.array (echoTools.map McpTool.json)).compact

def listRequest : Json :=
  .object [(ascii "jsonrpc", Mcp.text "2.0"), (ascii "method", Mcp.text "tools/list")]

def pingRequest : Json :=
  .object [(ascii "jsonrpc", Mcp.text "2.0"), (ascii "method", Mcp.text "ping")]

/-- A server whose parser reads the tools of the plugins and two messages. -/
def toolHost : McpHost Unit where
  json := .ofTable [(listRequest.compact, listRequest), (pingRequest.compact, pingRequest),
    (echoText, .array (echoTools.map McpTool.json)),
    (atomSpaceText, .array (atomSpaceTools.map McpTool.json))]
  plugins := []
  toolToPlugin _ := none
  installPrefix := ascii "/usr/local"
  readFile _ _ := none

/-- Two texts that begin differently are not mistaken for each other. -/
theorem lookup_other {s t : Bytes} (v : Json) (table : List (Bytes × Json))
    (h : s.take 2 ≠ t.take 2) : List.lookup s ((t, v) :: table) = List.lookup s table := by
  have hne : (s == t) = false := by
    rw [beq_eq_false_iff_ne]
    intro he
    exact h (congrArg (List.take 2) he)
  simp only [List.lookup_cons, hne]

theorem readsTools_toolHost : ReadsTools toolHost.json := by
  have hlist : listRequest.compact.take 2 = ascii "\x7b\"" := by rfl
  have hping : pingRequest.compact.take 2 = ascii "\x7b\"" := by rfl
  have hecho : echoText.take 2 = ascii "[\x7b" := by rfl
  have hatoms : atomSpaceText.take 2 = ascii "[\n" := by rfl
  constructor
  · have htext : (toolHost.json.write (.array (echoTools.map McpTool.json))).text = echoText := by
      apply JsonCpp.write_ofTable
      intro hempty
      have htake : echoText.take 2 = [] := congrArg (List.take 2) hempty
      exact absurd (hecho.symm.trans htake) (by decide)
    rw [htext]
    apply JsonCpp.parse_ofTable
    rw [lookup_other _ _ (by rw [hecho, hlist]; decide),
      lookup_other _ _ (by rw [hecho, hping]; decide)]
    exact List.lookup_cons_self
  · apply JsonCpp.parse_ofTable
    rw [lookup_other _ _ (by rw [hatoms, hlist]; decide),
      lookup_other _ _ (by rw [hatoms, hping]; decide),
      lookup_other _ _ (by rw [hatoms, hecho]; decide)]
    exact List.lookup_cons_self

/-- The host of a thread after so many calls. -/
def toolThread (n : ℕ) : McpHost Unit :=
  (fetched toolHost (fun _ => []) (fun _ w => (.ok [], w)) () n).host toolHost (fun _ => [])
    (fun _ w => (.ok [], w))

theorem lists_listRequest : Mcp.Lists (toolThread 1) listRequest.compact := by
  refine ⟨ascii "tools/list", .object [], .null, rfl, by decide⟩

/-- A connection that asks for the tools first and then sends a `ping` gets the right answers. -/
theorem evaluator_idempotent_ping :
    (new ()).answers toolHost (fun _ => []) (fun _ w => (.ok [], w))
        [listRequest.compact, pingRequest.compact] =
      answersOf (toolThread 1) () [listRequest.compact, pingRequest.compact] := by
  refine ((evaluator_idempotent _ _ readsTools_toolHost () 0).2.2.2 _).mpr ?_
  intro line hline
  obtain rfl := List.mem_singleton.mp hline
  rintro ⟨-, method, params, id, hq, hm⟩
  have hping : Mcp.request? (toolThread 1) pingRequest.compact =
      some (ascii "ping", .object [], .null) := rfl
  cases hping.symm.trans hq
  exact absurd hm (by decide)

/-- After the second request the tools are listed twice. -/
theorem evaluator_idempotent_fails : ¬ ∀ n expr,
    (Mcp.evalMessage (toolThread (n + 1)) () expr).1 =
      (Mcp.evalMessage (toolThread 1) () expr).1 := by
  intro h
  have hlater := fetched_spec (fun _ => []) (fun _ w => (.ok [], w)) readsTools_toolHost () 1
  have hfirst := fetched_spec (fun _ => []) (fun _ w => (.ok [], w)) readsTools_toolHost () 0
  have hdiff := hlater.lists _ _ readsTools_toolHost hfirst Nat.one_ne_zero () lists_listRequest
  exact hdiff.1 (h 1 listRequest.compact)

end EvalThread

end CogServer
