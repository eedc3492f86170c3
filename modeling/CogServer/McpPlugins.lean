import CogServer.McpProtocol

/-! The plugins of a `McpEval`: which tools it lists and which it can call, after any calls of
`register_plugin` and `unregister_plugin`. -/
namespace CogServer

open Transition

/-- The plugins of a `McpEval`, known by their pointers, and what their tools work on. -/
structure McpPlugins (ι α : Type*) where
  plugins : List ι
  toolToPlugin : Bytes → Option ι
  world : α

/-- The calls that a `McpEval` gets. Its tools and other threads change what the plugins see. -/
inductive PluginCall (ι α : Type*)
  | registerPlugin (plugin : Option ι)
  | unregisterPlugin (plugin : Option ι)
  | world (w : α)

namespace McpPlugins

variable {ι α : Type*}

def new (w : α) : McpPlugins ι α := ⟨[], fun _ => none, w⟩

/-- `eval_expr` runs with these plugins. -/
def host (H : McpHost α) (plugin : ι → McpPlugin α) (s : McpPlugins ι α) : McpHost α :=
  { H with
    plugins := s.plugins.map plugin
    toolToPlugin := fun name => (s.toolToPlugin name).map plugin }

/-- `tool["name"].asString()` -/
def toolName (J : JsonCpp) (tool : Json) : Except Thrown Bytes := do
  J.asString (← J.get tool (ascii "name"))

section Model

variable [DecidableEq ι]

/-- The loop of `register_plugin`. What it throws leaves the names before it in the map. -/
def mapTools (J : JsonCpp) (p : ι) : List Json → McpPlugins ι α → McpPlugins ι α × Option Thrown
  | [], s => (s, none)
  | tool :: tools, s =>
    match toolName J tool with
    | .ok name =>
      mapTools J p tools { s with toolToPlugin := Function.update s.toolToPlugin name (some p) }
    | .error t => (s, some t)

/-- `register_plugin`, with what it throws -/
def registerPlugin (H : McpHost α) (plugin : ι → McpPlugin α) (s : McpPlugins ι α) :
    Option ι → McpPlugins ι α × Option Thrown
  | none => (s, none)
  | some p =>
    let s := { s with plugins := s.plugins ++ [p] }
    match Mcp.pluginTools H s.world (plugin p) with
    | .ok tools => mapTools H.json p tools s
    | .error t => (s, some t)

/-- `unregister_plugin` -/
def unregisterPlugin (s : McpPlugins ι α) : Option ι → McpPlugins ι α
  | none => s
  | some p =>
    { s with
      plugins := s.plugins.filter (· ≠ p)
      toolToPlugin := fun name => if s.toolToPlugin name = some p then none else s.toolToPlugin name }

def step (H : McpHost α) (plugin : ι → McpPlugin α) (s : McpPlugins ι α) :
    PluginCall ι α → Option (McpPlugins ι α)
  | .registerPlugin p => some (s.registerPlugin H plugin p).1
  | .unregisterPlugin p => some (s.unregisterPlugin p)
  | .world w => some { s with world := w }

end Model

end McpPlugins

/-- A new `McpEval` and the calls that it gets. -/
def pluginSystem {ι α : Type*} [DecidableEq ι] (H : McpHost α) (plugin : ι → McpPlugin α) :
    System (McpPlugins ι α) (PluginCall ι α) where
  init s := ∃ w, s = McpPlugins.new w
  step := McpPlugins.step H plugin

namespace McpPlugins

variable {ι α : Type*} {H : McpHost α} {plugin : ι → McpPlugin α} {s : McpPlugins ι α} {p : ι}
  {name : Bytes}

/-- `get_tool_descriptions` of the plugin has a tool of this name. -/
def Describes (H : McpHost α) (plugin : ι → McpPlugin α) (w : α) (p : ι) (name : Bytes) : Prop :=
  ∃ tools, Mcp.pluginTools H w (plugin p) = .ok tools ∧
    ∃ tool ∈ tools, toolName H.json tool = .ok name

/-- The plugin describes its tools, and each of them has a name. -/
def Readable (H : McpHost α) (plugin : ι → McpPlugin α) (w : α) (p : ι) : Prop :=
  ∃ tools, Mcp.pluginTools H w (plugin p) = .ok tools ∧
    ∀ tool ∈ tools, ∃ name, toolName H.json tool = .ok name

/-- The reply to `tools/list` has a tool of this name. -/
def Listed (H : McpHost α) (plugin : ι → McpPlugin α) (s : McpPlugins ι α) (name : Bytes) : Prop :=
  ∃ tools, (∀ id, Mcp.toolsList (s.host H plugin) s.world id =
      .ok (Mcp.rpcResult id (.object [(ascii "tools", .array tools)]))) ∧
    ∃ tool ∈ tools, toolName H.json tool = .ok name

/-- What `tools/call` does when it runs the plugin `p`, or none. -/
def invoked (H : McpHost α) (plugin : ι → McpPlugin α) (w : α) (name : Bytes)
    (arguments id : Json) :
    Option ι → Except Thrown Json × α
  | none => (.ok (Mcp.rpcError id "-32601" (ascii "Tool not found: " ++ name)), w)
  | some p =>
    let (outcome, w') := (plugin p).invokeTool name (H.json.write arguments).text w
    (Mcp.toolResult H id outcome, w')

/-- The listed tools are the callable ones: a name is listed exactly if a call of it runs a
registered plugin that describes it, and no other plugin is run. -/
structure Exact (H : McpHost α) (plugin : ι → McpPlugin α) (s : McpPlugins ι α) : Prop where
  callable : ∀ name, Listed H plugin s name ↔
    ∃ p ∈ s.plugins, Describes H plugin s.world p name ∧ s.toolToPlugin name = some p
  registered : ∀ name p, s.toolToPlugin name = some p → p ∈ s.plugins
  calls : ∀ params name arguments id, Mcp.toolCall (s.host H plugin) params = .ok (name, arguments) →
    Mcp.toolsCall (s.host H plugin) s.world params id =
      invoked H plugin s.world name arguments id (s.toolToPlugin name)

/-- A plugin that is registered can be read, and goes on to describe tools of the same names; when
it is unregistered, no other registered plugin describes a tool that is mapped to it. -/
def Sole (H : McpHost α) (plugin : ι → McpPlugin α) (s : McpPlugins ι α) : PluginCall ι α → Prop
  | .registerPlugin (some p) => Readable H plugin s.world p
  | .unregisterPlugin (some p) => ∀ name, s.toolToPlugin name = some p →
      ∀ q ∈ s.plugins, Describes H plugin s.world q name → q = p
  | .world w => ∀ q ∈ s.plugins, Readable H plugin w q ∧
      ∀ name, Describes H plugin w q name ↔ Describes H plugin s.world q name
  | _ => True

/-- Every registered plugin can be read, and the map leads from exactly the names that they
describe to one of them that does. -/
structure Routed (H : McpHost α) (plugin : ι → McpPlugin α) (s : McpPlugins ι α) : Prop where
  readable : ∀ p ∈ s.plugins, Readable H plugin s.world p
  routes : ∀ name p, s.toolToPlugin name = some p →
    p ∈ s.plugins ∧ Describes H plugin s.world p name
  routed : ∀ p ∈ s.plugins, ∀ name, Describes H plugin s.world p name → s.toolToPlugin name ≠ none

theorem mapM_ok {β γ : Type*} {f : β → Except Thrown (List γ)} {xs : List β}
    (h : ∀ x ∈ xs, ∃ ys, f x = .ok ys) :
    ∃ yss, xs.mapM f = .ok yss ∧ ∀ y, y ∈ yss.flatten ↔ ∃ x ∈ xs, ∃ ys, f x = .ok ys ∧ y ∈ ys := by
  induction xs with
  | nil => exact ⟨[], rfl, by simp⟩
  | cons x xs ih =>
    obtain ⟨ys, hys⟩ := h x List.mem_cons_self
    obtain ⟨yss, hyss, hmem⟩ := ih fun z hz => h z (List.mem_cons_of_mem _ hz)
    refine ⟨ys :: yss, ?_, ?_⟩
    · rw [List.mapM_cons, hys, hyss]
      rfl
    · intro y
      rw [List.flatten_cons, List.mem_append, hmem]
      constructor
      · rintro (hy | ⟨z, hz, zs, hzs, hy⟩)
        · exact ⟨x, List.mem_cons_self, ys, hys, hy⟩
        · exact ⟨z, List.mem_cons_of_mem _ hz, zs, hzs, hy⟩
      · rintro ⟨z, hz, zs, hzs, hy⟩
        rcases List.mem_cons.mp hz with rfl | hz
        · rw [hys] at hzs
          exact .inl (Except.ok.inj hzs ▸ hy)
        · exact .inr ⟨z, hz, zs, hzs, hy⟩

/-- When all registered plugins can be read, `tools/list` lists the tools that they describe. -/
theorem listed_iff (h : ∀ p ∈ s.plugins, Readable H plugin s.world p) :
    Listed H plugin s name ↔ ∃ p ∈ s.plugins, Describes H plugin s.world p name := by
  have hread : ∀ m ∈ s.plugins.map plugin,
      ∃ tools, Mcp.pluginTools (s.host H plugin) s.world m = .ok tools := by
    intro m hm
    obtain ⟨p, hp, rfl⟩ := List.mem_map.mp hm
    obtain ⟨tools, ht, -⟩ := h p hp
    exact ⟨tools, ht⟩
  obtain ⟨tools, htools, hmem⟩ := mapM_ok hread
  have hreply : ∀ id, Mcp.toolsList (s.host H plugin) s.world id =
      .ok (Mcp.rpcResult id (.object [(ascii "tools", .array tools.flatten)])) := by
    intro id
    have hp : (s.host H plugin).plugins = s.plugins.map plugin := rfl
    rw [Mcp.toolsList, hp, htools]
    rfl
  have hdescribes : (∃ tool ∈ tools.flatten, toolName H.json tool = .ok name) ↔
      ∃ p ∈ s.plugins, Describes H plugin s.world p name := by
    constructor
    · rintro ⟨tool, ht, hn⟩
      obtain ⟨m, hm, ts, hts, htool⟩ := (hmem tool).mp ht
      obtain ⟨p, hp, rfl⟩ := List.mem_map.mp hm
      exact ⟨p, hp, ts, hts, tool, htool, hn⟩
    · rintro ⟨p, hp, ts, hts, tool, htool, hn⟩
      exact ⟨tool, (hmem tool).mpr ⟨plugin p, List.mem_map_of_mem hp, ts, hts, htool⟩, hn⟩
  rw [← hdescribes]
  constructor
  · rintro ⟨ts, hts, htool⟩
    -- the reply to one id fixes the list of tools
    have he := (hts .null).symm.trans (hreply .null)
    simp only [Mcp.rpcResult, Except.ok.injEq, Json.object.injEq, List.cons.injEq, Prod.mk.injEq,
      Json.array.injEq, true_and, and_true] at he
    exact he ▸ htool
  · intro htool
    exact ⟨tools.flatten, hreply, htool⟩

theorem toolsCall_host (w : α) {params arguments : Json} (id : Json)
    (h : Mcp.toolCall (s.host H plugin) params = .ok (name, arguments)) :
    Mcp.toolsCall (s.host H plugin) w params id =
      invoked H plugin w name arguments id (s.toolToPlugin name) := by
  rw [Mcp.toolsCall, h]
  simp only [host]
  cases s.toolToPlugin name with
  | none => rfl
  | some p => rfl

theorem Routed.exact (h : Routed H plugin s) : Exact H plugin s where
  callable name := by
    rw [listed_iff h.readable]
    constructor
    · rintro ⟨p, hp, hd⟩
      obtain ⟨q, hq⟩ := Option.ne_none_iff_exists'.mp (h.routed p hp name hd)
      obtain ⟨hmem, hdq⟩ := h.routes name q hq
      exact ⟨q, hmem, hdq, hq⟩
    · rintro ⟨p, hp, hd, -⟩
      exact ⟨p, hp, hd⟩
  registered name p hp := (h.routes name p hp).1
  calls _ _ _ id hc := toolsCall_host s.world id hc

theorem routed_new (w : α) : Routed H plugin (new w : McpPlugins ι α) where
  readable _ hp := absurd hp List.not_mem_nil
  routes _ _ hp := by cases hp
  routed _ hp := absurd hp List.not_mem_nil

theorem Routed.world {w : α} (h : Routed H plugin s) (hw : ∀ q ∈ s.plugins, Readable H plugin w q ∧
    ∀ name, Describes H plugin w q name ↔ Describes H plugin s.world q name) :
    Routed H plugin { s with world := w } where
  readable p hp := (hw p hp).1
  routes name p hp := by
    obtain ⟨hmem, hd⟩ := h.routes name p hp
    exact ⟨hmem, ((hw p hmem).2 name).mpr hd⟩
  routed p hp name hd := h.routed p hp name (((hw p hp).2 name).mp hd)

/-- After the loop of `register_plugin` the names of these tools lead to the plugin, and the
other names lead where they did. -/
theorem mapTools_spec {J : JsonCpp} {tools : List Json} (s : McpPlugins ι α)
    (h : ∀ tool ∈ tools, ∃ name, toolName J tool = .ok name) :
    ∃ m, mapTools J p tools s = ({ s with toolToPlugin := m }, none) ∧
      ∀ name, ((∃ tool ∈ tools, toolName J tool = .ok name) → m name = some p) ∧
        ((¬ ∃ tool ∈ tools, toolName J tool = .ok name) → m name = s.toolToPlugin name) := by
  induction tools generalizing s with
  | nil => exact ⟨s.toolToPlugin, rfl, fun name =>
    ⟨fun ⟨_, ht, _⟩ => absurd ht List.not_mem_nil, fun _ => rfl⟩⟩
  | cons tool tools ih =>
    obtain ⟨first, hfirst⟩ := h tool List.mem_cons_self
    obtain ⟨m, hm, hspec⟩ :=
      ih { s with toolToPlugin := Function.update s.toolToPlugin first (some p) }
      fun t ht => h t (List.mem_cons_of_mem _ ht)
    refine ⟨m, ?_, fun name => ⟨?_, ?_⟩⟩
    · rw [mapTools, hfirst]
      exact hm
    · rintro ⟨t, ht, hn⟩
      by_cases hrest : ∃ u ∈ tools, toolName J u = .ok name
      · exact (hspec name).1 hrest
      · -- the name is the first tool's alone, and the rest of the loop leaves it
        have htool : t = tool := by
          rcases List.mem_cons.mp ht with ht | ht
          · exact ht
          · exact absurd ⟨t, ht, hn⟩ hrest
        obtain rfl : first = name := Except.ok.inj (hfirst.symm.trans (htool ▸ hn))
        exact ((hspec first).2 hrest).trans (Function.update_self first (some p) s.toolToPlugin)
    · intro hnone
      have hne : name ≠ first := by
        intro he
        exact hnone ⟨tool, List.mem_cons_self, he ▸ hfirst⟩
      have hrest : ¬ ∃ u ∈ tools, toolName J u = .ok name := by
        rintro ⟨u, hu, hn⟩
        exact hnone ⟨u, List.mem_cons_of_mem _ hu, hn⟩
      exact ((hspec name).2 hrest).trans (Function.update_of_ne hne (some p) s.toolToPlugin)

/-- A plugin that can be read joins the list, and its names lead to it. -/
theorem registerPlugin_spec (h : Readable H plugin s.world p) :
    ∃ m, s.registerPlugin H plugin (some p) = (⟨s.plugins ++ [p], m, s.world⟩, none) ∧
      ∀ name, (Describes H plugin s.world p name → m name = some p) ∧
        (¬ Describes H plugin s.world p name → m name = s.toolToPlugin name) := by
  obtain ⟨tools, ht, hn⟩ := h
  obtain ⟨m, hm, hspec⟩ := mapTools_spec (p := p) { s with plugins := s.plugins ++ [p] } hn
  refine ⟨m, ?_, fun name => ⟨?_, ?_⟩⟩
  · simp only [registerPlugin, ht]
    exact hm
  · rintro ⟨tools', ht', hd⟩
    rw [ht] at ht'
    exact (hspec name).1 (Except.ok.inj ht' ▸ hd)
  · intro hd
    exact (hspec name).2 fun ht' => hd ⟨tools, ht, ht'⟩

theorem Routed.registerPlugin (h : Routed H plugin s) (hp : Readable H plugin s.world p) :
    Routed H plugin (s.registerPlugin H plugin (some p)).1 := by
  obtain ⟨m, hm, hspec⟩ := registerPlugin_spec hp
  rw [hm]
  refine ⟨?_, ?_, ?_⟩
  · intro q hq
    rcases List.mem_append.mp hq with hq | hq
    · exact h.readable q hq
    · exact List.mem_singleton.mp hq ▸ hp
  · intro name q hq
    by_cases hd : Describes H plugin s.world p name
    · -- the new plugin takes the name over
      obtain rfl : p = q := Option.some.inj (((hspec name).1 hd).symm.trans hq)
      exact ⟨List.mem_append_right _ (List.mem_singleton_self p), hd⟩
    · obtain ⟨hmem, hdq⟩ := h.routes name q (((hspec name).2 hd).symm.trans hq)
      exact ⟨List.mem_append_left _ hmem, hdq⟩
  · intro q hq name hdq
    by_cases hd : Describes H plugin s.world p name
    · simp only [(hspec name).1 hd, ne_eq, reduceCtorEq, not_false_eq_true]
    · rcases List.mem_append.mp hq with hq | hq
      · have hkept := h.routed q hq name hdq
        rwa [← (hspec name).2 hd] at hkept
      · exact absurd (List.mem_singleton.mp hq ▸ hdq) hd

variable [DecidableEq ι]

theorem mem_unregisterPlugin (q : ι) :
    q ∈ (s.unregisterPlugin (some p)).plugins ↔ q ∈ s.plugins ∧ q ≠ p := by
  simp [unregisterPlugin]

theorem toolToPlugin_unregisterPlugin (q : ι) :
    (s.unregisterPlugin (some p)).toolToPlugin name = some q ↔
      s.toolToPlugin name = some q ∧ q ≠ p := by
  simp only [unregisterPlugin]
  by_cases hp : s.toolToPlugin name = some p
  · simp only [hp, ↓reduceIte, reduceCtorEq, Option.some.injEq, false_iff, not_and, not_not]
    exact fun he => he.symm
  · simp only [hp, ↓reduceIte]
    constructor
    · intro hq
      exact ⟨hq, fun he => hp (he ▸ hq)⟩
    · exact And.left

theorem Routed.unregisterPlugin (h : Routed H plugin s)
    (hp : Sole H plugin s (.unregisterPlugin (some p))) :
    Routed H plugin (s.unregisterPlugin (some p)) := by
  refine ⟨?_, ?_, ?_⟩
  · intro q hq
    exact h.readable q ((mem_unregisterPlugin q).mp hq).1
  · intro name q hq
    obtain ⟨hq, hne⟩ := (toolToPlugin_unregisterPlugin q).mp hq
    obtain ⟨hmem, hd⟩ := h.routes name q hq
    exact ⟨(mem_unregisterPlugin q).mpr ⟨hmem, hne⟩, hd⟩
  · intro q hq name hd
    obtain ⟨hmem, hne⟩ := (mem_unregisterPlugin q).mp hq
    obtain ⟨r, hr⟩ := Option.ne_none_iff_exists'.mp (h.routed q hmem name hd)
    -- the owner of the name is another plugin than the one that goes
    have hrp : r ≠ p := by
      rintro rfl
      exact hne (hp name hr q hmem hd)
    have hstay := (toolToPlugin_unregisterPlugin r).mpr ⟨hr, hrp⟩
    rw [hstay]
    exact Option.some_ne_none r

/-- Where the map is as it should be, it stays so exactly if the plugin that is unregistered
shares no name that leads to it. -/
theorem Routed.unregister_iff (h : Routed H plugin s) :
    Exact H plugin (s.unregisterPlugin (some p)) ↔
      Sole H plugin s (.unregisterPlugin (some p)) := by
  constructor
  · intro he name hname q hq hd
    by_contra hne
    -- `q` still lists the name, and nothing is called under it
    have hread : ∀ r ∈ (s.unregisterPlugin (some p)).plugins, Readable H plugin s.world r := by
      intro r hr
      exact h.readable r ((mem_unregisterPlugin r).mp hr).1
    have hq' := (mem_unregisterPlugin q).mpr ⟨hq, hne⟩
    obtain ⟨r, -, -, hr⟩ := (he.callable name).mp ((listed_iff hread).mpr ⟨q, hq', hd⟩)
    obtain ⟨hr, hrp⟩ := (toolToPlugin_unregisterPlugin r).mp hr
    exact hrp (Option.some.inj (hr.symm.trans hname))
  · intro hp
    exact (h.unregisterPlugin hp).exact

theorem Routed.of_reach (h : Reach (pluginSystem H plugin) (Sole H plugin) s) :
    Routed H plugin s := by
  refine h.invariant (Routed H plugin) ?_ ?_
  · rintro s ⟨w, rfl⟩
    exact routed_new w
  · intro s a t _ hs hc ht
    cases a with
    | registerPlugin p =>
      obtain rfl := Option.some.inj ht
      cases p with
      | none => exact hs
      | some p => exact hs.registerPlugin hc
    | unregisterPlugin p =>
      obtain rfl := Option.some.inj ht
      cases p with
      | none => exact hs
      | some p => exact hs.unregisterPlugin hc
    | world w =>
      obtain rfl := Option.some.inj ht
      exact hs.world hc

/-- In the runs in which no plugin leaves while another one shares a name that leads to it, the
listed tools are the callable ones, and where a plugin does leave so, they are not. -/
theorem tools_callable (h : Reach (pluginSystem H plugin) (Sole H plugin) s) :
    Exact H plugin s ∧ ∀ p, Exact H plugin (s.unregisterPlugin (some p)) ↔
      Sole H plugin s (.unregisterPlugin (some p)) :=
  ⟨(Routed.of_reach h).exact, fun _ => (Routed.of_reach h).unregister_iff⟩

/-- Two plugins, each with a tool `time`. -/
def twoClocks (_ : Bool) : McpPlugin Unit where
  getToolDescriptions _ := .ok (ascii "[\x7b\"name\":\"time\"\x7d]")
  invokeTool _ _ _ := (.ok (ascii "\x7b\x7d"), ())

def clockHost : McpHost Unit where
  json := .ofTable [(ascii "[\x7b\"name\":\"time\"\x7d]", .array [.object [(ascii "name", Mcp.text "time")]]),
    (ascii "\x7b\x7d", .object [])]
  plugins := []
  toolToPlugin _ := none
  installPrefix := ascii "/usr/local"
  readFile _ _ := none

theorem twoClocks_describes (p : Bool) (name : Bytes) :
    Describes clockHost twoClocks () p name ↔ name = ascii "time" := by
  constructor
  · rintro ⟨tools, ht, tool, htool, hn⟩
    cases ht
    obtain rfl := List.mem_singleton.mp htool
    cases hn
    rfl
  · rintro rfl
    exact ⟨_, rfl, _, List.mem_cons_self, rfl⟩

theorem twoClocks_readable (p : Bool) : Readable clockHost twoClocks () p := by
  refine ⟨_, rfl, ?_⟩
  intro tool htool
  obtain rfl := List.mem_singleton.mp htool
  exact ⟨_, rfl⟩

/-- Both plugins are registered, the second one last. -/
def bothClocks : McpPlugins Bool Unit :=
  (((new ()).registerPlugin clockHost twoClocks (some false)).1.registerPlugin clockHost twoClocks
    (some true)).1

/-- The first plugin may leave, since the second one took its tool over. -/
theorem tools_callable_clocks :
    Exact clockHost twoClocks (bothClocks.unregisterPlugin (some false)) := by
  have hnew : Reach (pluginSystem clockHost twoClocks) (Sole clockHost twoClocks) (new ()) :=
    .init ⟨(), rfl⟩
  have hfirst : Reach (pluginSystem clockHost twoClocks) (Sole clockHost twoClocks) _ :=
    .step (a := .registerPlugin (some false)) hnew (twoClocks_readable false) rfl
  have hboth : Reach (pluginSystem clockHost twoClocks) (Sole clockHost twoClocks) bothClocks :=
    .step (a := .registerPlugin (some true)) hfirst (twoClocks_readable true) rfl
  have hsole : Sole clockHost twoClocks bothClocks (.unregisterPlugin (some false)) := by
    intro name hname q hq hd
    obtain rfl := (twoClocks_describes q name).mp hd
    cases hname
  exact (tools_callable (.step (a := .unregisterPlugin (some false)) hboth hsole rfl)).1

/-- When the second plugin leaves, the first one still lists the tool, and nobody can call it. -/
theorem tools_callable_fails :
    ¬ ∀ s, Reach (pluginSystem clockHost twoClocks) anyStep s → Exact clockHost twoClocks s := by
  intro h
  obtain ⟨s, hs⟩ : ∃ s, exec (pluginSystem clockHost twoClocks) (new ())
      [.registerPlugin (some false), .registerPlugin (some true), .unregisterPlugin (some true)] =
        some s := ⟨_, rfl⟩
  have he := h s (reach_of_exec _ ⟨(), rfl⟩ hs)
  have hs := Option.some.inj hs
  have hfirst : false ∈ s.plugins := hs ▸ List.mem_cons_self
  have hnobody : s.toolToPlugin (ascii "time") = none := hs ▸ rfl
  have hlisted : Listed clockHost twoClocks s (ascii "time") :=
    (listed_iff fun p _ => twoClocks_readable p).mpr ⟨false, hfirst,
      (twoClocks_describes ..).mpr rfl⟩
  obtain ⟨p, -, -, hp⟩ := (he.callable (ascii "time")).mp hlisted
  rw [hnobody] at hp
  cases hp

end McpPlugins

end CogServer
