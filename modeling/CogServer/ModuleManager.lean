import CogServer.LineDiscipline
import Mathlib.Data.List.TakeWhile
import Mathlib.Logic.Function.Basic

/-! The modules of the server, with the commands that they register. -/
namespace CogServer

/-- What the `execute` of a request does with the modules. -/
inductive CommandKind
  /-- It is generated by `DECLARE_CMD_REQUEST`, with this `mod_type`. -/
  | cmd (modType : Bytes)
  | load | unload | other
  deriving DecidableEq, Repr

/-- A module as its file has it: the name of its class, and the commands that its constructor and
its `init` register. It declares its commands for its own class, and its destructor unregisters
them. -/
structure Library where
  id : Bytes
  constructor : List (Bytes × CommandKind)
  init : List (Bytes × CommandKind)
  declared : ∀ c ∈ constructor ++ init, ∀ t, c.2 = .cmd t → t = id
  identifier : 47 ∉ id

/-- The files: those of a name in the absolute paths of `module_paths`, and what `dlopen` and
`dlsym` make of one. -/
structure ModuleFiles where
  find : Bytes → List Bytes
  library : Bytes → Option Library

/-- An entry of the module map; `module` is the pointer to the module. -/
structure ModuleData where
  module : ℕ
  filename : Bytes
  library : Library

/-- A factory, which is a member of a module. -/
structure Factory where
  module : ℕ
  kind : CommandKind
  deriving DecidableEq, Repr

namespace Library

def commands (l : Library) : List (Bytes × CommandKind) := l.constructor ++ l.init

end Library

def ModuleData.id (d : ModuleData) : Bytes := d.library.id

/-- The text after the last slash. -/
def getFilename (fullpath : Bytes) : Bytes := (fullpath.reverse.takeWhile (· ≠ 47)).reverse

theorem getFilename_eq {p : Bytes} (h : 47 ∉ p) : getFilename p = p := by
  have hall : p.reverse.takeWhile (· ≠ 47) = p.reverse := by
    apply List.takeWhile_eq_self_iff.mpr
    intro b hb
    have hne : b ≠ 47 := fun heq => h (heq ▸ List.mem_reverse.mp hb)
    simpa using hne
  rw [getFilename, hall, List.reverse_reverse]

/-- The module map, the table of the factories, and the modules that there are. -/
structure ModuleManager where
  modules : Bytes → Option ModuleData
  factories : Bytes → Option Factory
  loaded : ℕ → Option ModuleData
  nextModule : ℕ

namespace ModuleManager

def new : ModuleManager where
  modules _ := none
  factories _ := none
  loaded _ := none
  nextModule := 0

/-- `insert` keeps what is there. -/
def registerRequest (t : Bytes → Option Factory) (name : Bytes) (f : Factory) :
    Bytes → Option Factory :=
  if t name = none then Function.update t name (some f) else t

def unregisterRequest (t : Bytes → Option Factory) (name : Bytes) : Bytes → Option Factory :=
  Function.update t name none

def registerAll (t : Bytes → Option Factory) (m : ℕ) (commands : List (Bytes × CommandKind)) :
    Bytes → Option Factory :=
  commands.foldl (fun t c => registerRequest t c.1 ⟨m, c.2⟩) t

def unregisterAll (t : Bytes → Option Factory) (commands : List (Bytes × CommandKind)) :
    Bytes → Option Factory :=
  commands.foldl (fun t c => unregisterRequest t c.1) t

def getModuleData (g : ModuleManager) (moduleId : Bytes) : Option ModuleData :=
  g.modules (getFilename moduleId)

def getModule (g : ModuleManager) (moduleId : Bytes) : Option ℕ :=
  (g.getModuleData moduleId).map (·.module)

/-- What a load comes to; both `already` and `found` count as a success. -/
inductive Load
  | failed | already
  | found (filename : Bytes) (l : Library)

/-- `loadAbsPath`, up to the call of the load function. -/
def loadAbsPath (E : ModuleFiles) (g : ModuleManager) (path : Bytes) : Load :=
  if (g.modules (getFilename path)).isSome then .already
  else match E.library path with
    | none => .failed
    | some l => .found (getFilename path) l

/-- The loop over the module paths. -/
def loadFirst (E : ModuleFiles) (g : ModuleManager) : List Bytes → Load
  | [] => .failed
  | path :: paths =>
    match g.loadAbsPath E path with
    | .failed => g.loadFirst E paths
    | o => o

def loadModule (E : ModuleFiles) (g : ModuleManager) (path : Bytes) : Load :=
  match path with
  | [] => .failed
  | c :: _ => if c = 47 then g.loadAbsPath E path else g.loadFirst E (E.find path)

/-- The load function makes the next module. -/
def made (g : ModuleManager) (filename : Bytes) (l : Library) : ModuleData :=
  ⟨g.nextModule, filename, l⟩

/-- The call of the load function, which is the constructor of the module. -/
def construct (g : ModuleManager) (filename : Bytes) (l : Library) : ModuleManager where
  modules := g.modules
  factories := registerAll g.factories g.nextModule l.constructor
  loaded := Function.update g.loaded g.nextModule (some (g.made filename l))
  nextModule := g.nextModule + 1

/-- The rest of `loadAbsPath`: two entries in the module map, and then `init`. -/
def enter (g : ModuleManager) (d : ModuleData) : ModuleManager :=
  { g with
    modules := Function.update (Function.update g.modules d.id (some d)) d.filename (some d)
    factories := registerAll g.factories d.module d.library.init }

/-- The unload function, which is the destructor of the module, and the end of its two entries. -/
def unload (g : ModuleManager) (d : ModuleData) : ModuleManager :=
  { g with
    modules := Function.update (Function.update g.modules d.filename none) d.id none
    factories := unregisterAll g.factories d.library.commands
    loaded := Function.update g.loaded d.module none }

/-- `unloadModule`; whether `dlclose` fails changes only what it returns. -/
def unloadModule (g : ModuleManager) (moduleId : Bytes) : ModuleManager :=
  match g.getModuleData moduleId with
  | none => g
  | some d => g.unload d

def moduleList : List Bytes :=
  [ascii "libbuiltinreqs.so", ascii "libtop-shell.so", ascii "libscheme-shell.so", ascii "libsexpr-shell.so",
    ascii "libjson-shell.so", ascii "libmcp-shell.so", ascii "libpy-shell.so"]

/-- A load with nothing in between. -/
def loadNow (E : ModuleFiles) (g : ModuleManager) (path : Bytes) : ModuleManager :=
  match g.loadModule E path with
  | .found filename l => (g.construct filename l).enter (g.made filename l)
  | .failed | .already => g

def loadModules (E : ModuleFiles) (g : ModuleManager) : ModuleManager :=
  moduleList.foldl (loadNow E) g

variable {g : ModuleManager} {t : Bytes → Option Factory} {name : Bytes} {f : Factory} {m : ℕ}
  {d : ModuleData}

/-- What is registered was there before, or is of the module. -/
theorem registerAll_eq_some {commands : List (Bytes × CommandKind)}
    (h : registerAll t m commands name = some f) :
    t name = some f ∨ f.module = m ∧ (name, f.kind) ∈ commands := by
  induction commands generalizing t with
  | nil => exact .inl h
  | cons c commands ih =>
    rcases ih (t := registerRequest t c.1 ⟨m, c.2⟩) h with h | ⟨hm, hc⟩
    · unfold registerRequest at h
      split at h
      · by_cases hn : name = c.1
        · subst hn
          rw [Function.update_self] at h
          obtain rfl := Option.some.inj h
          exact .inr ⟨rfl, List.mem_cons_self⟩
        · rw [Function.update_of_ne hn] at h
          exact .inl h
      · exact .inl h
    · exact .inr ⟨hm, List.mem_cons_of_mem _ hc⟩

/-- What is still registered was there before, under another name. -/
theorem unregisterAll_eq_some {commands : List (Bytes × CommandKind)}
    (h : unregisterAll t commands name = some f) :
    t name = some f ∧ ∀ kind, (name, kind) ∉ commands := by
  induction commands generalizing t with
  | nil => exact ⟨h, fun _ => List.not_mem_nil⟩
  | cons c commands ih =>
    obtain ⟨h, hnot⟩ := ih (t := unregisterRequest t c.1) h
    unfold unregisterRequest at h
    by_cases hn : name = c.1
    · subst hn
      simp at h
    · rw [Function.update_of_ne hn] at h
      refine ⟨h, ?_⟩
      intro kind hmem
      rcases List.mem_cons.mp hmem with rfl | hmem
      · exact hn rfl
      · exact hnot kind hmem

/-- The entries are those of loaded modules, and so are the factories. -/
structure Consistent (g : ModuleManager) : Prop where
  fresh : ∀ m, g.nextModule ≤ m → g.loaded m = none
  mapped : ∀ k d, g.modules k = some d → g.loaded d.module = some d ∧ (k = d.filename ∨ k = d.id)
  registered : ∀ n f, g.factories n = some f →
    ∃ d, g.loaded f.module = some d ∧ (n, f.kind) ∈ d.library.commands

theorem consistent_new : Consistent new where
  fresh _ _ := rfl
  mapped _ _ h := by cases h
  registered _ _ h := by cases h

theorem Consistent.lt (h : g.Consistent) (hm : g.loaded m = some d) : m < g.nextModule := by
  by_contra hge
  exact nomatch (h.fresh m (Nat.not_lt.mp hge)).symm.trans hm

/-- The new module is none of those that are loaded. -/
theorem Consistent.loaded_construct (h : g.Consistent) (filename : Bytes) (l : Library)
    (hm : g.loaded m = some d) : (g.construct filename l).loaded m = some d :=
  (Function.update_of_ne (Nat.ne_of_lt (h.lt hm)) _ _).trans hm

theorem Consistent.construct (h : g.Consistent) (filename : Bytes) (l : Library) :
    (g.construct filename l).Consistent := by
  refine ⟨?_, ?_, ?_⟩
  · intro m hm
    have hlt : g.nextModule < m := hm
    exact (Function.update_of_ne (Nat.ne_of_gt hlt) _ _).trans (h.fresh m (Nat.le_of_lt hlt))
  · intro k d hk
    exact ⟨h.loaded_construct filename l (h.mapped k d hk).1, (h.mapped k d hk).2⟩
  · intro n f hf
    rcases registerAll_eq_some hf with hf | ⟨hm, hc⟩
    · obtain ⟨d, hd, hc⟩ := h.registered n f hf
      exact ⟨d, h.loaded_construct filename l hd, hc⟩
    · refine ⟨g.made filename l, ?_, List.mem_append_left _ hc⟩
      rw [hm]
      exact Function.update_self ..

theorem Consistent.enter (h : g.Consistent) (hd : g.loaded d.module = some d) :
    (g.enter d).Consistent := by
  refine ⟨h.fresh, ?_, ?_⟩
  · intro k d' hk
    simp only [ModuleManager.enter, Function.update_apply] at hk
    split at hk
    · rename_i hkey
      obtain rfl := Option.some.inj hk
      exact ⟨hd, .inl hkey⟩
    · split at hk
      · rename_i hkey
        obtain rfl := Option.some.inj hk
        exact ⟨hd, .inr hkey⟩
      · exact h.mapped k d' hk
  · intro n f hf
    rcases registerAll_eq_some hf with hf | ⟨hm, hc⟩
    · exact h.registered n f hf
    · exact ⟨d, hm ▸ hd, List.mem_append_right _ hc⟩

theorem Consistent.unload (h : g.Consistent) (hd : g.loaded d.module = some d) :
    (g.unload d).Consistent := by
  have hother : ∀ {m d'}, g.loaded m = some d' → m ≠ d.module →
      (g.unload d).loaded m = some d' := by
    intro m d' hm hne
    exact (Function.update_of_ne hne _ _).trans hm
  refine ⟨?_, ?_, ?_⟩
  · intro m hm
    simp only [ModuleManager.unload, Function.update_apply]
    split
    · rfl
    · exact h.fresh m hm
  · intro k d' hk
    simp only [ModuleManager.unload, Function.update_apply] at hk
    split at hk
    · cases hk
    · rename_i hid
      split at hk
      · cases hk
      · rename_i hfilename
        obtain ⟨hd', hkey⟩ := h.mapped k d' hk
        refine ⟨hother hd' ?_, hkey⟩
        -- Both entries of the module are gone.
        intro heq
        rw [heq, hd] at hd'
        obtain rfl := Option.some.inj hd'
        exact hkey.elim hfilename hid
  · intro n f hf
    obtain ⟨hf, hnot⟩ := unregisterAll_eq_some hf
    obtain ⟨d', hd', hc⟩ := h.registered n f hf
    refine ⟨d', hother hd' ?_, hc⟩
    intro heq
    rw [heq, hd] at hd'
    obtain rfl := Option.some.inj hd'
    exact hnot f.kind hc

/-- An entry stays, or becomes another one. -/
theorem modules_enter {k : Bytes} {d' : ModuleData} (h : (g.enter d).modules k = some d') :
    d' = d ∨ g.modules k = some d' := by
  simp only [ModuleManager.enter, Function.update_apply] at h
  split at h
  · exact .inl (Option.some.inj h).symm
  · split at h
    · exact .inl (Option.some.inj h).symm
    · exact .inr h

theorem modules_enter_ne_none {k : Bytes} (h : k = d.id ∨ g.modules k ≠ none) :
    (g.enter d).modules k ≠ none := by
  simp only [ModuleManager.enter, Function.update_apply]
  split
  · exact nofun
  · split
    · exact nofun
    · rename_i hid
      exact h.resolve_left hid

/-- `getModule` finds a module for every command that can be given. -/
def Answers (g : ModuleManager) : Prop :=
  ∀ n f t, g.factories n = some f → f.kind = .cmd t → g.modules (getFilename t) ≠ none

/-- A command of a module is looked up under the name of the module. -/
theorem getFilename_of_declared {l : Library} {c : Bytes × CommandKind} {t : Bytes}
    (hc : c ∈ l.commands) (ht : c.2 = .cmd t) : getFilename t = l.id := by
  rw [l.declared c hc t ht]
  exact getFilename_eq l.identifier

theorem Consistent.loadNow (h : g.Consistent) (ha : g.Answers) (E : ModuleFiles) (path : Bytes) :
    (loadNow E g path).Consistent ∧ (loadNow E g path).Answers := by
  unfold ModuleManager.loadNow
  split
  · rename_i filename l _
    have hloaded : (g.construct filename l).loaded (g.made filename l).module =
        some (g.made filename l) :=
      Function.update_self ..
    refine ⟨(h.construct filename l).enter hloaded, ?_⟩
    intro n f t hf hk
    apply modules_enter_ne_none
    rcases registerAll_eq_some hf with hf | ⟨-, hc⟩
    · rcases registerAll_eq_some hf with hf | ⟨-, hc⟩
      · exact .inr (ha n f t hf hk)
      · exact .inl (getFilename_of_declared (List.mem_append_left _ hc) hk)
    · exact .inl (getFilename_of_declared (List.mem_append_right _ hc) hk)
  · exact ⟨h, ha⟩
  · exact ⟨h, ha⟩

theorem Consistent.loadModules (h : g.Consistent) (ha : g.Answers) (E : ModuleFiles) :
    (g.loadModules E).Consistent ∧ (g.loadModules E).Answers := by
  suffices hall : ∀ paths : List Bytes, ∀ g : ModuleManager, g.Consistent → g.Answers →
      (paths.foldl (ModuleManager.loadNow E) g).Consistent ∧
        (paths.foldl (ModuleManager.loadNow E) g).Answers from
    hall moduleList g h ha
  intro paths
  induction paths with
  | nil => exact fun g h ha => ⟨h, ha⟩
  | cons path paths ih => exact fun g h ha => ih _ (h.loadNow ha E path).1 (h.loadNow ha E path).2

theorem modules_unload {k : Bytes} {d' : ModuleData} (h : (g.unload d).modules k = some d') :
    g.modules k = some d' := by
  simp only [ModuleManager.unload, Function.update_apply] at h
  split at h
  · cases h
  · split at h
    · cases h
    · exact h

end ModuleManager

end CogServer
