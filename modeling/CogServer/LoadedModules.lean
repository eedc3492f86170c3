import CogServer.ModuleSearch

/-! What holds after any sequence of loads and unloads: the owners of the factories, the names of
the commands, and the keys of the module map. -/
namespace CogServer

open Transition
open ModuleManager (registerRequest unregisterRequest registerAll unregisterAll
  registerAll_eq_some unregisterAll_eq_some)

theorem slash_notMem_getFilename (p : Bytes) : 47 ∉ getFilename p := by
  unfold getFilename
  intro h
  have hall := List.mem_takeWhile_imp (List.mem_reverse.mp h)
  simp at hall

theorem getFilename_getFilename (p : Bytes) : getFilename (getFilename p) = getFilename p :=
  getFilename_eq (slash_notMem_getFilename p)

/-- What stands before the last slash does not matter. -/
theorem getFilename_append_slash (d p : Bytes) : getFilename (d ++ 47 :: p) = getFilename p := by
  unfold getFilename
  rw [List.reverse_append, List.reverse_cons, List.append_assoc, List.takeWhile_append]
  split
  · rename_i hall
    have hwhole : p.reverse.takeWhile (· ≠ 47) = p.reverse :=
      (List.takeWhile_prefix _).eq_of_length hall
    rw [hwhole]
    simp
  · rfl

theorem getFilename_joinPath (d p : Bytes) : getFilename (joinPath d p) = getFilename p := by
  unfold joinPath
  split
  · rfl
  · split
    · -- no slash is put between the two: there is nothing before it, or there is one already
      rename_i hd
      rcases hd with rfl | hd
      · rfl
      · obtain ⟨front, rfl⟩ : ∃ front, d = front ++ [47] := by
          obtain ⟨front, hfront⟩ := List.getLast?_eq_some_iff.mp hd
          exact ⟨front, hfront⟩
        rw [List.append_assoc]
        exact getFilename_append_slash front p
    · exact getFilename_append_slash d p

/-- The commands that are registered afterwards. -/
theorem registerAll_ne_none {t : Bytes → Option Factory} {m : ℕ} {name : Bytes}
    {commands : List (Bytes × CommandKind)} : registerAll t m commands name ≠ none ↔
      t name ≠ none ∨ name ∈ commands.map (·.1) := by
  induction commands generalizing t with
  | nil => simp [registerAll]
  | cons c commands ih =>
    have hone : registerRequest t c.1 ⟨m, c.2⟩ name ≠ none ↔ t name ≠ none ∨ name = c.1 := by
      unfold registerRequest
      by_cases hn : name = c.1
      · subst hn
        by_cases ht : t c.1 = none <;> simp [ht]
      · split <;> simp [hn, Function.update_of_ne]
    have hrest := ih (t := registerRequest t c.1 ⟨m, c.2⟩)
    rw [List.map_cons, List.mem_cons, ← or_assoc, ← hone]
    exact hrest

theorem unregisterAll_ne_none {t : Bytes → Option Factory} {name : Bytes}
    {commands : List (Bytes × CommandKind)} : unregisterAll t commands name ≠ none ↔
      t name ≠ none ∧ name ∉ commands.map (·.1) := by
  induction commands generalizing t with
  | nil => simp [unregisterAll]
  | cons c commands ih =>
    have hone : unregisterRequest t c.1 name ≠ none ↔ t name ≠ none ∧ name ≠ c.1 := by
      unfold unregisterRequest
      by_cases hn : name = c.1
      · subst hn
        simp
      · simp [hn, Function.update_of_ne]
    have hrest := ih (t := unregisterRequest t c.1)
    rw [List.map_cons, List.mem_cons, not_or, ← and_assoc, ← hone]
    exact hrest

namespace ModuleTable

/-- The calls, each with the files as they are at its time. -/
inductive Act
  | load (E : FileSystem) (fuel : ℕ) (path : Bytes)
  | unload (moduleId : Bytes)

variable (modulePaths : List Bytes)

/-- A call that does not come to its end is no step. -/
def step (g : ModuleTable) : Act → Option ModuleTable
  | .load E fuel path => (loadModule E modulePaths fuel g path).map (·.2)
  | .unload moduleId => some (g.unloadModule moduleId)

def tableSystem : System ModuleTable Act where
  init g := g = new
  step := step modulePaths

/-- The entry that `loadAbsPath` makes. -/
def made (E : FileSystem) (g : ModuleTable) (path : Bytes) : Option ModuleEntry :=
  if (g.modules (getFilename path)).isSome then none
  else ((E.dlopen path).bind SharedLibrary.complete).map fun found =>
    g.entry path found.1 found.2

/-- The entry that a call makes: that of the file where the search ends. -/
def makes (g : ModuleTable) : Act → Option ModuleEntry
  | .load E fuel path =>
    match g.stop E modulePaths fuel path with
    | some (.file file) => g.made E file
    | _ => none
  | .unload _ => none

/-- The entry that a call ends. -/
def ends (g : ModuleTable) : Act → Option ModuleEntry
  | .load _ _ _ => none
  | .unload moduleId => g.getModuleData moduleId

/-- The next module, whose file name is no key yet. -/
structure New (g : ModuleTable) (d : ModuleEntry) : Prop where
  module : d.module = g.nextModule
  filename : getFilename d.filename = d.filename
  unused : g.modules d.filename = none

variable {modulePaths} {g g' : ModuleTable} {a : Act} {d : ModuleEntry} {m : ℕ} {k : Bytes}

theorem made_new {E : FileSystem} {path : Bytes} (h : g.made E path = some d) : New g d := by
  unfold made at h
  split at h
  · cases h
  · rename_i hunused
    obtain ⟨found, -, rfl⟩ := Option.map_eq_some_iff.mp h
    exact ⟨rfl, getFilename_getFilename path, by simpa [entry] using hunused⟩

/-- What `loadAbsPath` does when it accepts the file. -/
theorem loadAbsPath_snd (E : FileSystem) (g : ModuleTable) (path : Bytes) :
    (g.loadAbsPath E path).2 = ((g.made E path).map g.load).getD g := by
  unfold loadAbsPath made
  split
  · rfl
  · cases (E.dlopen path).bind SharedLibrary.complete with
    | none => rfl
    | some found => rfl

/-- A call makes an entry, ends one, or changes nothing. -/
theorem step_cases (h : step modulePaths g a = some g') :
    (∃ d, makes modulePaths g a = some d ∧ ends g a = none ∧ New g d ∧ g' = g.load d) ∨
    (∃ d, makes modulePaths g a = none ∧ ends g a = some d ∧ (∃ k, g.modules k = some d) ∧
      g' = g.unload d) ∨
    makes modulePaths g a = none ∧ ends g a = none ∧ g' = g := by
  cases a with
  | load E fuel path =>
    obtain ⟨r, hr, rfl⟩ := Option.map_eq_some_iff.mp h
    rw [loadModule_eq] at hr
    -- only a file that is accepted changes the table
    match hstop : g.stop E modulePaths fuel path with
    | none =>
      rw [hstop] at hr
      obtain rfl := Option.some.inj hr
      exact .inr (.inr ⟨by simp [makes, hstop], rfl, rfl⟩)
    | some .thrown =>
      rw [hstop] at hr
      obtain rfl := Option.some.inj hr
      exact .inr (.inr ⟨by simp [makes, hstop], rfl, rfl⟩)
    | some .deep =>
      rw [hstop] at hr
      cases hr
    | some (.file file) =>
      rw [hstop] at hr
      obtain rfl := Option.some.inj hr
      have hmakes : makes modulePaths g (.load E fuel path) = g.made E file := by
        simp [makes, hstop]
      dsimp only
      rw [loadAbsPath_snd, hmakes]
      cases hmade : g.made E file with
      | none => exact .inr (.inr ⟨rfl, rfl, rfl⟩)
      | some d => exact .inl ⟨d, rfl, rfl, made_new hmade, rfl⟩
  | unload moduleId =>
    obtain rfl := Option.some.inj h
    cases hd : g.getModuleData moduleId with
    | none => exact .inr (.inr ⟨rfl, hd, by simp [unloadModule, hd]⟩)
    | some d => exact .inr (.inl ⟨d, rfl, hd, ⟨_, hd⟩, by simp [unloadModule, hd]⟩)

/-- What stands in the table belongs to modules that are loaded. -/
structure Sound (g : ModuleTable) : Prop where
  fresh : ∀ m, g.nextModule ≤ m → g.loaded m = none
  numbered : ∀ m d, g.loaded m = some d → d.module = m ∧ getFilename d.filename = d.filename
  mapped : ∀ k d, g.modules k = some d → g.loaded d.module = some d ∧ (k = d.id ∨ k = d.filename)
  registered : ∀ n f, g.factories n = some f →
    ∃ d, g.loaded f.module = some d ∧ (n, f.kind) ∈ d.code.commands

theorem sound_new : Sound new where
  fresh _ _ := rfl
  numbered _ _ h := by cases h
  mapped _ _ h := by cases h
  registered _ _ h := by cases h

/-- The new module is none of those that are loaded. -/
theorem Sound.ne_module (h : g.Sound) (hnew : New g d) {d' : ModuleEntry}
    (hm : g.loaded m = some d') : m ≠ d.module := by
  rintro rfl
  have hnone := h.fresh d.module (Nat.le_of_eq hnew.module.symm)
  rw [hnone] at hm
  cases hm

theorem loaded_load (hm : m ≠ d.module) : (g.load d).loaded m = g.loaded m :=
  Function.update_of_ne hm ..

theorem loaded_load_self (g : ModuleTable) (d : ModuleEntry) :
    (g.load d).loaded d.module = some d :=
  Function.update_self ..

theorem loaded_unload (hm : m ≠ d.module) : (g.unload d).loaded m = g.loaded m :=
  Function.update_of_ne hm ..

theorem modules_load (k : Bytes) : (g.load d).modules k =
    if k = d.id ∨ k = d.filename then some d else g.modules k := by
  simp only [load, Function.update_apply]
  by_cases hf : k = d.filename <;> by_cases hi : k = d.id <;> simp [hf, hi]

theorem modules_unload (k : Bytes) : (g.unload d).modules k =
    if k = d.id ∨ k = d.filename then none else g.modules k := by
  simp only [unload, Function.update_apply]
  by_cases hf : k = d.filename <;> by_cases hi : k = d.id <;> simp [hf, hi]

theorem Sound.load (h : g.Sound) (hnew : New g d) : (g.load d).Sound := by
  have hkeep : ∀ {m d'}, g.loaded m = some d' → (g.load d).loaded m = some d' :=
    fun hm => (loaded_load (h.ne_module hnew hm)).trans hm
  have hself := loaded_load_self g d
  refine ⟨?_, ?_, ?_, ?_⟩
  · intro m hm
    have hlt : g.nextModule < m := hm
    rw [loaded_load (by rw [hnew.module]; exact Nat.ne_of_gt hlt)]
    exact h.fresh m (Nat.le_of_lt hlt)
  · intro m d' hm
    by_cases hd : m = d.module
    · subst hd
      obtain rfl := Option.some.inj (hself.symm.trans hm)
      exact ⟨rfl, hnew.filename⟩
    · rw [loaded_load hd] at hm
      exact h.numbered m d' hm
  · intro k d' hk
    rw [modules_load] at hk
    split at hk
    · rename_i hkey
      obtain rfl := Option.some.inj hk
      exact ⟨hself, hkey⟩
    · exact ⟨hkeep (h.mapped k d' hk).1, (h.mapped k d' hk).2⟩
  · intro n f hf
    -- a name that was taken keeps its factory, and the others belong to the new module
    rcases registerAll_eq_some hf with hf | ⟨hm, hc⟩
    · rcases registerAll_eq_some hf with hf | ⟨hm, hc⟩
      · obtain ⟨d', hd', hc⟩ := h.registered n f hf
        exact ⟨d', hkeep hd', hc⟩
      · exact ⟨d, by rw [hm]; exact hself, List.mem_append_left _ hc⟩
    · exact ⟨d, by rw [hm]; exact hself, List.mem_append_right _ hc⟩

theorem Sound.unload (h : g.Sound) (hk : g.modules k = some d) : (g.unload d).Sound := by
  have hd := (h.mapped k d hk).1
  refine ⟨?_, ?_, ?_, ?_⟩
  · intro m hm
    simp only [ModuleTable.unload, Function.update_apply]
    split
    · rfl
    · exact h.fresh m hm
  · intro m d' hm
    simp only [ModuleTable.unload, Function.update_apply] at hm
    split at hm
    · cases hm
    · exact h.numbered m d' hm
  · intro k' d' hk'
    rw [modules_unload] at hk'
    split at hk'
    · cases hk'
    · rename_i hkey
      obtain ⟨hd', hkey'⟩ := h.mapped k' d' hk'
      refine ⟨?_, hkey'⟩
      rw [loaded_unload, hd']
      -- both entries of the module are gone
      intro heq
      rw [heq, hd] at hd'
      obtain rfl := Option.some.inj hd'
      exact hkey hkey'
  · intro n f hf
    -- no name that the module declares is left
    obtain ⟨hf, hnot⟩ := unregisterAll_eq_some hf
    obtain ⟨d', hd', hc⟩ := h.registered n f hf
    refine ⟨d', ?_, hc⟩
    rw [loaded_unload, hd']
    intro heq
    rw [heq, hd] at hd'
    obtain rfl := Option.some.inj hd'
    exact hnot f.kind hc

theorem Sound.step (h : g.Sound) (ht : step modulePaths g a = some g') : g'.Sound := by
  rcases step_cases ht with ⟨d, -, -, hnew, rfl⟩ | ⟨d, -, -, ⟨k, hk⟩, rfl⟩ | ⟨-, -, rfl⟩
  · exact h.load hnew
  · exact h.unload hk
  · exact h

theorem Sound.of_reach {C : ModuleTable → Act → Prop} (hr : Reach (tableSystem modulePaths) C g) :
    g.Sound := by
  refine hr.invariant Sound ?_ ?_
  · rintro g rfl
    exact sound_new
  · intro g a g' _ hg _ ht
    exact hg.step ht

section Files

/-- A library whose module registers its commands in `init`. -/
def moduleFile (id : Bytes) (names : List Bytes) : SharedLibrary :=
  ⟨some (some id), some ⟨[], names.map fun name => (name, .other)⟩, true⟩

/-- The files of two modules, of which the first has the id `A`. -/
def twoFiles (idB : Bytes) (namesA namesB : List Bytes) : FileSystem where
  fileExists p := some (p = ascii "/a.so" ∨ p = ascii "/b.so")
  dlopen p :=
    if p = ascii "/a.so" then some (moduleFile (ascii "A") namesA)
    else if p = ascii "/b.so" then some (moduleFile idB namesB) else none

def loadBoth (E : FileSystem) : List Act :=
  [.load E 1 (ascii "/a.so"), .load E 1 (ascii "/b.so")]

section Steps

variable (idB : Bytes) (namesA namesB : List Bytes)

/-- The entries of the two modules. -/
def entryA : ModuleEntry :=
  ⟨0, ascii "A", ascii "a.so", [], ⟨[], namesA.map fun name => (name, .other)⟩⟩

def entryB : ModuleEntry :=
  ⟨1, idB, ascii "b.so", [], ⟨[], namesB.map fun name => (name, .other)⟩⟩

def bothLoaded : ModuleTable := (new.load (entryA namesA)).load (entryB idB namesB)

theorem step_first : (tableSystem [installPath]).step new
    (.load (twoFiles idB namesA namesB) 1 (ascii "/a.so")) = some (new.load (entryA namesA)) := rfl

theorem step_second : (tableSystem [installPath]).step (new.load (entryA namesA))
    (.load (twoFiles idB namesA namesB) 1 (ascii "/b.so")) =
      some (bothLoaded idB namesA namesB) := rfl

theorem makes_first : makes [installPath] new
    (.load (twoFiles idB namesA namesB) 1 (ascii "/a.so")) = some (entryA namesA) := rfl

theorem makes_second : makes [installPath] (new.load (entryA namesA))
    (.load (twoFiles idB namesA namesB) 1 (ascii "/b.so")) = some (entryB idB namesB) := rfl

theorem exec_loadBoth : exec (tableSystem [installPath]) new
    (loadBoth (twoFiles idB namesA namesB)) = some (bothLoaded idB namesA namesB) := by
  simp [exec, loadBoth, step_first, step_second]

/-- The first module is still loaded. -/
theorem loaded_bothLoaded : (bothLoaded idB namesA namesB).loaded 0 = some (entryA namesA) := rfl

end Steps

theorem loaded_load_new {d d' : ModuleEntry} {m : ℕ} (h : (new.load d).loaded m = some d') :
    d' = d := by
  by_cases hm : m = d.module
  · subst hm
    exact (Option.some.inj ((loaded_load_self new d).symm.trans h)).symm
  · rw [loaded_load hm] at h
    cases h

end Files

section Owners

/-- Every factory belongs to a module that is loaded and has declared the name, so no request is
created or asked about through a pointer into a module that is gone. -/
theorem factories_loaded (hr : Reach (tableSystem modulePaths) anyStep g) :
    (∀ name f, g.factories name = some f →
      ∃ d, g.loaded f.module = some d ∧ name ∈ d.code.names) ∧
    ∀ name, g.createRequest name ≠ none := by
  have hsound := Sound.of_reach hr
  have howned : ∀ name f, g.factories name = some f →
      ∃ d, g.loaded f.module = some d ∧ name ∈ d.code.names := by
    intro name f hf
    obtain ⟨d, hd, hc⟩ := hsound.registered name f hf
    exact ⟨d, hd, List.mem_map.mpr ⟨_, hc, rfl⟩⟩
  refine ⟨howned, ?_⟩
  intro name
  unfold createRequest
  cases hf : g.factories name with
  | none => simp
  | some f =>
    obtain ⟨d, hd, -⟩ := howned name f hf
    simp [follow, hd]

/-- Two modules with the same command, of which the second is unloaded. -/
def sharedName : FileSystem := twoFiles (ascii "B") [ascii "json"] [ascii "json"]

def unloadSecond (E : FileSystem) : List Act := loadBoth E ++ [.unload (ascii "b.so")]

theorem factories_loaded_shared :
    ∃ g, exec (tableSystem [installPath]) new (loadBoth sharedName) = some g ∧
      g.factories (ascii "json") = some ⟨0, .other⟩ ∧ g.createRequest (ascii "json") ≠ none := by
  have hg := exec_loadBoth (ascii "B") [ascii "json"] [ascii "json"]
  exact ⟨_, hg, rfl, (factories_loaded (reach_of_exec (loadBoth sharedName) rfl hg)).2 _⟩

end Owners

section Names

/-- A command is declared by a module that is loaded. -/
def Declared (g : ModuleTable) (name : Bytes) : Prop :=
  ∃ m d, g.loaded m = some d ∧ name ∈ d.code.names

/-- The commands are those that the loaded modules declare. -/
def Registered (g : ModuleTable) : Prop := ∀ name, g.factories name ≠ none ↔ g.Declared name

/-- No other loaded module declares a command of the module that is unloaded. -/
def Unshared (g : ModuleTable) (a : Act) : Prop :=
  ∀ d, ends g a = some d → ∀ m d', g.loaded m = some d' → m ≠ d.module →
    ∀ name ∈ d.code.names, name ∉ d'.code.names

theorem mem_names {c : ModuleCode} {name : Bytes} : name ∈ c.names ↔
    name ∈ c.constructor.map (·.1) ∨ name ∈ c.init.map (·.1) := by
  simp only [ModuleCode.names, ModuleCode.commands, List.map_append, List.mem_append]

theorem Registered.load (h : g.Registered) (hsound : g.Sound) (hnew : New g d) :
    (g.load d).Registered := by
  intro name
  have hfactories : (g.load d).factories name ≠ none ↔ g.Declared name ∨ name ∈ d.code.names := by
    rw [mem_names, ← or_assoc, ← h name]
    exact registerAll_ne_none.trans (or_congr_left registerAll_ne_none)
  rw [hfactories]
  constructor
  · rintro (⟨m, d', hm, hname⟩ | hname)
    · exact ⟨m, d', (loaded_load (hsound.ne_module hnew hm)).trans hm, hname⟩
    · exact ⟨d.module, d, loaded_load_self g d, hname⟩
  · rintro ⟨m, d', hm, hname⟩
    by_cases hd : m = d.module
    · subst hd
      obtain rfl := Option.some.inj ((loaded_load_self g d).symm.trans hm)
      exact .inr hname
    · rw [loaded_load hd] at hm
      exact .inl ⟨m, d', hm, hname⟩

/-- Unloading a module takes away all commands of its names. -/
theorem Registered.unload_iff (h : g.Registered) (hd : g.loaded d.module = some d) :
    (g.unload d).Registered ↔ ∀ m d', g.loaded m = some d' → m ≠ d.module →
      ∀ name ∈ d.code.names, name ∉ d'.code.names := by
  have hfactories : ∀ name, (g.unload d).factories name ≠ none ↔
      g.Declared name ∧ name ∉ d.code.names := by
    intro name
    rw [← h name]
    exact unregisterAll_ne_none
  constructor
  · intro hnext m d' hm hne name hname hname'
    -- the other module still declares the name, which nobody registers any more
    have hdeclared : (g.unload d).Declared name := ⟨m, d', (loaded_unload hne).trans hm, hname'⟩
    exact ((hfactories name).mp ((hnext name).mpr hdeclared)).2 hname
  · intro hapart name
    rw [hfactories]
    constructor
    · rintro ⟨⟨m, d', hm, hname'⟩, hname⟩
      have hne : m ≠ d.module := by
        rintro rfl
        obtain rfl := Option.some.inj (hd.symm.trans hm)
        exact hname hname'
      exact ⟨m, d', (loaded_unload hne).trans hm, hname'⟩
    · rintro ⟨m, d', hm, hname'⟩
      have hne : m ≠ d.module := by
        rintro rfl
        simp [unload] at hm
      rw [loaded_unload hne] at hm
      exact ⟨⟨m, d', hm, hname'⟩, fun hname => hapart m d' hm hne name hname hname'⟩

theorem Registered.step_iff (h : g.Registered) (hsound : g.Sound)
    (ht : step modulePaths g a = some g') : g'.Registered ↔ g.Unshared a := by
  rcases step_cases ht with ⟨d, -, hends, hnew, rfl⟩ | ⟨d, -, hends, ⟨k, hk⟩, rfl⟩ |
    ⟨-, hends, rfl⟩
  · simp [Unshared, hends, h.load hsound hnew]
  · rw [h.unload_iff (hsound.mapped k d hk).1]
    simp [Unshared, hends]
  · simp [Unshared, hends, h]

/-- The commands are those that the loaded modules declare, in all runs in which no module is
unloaded that shares a command with another loaded one; any other unload breaks this. -/
theorem commands_registered (hr : Reach (tableSystem modulePaths) Unshared g) :
    g.Registered ∧
      ∀ a g', step modulePaths g a = some g' → (g'.Registered ↔ g.Unshared a) := by
  have hreg : g.Registered := by
    refine hr.invariant Registered ?_ ?_
    · rintro g rfl name
      simp [new, Declared]
    · intro g a g' hg hreg ha ht
      exact (hreg.step_iff (Sound.of_reach hg) ht).mpr ha
  exact ⟨hreg, fun a g' ht => hreg.step_iff (Sound.of_reach hr) ht⟩

/-- The command of the first module is gone with the second module. -/
theorem commands_lost :
    ∃ g, exec (tableSystem [installPath]) new (unloadSecond sharedName) = some g ∧
    g.Declared (ascii "json") ∧ g.factories (ascii "json") = none ∧ ¬ g.Registered := by
  let both := bothLoaded (ascii "B") [ascii "json"] [ascii "json"]
  have hdeclared : (both.unload (entryB (ascii "B") [ascii "json"])).Declared (ascii "json") :=
    ⟨0, entryA [ascii "json"], rfl, by decide⟩
  exact ⟨_, rfl, hdeclared, rfl, fun hreg => (hreg (ascii "json")).mpr hdeclared rfl⟩

/-- Two modules that share no command. -/
def ownNames : FileSystem := twoFiles (ascii "B") [ascii "json"] [ascii "sexpr"]

theorem commands_registered_own :
    ∃ g, exec (tableSystem [installPath]) new (unloadSecond ownNames) = some g ∧
      g.Registered ∧ g.factories (ascii "json") ≠ none := by
  let both := bothLoaded (ascii "B") [ascii "json"] [ascii "sexpr"]
  let d := entryB (ascii "B") [ascii "sexpr"]
  have hfirst := step_first (ascii "B") [ascii "json"] [ascii "sexpr"]
  have hsecond := step_second (ascii "B") [ascii "json"] [ascii "sexpr"]
  have hends : ends both (.unload (ascii "b.so")) = some d := rfl
  have hunload : (tableSystem [installPath]).step both (.unload (ascii "b.so")) =
      some (both.unload d) := rfl
  have hreach : Reach (tableSystem [installPath]) Unshared (both.unload d) := by
    refine .step (.step (.step (.init rfl) ?_ hfirst) ?_ hsecond) ?_ hunload
    · rintro e ⟨⟩
    · rintro e ⟨⟩
    · intro e he m e' hm hne
      obtain rfl : d = e := Option.some.inj (hends.symm.trans he)
      have hm : (new.load (entryA [ascii "json"])).loaded m = some e' :=
        (loaded_load hne).symm.trans hm
      rw [loaded_load_new hm]
      decide
  exact ⟨_, rfl, (commands_registered hreach).1, by decide⟩

end Names

section Keys

/-- Each loaded module has two entries, and can be found under both keys. -/
structure Paired (g : ModuleTable) : Prop where
  keys : ∀ m d, g.loaded m = some d → ∀ k, g.modules k = some d ↔ k = d.id ∨ k = d.filename
  two : ∀ m d, g.loaded m = some d → d.id ≠ d.filename
  plain : ∀ m d, g.loaded m = some d → getFilename d.id = d.id

/-- The id of a module that may be loaded: it has no slash, it is not the file name, and it is
neither the id nor, as the comment in `loadAbsPath` assumes, the file name of a loaded module. -/
structure Fit (g : ModuleTable) (d : ModuleEntry) : Prop where
  plain : getFilename d.id = d.id
  two : d.id ≠ d.filename
  id : ∀ m d', g.loaded m = some d' → d'.id ≠ d.id
  filename : ∀ m d', g.loaded m = some d' → d'.filename ≠ d.id

/-- The module that a call loads has a fit id. -/
def Fits (modulePaths : List Bytes) (g : ModuleTable) (a : Act) : Prop :=
  ∀ d, makes modulePaths g a = some d → g.Fit d

/-- What the comment in `loadAbsPath` assumes. -/
def Assumed (modulePaths : List Bytes) (g : ModuleTable) (a : Act) : Prop :=
  ∀ d, makes modulePaths g a = some d →
    ∀ m d', g.loaded m = some d' → d'.filename ≠ d.id ∧ d'.id ≠ d.filename

theorem Paired.load (h : g.Paired) (hsound : g.Sound) (hnew : New g d) (hfit : g.Fit d) :
    (g.load d).Paired := by
  have hcases : ∀ {m d'}, (g.load d).loaded m = some d' →
      d' = d ∨ m ≠ d.module ∧ g.loaded m = some d' := by
    intro m d' hm
    by_cases hd : m = d.module
    · subst hd
      exact .inl (Option.some.inj ((loaded_load_self g d).symm.trans hm)).symm
    · exact .inr ⟨hd, (loaded_load hd).symm.trans hm⟩
  refine ⟨?_, ?_, ?_⟩
  · intro m d' hm k
    rw [modules_load]
    rcases hcases hm with rfl | ⟨hne, hold⟩
    · split
      · rename_i hkey
        simp [hkey]
      · rename_i hkey
        refine iff_of_false ?_ hkey
        intro hk
        exact hsound.ne_module hnew (hsound.mapped k _ hk).1 rfl
    · -- an older module: the file name was no key, so neither of its keys is the file name
      have hother : d' ≠ d := by
        rintro rfl
        exact hne (hsound.numbered m d' hold).1.symm
      have hid : d'.id ≠ d.filename := by
        intro heq
        have hk := (h.keys m d' hold d'.id).mpr (.inl rfl)
        rw [heq, hnew.unused] at hk
        cases hk
      have hfilename : d'.filename ≠ d.filename := by
        intro heq
        have hk := (h.keys m d' hold d'.filename).mpr (.inr rfl)
        rw [heq, hnew.unused] at hk
        cases hk
      split
      · rename_i hkey
        refine iff_of_false (fun hk => hother (Option.some.inj hk).symm) ?_
        rcases hkey with rfl | rfl
        · exact not_or.mpr ⟨(hfit.id m d' hold).symm, (hfit.filename m d' hold).symm⟩
        · exact not_or.mpr ⟨hid.symm, hfilename.symm⟩
      · exact h.keys m d' hold k
  · intro m d' hm
    rcases hcases hm with rfl | ⟨-, hm⟩
    · exact hfit.two
    · exact h.two m d' hm
  · intro m d' hm
    rcases hcases hm with rfl | ⟨-, hm⟩
    · exact hfit.plain
    · exact h.plain m d' hm

/-- A module whose id is not fit breaks the pairing. -/
theorem Paired.fit (h : (g.load d).Paired) (hsound : g.Sound) (hnew : New g d) : g.Fit d := by
  have hself := loaded_load_self g d
  have hclash : ∀ m d', g.loaded m = some d' → ¬ (d.id = d'.id ∨ d.id = d'.filename) := by
    intro m d' hm hkey
    -- the entry of the older module would be replaced by that of the new one
    have hne := hsound.ne_module hnew hm
    have hk := (h.keys m d' ((loaded_load hne).trans hm) d.id).mpr hkey
    rw [modules_load, if_pos (.inl rfl)] at hk
    obtain rfl := Option.some.inj hk
    exact hne (hsound.numbered m d hm).1.symm
  refine ⟨h.plain _ d hself, h.two _ d hself, ?_, ?_⟩
  · intro m d' hm heq
    exact hclash m d' hm (.inl heq.symm)
  · intro m d' hm heq
    exact hclash m d' hm (.inr heq.symm)

theorem Paired.unload (h : g.Paired) (hsound : g.Sound) (hd : g.loaded d.module = some d) :
    (g.unload d).Paired := by
  have hcases : ∀ {m d'}, (g.unload d).loaded m = some d' →
      d' ≠ d ∧ g.loaded m = some d' := by
    intro m d' hm
    have hne : m ≠ d.module := by
      rintro rfl
      simp [ModuleTable.unload] at hm
    rw [loaded_unload hne] at hm
    refine ⟨?_, hm⟩
    rintro rfl
    exact hne (hsound.numbered m d' hm).1.symm
  refine ⟨?_, fun m d' hm => h.two m d' (hcases hm).2, fun m d' hm => h.plain m d' (hcases hm).2⟩
  intro m d' hm k
  obtain ⟨hother, hm⟩ := hcases hm
  rw [modules_unload, ← h.keys m d' hm k]
  split
  · rename_i hkey
    refine iff_of_false (by simp) ?_
    -- the key belongs to the module that goes, and to no other one
    rw [(h.keys _ d hd k).mpr hkey]
    exact fun hk => hother (Option.some.inj hk).symm
  · rfl

theorem Paired.step_iff (h : g.Paired) (hsound : g.Sound) (ht : step modulePaths g a = some g') :
    g'.Paired ↔ Fits modulePaths g a := by
  rcases step_cases ht with ⟨d, hmakes, -, hnew, rfl⟩ | ⟨d, hmakes, -, ⟨k, hk⟩, rfl⟩ |
    ⟨hmakes, -, rfl⟩
  · have hfits : Fits modulePaths g a ↔ g.Fit d := by simp [Fits, hmakes]
    rw [hfits]
    exact ⟨fun hnext => hnext.fit hsound hnew, fun hfit => h.load hsound hnew hfit⟩
  · simp [Fits, hmakes, h.unload hsound (hsound.mapped k d hk).1]
  · simp [Fits, hmakes, h]

/-- All files that a search comes to have the file name that is searched for. -/
theorem filename_of_mem_visits {E : FileSystem} {n : ℕ} {path file : Bytes}
    (h : Visit.file file ∈ visits E modulePaths n path) :
    getFilename file = getFilename path := by
  induction n generalizing path with
  | zero => simp [visits] at h
  | succ n ih =>
    rw [visits] at h
    split at h
    · simp at h
    · split at h
      · obtain rfl := Visit.file.inj (List.mem_singleton.mp h)
        rfl
      · obtain ⟨dir, -, h⟩ := List.mem_flatMap.mp h
        unfold visitsAt at h
        split at h
        · simp at h
        · simp at h
        · -- joining a directory leaves the file name as it is
          rw [ih h, getFilename_joinPath]

/-- What holds of the module map where all ids were fit. -/
structure Kept (modulePaths : List Bytes) (g : ModuleTable) : Prop where
  /-- A loaded module is reached through exactly two keys. -/
  keys : ∀ m d, g.loaded m = some d →
    d.id ≠ d.filename ∧ ∀ k, g.modules k = some d ↔ k = d.id ∨ k = d.filename
  /-- Under each of them, and under each path that ends in the file name, it is found; and to unload
  it there removes these two entries. -/
  unloaded : ∀ m d, g.loaded m = some d → ∀ moduleId,
    moduleId = d.id ∨ getFilename moduleId = d.filename →
      g.getModuleData moduleId = some d ∧ ∀ k, (g.unloadModule moduleId).modules k =
        if k = d.id ∨ k = d.filename then none else g.modules k
  /-- A load that fails, or throws, changes nothing. -/
  refused : ∀ E fuel path o g', loadModule E modulePaths fuel g path = some (o, g') →
    o ≠ .returned true → g' = g
  /-- Nor does a load of a file that is loaded. -/
  repeated : ∀ m d, g.loaded m = some d → ∀ E fuel path o g', getFilename path = d.filename →
    loadModule E modulePaths fuel g path = some (o, g') → g' = g
  /-- A module that is returned is loaded. -/
  live : ∀ moduleId m, g.getModule moduleId = some m → g.loaded m ≠ none

theorem loadModule_refused {E : FileSystem} {fuel : ℕ} {path : Bytes} {o : Outcome}
    (h : loadModule E modulePaths fuel g path = some (o, g')) (ho : o ≠ .returned true) :
    g' = g := by
  rw [loadModule_eq] at h
  match hstop : g.stop E modulePaths fuel path with
  | none | some .thrown =>
    simp only [hstop, settle, Option.some.injEq, Prod.mk.injEq] at h
    exact h.2.symm
  | some .deep => simp [hstop, settle] at h
  | some (.file file) =>
    simp only [hstop, settle, Option.some.injEq, Prod.mk.injEq] at h
    exact absurd h.1.symm ho

theorem loadModule_repeated {E : FileSystem} {fuel : ℕ} {path : Bytes} {o : Outcome}
    (hkey : (g.modules (getFilename path)).isSome)
    (h : loadModule E modulePaths fuel g path = some (o, g')) : g' = g := by
  rw [loadModule_eq] at h
  match hstop : g.stop E modulePaths fuel path with
  | none | some .thrown =>
    simp only [hstop, settle, Option.some.injEq, Prod.mk.injEq] at h
    exact h.2.symm
  | some .deep => simp [hstop, settle] at h
  | some (.file file) =>
    simp only [hstop, settle, Option.some.injEq, Prod.mk.injEq] at h
    have hname : getFilename file = getFilename path :=
      filename_of_mem_visits (List.mem_of_find?_eq_some hstop)
    rw [← h.2, loadAbsPath_snd, made, hname, if_pos hkey]
    rfl

theorem Paired.kept (h : g.Paired) (hsound : g.Sound) : Kept modulePaths g := by
  have hkey : ∀ {m d}, g.loaded m = some d → ∀ {moduleId},
      moduleId = d.id ∨ getFilename moduleId = d.filename → g.getModuleData moduleId = some d := by
    intro m d hm moduleId hid
    apply (h.keys m d hm _).mpr
    rcases hid with rfl | hid
    · exact .inl (h.plain m d hm)
    · exact .inr hid
  refine ⟨fun m d hm => ⟨h.two m d hm, h.keys m d hm⟩, ?_, ?_, ?_, ?_⟩
  · intro m d hm moduleId hid
    refine ⟨hkey hm hid, fun k => ?_⟩
    rw [unloadModule, hkey hm hid]
    exact modules_unload k
  · intro E fuel path o g' hload ho
    exact loadModule_refused hload ho
  · intro m d hm E fuel path o g' hname hload
    apply loadModule_repeated ?_ hload
    have hdata := hkey hm (.inr hname)
    exact Option.isSome_iff_exists.mpr ⟨d, hdata⟩
  · intro moduleId m hm
    obtain ⟨d, hd, rfl⟩ := Option.map_eq_some_iff.mp hm
    rw [(hsound.mapped _ d hd).1]
    simp

/-- The module map stays paired in all runs in which every module that is loaded has a fit id; a
load of any other module breaks the pairing. -/
theorem modules_paired (hr : Reach (tableSystem modulePaths) (Fits modulePaths) g) :
    Kept modulePaths g ∧
      ∀ a g', step modulePaths g a = some g' → (g'.Paired ↔ Fits modulePaths g a) := by
  have hpaired : g.Paired := by
    refine hr.invariant Paired ?_ ?_
    · rintro g rfl
      exact ⟨by simp [new], by simp [new], by simp [new]⟩
    · intro g a g' hg hpaired ha ht
      exact (hpaired.step_iff (Sound.of_reach hg) ht).mpr ha
  exact ⟨hpaired.kept (Sound.of_reach hr), fun a g' ht => hpaired.step_iff (Sound.of_reach hr) ht⟩

/-- Two modules with one id. -/
def sharedId : FileSystem := twoFiles (ascii "A") [] []

/-- The entry of the first module under its id becomes that of the second module. -/
theorem modules_unpaired : ∃ g, Reach (tableSystem [installPath]) (Assumed [installPath]) g ∧
    exec (tableSystem [installPath]) new (loadBoth sharedId) = some g ∧
      ¬ Kept [installPath] g := by
  have hfirst := step_first (ascii "A") [] []
  have hsecond := step_second (ascii "A") [] []
  refine ⟨_, .step (.step (.init rfl) ?_ hfirst) ?_ hsecond, exec_loadBoth .., ?_⟩
  · rintro e - m e' ⟨⟩
  · intro e he m e' hm
    obtain rfl := Option.some.inj ((makes_second (ascii "A") [] []).symm.trans he)
    rw [loaded_load_new hm]
    decide
  · intro hkept
    -- the first module is loaded, and its id leads to the second one
    have hkey := ((hkept.keys 0 _ (loaded_bothLoaded ..)).2 (ascii "A")).mpr (.inl rfl)
    exact absurd hkey (by decide)

/-- Two modules with ids of their own. -/
theorem modules_paired_own : ∃ g, Kept [installPath] g ∧
    exec (tableSystem [installPath]) new (loadBoth ownNames) = some g := by
  have hfirst := step_first (ascii "B") [ascii "json"] [ascii "sexpr"]
  have hsecond := step_second (ascii "B") [ascii "json"] [ascii "sexpr"]
  refine ⟨_, (modules_paired (.step (.step (.init rfl) ?_ hfirst) ?_ hsecond)).1, exec_loadBoth ..⟩
  · intro e he
    obtain rfl := Option.some.inj ((makes_first (ascii "B") _ [ascii "sexpr"]).symm.trans he)
    exact ⟨by decide, by decide, (by rintro m e' ⟨⟩), (by rintro m e' ⟨⟩)⟩
  · intro e he
    obtain rfl := Option.some.inj ((makes_second (ascii "B") _ _).symm.trans he)
    refine ⟨by decide, by decide, ?_, ?_⟩
    · intro m e' hm
      rw [loaded_load_new hm]
      decide
    · intro m e' hm
      rw [loaded_load_new hm]
      decide

end Keys

end ModuleTable

end CogServer
