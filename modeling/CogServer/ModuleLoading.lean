import CogServer.ModuleManager
import CogServer.Transition

/-! Loading and unloading modules of any kind: the search for the file, each step of `loadAbsPath`,
and the two entries of a module in the module map. -/
namespace CogServer

open Transition

/-- A module, as the functions of its library make and delete it: the commands that its constructor
and its `init` register. Its destructor unregisters exactly these names. -/
structure ModuleCode where
  constructor : List (Bytes × CommandKind)
  init : List (Bytes × CommandKind)
  deriving DecidableEq, Repr

/-- What `dlsym` finds in an open library. The id function may return `NULL`. -/
structure SharedLibrary where
  idFunc : Option (Option Bytes)
  loadFunc : Option ModuleCode
  unloadFunc : Bool

/-- The files at the time of a call. `exists` throws where `stat` fails for another reason than that
there is no such file. -/
structure FileSystem where
  fileExists : Bytes → Option Bool
  dlopen : Bytes → Option SharedLibrary

/-- `ModuleData`, with what the load and the unload function do. -/
structure ModuleEntry where
  module : ℕ
  id : Bytes
  filename : Bytes
  dirpath : Bytes
  code : ModuleCode
  deriving DecidableEq, Repr

/-- The module map, the table of the factories, and the modules that are constructed and not yet
deleted. -/
structure ModuleTable where
  modules : Bytes → Option ModuleEntry
  factories : Bytes → Option Factory
  loaded : ℕ → Option ModuleEntry
  nextModule : ℕ

namespace ModuleCode

def commands (c : ModuleCode) : List (Bytes × CommandKind) := c.constructor ++ c.init

def names (c : ModuleCode) : List Bytes := c.commands.map (·.1)

end ModuleCode

/-- The text before the last slash. -/
def getFilepath (fullpath : Bytes) : Bytes :=
  if 47 ∈ fullpath then ((fullpath.reverse.dropWhile (· ≠ 47)).drop 1).reverse else fullpath

/-- `operator/=` of `std::filesystem::path` -/
def joinPath (modulePath path : Bytes) : Bytes :=
  if path.head? = some 47 then path
  else if modulePath = [] ∨ modulePath.getLast? = some 47 then modulePath ++ path
  else modulePath ++ 47 :: path

namespace SharedLibrary

/-- The id of the module and its code, where `loadAbsPath` finds all that it looks for. -/
def complete (lib : SharedLibrary) : Option (Bytes × ModuleCode) := do
  let moduleId ← lib.idFunc
  let id ← moduleId
  let code ← lib.loadFunc
  if lib.unloadFunc then some (id, code) else none

end SharedLibrary

namespace ModuleTable

open ModuleManager

def new : ModuleTable where
  modules _ := none
  factories _ := none
  loaded _ := none
  nextModule := 0

def getModuleData (g : ModuleTable) (moduleId : Bytes) : Option ModuleEntry :=
  g.modules (getFilename moduleId)

def getModule (g : ModuleTable) (moduleId : Bytes) : Option ℕ :=
  (g.getModuleData moduleId).map (·.module)

/-- The entry of the module that the load function makes next. -/
def entry (g : ModuleTable) (path id : Bytes) (code : ModuleCode) : ModuleEntry :=
  ⟨g.nextModule, id, getFilename path, getFilepath path, code⟩

/-- The load function, the two entries in the module map, and `init`. -/
def load (g : ModuleTable) (d : ModuleEntry) : ModuleTable where
  modules := Function.update (Function.update g.modules d.id (some d)) d.filename (some d)
  factories :=
    registerAll (registerAll g.factories d.module d.code.constructor) d.module d.code.init
  loaded := Function.update g.loaded d.module (some d)
  nextModule := g.nextModule + 1

/-- The unload function, and the end of the two entries. -/
def unload (g : ModuleTable) (d : ModuleEntry) : ModuleTable :=
  { g with
    modules := Function.update (Function.update g.modules d.filename none) d.id none
    factories := unregisterAll g.factories d.code.commands
    loaded := Function.update g.loaded d.module none }

def loadAbsPath (E : FileSystem) (g : ModuleTable) (path : Bytes) : Bool × ModuleTable :=
  if (g.modules (getFilename path)).isSome then (true, g)
  else match (E.dlopen path).bind SharedLibrary.complete with
    | none => (false, g)
    | some (id, code) => (true, g.load (g.entry path id code))

/-- `unloadModule`; whether `dlclose` fails changes only what it returns. -/
def unloadModule (g : ModuleTable) (moduleId : Bytes) : ModuleTable :=
  match g.getModuleData moduleId with
  | none => g
  | some d => g.unload d

/-- How `loadModule` ends. -/
inductive Outcome
  | returned (rc : Bool) | thrown
  deriving DecidableEq, Repr

/-- The loop over `module_paths`; `load` is the call of `loadModule` in it. -/
def searchPaths (E : FileSystem) (load : ModuleTable → Bytes → Option (Outcome × ModuleTable))
    (path : Bytes) : List Bytes → ModuleTable → Option (Outcome × ModuleTable)
  | [], g => some (.returned false, g)
  | modulePath :: modulePaths, g =>
    match E.fileExists (joinPath modulePath path) with
    | none => some (.thrown, g)
    | some false => searchPaths E load path modulePaths g
    | some true =>
      match load g (joinPath modulePath path) with
      | none => none
      | some (.thrown, g') => some (.thrown, g')
      | some (.returned true, g') => some (.returned true, g')
      | some (.returned false, g') => searchPaths E load path modulePaths g'

/-- `loadModule`, for so many calls of itself inside each other. -/
def loadModule (E : FileSystem) (modulePaths : List Bytes) :
    ℕ → ModuleTable → Bytes → Option (Outcome × ModuleTable)
  | 0, _, _ => none
  | fuel + 1, g, path =>
    if path = [] then some (.returned false, g)
    else if path.head? = some 47 then
      some (.returned (g.loadAbsPath E path).1, (g.loadAbsPath E path).2)
    else searchPaths E (loadModule E modulePaths fuel) path modulePaths g

/-- A call through a factory: the factory is part of its module. -/
def follow (g : ModuleTable) (f : Factory) : Option CommandKind :=
  (g.loaded f.module).map fun _ => f.kind

/-- `createRequest` and `requestInfo`, up to what the factory makes of the call; a pointer into a
module that is gone leads to `none`. -/
def createRequest (g : ModuleTable) (name : Bytes) : Option (Option CommandKind) :=
  match g.factories name with
  | none => some none
  | some f => (g.follow f).map some

end ModuleTable

end CogServer
