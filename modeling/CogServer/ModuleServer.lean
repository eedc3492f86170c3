import CogServer.ModuleManager
import CogServer.Transition

/-! The requests of the modules: `load` and `unload` among the other commands, while requests of all
modules wait in the queue. -/
namespace CogServer

open Transition

/-- Where a request is. `made` and `kept` are before `pushRequest` and in a `WebServer`; `called`
has the result of `getModule`, and `loading` has a module in its constructor. -/
inductive RequestStage
  | made | queued | kept
  | executing | called (mod : Option ℕ) | loading (d : ModuleData) | returning
  | deleting

/-- The request is executed or deleted. -/
def RequestStage.active : RequestStage → Bool
  | .made | .queued | .kept => false
  | .executing | .called _ | .loading _ | .returning | .deleting => true

structure ModuleRequest where
  factory : Factory
  parameters : List Bytes
  stage : RequestStage

/-- The server with its modules and with the requests `ρ` of all consoles; `processing` is the
request that was popped under `processRequestsMutex`. -/
structure ModuleServer (ρ : Type*) where
  manager : ModuleManager
  requests : ρ → Option ModuleRequest
  requestQueue : List ρ
  processing : Option ρ

namespace ModuleServer

variable {ρ : Type*}

/-- What the threads of the consoles and the server loop do. -/
inductive Act (ρ : Type*)
  /-- `ServerConsole::OnLine` -/
  | create (r : ρ) (cmdName : Bytes) (parameters : List Bytes) | push (r : ρ)
  /-- `WebServer::OnConnection`, `WebServer::OnLine` and the end of a connection without a line. -/
  | connect (r : ρ) (cmdName : Bytes) | line (r : ρ) | hangUp (r : ρ)
  | pop | run (r : ρ)

section Model

variable [DecidableEq ρ] (E : ModuleFiles)

def start : ModuleServer ρ where
  manager := .loadModules E .new
  requests _ := none
  requestQueue := []
  processing := none

def put (s : ModuleServer ρ) (r : ρ) (q : Option ModuleRequest) : ModuleServer ρ :=
  { s with requests := Function.update s.requests r q }

/-- `createRequest` for a request that does not exist yet. -/
def createRequest (s : ModuleServer ρ) (r : ρ) (cmdName : Bytes) (parameters : List Bytes)
    (stage : RequestStage) :
    Option (ModuleServer ρ) :=
  match s.requests r, s.manager.factories cmdName with
  | none, some f => some (s.put r (some ⟨f, parameters, stage⟩))
  | _, _ => none

/-- `execute` of a request, up to the next place where another thread may come in between. -/
def execute (s : ModuleServer ρ) (r : ρ) (q : ModuleRequest) : ModuleServer ρ :=
  match q.factory.kind, q.parameters with
  | .cmd modType, _ => s.put r (some { q with stage := .called (s.manager.getModule modType) })
  | .load, path :: _ =>
    match s.manager.loadModule E path with
    | .found filename l =>
      { s with manager := s.manager.construct filename l }.put r
        (some { q with stage := .loading (s.manager.made filename l) })
    | .failed | .already => s.put r (some { q with stage := .returning })
  | .unload, moduleId :: _ =>
    { s with manager := s.manager.unloadModule moduleId }.put r
      (some { q with stage := .returning })
  | _, _ => s.put r (some { q with stage := .returning })

/-- `execute` and then `delete`. A null pointer from `getModule` ends the server. -/
def run (s : ModuleServer ρ) (r : ρ) : Option (ModuleServer ρ) :=
  match s.requests r with
  | none => none
  | some q =>
    match q.stage with
    | .executing => some (s.execute E r q)
    | .called (some _) => some (s.put r (some { q with stage := .returning }))
    | .loading d =>
      some ({ s with manager := s.manager.enter d }.put r (some { q with stage := .returning }))
    | .returning => some (s.put r (some { q with stage := .deleting }))
    | .deleting =>
      some ({ s with
        processing := if s.processing = some r then none else s.processing }.put r none)
    | .made | .queued | .kept | .called none => none

def step (s : ModuleServer ρ) : Act ρ → Option (ModuleServer ρ)
  | .create r cmdName parameters => s.createRequest r cmdName parameters .made
  | .push r =>
    match s.requests r with
    | some ⟨f, parameters, .made⟩ =>
      some ({ s with requestQueue := s.requestQueue ++ [r] }.put r (some ⟨f, parameters, .queued⟩))
    | _ => none
  | .connect r cmdName => s.createRequest r cmdName [] .kept
  | .line r =>
    match s.requests r with
    | some ⟨f, _, .kept⟩ => some (s.put r (some ⟨f, [ascii "hush"], .executing⟩))
    | _ => none
  -- A request that was never executed is never deleted either.
  | .hangUp r =>
    match s.requests r with
    | some ⟨_, _, .kept⟩ => some (s.put r none)
    | _ => none
  | .pop =>
    match s.processing, s.requestQueue with
    | none, r :: rest =>
      match s.requests r with
      | some ⟨f, parameters, .queued⟩ =>
        some ({ s with requestQueue := rest, processing := some r }.put r
          (some ⟨f, parameters, .executing⟩))
      | _ => none
    | _, _ => none
  | .run r => s.run E r

end Model

/-- A request is executed or deleted only while its module is loaded, and `getModule` finds it
one. -/
structure Guarded (s : ModuleServer ρ) : Prop where
  loaded : ∀ r q, s.requests r = some q → q.stage.active → s.manager.loaded q.factory.module ≠ none
  found : ∀ r q m, s.requests r = some q → q.stage = .called m → m ≠ none

end ModuleServer

/-- Any number of consoles, with the modules that the server loads when it starts. -/
def moduleSystem {ρ : Type*} [DecidableEq ρ] (E : ModuleFiles) :
    System (ModuleServer ρ) (ModuleServer.Act ρ) where
  init s := s = ModuleServer.start E
  step := ModuleServer.step E

end CogServer
