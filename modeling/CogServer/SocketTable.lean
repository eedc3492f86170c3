import CogServer.ServerSocket

/-! The sockets that a `SocketManager` holds: the slots for them, and `half_ping` with its
two callers. -/
namespace CogServer

open Transition

/-- What became of a slot for a socket. -/
inductive SlotPc
  | absent
  /-- In `wait_available_slot`, about to call `half_ping`. -/
  | counted
  | probing
  /-- There are too many open sockets. -/
  | stalled
  | made
  /-- In `_sock_list`. -/
  | listed
  | unlisted
  | released
  deriving DecidableEq, Repr

/-- A call of `half_ping`, by `wait_available_slot` of a socket or by `display_stats`. -/
structure HalfPing (ι : Type*) where
  caller : Option ι
  now : ℕ
  todo : List ι
  /-- The status of the next socket was looked at. -/
  tested : Bool
  deriving DecidableEq, Repr

/-- The sockets; a call of `half_ping` holds `_sock_lock`. -/
structure SocketTable (ι θ α : Type*) where
  sock : ι → ServerSocket θ α
  slot : ι → SlotPc
  sockList : List ι
  halfPing : Option (HalfPing ι)
  /-- `_max_mtx` is held across a call of `half_ping`. -/
  maxMtx : Bool
  numOpen : ℕ
  clock : ℕ

inductive TableAct (ι θ α : Type*)
  | tick
  /-- The constructor of a socket, up to `half_ping`. -/
  | construct (i : ι) (kind : SocketKind) (w : α)
  | halfPing (caller : Option ι)
  | visit
  | wake (i : ι)
  | addSock (i : ι)
  | sock (i : ι) (a : ServerSocket.Act θ α)
  | remSock (i : ι)
  | releaseSlot (i : ι)
  deriving DecidableEq, Repr

namespace SocketTable

variable {ι θ α : Type*} [DecidableEq ι]

def setSlot (w : SocketTable ι θ α) (i : ι) (p : SlotPc) : SocketTable ι θ α :=
  { w with slot := Function.update w.slot i p }

/-- The end of `half_ping`, and of `wait_available_slot` up to its loop. -/
def pinged (maxOpen : ℕ) (w : SocketTable ι θ α) : Option ι → SocketTable ι θ α
  | none => { w with halfPing := none }
  | some i =>
    { w with halfPing := none, maxMtx := false }.setSlot i (if maxOpen < w.numOpen then .stalled else .made)

/-- The socket that a step moves, with its step. -/
def moves (w : SocketTable ι θ α) : TableAct ι θ α → Option (ι × ℕ × ServerSocket.Act θ α)
  | .visit =>
    match w.halfPing with
    | some ⟨_, now, i :: _, tested⟩ =>
      if ¬tested then some (i, now, .test)
      else if (w.sock i).send .halfPing = none then none
      else some (i, now, .send .halfPing)
    | _ => none
  | .sock i a => some (i, w.clock, a)
  -- the destructor calls `Exit`
  | .remSock i => some (i, w.clock, .exit)
  | _ => none

/-- A step of the manager itself, or of one of its threads outside of the sockets. -/
def manage [Fintype θ] (maxOpen : ℕ) (w : SocketTable ι θ α) : TableAct ι θ α → Option (SocketTable ι θ α)
  | .tick => some { w with clock := w.clock + 1 }
  | .construct i kind x =>
    if w.slot i = .absent ∧ ¬w.maxMtx then
      let full := decide (maxOpen ≤ w.numOpen + 1)
      some ({ w with
        sock := Function.update w.sock i (.made kind x w.clock), numOpen := w.numOpen + 1
        maxMtx := full }.setSlot i (if full then .counted else .made))
    else none
  | .halfPing none =>
    if w.halfPing = none then some { w with halfPing := some ⟨none, w.clock, w.sockList, false⟩ } else none
  | .halfPing (some i) =>
    if w.halfPing = none ∧ w.slot i = .counted then
      some ({ w with halfPing := some ⟨some i, w.clock, w.sockList, false⟩ }.setSlot i .probing)
    else none
  | .visit =>
    match w.halfPing with
    | none => none
    | some ⟨caller, _, [], _⟩ => some (w.pinged maxOpen caller)
    | some ⟨caller, now, i :: todo, tested⟩ =>
      some { w with
        halfPing :=
          if ¬tested then some ⟨caller, now, i :: todo, true⟩
          else if (w.sock i).send .halfPing = none then some ⟨caller, now, todo, false⟩
          else w.halfPing }
  | .wake i =>
    if w.slot i = .stalled ∧ ¬w.maxMtx ∧ w.numOpen ≤ maxOpen then some (w.setSlot i .made) else none
  | .addSock i =>
    if w.slot i = .made ∧ w.halfPing = none then
      some ({ w with sockList := i :: w.sockList }.setSlot i .listed)
    else none
  | .sock i a => if w.slot i = .listed ∧ ¬a.isPing then some w else none
  | .remSock i =>
    if w.slot i = .listed ∧ (w.sock i).reader = .closed ∧ (w.sock i).send .reader = none ∧
        (∀ t, (w.sock i).send (.shell t) = none) ∧ w.halfPing = none then
      some ({ w with sockList := w.sockList.erase i }.setSlot i .unlisted)
    else none
  | .releaseSlot i =>
    if w.slot i = .unlisted ∧ ¬w.maxMtx then
      some ({ w with numOpen := w.numOpen - 1 }.setSlot i .released)
    else none

def step [DecidableEq θ] [Fintype θ] (respond : α → Bytes → McpResponse × α) (maxOpen : ℕ)
    (w : SocketTable ι θ α) (a : TableAct ι θ α) : Option (SocketTable ι θ α) :=
  (w.manage maxOpen a).bind fun u =>
    match w.moves a with
    | none => some u
    | some (i, now, b) =>
      ((w.sock i).step respond now b).map fun s => { u with sock := Function.update w.sock i s }

end SocketTable

/-- A server whose sockets are yet to come. -/
def tableSystem {ι θ α : Type*} [DecidableEq ι] [DecidableEq θ] [Fintype θ]
    (respond : α → Bytes → McpResponse × α) (maxOpen : ℕ) :
    System (SocketTable ι θ α) (TableAct ι θ α) where
  init w :=
    (∀ i, ∃ kind x now, w.sock i = .made kind x now) ∧ w.slot = (fun _ => .absent) ∧ w.sockList = [] ∧
      w.halfPing = none ∧ w.maxMtx = false ∧ w.numOpen = 0
  step := SocketTable.step respond maxOpen

namespace SocketTable

variable {ι θ α : Type*} [DecidableEq ι] [Fintype θ] {respond : α → Bytes → McpResponse × α} {maxOpen : ℕ}
  {w u : SocketTable ι θ α}

/-- The manager leaves the sockets alone, but for a new one. -/
theorem manage_sock {a : TableAct ι θ α} (h : w.manage maxOpen a = some u) :
    u.sock = w.sock ∨
      w.moves a = none ∧ ∃ i kind x, u.sock = Function.update w.sock i (.made kind x w.clock) := by
  have hguard {p : Prop} [Decidable p] {v : SocketTable ι θ α}
      (h : (if p then some v else none) = some u) (hv : v.sock = w.sock) : u.sock = w.sock := by
    split at h
    · cases h
      exact hv
    · cases h
  cases a with
  | tick =>
    cases h
    exact .inl rfl
  | construct i kind x =>
    simp only [manage] at h
    split at h
    · cases h
      exact .inr ⟨rfl, i, kind, x, rfl⟩
    · cases h
  | halfPing caller => cases caller <;> exact .inl (hguard h rfl)
  | visit =>
    simp only [manage] at h
    split at h
    · cases h
    · rename_i caller _ _ _
      cases h
      cases caller <;> exact .inl rfl
    · cases h
      exact .inl rfl
  | wake | addSock | sock | remSock | releaseSlot => exact .inl (hguard h rfl)

/-- What holds of a new socket and is kept by its steps holds of all sockets, in every run
whose steps of sockets meet a condition. -/
theorem sock_invariant [DecidableEq θ] {C : ℕ → ServerSocket θ α → ServerSocket.Act θ α → Prop}
    (I : ServerSocket θ α → Prop) (hmade : ∀ kind x now, I (.made kind x now))
    (hstep : ∀ now s a t, I s → C now s a → s.step respond now a = some t → I t)
    (h : Reach (tableSystem respond maxOpen)
      (fun w a => ∀ i now b, w.moves a = some (i, now, b) → C now (w.sock i) b) w) (i : ι) :
    I (w.sock i) := by
  refine h.invariant (fun w => ∀ i, I (w.sock i)) ?_ ?_ i
  · rintro w ⟨hw, -⟩ i
    obtain ⟨kind, x, now, hi⟩ := hw i
    rw [hi]
    exact hmade kind x now
  · intro w a u _ hI hC ht j
    obtain ⟨v, hv, hu⟩ := Option.bind_eq_some_iff.mp ht
    have hold (k : ι) : I (v.sock k) := by
      rcases manage_sock hv with heq | ⟨-, i, kind, x, heq⟩
      · rw [heq]
        exact hI k
      · rw [heq, Function.update_apply]
        split
        · exact hmade kind x _
        · exact hI k
    cases hm : w.moves a with
    | none =>
      simp only [hm, Option.some.injEq] at hu
      exact hu ▸ hold j
    | some m =>
      obtain ⟨i, now, b⟩ := m
      simp only [hm] at hu
      obtain ⟨s, hs, rfl⟩ := Option.map_eq_some_iff.mp hu
      change I (Function.update w.sock i s j)
      rw [Function.update_apply]
      split
      · exact hstep now (w.sock i) b s (hI i) (hC i now b hm) hs
      · exact hI j

end SocketTable

end CogServer
