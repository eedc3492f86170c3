import CogServer.Transition

/-! A server that does its jobs one after the other, in the order in which it accepted them. -/
namespace Transition

/-- `removed` are the jobs that left the queue, and whether they were started; if not, they were
discarded. -/
structure SerialServer (β : Type*) where
  accepted : List β
  removed : List (β × Bool)
  waiting : List β
  current : Option β
  finished : List β

namespace SerialServer

variable {β : Type*} {s t : SerialServer β}

inductive Act (β : Type*)
  | accept (e : β) | discard | start | finish

def empty : SerialServer β := ⟨[], [], [], none, []⟩

/-- A job is started only when the one before is finished. -/
def step (s : SerialServer β) : Act β → Option (SerialServer β)
  | .accept e => some { s with accepted := s.accepted ++ [e], waiting := s.waiting ++ [e] }
  | .discard =>
    match s.waiting with
    | [] => none
    | e :: rest => some { s with removed := s.removed ++ [(e, false)], waiting := rest }
  | .start =>
    match s.current, s.waiting with
    | none, e :: rest => some { s with removed := s.removed ++ [(e, true)], waiting := rest, current := some e }
    | _, _ => none
  | .finish =>
    match s.current with
    | none => none
    | some e => some { s with current := none, finished := s.finished ++ [e] }

end SerialServer

def serialSystem (β : Type*) : System (SerialServer β) (SerialServer.Act β) where
  init s := s = SerialServer.empty
  step := SerialServer.step

namespace SerialServer

variable {β : Type*} {s t : SerialServer β}

/-- Jobs leave the queue in the order in which they came, and those that are started are finished
in this order. -/
structure InOrder (s : SerialServer β) : Prop where
  accepted : s.accepted = s.removed.map Prod.fst ++ s.waiting
  started : (s.removed.filter Prod.snd).map Prod.fst = s.finished ++ s.current.toList

theorem inOrder_step {a : Act β} (hs : InOrder s) (h : s.step a = some t) : InOrder t := by
  obtain ⟨h1, h2⟩ := hs
  cases a with
  | accept e =>
    cases h
    exact ⟨by simp [h1], h2⟩
  | discard =>
    simp only [step] at h
    split at h <;> cases h
    rename_i e rest hw
    exact ⟨by simp [h1, hw], by simpa using h2⟩
  | start =>
    simp only [step] at h
    split at h <;> cases h
    -- nothing was under way, so this job is the next to be finished
    rename_i e rest hc hw
    rw [hc, Option.toList_none, List.append_nil] at h2
    exact ⟨by simp [h1, hw], by simp [h2]⟩
  | finish =>
    simp only [step] at h
    split at h <;> cases h
    rename_i e hc
    rw [hc] at h2
    exact ⟨h1, by simpa using h2⟩

theorem InOrder.of_reach {G : SerialServer β → Act β → Prop} (h : Reach (serialSystem β) G s) :
    InOrder s := by
  refine h.invariant InOrder ?_ fun _ _ _ _ hs _ ht => inOrder_step hs ht
  rintro _ rfl
  exact ⟨rfl, rfl⟩

/-- Nothing is discarded. -/
def keeping (_ : SerialServer β) (a : Act β) : Prop := a ≠ .discard

theorem removed_started (h : Reach (serialSystem β) keeping s) : ∀ x ∈ s.removed, x.2 = true := by
  refine h.invariant (fun s => ∀ x ∈ s.removed, x.2 = true) ?_ ?_
  · rintro _ rfl x hx
    exact absurd hx List.not_mem_nil
  · intro s a t _ hs ha ht
    cases a with
    | discard => exact absurd rfl ha
    | accept e =>
      cases ht
      exact hs
    | start =>
      simp only [serialSystem, step] at ht
      split at ht <;> cases ht
      intro x hx
      rcases List.mem_append.mp hx with hx | hx
      · exact hs x hx
      · rw [List.mem_singleton.mp hx]
    | finish =>
      simp only [serialSystem, step] at ht
      split at ht <;> cases ht
      exact hs

/-- If nothing is discarded, what was accepted is finished, under way or waiting. -/
theorem accepted_split (h : Reach (serialSystem β) keeping s) :
    s.accepted = s.finished ++ s.current.toList ++ s.waiting := by
  obtain ⟨h1, h2⟩ := InOrder.of_reach h
  rw [List.filter_eq_self.mpr (removed_started h)] at h2
  rw [h1, h2]

end SerialServer

end Transition
