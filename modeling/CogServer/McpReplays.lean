import CogServer.McpEval

/-! Any order of calls on a `McpEval`: whether a response is given out again. -/
namespace CogServer

open Transition

namespace McpEval

variable {α : Type*}

inductive Call
  | beginEval | evalExpr (expr : Bytes) | pollResult | interrupt
  deriving DecidableEq, Repr

/-- A response that `poll_result` gave out: the call of `eval_expr` that computed it, and the latest
call of `begin_eval` before it was given out. -/
structure Returned where
  origin : ℕ
  begun : Option ℕ
  deriving DecidableEq, Repr

/-- A `McpEval` with the calls on it, which are numbered. `origin` is the call that computed
`_result`. -/
structure Traced (α : Type*) where
  eval : McpEval α
  time : ℕ
  origin : Option ℕ
  begun : Option ℕ
  returned : List Returned
  deriving DecidableEq

namespace Traced

variable {respond : α → Bytes → McpResponse × α} {s t : Traced α}

def new (w : α) : Traced α := ⟨McpEval.new w, 0, none, none, []⟩

/-- One call. `eval_expr` leaves `_result` alone for an empty expression, and `poll_result` gives
out nothing when it returns the empty string. -/
def call (respond : α → Bytes → McpResponse × α) (s : Traced α) : Call → Traced α
  | .beginEval =>
    { s with eval := { s.eval with done := false }, time := s.time + 1, begun := some s.time }
  | .evalExpr e =>
    { s with
      eval := evalExpr respond e s.eval, time := s.time + 1,
      origin := if e = [] ∨ e = [newline] then s.origin else some s.time }
  | .pollResult =>
    let r := s.eval.pollResult
    { s with
      eval := r.2, time := s.time + 1,
      returned := if r.1 = [] then s.returned
        else s.returned ++ (s.origin.map fun o => ⟨o, s.begun⟩).toList }
  | .interrupt => { s with eval := s.eval.interrupt, time := s.time + 1 }

/-- The response in `_result` was not given out yet, and was computed since the latest
`begin_eval`. -/
def Fresh (s : Traced α) : Prop :=
  ∃ o, s.origin = some o ∧ (∀ r ∈ s.returned, r.origin ≠ o) ∧ ∀ b, s.begun = some b → b < o

/-- No response was given out twice, or after a `begin_eval` that came later than it. -/
def NoReplay (s : Traced α) : Prop :=
  (s.returned.map Returned.origin).Nodup ∧ ∀ r ∈ s.returned, ∀ b, r.begun = some b → b < r.origin

/-- An interrupt comes only when `_result` is empty or fresh. -/
def quiet (s : Traced α) : Call → Prop
  | .interrupt => s.eval.result = [] ∨ s.Fresh
  | .beginEval | .evalExpr _ | .pollResult => True

end Traced

/-- The calls on a `McpEval`, in any order. -/
def callSystem (respond : α → Bytes → McpResponse × α) : System (Traced α) Call where
  init s := ∃ w, s = Traced.new w
  step s c := some (s.call respond c)

namespace Traced

variable {respond : α → Bytes → McpResponse × α} {s t : Traced α}

/-- The calls are those of the evaluator behind a shell. -/
theorem call_eval (respond : α → Bytes → McpResponse × α) (err : Bytes) (s : Traced α) (c : Call) :
    some (s.call respond c).eval = match c with
      | .beginEval => some ((mcpEval respond err).beginEval s.eval)
      | .evalExpr e => some ((mcpEval respond err).evalExpr e s.eval)
      | .pollResult => ((mcpEval respond err).pollResult s.eval).map Prod.snd
      | .interrupt => some ((mcpEval respond err).interrupt s.eval) := by
  cases c <;> rfl

/-- What the runs keep. -/
structure Sound (s : Traced α) : Prop where
  origin_lt : ∀ o, s.origin = some o → o < s.time
  begun_lt : ∀ b, s.begun = some b → b < s.time
  returned_lt : ∀ r ∈ s.returned, r.origin < s.time
  noReplay : s.NoReplay
  /-- What can be polled is fresh. -/
  fresh : s.eval.done = true → s.eval.result = [] ∨ s.Fresh
  /-- A response was computed by some call. -/
  computed : s.eval.result ≠ [] → s.origin.isSome

theorem sound_new (w : α) : Sound (new w) where
  origin_lt := nofun
  begun_lt := nofun
  returned_lt := List.forall_mem_nil _
  noReplay := ⟨List.nodup_nil, List.forall_mem_nil _⟩
  fresh := nofun
  computed := fun h => absurd rfl h

/-- What `eval_expr` does to `_result`: nothing for an empty expression. -/
theorem evalExpr_cases (respond : α → Bytes → McpResponse × α) (e : Bytes) (v : McpEval α) :
    (e = [] ∨ e = [newline]) ∧ evalExpr respond e v = v ∨ ¬ (e = [] ∨ e = [newline]) := by
  by_cases he : e = [] ∨ e = [newline]
  · left
    refine ⟨he, ?_⟩
    rw [evalExpr]
    rcases he with rfl | rfl
    · rw [if_pos rfl]
    · rw [if_neg (by decide), if_pos rfl]
  · exact .inr he

/-- Time goes on, and nothing is given out. -/
theorem Sound.tick (h : s.Sound) (v : McpEval α) (hv : v.done = true → v.result = [] ∨ s.Fresh)
    (hc : v.result ≠ [] → s.origin.isSome) : Sound { s with eval := v, time := s.time + 1 } where
  origin_lt o ho := Nat.lt_succ_of_lt (h.origin_lt o ho)
  begun_lt b hb := Nat.lt_succ_of_lt (h.begun_lt b hb)
  returned_lt r hr := Nat.lt_succ_of_lt (h.returned_lt r hr)
  noReplay := h.noReplay
  fresh := hv
  computed := hc

theorem Sound.begin (h : s.Sound) : Sound (s.call respond .beginEval) where
  origin_lt o ho := Nat.lt_succ_of_lt (h.origin_lt o ho)
  begun_lt b hb := by
    obtain rfl : s.time = b := Option.some.inj hb
    exact Nat.lt_succ_self _
  returned_lt r hr := Nat.lt_succ_of_lt (h.returned_lt r hr)
  noReplay := h.noReplay
  fresh := nofun
  computed := h.computed

theorem Sound.evalExpr (h : s.Sound) (e : Bytes) : Sound (s.call respond (.evalExpr e)) := by
  rcases evalExpr_cases respond e s.eval with ⟨he, hsame⟩ | he
  · have hcall : s.call respond (.evalExpr e) = { s with eval := s.eval, time := s.time + 1 } := by
      simp only [call, hsame, he, ↓reduceIte]
    rw [hcall]
    exact h.tick s.eval h.fresh h.computed
  · have hcall : s.call respond (.evalExpr e) =
        { s with
          eval := McpEval.evalExpr respond e s.eval, time := s.time + 1, origin := some s.time } := by
      simp only [call, he, ↓reduceIte]
    rw [hcall]
    refine ⟨?_, ?_, ?_, h.noReplay, ?_, fun _ => rfl⟩
    · intro o ho
      obtain rfl : s.time = o := Option.some.inj ho
      exact Nat.lt_succ_self _
    · exact fun b hb => Nat.lt_succ_of_lt (h.begun_lt b hb)
    · exact fun r hr => Nat.lt_succ_of_lt (h.returned_lt r hr)
    · intro _
      refine .inr ⟨s.time, rfl, ?_, h.begun_lt⟩
      intro r hr
      exact Nat.ne_of_lt (h.returned_lt r hr)

theorem Sound.interrupt (h : s.Sound) (hq : s.eval.result = [] ∨ s.Fresh) :
    Sound (s.call respond .interrupt) :=
  h.tick s.eval.interrupt (fun _ => hq) h.computed

/-- A call of `poll_result` that gives out a response. -/
theorem call_poll {o : ℕ} (hdone : s.eval.done = true) (hresult : s.eval.result ≠ [])
    (ho : s.origin = some o) :
    s.call respond .pollResult =
      { s with
        eval := { s.eval with done := false }, time := s.time + 1,
        returned := s.returned ++ [⟨o, s.begun⟩] } := by
  simp only [call, McpEval.pollResult, hdone, hresult, ho, ↓reduceIte, Option.map_some,
    Option.toList_some]

theorem call_poll_nothing (h : s.eval.done = false ∨ s.eval.result = []) :
    s.call respond .pollResult = { s with eval := s.eval.pollResult.2, time := s.time + 1 } := by
  have hnothing : s.eval.pollResult.1 = [] := by
    rw [McpEval.pollResult]
    rcases h with h | h
    · rw [h]
      rfl
    · split
      · exact h
      · rfl
  simp only [call, hnothing, ↓reduceIte]

theorem Sound.poll (h : s.Sound) : Sound (s.call respond .pollResult) := by
  by_cases hout : s.eval.done = true ∧ s.eval.result ≠ []
  · obtain ⟨hdone, hresult⟩ := hout
    obtain ⟨o, ho, hnew, hbegun⟩ := (h.fresh hdone).resolve_left hresult
    rw [call_poll hdone hresult ho]
    refine ⟨?_, ?_, ?_, ⟨?_, ?_⟩, nofun, h.computed⟩
    · exact fun o' ho' => Nat.lt_succ_of_lt (h.origin_lt o' ho')
    · exact fun b hb => Nat.lt_succ_of_lt (h.begun_lt b hb)
    · rw [List.forall_mem_append, List.forall_mem_singleton]
      exact ⟨fun r hr => Nat.lt_succ_of_lt (h.returned_lt r hr),
        Nat.lt_succ_of_lt (h.origin_lt o ho)⟩
    · rw [List.map_append, List.map_singleton, List.nodup_append]
      refine ⟨h.noReplay.1, List.pairwise_singleton _ _, ?_⟩
      intro x hx y hy
      obtain ⟨r, hr, rfl⟩ := List.mem_map.mp hx
      rw [List.mem_singleton.mp hy]
      exact hnew r hr
    · rw [List.forall_mem_append, List.forall_mem_singleton]
      exact ⟨h.noReplay.2, hbegun⟩
  · have hnothing : s.eval.done = false ∨ s.eval.result = [] := by
      by_contra hn
      rw [not_or, Bool.not_eq_false] at hn
      exact hout hn
    rw [call_poll_nothing hnothing]
    refine h.tick _ ?_ ?_
    · rw [McpEval.pollResult]
      split
      · nofun
      · exact h.fresh
    · rw [McpEval.pollResult]
      split <;> exact h.computed

theorem Sound.call (h : s.Sound) {c : Call} (hq : s.quiet c) : Sound (s.call respond c) := by
  cases c with
  | beginEval => exact h.begin
  | evalExpr e => exact h.evalExpr e
  | pollResult => exact h.poll
  | interrupt => exact h.interrupt hq

theorem reach_sound (h : Reach (callSystem respond) quiet s) : s.Sound := by
  refine h.invariant Sound ?_ ?_
  · rintro _ ⟨w, rfl⟩
    exact sound_new w
  · rintro s c t - hs hq ht
    obtain rfl : s.call respond c = t := Option.some.inj ht
    exact hs.call hq

/-- After an interrupt that is not quiet the next poll gives out an old response. -/
theorem Sound.replays (h : s.Sound) (hq : ¬ s.quiet .interrupt) :
    ¬ NoReplay ((s.call respond .interrupt).call respond .pollResult) := by
  have hresult : s.eval.result ≠ [] := fun hr => hq (.inl hr)
  have hfresh : ¬ s.Fresh := fun hf => hq (.inr hf)
  obtain ⟨o, ho⟩ := Option.isSome_iff_exists.mp (h.computed hresult)
  rw [call_poll (s := s.call respond .interrupt) rfl hresult ho]
  rintro ⟨hnodup, hbegun⟩
  refine hfresh ⟨o, ho, ?_, ?_⟩
  · intro r hr heq
    rw [List.map_append, List.map_singleton, List.nodup_append] at hnodup
    exact hnodup.2.2 r.origin (List.mem_map_of_mem hr) o List.mem_cons_self heq
  · exact hbegun ⟨o, s.begun⟩ (List.mem_append_right _ List.mem_cons_self)

end Traced

/-- If interrupts come only when `_result` is empty or fresh, no response is replayed in any order
of calls; after any other interrupt the next poll replays one. -/
theorem replays_by_interrupt (respond : α → Bytes → McpResponse × α) {s : Traced α}
    (h : Reach (callSystem respond) Traced.quiet s) :
    s.NoReplay ∧
      (¬ s.quiet .interrupt →
        ¬ Traced.NoReplay ((s.call respond .interrupt).call respond .pollResult)) :=
  ⟨(Traced.reach_sound h).noReplay, (Traced.reach_sound h).replays⟩

/-- An evaluator that answers everything. -/
def answering : Unit → Bytes → McpResponse × Unit := fun _ _ => (.reply .emptyObject, ())

/-- A request that is answered and polled; an interrupt before it has nothing to replay. -/
theorem replays_by_interrupt_once :
    ((((Traced.new ()).call answering .interrupt).call answering (.evalExpr (ascii "ping"))).call answering
      .pollResult).NoReplay := by
  have h0 : Reach (callSystem answering) Traced.quiet (Traced.new ()) := .init ⟨(), rfl⟩
  have hempty : (Traced.new ()).quiet .interrupt := .inl rfl
  have h1 := h0.step hempty rfl
  have h2 := h1.step (show Traced.quiet _ (.evalExpr (ascii "ping")) from trivial) rfl
  have h3 := h2.step (show Traced.quiet _ .pollResult from trivial) rfl
  exact (replays_by_interrupt answering h3).1

/-- The calls for two requests, of which the second one is interrupted: the response to the first
one is given out again. -/
def interruptedCalls : List Call :=
  [.beginEval, .evalExpr (ascii "ping"), .pollResult, .beginEval, .interrupt, .pollResult]

theorem replays_by_interrupt_twice :
    ¬ (∀ s, Reach (callSystem answering) anyStep s → s.NoReplay) ∧
      (exec (callSystem answering) (Traced.new ()) interruptedCalls).map Traced.returned =
        some [⟨1, some 0⟩, ⟨1, some 3⟩] := by
  have hrun : (exec (callSystem answering) (Traced.new ()) interruptedCalls).map Traced.returned =
      some [⟨1, some 0⟩, ⟨1, some 3⟩] := by decide
  refine ⟨?_, hrun⟩
  intro h
  obtain ⟨s, hs, hreturned⟩ := Option.map_eq_some_iff.mp hrun
  have hreach : Reach (callSystem answering) anyStep s :=
    Reach.of_exec (fun _ _ => true) (fun _ _ _ => trivial) (.init ⟨(), rfl⟩) (by decide) hs
  have hnodup := (h s hreach).1
  rw [hreturned] at hnodup
  exact absurd hnodup (by decide)

end McpEval

end CogServer
