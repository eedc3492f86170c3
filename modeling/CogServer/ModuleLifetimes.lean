import CogServer.ModuleServer

/-! Requests run while their module is there, as long as no module is unloaded that somebody still
needs. -/
namespace CogServer

open Transition

namespace ModuleServer

variable {ρ : Type*} {s t : ModuleServer ρ} {r : ρ} {q : ModuleRequest} {d : ModuleData}

/-- The module is in its constructor. -/
def Constructing (s : ModuleServer ρ) (m : ℕ) : Prop :=
  ∃ r q d, s.requests r = some q ∧ q.stage = .loading d ∧ d.module = m

/-- Requests have come from the factory, or can come. -/
def InUse (s : ModuleServer ρ) (f : Factory) : Prop :=
  (∃ n, s.manager.factories n = some f) ∨ ∃ r q, s.requests r = some q ∧ q.factory = f

/-- Requests of the factory are there, or can come when `d` has unregistered its commands. -/
def Remains (s : ModuleServer ρ) (d : ModuleData) (f : Factory) : Prop :=
  (∃ n, s.manager.factories n = some f ∧ ∀ kind, (n, kind) ∉ d.library.commands) ∨
    ∃ r q, s.requests r = some q ∧ q.factory = f

/-- Nothing needs the module: none of its requests is left, and no command that remains looks its
own module up under a key that goes. -/
structure Unused (s : ModuleServer ρ) (d : ModuleData) : Prop where
  requests : ∀ r q, s.requests r = some q → q.factory.module ≠ d.module
  keys : ∀ f t, s.Remains d f → f.kind = .cmd t → ¬ s.Constructing f.module →
    getFilename t ≠ d.filename ∧ getFilename t ≠ d.id

/-- The condition on a step: what is unloaded is not used, and `getModule` is not called while the
module of the request is in its constructor. -/
def orderly (s : ModuleServer ρ) : Act ρ → Prop
  | .run r => ∀ q, s.requests r = some q → q.stage = .executing →
      (∀ t, q.factory.kind = .cmd t → ¬ s.Constructing q.factory.module) ∧
      ∀ moduleId rest d, q.factory.kind = .unload → q.parameters = moduleId :: rest →
        s.manager.getModuleData moduleId = some d → s.Unused d
  | _ => True

/-- What the requests can rely on. -/
structure Held (s : ModuleServer ρ) : Prop where
  manager : s.manager.Consistent
  live : ∀ r q, s.requests r = some q →
    ∃ d n, s.manager.loaded q.factory.module = some d ∧ (n, q.factory.kind) ∈ d.library.commands
  loading : ∀ r q d, s.requests r = some q → q.stage = .loading d →
    s.manager.loaded d.module = some d ∧
      ∀ k d', s.manager.modules k = some d' → d'.module ≠ d.module
  alone : ∀ r r' q q' d d', s.requests r = some q → s.requests r' = some q' → q.stage = .loading d →
    q'.stage = .loading d' → d.module = d'.module → r = r'
  found : ∀ f t, s.InUse f → f.kind = .cmd t → ¬ s.Constructing f.module →
    s.manager.modules (getFilename t) ≠ none
  called : ∀ r q m, s.requests r = some q → q.stage = .called m → m ≠ none

theorem Held.owned (h : Held s) {f : Factory} (hf : s.InUse f) :
    ∃ d n, s.manager.loaded f.module = some d ∧ (n, f.kind) ∈ d.library.commands := by
  rcases hf with ⟨n, hf⟩ | ⟨r, q, hr, rfl⟩
  · obtain ⟨d, hd, hc⟩ := h.manager.registered n f hf
    exact ⟨d, n, hd, hc⟩
  · exact h.live r q hr

theorem Held.guarded (h : Held s) : s.Guarded where
  loaded r q hr _ hnone := by
    obtain ⟨d, -, hd, -⟩ := h.live r q hr
    exact nomatch hnone.symm.trans hd
  found := h.called

/-- The queue and the mutex play no part. -/
theorem Held.same (h : Held s) (queue : List ρ) (processing : Option ρ) :
    Held { s with requestQueue := queue, processing := processing } where
  manager := h.manager
  live := h.live
  loading := h.loading
  alone := h.alone
  found := h.found
  called := h.called

variable [DecidableEq ρ]

/-- A request that loads no module goes on, and still loads none. -/
theorem Held.put (h : Held s) {q' : Option ModuleRequest}
    (hold : ∀ q d, s.requests r = some q → q.stage ≠ .loading d)
    (hfactory : ∀ q, q' = some q → s.InUse q.factory)
    (hloading : ∀ q d, q' = some q → q.stage ≠ .loading d)
    (hcalled : ∀ q m, q' = some q → q.stage = .called m → m ≠ none) : Held (s.put r q') := by
  -- The other requests are what they were.
  have hother : ∀ r' q, (s.put r q').requests r' = some q →
      r' = r ∧ q' = some q ∨ r' ≠ r ∧ s.requests r' = some q := by
    intro r' q hr'
    by_cases hrr : r' = r
    · subst hrr
      exact .inl ⟨rfl, by simpa [ModuleServer.put] using hr'⟩
    · exact .inr ⟨hrr, by simpa [ModuleServer.put, hrr] using hr'⟩
  have hloads : ∀ r' q d, (s.put r q').requests r' = some q → q.stage = .loading d →
      s.requests r' = some q := by
    intro r' q d hr' hd
    rcases hother r' q hr' with ⟨-, hq⟩ | ⟨-, hq⟩
    · exact absurd hd (hloading q d hq)
    · exact hq
  have huse : ∀ f, (s.put r q').InUse f → s.InUse f := by
    rintro f (hf | ⟨r', q, hr', rfl⟩)
    · exact .inl hf
    · rcases hother r' q hr' with ⟨-, hq⟩ | ⟨-, hq⟩
      · exact hfactory q hq
      · exact .inr ⟨r', q, hq, rfl⟩
  constructor
  · exact h.manager
  · intro r' q hr'
    exact h.owned (huse q.factory (.inr ⟨r', q, hr', rfl⟩))
  · exact fun r' q d hr' hd => h.loading r' q d (hloads r' q d hr' hd) hd
  · intro r₁ r₂ q₁ q₂ d₁ d₂ h₁ h₂ hd₁ hd₂
    exact h.alone r₁ r₂ q₁ q₂ d₁ d₂ (hloads _ _ _ h₁ hd₁) (hloads _ _ _ h₂ hd₂) hd₁ hd₂
  · intro f t hf hk hc
    apply h.found f t (huse f hf) hk
    rintro ⟨r', q, d, hr', hd, hm⟩
    refine hc ⟨r', q, d, ?_, hd, hm⟩
    have hrr : r' ≠ r := fun heq => hold q d (heq ▸ hr') hd
    simpa [ModuleServer.put, hrr] using hr'
  · intro r' q m hr' hm
    rcases hother r' q hr' with ⟨-, hq⟩ | ⟨-, hq⟩
    · exact hcalled q m hq hm
    · exact h.called r' q m hq hm

/-- A request changes the modules and goes on. -/
def advance (s : ModuleServer ρ) (g : ModuleManager) (r : ρ) (q : ModuleRequest)
    (stage : RequestStage) : ModuleServer ρ :=
  { s with manager := g }.put r (some { q with stage := stage })

theorem advance_self (s : ModuleServer ρ) (g : ModuleManager) (r : ρ) (q : ModuleRequest)
    (stage : RequestStage) :
    (s.advance g r q stage).requests r = some { q with stage := stage } :=
  Function.update_self ..

theorem advance_of_ne {g : ModuleManager} {stage : RequestStage} {r' : ρ} (hr : r' ≠ r) :
    (s.advance g r q stage).requests r' = s.requests r' :=
  Function.update_of_ne hr ..

/-- The factories of the requests are those that they had. -/
theorem advance_inUse {g : ModuleManager} {stage : RequestStage} {r' : ρ} {q' : ModuleRequest}
    (hr : s.requests r = some q) (hr' : (s.advance g r q stage).requests r' = some q') :
    s.InUse q'.factory := by
  by_cases hrr : r' = r
  · subst hrr
    obtain rfl := Option.some.inj ((s.advance_self g r' q stage).symm.trans hr')
    exact .inr ⟨r', q, hr, rfl⟩
  · exact .inr ⟨r', q', (advance_of_ne hrr).symm.trans hr', rfl⟩

theorem Held.advance_called (h : Held s) {g : ModuleManager} {stage : RequestStage} {r' : ρ}
    {q' : ModuleRequest} {m : Option ℕ} (hr' : (s.advance g r q stage).requests r' = some q')
    (hm : q'.stage = .called m) (hstage : stage ≠ .called m) : m ≠ none := by
  by_cases hrr : r' = r
  · subst hrr
    obtain rfl := Option.some.inj ((s.advance_self g r' q stage).symm.trans hr')
    exact absurd hm hstage
  · exact h.called r' q' m ((advance_of_ne hrr).symm.trans hr') hm

/-- A module is constructed, which is new. -/
theorem Held.construct (h : Held s) (hr : s.requests r = some q) (hq : ∀ d, q.stage ≠ .loading d)
    (filename : Bytes) (l : Library) :
    Held (s.advance (s.manager.construct filename l) r q
      (.loading (s.manager.made filename l))) := by
  generalize hd : s.manager.made filename l = d
  have hmodule : d.module = s.manager.nextModule := by rw [← hd]; rfl
  have hself := s.advance_self (s.manager.construct filename l) r q (.loading d)
  -- The other requests that load modules load old ones.
  have hold : ∀ r' q' d',
      (s.advance (s.manager.construct filename l) r q (.loading d)).requests r' = some q' →
      q'.stage = .loading d' →
      r' = r ∧ d' = d ∨ s.requests r' = some q' ∧ d'.module ≠ d.module := by
    intro r' q' d' hr' hd'
    by_cases hrr : r' = r
    · subst hrr
      obtain rfl := Option.some.inj (hself.symm.trans hr')
      exact .inl ⟨rfl, (RequestStage.loading.inj hd').symm⟩
    · have hs := (advance_of_ne hrr).symm.trans hr'
      have hlt := h.manager.lt (h.loading r' q' d' hs hd').1
      exact .inr ⟨hs, by omega⟩
  constructor
  · exact h.manager.construct filename l
  · intro r' q' hr'
    obtain ⟨d', n, hd', hc⟩ := h.owned (advance_inUse hr hr')
    exact ⟨d', n, h.manager.loaded_construct filename l hd', hc⟩
  · intro r' q' d' hr' hd'
    rcases hold r' q' d' hr' hd' with ⟨-, rfl⟩ | ⟨hs, -⟩
    · refine ⟨?_, ?_⟩
      · rw [hmodule, ← hd]
        exact Function.update_self ..
      · intro k d'' hk
        have hlt := h.manager.lt (h.manager.mapped k d'' hk).1
        omega
    · obtain ⟨hloaded, hunmapped⟩ := h.loading r' q' d' hs hd'
      exact ⟨h.manager.loaded_construct filename l hloaded, hunmapped⟩
  · intro r₁ r₂ q₁ q₂ d₁ d₂ h₁ h₂ hd₁ hd₂ heq
    rcases hold r₁ q₁ d₁ h₁ hd₁ with ⟨rfl, rfl⟩ | ⟨hs₁, hne₁⟩ <;>
      rcases hold r₂ q₂ d₂ h₂ hd₂ with ⟨rfl, rfl⟩ | ⟨hs₂, hne₂⟩
    · rfl
    · exact absurd heq.symm hne₂
    · exact absurd heq hne₁
    · exact h.alone r₁ r₂ q₁ q₂ d₁ d₂ hs₁ hs₂ hd₁ hd₂ heq
  · intro f t hf hk hc
    apply h.found f t ?_ hk
    · rintro ⟨r', q', d', hr', hd', hm⟩
      have hrr : r' ≠ r := by
        rintro rfl
        obtain rfl := Option.some.inj (hr.symm.trans hr')
        exact hq d' hd'
      exact hc ⟨r', q', d', (advance_of_ne hrr).trans hr', hd', hm⟩
    · rcases hf with ⟨n, hf⟩ | ⟨r', q', hr', rfl⟩
      · rcases ModuleManager.registerAll_eq_some hf with hf | ⟨hm, -⟩
        · exact .inl ⟨n, hf⟩
        · exact absurd ⟨r, _, d, hself, rfl, hmodule.trans hm.symm⟩ hc
      · exact advance_inUse hr hr'
  · exact fun r' q' m hr' hm => h.advance_called hr' hm nofun

/-- The constructed module gets its entries. -/
theorem Held.enter (h : Held s) (hr : s.requests r = some q) (hq : q.stage = .loading d) :
    Held (s.advance (s.manager.enter d) r q .returning) := by
  have hself := s.advance_self (s.manager.enter d) r q .returning
  -- The requests that still load modules load other ones.
  have hold : ∀ r' q' d', (s.advance (s.manager.enter d) r q .returning).requests r' = some q' →
      q'.stage = .loading d' → s.requests r' = some q' ∧ d'.module ≠ d.module := by
    intro r' q' d' hr' hd'
    have hrr : r' ≠ r := by
      rintro rfl
      obtain rfl := Option.some.inj (hself.symm.trans hr')
      cases hd'
    have hs := (advance_of_ne hrr).symm.trans hr'
    exact ⟨hs, fun heq => hrr (h.alone r' r q' q d' d hs hr hd' hq heq)⟩
  have hloaded := (h.loading r q d hr hq).1
  have hconsistent := h.manager.enter hloaded
  constructor
  · exact hconsistent
  · exact fun r' q' hr' => h.owned (advance_inUse hr hr')
  · intro r' q' d' hr' hd'
    obtain ⟨hs, hne⟩ := hold r' q' d' hr' hd'
    obtain ⟨hloaded', hunmapped⟩ := h.loading r' q' d' hs hd'
    refine ⟨hloaded', ?_⟩
    intro k d'' hk
    rcases ModuleManager.modules_enter hk with rfl | hk
    · exact hne.symm
    · exact hunmapped k d'' hk
  · intro r₁ r₂ q₁ q₂ d₁ d₂ h₁ h₂ hd₁ hd₂
    exact h.alone r₁ r₂ q₁ q₂ d₁ d₂ (hold r₁ q₁ d₁ h₁ hd₁).1 (hold r₂ q₂ d₂ h₂ hd₂).1 hd₁ hd₂
  · intro f t hf hk hc
    apply ModuleManager.modules_enter_ne_none
    by_cases hm : f.module = d.module
    · -- A command of the module itself, which has its name.
      left
      obtain ⟨d', n, hd', hmem⟩ : ∃ d' n, s.manager.loaded f.module = some d' ∧
          (n, f.kind) ∈ d'.library.commands := by
        rcases hf with ⟨n, hf⟩ | ⟨r', q', hr', rfl⟩
        · obtain ⟨d', hd', hmem⟩ := hconsistent.registered n f hf
          exact ⟨d', n, hd', hmem⟩
        · exact h.owned (advance_inUse hr hr')
      rw [hm, hloaded] at hd'
      obtain rfl := Option.some.inj hd'
      exact ModuleManager.getFilename_of_declared hmem hk
    · right
      apply h.found f t ?_ hk
      · rintro ⟨r', q', d', hr', hd', hm'⟩
        have hrr : r' ≠ r := by
          rintro rfl
          obtain rfl := Option.some.inj (hr.symm.trans hr')
          obtain rfl := RequestStage.loading.inj (hq.symm.trans hd')
          exact hm hm'.symm
        exact hc ⟨r', q', d', (advance_of_ne hrr).trans hr', hd', hm'⟩
      · rcases hf with ⟨n, hf⟩ | ⟨r', q', hr', rfl⟩
        · rcases ModuleManager.registerAll_eq_some hf with hf | ⟨hm', -⟩
          · exact .inl ⟨n, hf⟩
          · exact absurd hm' hm
        · exact advance_inUse hr hr'
  · exact fun r' q' m hr' hm => h.advance_called hr' hm nofun

omit [DecidableEq ρ] in
/-- A module goes that nothing uses. -/
theorem Held.unload (h : Held s) {k : Bytes} (hd : s.manager.modules k = some d) (hunused : s.Unused d) :
    Held { s with manager := s.manager.unload d } := by
  have hloaded := (h.manager.mapped k d hd).1
  have hother : ∀ {m d'}, m ≠ d.module → s.manager.loaded m = some d' →
      (s.manager.unload d).loaded m = some d' :=
    fun hm hd' => (Function.update_of_ne hm _ _).trans hd'
  constructor
  · exact h.manager.unload hloaded
  · intro r q hr
    obtain ⟨d', n, hd', hc⟩ := h.live r q hr
    exact ⟨d', n, hother (hunused.requests r q hr) hd', hc⟩
  · intro r q d' hr hq
    obtain ⟨hd', hunmapped⟩ := h.loading r q d' hr hq
    refine ⟨hother (hunmapped k d hd).symm hd', ?_⟩
    exact fun k' d'' hk' => hunmapped k' d'' (ModuleManager.modules_unload hk')
  · exact h.alone
  · intro f t hf hk hc
    have hremains : s.Remains d f := by
      rcases hf with ⟨n, hf⟩ | hf
      · obtain ⟨hf, hnot⟩ := ModuleManager.unregisterAll_eq_some hf
        exact .inl ⟨n, hf, hnot⟩
      · exact .inr hf
    have huse : s.InUse f := by
      rcases hremains with ⟨n, hf, -⟩ | hf
      · exact .inl ⟨n, hf⟩
      · exact .inr hf
    obtain ⟨hfilename, hid⟩ := hunused.keys f t hremains hk hc
    have hfound := h.found f t huse hk hc
    simpa [ModuleManager.unload, Function.update_apply, hfilename, hid] using hfound
  · exact h.called

omit [DecidableEq ρ] in
theorem held_start (E : ModuleFiles) : Held (start E : ModuleServer ρ) := by
  obtain ⟨hconsistent, hanswers⟩ := ModuleManager.consistent_new.loadModules nofun E
  have hnone : ∀ r q, (start E : ModuleServer ρ).requests r ≠ some q :=
    fun _ _ => Option.some_ne_none _ |>.symm
  constructor
  · exact hconsistent
  · exact fun r q hr => absurd hr (hnone r q)
  · exact fun r q d hr => absurd hr (hnone r q)
  · exact fun r r' q q' d d' hr => absurd hr (hnone r q)
  · rintro f t (⟨n, hf⟩ | ⟨r, q, hr, -⟩) hk -
    · exact hanswers n f t hf hk
    · exact absurd hr (hnone r q)
  · exact fun r q m hr => absurd hr (hnone r q)

theorem Held.createRequest (h : Held s) {name : Bytes} {parameters : List Bytes}
    {stage : RequestStage} (hstage : stage = .made ∨ stage = .kept)
    (ht : s.createRequest r name parameters stage = some t) : Held t := by
  unfold ModuleServer.createRequest at ht
  split at ht
  · rename_i hr hf
    obtain rfl := Option.some.inj ht
    apply h.put
    · exact fun q d hq => nomatch hr.symm.trans hq
    · intro q hq
      obtain rfl := Option.some.inj hq
      exact .inl ⟨name, hf⟩
    · intro q d hq
      obtain rfl := Option.some.inj hq
      rcases hstage with rfl | rfl <;> exact nofun
    · intro q m hq hm
      obtain rfl := Option.some.inj hq
      rcases hstage with rfl | rfl <;> cases hm
  · cases ht

/-- A request goes on to a stage that promises nothing. -/
theorem Held.goto (h : Held s) (hr : s.requests r = some q) (hq : ∀ d, q.stage ≠ .loading d)
    {parameters : List Bytes} {stage : RequestStage} (hloading : ∀ d, stage ≠ .loading d)
    (hcalled : ∀ m, stage = .called m → m ≠ none) :
    Held (s.put r (some ⟨q.factory, parameters, stage⟩)) := by
  apply h.put
  · intro q' d hr' hd
    obtain rfl := Option.some.inj (hr.symm.trans hr')
    exact hq d hd
  · intro q' hq'
    obtain rfl := Option.some.inj hq'
    exact .inr ⟨r, q, hr, rfl⟩
  · intro q' d hq'
    obtain rfl := Option.some.inj hq'
    exact hloading d
  · intro q' m hq'
    obtain rfl := Option.some.inj hq'
    exact hcalled m

/-- The request is gone. -/
theorem Held.gone (h : Held s) (hr : s.requests r = some q) (hq : ∀ d, q.stage ≠ .loading d) :
    Held (s.put r none) := by
  apply h.put
  · intro q' d hr' hd
    obtain rfl := Option.some.inj (hr.symm.trans hr')
    exact hq d hd
  all_goals exact nofun

theorem Held.execute (h : Held s) {E : ModuleFiles} (hr : s.requests r = some q)
    (hq : q.stage = .executing) (ha : s.orderly (.run r)) : Held (s.execute E r q) := by
  have hidle : ∀ d, q.stage ≠ .loading d := by
    rw [hq]
    exact nofun
  obtain ⟨hconstructed, hunused⟩ := ha q hr hq
  have hreturn : Held (s.put r (some { q with stage := .returning })) := h.goto hr hidle nofun nofun
  unfold ModuleServer.execute
  split
  · rename_i modType hk
    apply h.goto hr hidle (by simp)
    intro m hm
    obtain rfl := RequestStage.called.inj hm
    have hfound := h.found q.factory modType (.inr ⟨r, q, hr, rfl⟩) hk (hconstructed modType hk)
    simpa [ModuleManager.getModule, ModuleManager.getModuleData] using hfound
  · split
    · exact h.construct hr hidle _ _
    · exact hreturn
    · exact hreturn
  · rename_i moduleId rest hk hp
    unfold ModuleManager.unloadModule
    cases hd : s.manager.getModuleData moduleId with
    | none => exact hreturn
    | some d => exact (h.unload hd (hunused moduleId rest d hk hp hd)).goto hr hidle nofun nofun
  · exact hreturn

theorem Held.run (h : Held s) {E : ModuleFiles} (ha : s.orderly (.run r))
    (ht : s.run E r = some t) : Held t := by
  unfold ModuleServer.run at ht
  cases hr : s.requests r with
  | none => simp [hr] at ht
  | some q =>
    simp only [hr] at ht
    cases hq : q.stage with
    | executing =>
      simp only [hq, Option.some.injEq] at ht
      exact ht ▸ h.execute hr hq ha
    | called m =>
      cases m with
      | none => simp [hq] at ht
      | some m =>
        simp only [hq, Option.some.injEq] at ht
        exact ht ▸ h.goto hr (by simp [hq]) (by simp) (by simp)
    | loading d =>
      simp only [hq, Option.some.injEq] at ht
      exact ht ▸ h.enter hr hq
    | returning =>
      simp only [hq, Option.some.injEq] at ht
      exact ht ▸ h.goto hr (by simp [hq]) (by simp) (by simp)
    | deleting =>
      simp only [hq, Option.some.injEq] at ht
      exact ht ▸ (h.same s.requestQueue _).gone hr (by simp [hq])
    | made | queued | kept => simp [hq] at ht

theorem Held.step (h : Held s) {E : ModuleFiles} {a : Act ρ} (ha : s.orderly a)
    (ht : s.step E a = some t) : Held t := by
  cases a with
  | create r name parameters => exact h.createRequest (.inl rfl) ht
  | connect r name => exact h.createRequest (.inr rfl) ht
  | push r =>
    simp only [ModuleServer.step] at ht
    split at ht
    · rename_i f parameters hr
      obtain rfl := Option.some.inj ht
      have hgoto : Held (s.put r (some ⟨f, parameters, .queued⟩)) := h.goto hr nofun nofun nofun
      exact hgoto.same _ s.processing
    · cases ht
  | line r =>
    simp only [ModuleServer.step] at ht
    split at ht
    · rename_i hr
      obtain rfl := Option.some.inj ht
      exact h.goto hr nofun nofun nofun
    · cases ht
  | hangUp r =>
    simp only [ModuleServer.step] at ht
    split at ht
    · rename_i hr
      obtain rfl := Option.some.inj ht
      exact h.gone hr nofun
    · cases ht
  | pop =>
    simp only [ModuleServer.step] at ht
    split at ht
    · split at ht
      · rename_i f parameters hr
        obtain rfl := Option.some.inj ht
        have hgoto : Held (s.put _ (some ⟨f, parameters, .executing⟩)) :=
          h.goto hr nofun nofun nofun
        exact hgoto.same _ _
      · cases ht
    · cases ht
  | run r => exact h.run ha ht

/-- The module of a request is there as long as the steps are orderly. -/
theorem requests_guarded {E : ModuleFiles} (hs : Reach (moduleSystem E) orderly s) : s.Guarded := by
  refine (hs.invariant Held ?_ ?_).guarded
  · rintro s rfl
    exact held_start E
  · exact fun s a t _ h ha ht => h.step ha ht

/-- `BuiltinRequestsModule` -/
def builtinRequests : Library where
  id := ascii "BuiltinRequestsModule"
  constructor :=
    [(ascii "shutdown", .other), (ascii "list", .other), (ascii "load", .load),
      (ascii "unload", .unload)] ++
      [ascii "help", ascii "h", ascii "exit", ascii "quit", ascii "q", [], [255, 236], ascii ".",
        ascii "stats"].map
        fun name => (name, .cmd (ascii "BuiltinRequestsModule"))
  init := []
  declared := by
    intro c hc t ht
    rcases List.mem_append.mp (List.append_nil _ ▸ hc) with hc | hc
    · simp only [List.mem_cons, List.not_mem_nil, or_false] at hc
      rcases hc with rfl | rfl | rfl | rfl <;> cases ht
    · obtain ⟨name, -, rfl⟩ := List.mem_map.mp hc
      exact (CommandKind.cmd.inj ht).symm
  identifier := by decide

/-- `PythonShellModule` -/
def pythonShell : Library where
  id := ascii "PythonShellModule"
  constructor := []
  init := [ascii "py", ascii "py-eval"].map fun name => (name, .cmd (ascii "PythonShellModule"))
  declared := by
    intro c hc t ht
    obtain ⟨name, -, rfl⟩ := List.mem_map.mp hc
    exact (CommandKind.cmd.inj ht).symm
  identifier := by decide

def twoModules : ModuleFiles where
  find name := [ascii "/modules/" ++ name]
  library path :=
    if getFilename path = ascii "libbuiltinreqs.so" then some builtinRequests
    else if getFilename path = ascii "libpy-shell.so" then some pythonShell
    else none

/-- What `getModule` returned to a request. -/
def pointer (s : ModuleServer ρ) (r : ρ) : Option (Option ℕ) :=
  match s.requests r with
  | some ⟨_, _, .called m⟩ => some m
  | _ => none

omit [DecidableEq ρ] in
theorem pointer_eq_some {m : Option ℕ} (h : s.pointer r = some m) :
    ∃ q, s.requests r = some q ∧ q.stage = .called m := by
  unfold pointer at h
  split at h
  · rename_i f parameters m' hr
    obtain rfl := Option.some.inj h
    exact ⟨_, hr, rfl⟩
  · cases h

/-- A `py-eval`, for which `getModule` finds the module. -/
theorem requests_guarded_eval :
    ∃ s : ModuleServer Unit, s.Guarded ∧ s.pointer () = some (some 1) := by
  have hplaces : (exec (moduleSystem twoModules) (start twoModules)
      [.create () (ascii "py-eval") [ascii "1"], .push (), .pop, .run ()]).map (fun s => s.pointer ()) =
        some (some (some 1)) := by
    decide
  obtain ⟨s, hs, hpointer⟩ := Option.map_eq_some_iff.mp hplaces
  have hreach := Reach.of_exec (C := orderly)
    (fun s a => match a with
      | .run r => (s.requests r).all fun q => q.factory.kind ≠ .unload
      | _ => true)
    (by
      intro s a ha
      cases a with
      | run r =>
        intro q hr hq
        refine ⟨?_, ?_⟩
        -- There is no other request that could load the module.
        · rintro t - ⟨r', q', d, hr', hd, -⟩
          obtain rfl := Option.some.inj (hr.symm.trans hr')
          exact nomatch hq.symm.trans hd
        · intro moduleId rest d hk
          simp [hr, hk] at ha
      | _ => trivial)
    (.init rfl) (by decide) hs
  exact ⟨s, requests_guarded hreach, hpointer⟩

/-- A `py-eval` is executed behind the `unload` of its module. -/
theorem requests_guarded_fails :
    ¬ ∀ s : ModuleServer Bool, Reach (moduleSystem twoModules) anyStep s → s.Guarded := by
  intro h
  have hplaces : (exec (moduleSystem twoModules) (start twoModules)
      [.create false (ascii "unload") [ascii "libpy-shell.so"], .push false,
        .create true (ascii "py-eval") [ascii "1"], .push true,
        .pop, .run false, .run false, .run false, .pop, .run true]).map
      (fun s => s.pointer true) = some (some none) := by
    decide
  obtain ⟨s, hs, hpointer⟩ := Option.map_eq_some_iff.mp hplaces
  obtain ⟨q, hr, hq⟩ := pointer_eq_some hpointer
  exact (h s (reach_of_exec _ rfl hs)).found true q none hr hq rfl

end ModuleServer

end CogServer
