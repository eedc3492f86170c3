import CogServer.RecvBarrier

/-! A barrier whose callers agree on its size: everybody waits for everybody,
and the last one out leaves nothing behind. -/
namespace CogServer

open Transition

namespace RecvBarriers

variable {ι : Type*} {s t : RecvBarriers ι}

/-- The counters of an entry, for a round of `size` calls of which `arrivals`
have come and `inside` have not left. -/
def EntryOk (st : BarrierState) (size arrivals inside : ℕ) : Prop :=
  if st.complete then arrivals = size ∧ st.toExit.toNat = inside ∧ 0 < inside
  else 0 < st.remaining.toNat ∧ st.remaining.toNat + arrivals = size ∧ st.toExit.toNat = size ∧
    inside = arrivals

/-- What holds of a waiting caller. -/
structure WaitOk (s : RecvBarriers ι) (x : ι) (n : UInt8) (u : Bytes) (id r : ℕ) (b : Bool) : Prop where
  inside : x ∈ s.inside u
  found : s.barriers u = some id
  round : r = s.round u
  size : n.toNat ≤ s.size u
  notified : ∀ st, s.entries id = some st → st.complete = true → b = true

/-- The state of the map while the calls fit the barriers they find. -/
structure Orderly (s : RecvBarriers ι) : Prop where
  fresh : ∀ u id, s.barriers u = some id → id < s.nextEntry
  inj : ∀ u v id, s.barriers u = some id → s.barriers v = some id → u = v
  absent : ∀ u, s.barriers u = none → s.inside u = [] ∧ s.arrivals u (s.round u) = s.size u
  present : ∀ u id, s.barriers u = some id → ∃ st, s.entries id = some st ∧
    EntryOk st (s.size u) (s.arrivals u (s.round u)) (s.inside u).length
  later : ∀ u r, s.round u < r → s.arrivals u r = 0
  waits : ∀ x n u id r b, s.caller x = .waiting n u id r b → WaitOk s x n u id r b
  wrapped : s.wrapped = false
  early : s.early = false

theorem orderly_start : Orderly (start : RecvBarriers ι) := by
  constructor <;> simp [start]

/-- A step that changes one UUID and its entry. -/
theorem Orderly.change (ho : Orderly s) (u : Bytes) (id : ℕ)
    (hsame : ∀ v, v ≠ u → t.barriers v = s.barriers v ∧ t.inside v = s.inside v ∧
      t.round v = s.round v ∧ t.size v = s.size v ∧ t.arrivals v = s.arrivals v)
    (hentries : ∀ j, j ≠ id → t.entries j = s.entries j) (hnext : s.nextEntry ≤ t.nextEntry)
    (hid : ∀ v, v ≠ u → s.barriers v ≠ some id)
    (hu : t.barriers u = none ∧ t.inside u = [] ∧ t.arrivals u (t.round u) = t.size u ∨
      t.barriers u = some id ∧ id < t.nextEntry ∧ ∃ st, t.entries id = some st ∧
        EntryOk st (t.size u) (t.arrivals u (t.round u)) (t.inside u).length)
    (hlater : ∀ r, t.round u < r → t.arrivals u r = 0)
    (hwaits : ∀ x n v j r b, t.caller x = .waiting n v j r b →
      v = u ∧ WaitOk t x n v j r b ∨ v ≠ u ∧ s.caller x = .waiting n v j r b)
    (hwrapped : t.wrapped = false) (hearly : t.early = false) : Orderly t := by
  have hold (v : Bytes) (j : ℕ) (hv : v ≠ u) (hj : s.barriers v = some j) :
      t.entries j = s.entries j := by
    refine hentries j ?_
    rintro rfl
    exact hid v hv hj
  constructor
  case fresh =>
    intro v j hj
    by_cases hv : v = u
    · subst hv
      rcases hu with ⟨hn, -⟩ | ⟨hs, hlt, -⟩
      · simp [hn] at hj
      · rw [hs] at hj
        exact Option.some.inj hj ▸ hlt
    · rw [(hsame v hv).1] at hj
      exact Nat.lt_of_lt_of_le (ho.fresh v j hj) hnext
  case inj =>
    intro v w j hv hw
    by_cases h1 : v = u <;> by_cases h2 : w = u
    · rw [h1, h2]
    · subst h1
      rw [(hsame w h2).1] at hw
      rcases hu with ⟨hn, -⟩ | ⟨hs, -⟩
      · simp [hn] at hv
      · rw [hs] at hv
        exact absurd (Option.some.inj hv ▸ hw) (hid w h2)
    · subst h2
      rw [(hsame v h1).1] at hv
      rcases hu with ⟨hn, -⟩ | ⟨hs, -⟩
      · simp [hn] at hw
      · rw [hs] at hw
        exact absurd (Option.some.inj hw ▸ hv) (hid v h1)
    · rw [(hsame v h1).1] at hv
      rw [(hsame w h2).1] at hw
      exact ho.inj v w j hv hw
  case absent =>
    intro v hv
    by_cases h : v = u
    · subst h
      rcases hu with ⟨-, hi, ha⟩ | ⟨hs, -⟩
      · exact ⟨hi, ha⟩
      · simp [hs] at hv
    · obtain ⟨h1, h2, h3, h4, h5⟩ := hsame v h
      rw [h2, h3, h4, h5]
      exact ho.absent v (h1 ▸ hv)
  case present =>
    intro v j hv
    by_cases h : v = u
    · subst h
      rcases hu with ⟨hn, -⟩ | ⟨hs, -, hst⟩
      · simp [hn] at hv
      · rw [hs] at hv
        exact Option.some.inj hv ▸ hst
    · obtain ⟨h1, h2, h3, h4, h5⟩ := hsame v h
      rw [h1] at hv
      rw [h2, h3, h4, h5, hold v j h hv]
      exact ho.present v j hv
  case later =>
    intro v r hr
    by_cases h : v = u
    · subst h
      exact hlater r hr
    · obtain ⟨-, -, h3, -, h5⟩ := hsame v h
      rw [h5]
      exact ho.later v r (h3 ▸ hr)
  case waits =>
    intro x n v j r b hx
    rcases hwaits x n v j r b hx with ⟨rfl, hw⟩ | ⟨hv, hs⟩
    · exact hw
    · obtain ⟨h1, h2, h3, h4, -⟩ := hsame v hv
      have hw := ho.waits x n v j r b hs
      refine ⟨by rw [h2]; exact hw.inside, by rw [h1]; exact hw.found, by rw [h3]; exact hw.round,
        by rw [h4]; exact hw.size, ?_⟩
      rw [hold v j hv hw.found]
      exact hw.notified
  case wrapped => exact hwrapped
  case early => exact hearly

/-- A call fits: it makes a new barrier for at least one, or finds an incomplete
one that is at least as large as it asks. -/
def fits (s : RecvBarriers ι) : Act ι → Prop
  | .call _ n u =>
    match s.barriers u with
    | none => n ≠ 0
    | some id => ∃ st, s.entries id = some st ∧ st.complete = false ∧ n ≤ st.toExit
  | _ => True

theorem toNat_pred {x : UInt8} (h : x ≠ 0) : (x - 1).toNat = x.toNat - 1 ∧ 0 < x.toNat := by
  have hpos : 0 < x.toNat := by
    exact Nat.pos_of_ne_zero fun h0 => h (UInt8.toNat_inj.mp h0)
  have hle : (1 : UInt8) ≤ x := by
    rw [UInt8.le_iff_toNat_le]
    exact hpos
  exact ⟨UInt8.toNat_sub_of_le _ _ hle, hpos⟩

theorem notify_eq_waiting {id : ℕ} {c : CallerPc} {n : UInt8} {u : Bytes} {j r : ℕ} {b : Bool}
    (h : notify id c = .waiting n u j r b) :
    ∃ b', c = .waiting n u j r b' ∧ b = (b' || j = id) := by
  cases c with
  | out => simp [notify] at h
  | waiting n' u' j' r' b' =>
    simp only [notify, CallerPc.waiting.injEq] at h
    obtain ⟨rfl, rfl, rfl, rfl, rfl⟩ := h
    exact ⟨b', rfl, rfl⟩

/-- The arrival of a caller, up to its own wait. `w` is the state in which it is
counted and the barrier is not yet marked complete. -/
theorem arrived_orderly {w : RecvBarriers ι} (u : Bytes) {id : ℕ} (st : BarrierState) (ho : Orderly s)
    (hsame : ∀ v, v ≠ u → w.barriers v = s.barriers v ∧ w.inside v = s.inside v ∧
      w.round v = s.round v ∧ w.size v = s.size v ∧ w.arrivals v = s.arrivals v)
    (hentries : ∀ j, j ≠ id → w.entries j = s.entries j) (hnext : s.nextEntry ≤ w.nextEntry)
    (hid : ∀ v, v ≠ u → s.barriers v ≠ some id) (hfound : w.barriers u = some id)
    (hlt : id < w.nextEntry) (hst : w.entries id = some st) (hcomplete : st.complete = false)
    (hsum : st.remaining.toNat + w.arrivals u (w.round u) = w.size u)
    (hexit : st.toExit.toNat = w.size u) (hinside : (w.inside u).length = w.arrivals u (w.round u))
    (hpos : 0 < w.arrivals u (w.round u)) (hlater : ∀ r, w.round u < r → w.arrivals u r = 0)
    (hwaits : ∀ x n v j r b, w.caller x = .waiting n v j r b →
      v = u ∧ x ∈ w.inside u ∧ j = id ∧ r = w.round u ∧ n.toNat ≤ w.size u ∨
        v ≠ u ∧ s.caller x = .waiting n v j r b)
    (hwrapped : w.wrapped = false) (hearly : w.early = false) : Orderly (w.completeIfLast id) := by
  unfold completeIfLast
  rw [hst]
  by_cases hz : st.remaining = 0
  · have hzero : st.remaining.toNat = 0 := by rw [hz]; rfl
    simp only [hz, hcomplete, and_self, ↓reduceIte]
    refine ho.change u id hsame ?_ hnext hid (.inr ⟨hfound, hlt,
      ⟨0, st.toExit, true⟩, by simp, ?_⟩) hlater ?_ hwrapped hearly
    · intro j hj
      simp only [Function.update_of_ne hj]
      exact hentries j hj
    · simp only [EntryOk, ↓reduceIte]
      omega
    · intro x n v j r b hx
      obtain ⟨b', hx', rfl⟩ := notify_eq_waiting hx
      rcases hwaits x n v j r b' hx' with ⟨rfl, h1, rfl, h3, h4⟩ | ⟨hv, hs⟩
      · exact .inl ⟨rfl, h1, hfound, h3, h4, by simp⟩
      · have hj : j ≠ id := by
          rintro rfl
          exact hid v hv (ho.waits _ _ _ _ _ _ hs).found
        exact .inr ⟨hv, by simp [hs, hj]⟩
  · have hz' : 0 < st.remaining.toNat := Nat.pos_of_ne_zero fun h => hz (UInt8.toNat_inj.mp h)
    simp only [hz, false_and, ↓reduceIte]
    refine ho.change u id hsame hentries hnext hid (.inr ⟨hfound, hlt, st, hst, ?_⟩)
      hlater ?_ hwrapped hearly
    · simp only [EntryOk, hcomplete, Bool.false_eq_true, ↓reduceIte]
      omega
    · intro x n v j r b hx
      rcases hwaits x n v j r b hx with ⟨rfl, h1, rfl, h3, h4⟩ | hs
      · refine .inl ⟨rfl, h1, hfound, h3, h4, fun st' hst' hc => ?_⟩
        rw [hst] at hst'
        obtain rfl := Option.some.inj hst'
        simp [hcomplete] at hc
      · exact .inr hs

/-- What marking a barrier complete leaves alone. -/
theorem completeIfLast_frame (s : RecvBarriers ι) (id : ℕ) :
    (s.completeIfLast id).barriers = s.barriers ∧ (s.completeIfLast id).inside = s.inside ∧
      (s.completeIfLast id).round = s.round ∧ (s.completeIfLast id).size = s.size ∧
      (s.completeIfLast id).arrived = s.arrived ∧ (s.completeIfLast id).left = s.left ∧
      (s.completeIfLast id).erased = s.erased ∧
      ∀ x, s.caller x = .out → (s.completeIfLast id).caller x = .out := by
  unfold completeIfLast
  split
  · split
    · exact ⟨rfl, rfl, rfl, rfl, rfl, rfl, rfl, fun x hx => by simp [hx, notify]⟩
    · exact ⟨rfl, rfl, rfl, rfl, rfl, rfl, rfl, fun _ hx => hx⟩
  · exact ⟨rfl, rfl, rfl, rfl, rfl, rfl, rfl, fun _ hx => hx⟩

/-- A first caller makes an entry. -/
theorem arrive_absent {x : ι} {n : UInt8} {u : Bytes} (ho : Orderly s) (hx : s.caller x = .out)
    (hb : s.barriers u = none) (hn : n ≠ 0) :
    ∃ t, s.arrive x n u = some (t, s.nextEntry) ∧ Orderly t ∧ t.caller x = .out ∧ x ∈ t.inside u ∧
      t.barriers u = some s.nextEntry ∧ n.toNat ≤ t.size u := by
  obtain ⟨hi, ha⟩ := ho.absent u hb
  obtain ⟨hpred, hpos⟩ := toNat_pred hn
  have hz : s.arrivals u (s.round u + 1) = 0 := ho.later u _ (Nat.lt_succ_self _)
  have hnid (v : Bytes) : s.barriers v ≠ some s.nextEntry := by
    intro hv
    exact absurd (ho.fresh v _ hv) (Nat.lt_irrefl _)
  have hfull : s.size u ≤ s.arrivals u (s.round u) := Nat.le_of_eq ha.symm
  obtain ⟨h1, h2, h3, h4, -, -, -, h5⟩ :=
    completeIfLast_frame ((s.note x n u).emplace n u) s.nextEntry
  refine ⟨_, by simp only [arrive, hb], ?_, h5 x hx, ?_, ?_, ?_⟩
  · refine arrived_orderly u ⟨n - 1, n, false⟩ ho ?_ ?_ (Nat.le_succ _)
      (fun v _ => hnid v) ?_ (Nat.lt_succ_self _) ?_ rfl ?_ ?_ ?_ ?_ ?_ ?_ ?_ ho.early
    · intro v hv
      simp [emplace, note, hfull, hv]
    · intro j hj
      simp only [emplace, note]
      exact Function.update_of_ne hj _ _
    · simp [emplace, note]
    · simp [emplace, note]
    · simp only [emplace, note, hfull, ↓reduceIte, Function.update_self, hz, hpred]
      omega
    · simp [emplace, note, hfull]
    · simp [emplace, note, hfull, hi, hz]
    · simp [emplace, note, hfull, hz]
    · intro r hr
      simp only [emplace, note, hfull, ↓reduceIte, Function.update_self] at hr ⊢
      rw [Function.update_of_ne (by omega)]
      exact ho.later u r (by omega)
    · intro y m v j r b hy
      have hy : s.caller y = .waiting m v j r b := hy
      refine .inr ⟨?_, hy⟩
      rintro rfl
      have := (ho.waits _ _ _ _ _ _ hy).found
      simp [hb] at this
    · simp [emplace, note, ho.wrapped, hn]
  · rw [h2]
    simp [emplace, note]
  · rw [h1]
    simp [emplace, note]
  · rw [h4]
    simp [emplace, note, hfull]

/-- A later caller finds the entry, incomplete. -/
theorem arrive_present {x : ι} {n : UInt8} {u : Bytes} {id : ℕ} {st : BarrierState} (ho : Orderly s)
    (hx : s.caller x = .out) (hb : s.barriers u = some id) (hst : s.entries id = some st)
    (hcomplete : st.complete = false) (hn : n ≤ st.toExit) :
    ∃ t, s.arrive x n u = some (t, id) ∧ Orderly t ∧ t.caller x = .out ∧ x ∈ t.inside u ∧
      t.barriers u = some id ∧ n.toNat ≤ t.size u := by
  obtain ⟨st', hst', hok⟩ := ho.present u id hb
  obtain rfl : st = st' := Option.some.inj (hst.symm.trans hst')
  simp only [EntryOk, hcomplete, Bool.false_eq_true, ↓reduceIte] at hok
  obtain ⟨hr, hsum, hexit, hin⟩ := hok
  have hne : st.remaining ≠ 0 := by
    intro h
    simp [h] at hr
  obtain ⟨hpred, -⟩ := toNat_pred hne
  have hfull : ¬ s.size u ≤ s.arrivals u (s.round u) := by omega
  have hsize : n.toNat ≤ s.size u := hexit ▸ UInt8.le_iff_toNat_le.mp hn
  obtain ⟨h1, h2, h3, h4, -, -, -, h5⟩ := completeIfLast_frame ((s.note x n u).countDown id st) id
  refine ⟨_, by simp only [arrive, hb, hst]; rfl, ?_, h5 x hx, ?_, ?_, ?_⟩
  · refine arrived_orderly u { st with remaining := st.remaining - 1 } ho ?_ ?_
      (Nat.le_refl _) ?_ hb (ho.fresh u id hb) ?_ hcomplete ?_ ?_ ?_ ?_ ?_ ?_ ?_ ho.early
    · intro v hv
      simp [countDown, note, hfull, hv]
    · intro j hj
      simp only [countDown, note]
      exact Function.update_of_ne hj _ _
    · intro v hv hv'
      exact hv (ho.inj v u id hv' hb)
    · simp [countDown, note]
    · simp only [countDown, note, hfull, ↓reduceIte, Function.update_self, hpred]
      omega
    · simpa [countDown, note, hfull] using hexit
    · simp [countDown, note, hfull, hin]
    · simp [countDown, note, hfull]
    · intro r hr
      simp only [countDown, note, hfull, ↓reduceIte, Function.update_self] at hr ⊢
      rw [Function.update_of_ne (by omega)]
      exact ho.later u r hr
    · intro y m v j r b hy
      have hy : s.caller y = .waiting m v j r b := hy
      by_cases hv : v = u
      · subst hv
        have hw := ho.waits y m v j r b hy
        refine .inl ⟨rfl, ?_, ?_, ?_, ?_⟩
        · simp [countDown, note, hw.inside]
        · exact Option.some.inj (hw.found.symm.trans hb)
        · simp [countDown, note, hfull, hw.round]
        · simpa [countDown, note, hfull] using hw.size
      · exact .inr ⟨hv, hy⟩
    · simp [countDown, note, ho.wrapped, hne]
  · rw [h2]
    simp [countDown, note]
  · rw [h1]
    simpa [countDown, note] using hb
  · rw [h4]
    simpa [countDown, note, hfull] using hsize

/-- A call that fits arrives at a barrier, and is counted there. -/
theorem arrive_fits {x : ι} {n : UInt8} {u : Bytes} (ho : Orderly s) (hx : s.caller x = .out)
    (hfit : fits s (.call x n u)) :
    ∃ t id, s.arrive x n u = some (t, id) ∧ Orderly t ∧ t.caller x = .out ∧ x ∈ t.inside u ∧
      t.barriers u = some id ∧ n.toNat ≤ t.size u := by
  cases hb : s.barriers u with
  | none =>
    simp only [fits, hb] at hfit
    obtain ⟨t, h⟩ := arrive_absent ho hx hb hfit
    exact ⟨t, s.nextEntry, h⟩
  | some id =>
    simp only [fits, hb] at hfit
    obtain ⟨st, hst, hc, hn⟩ := hfit
    obtain ⟨t, h⟩ := arrive_present ho hx hb hst hc hn
    exact ⟨t, id, h⟩

variable [DecidableEq ι]

theorem settle_cases {x : ι} {n : UInt8} {u : Bytes} {id r : ℕ} (h : s.settle x n u id r = some t) :
    ∃ st, s.entries id = some st ∧ (st.complete = true ∧ t = s.leave x n u id r st ∨
      st.complete = false ∧ t = { s with caller := Function.update s.caller x (.waiting n u id r false) }) := by
  obtain ⟨st, hst, rfl⟩ := Option.map_eq_some_iff.mp h
  refine ⟨st, hst, ?_⟩
  cases hc : st.complete
  · exact .inr ⟨rfl, by simp⟩
  · exact .inl ⟨rfl, by simp⟩

/-- Leaving a complete barrier. -/
theorem leave_orderly {x : ι} {n : UInt8} {u : Bytes} {id r : ℕ} {st : BarrierState}
    (ho : Orderly s) (hin : x ∈ s.inside u) (hf : s.barriers u = some id) (hr : r = s.round u)
    (hn : n.toNat ≤ s.size u) (hst : s.entries id = some st) (hc : st.complete = true) :
    Orderly (s.leave x n u id r st) := by
  obtain ⟨st', hst', hok⟩ := ho.present u id hf
  obtain rfl : st = st' := Option.some.inj (hst.symm.trans hst')
  simp only [EntryOk, hc, ↓reduceIte] at hok
  obtain ⟨harr, hexit, hpos⟩ := hok
  have hne : st.toExit ≠ 0 := by
    intro h
    simp [h] at hexit
    omega
  obtain ⟨hpred, -⟩ := toNat_pred hne
  have hlen : ((s.inside u).erase x).length = (s.inside u).length - 1 :=
    List.length_erase_of_mem hin
  have hlast : st.toExit - 1 = 0 ↔ (s.inside u).erase x = [] := by
    rw [← List.length_eq_zero_iff, hlen, ← hexit, ← hpred]
    exact ⟨fun h => by rw [h]; rfl, fun h => UInt8.toNat_inj.mp h⟩
  subst hr
  refine ho.change u id ?_ ?_ (Nat.le_refl _) ?_ ?_ (fun r hr => ho.later u r hr) ?_ ?_ ?_
  · intro v hv
    simp only [leave, Function.update_of_ne hv, and_true]
    split
    · exact Function.update_of_ne hv _ _
    · rfl
  · intro j hj
    exact Function.update_of_ne hj _ _
  · intro v hv hv'
    exact hv (ho.inj v u id hv' hf)
  · by_cases hl : st.toExit - 1 = 0
    · exact .inl (by simp [leave, hl, hlast.mp hl, harr])
    · refine .inr ⟨by simpa [leave, hl] using hf, ho.fresh u id hf, { st with toExit := st.toExit - 1 },
        by simp [leave, hl], ?_⟩
      have : 0 < ((s.inside u).erase x).length := List.length_pos_iff.mpr fun h => hl (hlast.mpr h)
      simp only [leave, EntryOk, hc, ↓reduceIte, Function.update_self, hpred]
      omega
  · intro y m v j r b hy
    by_cases hyx : y = x
    · simp [leave, hyx] at hy
    have hy : s.caller y = .waiting m v j r b := by simpa [leave, hyx] using hy
    have hw := ho.waits y m v j r b hy
    by_cases hv : v = u
    · subst hv
      obtain rfl : id = j := Option.some.inj (hf.symm.trans hw.found)
      have hmem : y ∈ (s.inside v).erase x := (List.mem_erase_of_ne hyx).mpr hw.inside
      have hl : ¬ st.toExit - 1 = 0 := fun h => by simp [hlast.mp h] at hmem
      refine .inl ⟨rfl, by simpa [leave] using hmem, by simpa [leave, hl] using hf, hw.round, hw.size, ?_⟩
      intro st' hst' hc'
      exact hw.notified st hst hc
    · exact .inr ⟨hv, hy⟩
  · simp [leave, ho.wrapped, hne]
  · simp only [leave, ho.early, Bool.false_or, decide_eq_false_iff_not, Nat.not_lt, harr]
    exact hn

theorem settle_orderly {x : ι} {n : UInt8} {u : Bytes} {id r : ℕ} (ho : Orderly s)
    (hin : x ∈ s.inside u) (hf : s.barriers u = some id) (hr : r = s.round u)
    (hn : n.toNat ≤ s.size u) (h : s.settle x n u id r = some t) : Orderly t := by
  obtain ⟨st, hst, ⟨hc, rfl⟩ | ⟨hc, rfl⟩⟩ := settle_cases h
  · exact leave_orderly ho hin hf hr hn hst hc
  · refine ⟨ho.fresh, ho.inj, ho.absent, ho.present, ho.later, ?_, ho.wrapped, ho.early⟩
    intro y m v j r' b hy
    by_cases hyx : y = x
    · subst hyx
      simp only [Function.update_self, CallerPc.waiting.injEq] at hy
      obtain ⟨rfl, rfl, rfl, rfl, rfl⟩ := hy
      refine ⟨hin, hf, hr, hn, fun st' hst' hc' => ?_⟩
      obtain rfl : st = st' := Option.some.inj (hst.symm.trans hst')
      simp [hc] at hc'
    · simp only [Function.update_of_ne hyx] at hy
      obtain ⟨h1, h2, h3, h4, h5⟩ := ho.waits y m v j r' b hy
      exact ⟨h1, h2, h3, h4, h5⟩

theorem Orderly.step {a : Act ι} (ho : Orderly s) (hfit : fits s a) (h : s.step a = some t) :
    Orderly t := by
  cases a with
  | call x n u =>
    cases hx : s.caller x with
    | waiting => simp [RecvBarriers.step, hx] at h
    | out =>
      obtain ⟨w, id, hw, how, -, hin, hf, hn⟩ := arrive_fits ho hx hfit
      simp only [RecvBarriers.step, hx, hw, Option.bind_some] at h
      exact settle_orderly how hin hf rfl hn h
  | wake x =>
    simp only [RecvBarriers.step] at h
    split at h
    case h_1 n u id r hx =>
      have hw := ho.waits _ _ _ _ _ _ hx
      exact settle_orderly ho hw.inside hw.found hw.round hw.size h
    case h_2 => cases h
  | spurious x =>
    simp only [RecvBarriers.step] at h
    split at h
    case h_1 n u id r b hx =>
      have hw := ho.waits _ _ _ _ _ _ hx
      exact settle_orderly ho hw.inside hw.found hw.round hw.size h
    case h_2 => cases h

theorem Orderly.of_reach (h : Reach recvBarrierSystem fits s) : Orderly s := by
  refine h.invariant Orderly ?_ fun s a t _ ho hc ht => ho.step hc ht
  rintro s rfl
  exact orderly_start

/-- Nobody still needs an entry that is gone, no counter went below zero, and no
caller left before its round was full. -/
structure Sound (s : RecvBarriers ι) : Prop where
  alive : ∀ x n u id r b, s.caller x = .waiting n u id r b → s.entries id ≠ none
  counters : s.wrapped = false
  patient : s.early = false

/-- Reuse and surplus callers are harmless in the runs whose calls all fit the
barriers that they find. -/
theorem recvBarrier_reuse (h : Reach recvBarrierSystem fits s) : Sound s := by
  have ho := Orderly.of_reach h
  refine ⟨?_, ho.wrapped, ho.early⟩
  intro x n u id r b hx
  obtain ⟨st, hst, -⟩ := ho.present u id (ho.waits x n u id r b hx).found
  simp [hst]

/-- Two sockets use a barrier of two; the second one returns and calls again
before the first has woken up. -/
def calledAgain : List (Act Bool) :=
  [.call false 2 [97], .call true 2 [97], .call true 2 [97]]

/-- The test for `fits`. -/
def fitsNow (s : RecvBarriers ι) : Act ι → Bool
  | .call _ n u =>
    match s.barriers u with
    | none => n != 0
    | some id => (s.entries id).any fun st => !st.complete && decide (n ≤ st.toExit)
  | _ => true

omit [DecidableEq ι] in
theorem fits_of_fitsNow (s : RecvBarriers ι) (a : Act ι) (h : fitsNow s a = true) : fits s a := by
  cases a with
  | wake | spurious => trivial
  | call x n u =>
    simp only [fits]
    cases hb : s.barriers u with
    | none => simpa [fitsNow, hb] using h
    | some id => simpa [fitsNow, hb, Option.any_eq_true] using h

theorem recvBarrier_reuse_pair : ∃ s : RecvBarriers Bool, Reach recvBarrierSystem fits s ∧
    s.left [97] = 4 ∧ Sound s := by
  have hx : (exec recvBarrierSystem start [Act.call false 2 [97], .call true 2 [97], .wake false,
      .call true 2 [97], .spurious true, .call false 2 [97], .wake true]).map
      (fun s : RecvBarriers Bool => s.left [97]) = some 4 := by decide +kernel
  obtain ⟨t, ht, hleft⟩ := Option.map_eq_some_iff.mp hx
  have hr := Reach.of_exec fitsNow fits_of_fitsNow (.init rfl) (by decide +kernel) ht
  exact ⟨t, hr, hleft, recvBarrier_reuse hr⟩

/-- The third call lowers `remaining` below zero, leaves alone in its round, and
erases the entry under the socket that waits. -/
theorem recvBarrier_reuse_fails : ∃ s : RecvBarriers Bool, Reach recvBarrierSystem anyStep s ∧
    s.caller false = .waiting 2 [97] 0 1 true ∧ s.entries 0 = none ∧ s.wrapped = true ∧
    s.early = true ∧ ¬ Sound s := by
  have hx : (exec recvBarrierSystem start calledAgain).map
      (fun s => (s.caller false, s.entries 0, s.wrapped, s.early)) =
      some (.waiting 2 [97] 0 1 true, none, true, true) := by decide +kernel
  obtain ⟨t, ht, h⟩ := Option.map_eq_some_iff.mp hx
  simp only [Prod.mk.injEq] at h
  obtain ⟨h1, h2, h3, h4⟩ := h
  exact ⟨t, reach_of_exec _ rfl ht, h1, h2, h3, h4, fun hs => hs.alive _ _ _ _ _ _ h1 h2⟩

end RecvBarriers

end CogServer
