import CogServer.RecvBarrierOrder

/-! A barrier that receives exactly the calls it was made for, in any order and
with any wake-ups. -/
namespace CogServer

open Transition

namespace RecvBarriers

variable {ι : Type*} {s t w : RecvBarriers ι} {N : Bytes → ℕ}

/-- Each UUID `u` receives at most `N u` calls, and all of them say `N u`. -/
def asAgreed (N : Bytes → ℕ) (s : RecvBarriers ι) : Act ι → Prop
  | .call _ n u => n.toNat = N u ∧ s.arrived u < N u
  | _ => True

instance (N : Bytes → ℕ) (s : RecvBarriers ι) : (a : Act ι) → Decidable (asAgreed N s a)
  | .call _ _ _ => inferInstanceAs (Decidable (_ ∧ _))
  | .wake _ | .spurious _ => .isTrue trivial

/-- The counts of the calls, for barriers used as agreed. -/
structure Tally (N : Bytes → ℕ) (s : RecvBarriers ι) : Prop where
  count : ∀ u, s.arrived u = s.left u + (s.inside u).length
  most : ∀ u, s.arrived u ≤ N u
  untouched : ∀ u, s.arrived u = 0 → s.barriers u = none
  agreed : ∀ u, 0 < s.arrived u → s.size u = N u ∧ s.arrivals u (s.round u) = s.arrived u
  erased : ∀ u, s.erased u = if s.barriers u = none ∧ 0 < s.arrived u then 1 else 0

/-- The callers inside a barrier are the ones that wait for it, but for `away`,
which runs. -/
structure Members (away : Option (ι × Bytes)) (s : RecvBarriers ι) : Prop where
  nodup : ∀ u, (s.inside u).Nodup
  back : ∀ x u, x ∈ s.inside u → away = some (x, u) ∨ ∃ n id r b, s.caller x = .waiting n u id r b

theorem tally_start : Tally N (start : RecvBarriers ι) := by
  constructor <;> simp [start]

theorem members_start : Members none (start : RecvBarriers ι) := by
  constructor <;> simp [start]

theorem Tally.arrived_pos {u : Bytes} {id : ℕ} (ht : Tally N s) (hb : s.barriers u = some id) :
    0 < s.arrived u := by
  refine Nat.pos_of_ne_zero fun h => ?_
  simp [ht.untouched u h] at hb

/-- With fewer arrivals than agreed the barrier of a UUID is new or incomplete. -/
theorem Tally.fits {a : Act ι} (ho : Orderly s) (ht : Tally N s) (h : asAgreed N s a) :
    fits s a := by
  cases a with
  | wake | spurious => trivial
  | call x n u =>
    obtain ⟨hn, hlt⟩ := h
    simp only [RecvBarriers.fits]
    split
    case h_1 hb =>
      rintro rfl
      simp at hn
      omega
    case h_2 id hb =>
      obtain ⟨st, hst, hok⟩ := ho.present u id hb
      obtain ⟨hsize, harr⟩ := ht.agreed u (ht.arrived_pos hb)
      refine ⟨st, hst, ?_⟩
      cases hc : st.complete with
      | true =>
        simp only [EntryOk, hc, ↓reduceIte] at hok
        omega
      | false =>
        simp only [EntryOk, hc, Bool.false_eq_true, ↓reduceIte] at hok
        exact ⟨rfl, UInt8.le_iff_toNat_le.mpr (by omega)⟩

/-- What an arrival does to the counts. -/
theorem arrive_effect {x : ι} {n : UInt8} {u : Bytes} {id : ℕ} (h : s.arrive x n u = some (w, id)) :
    w.inside = (s.note x n u).inside ∧ w.arrived = (s.note x n u).arrived ∧ w.left = s.left ∧
      w.erased = s.erased ∧ w.round = (s.note x n u).round ∧ w.size = (s.note x n u).size ∧
      w.arrivals = (s.note x n u).arrivals ∧ w.barriers = Function.update s.barriers u (some id) ∧
      ∀ y m v j r b, s.caller y = .waiting m v j r b → ∃ b', w.caller y = .waiting m v j r b' := by
  have hcomplete (z : RecvBarriers ι) : (z.completeIfLast id).arrivals = z.arrivals ∧
      ∀ y m v j r b, z.caller y = .waiting m v j r b →
        ∃ b', (z.completeIfLast id).caller y = .waiting m v j r b' := by
    unfold completeIfLast
    split
    · split
      · exact ⟨rfl, fun y m v j r b hy => ⟨b || j = id, by simp [hy, notify]⟩⟩
      · exact ⟨rfl, fun y m v j r b hy => ⟨b, hy⟩⟩
    · exact ⟨rfl, fun y m v j r b hy => ⟨b, hy⟩⟩
  unfold arrive at h
  split at h
  case h_1 hb =>
    obtain ⟨rfl, rfl⟩ := Prod.mk.inj (Option.some.inj h)
    obtain ⟨h1, h2, h3, h4, h5, h6, h7, -⟩ :=
      completeIfLast_frame ((s.note x n u).emplace n u) s.nextEntry
    obtain ⟨h8, h9⟩ := hcomplete ((s.note x n u).emplace n u)
    exact ⟨h2, h5, h6, h7, h3, h4, h8, h1, h9⟩
  case h_2 id' hb =>
    obtain ⟨st, hst, h⟩ := Option.map_eq_some_iff.mp h
    obtain ⟨rfl, rfl⟩ := Prod.mk.inj h
    obtain ⟨h1, h2, h3, h4, h5, h6, h7, -⟩ :=
      completeIfLast_frame ((s.note x n u).countDown id' st) id'
    obtain ⟨h8, h9⟩ := hcomplete ((s.note x n u).countDown id' st)
    refine ⟨h2, h5, h6, h7, h3, h4, h8, ?_, h9⟩
    rw [h1, ← hb, Function.update_eq_self]
    rfl

/-- An arrival makes nobody wait. -/
theorem arrive_caller {x y : ι} {n m : UInt8} {u v : Bytes} {id j q : ℕ} {b : Bool}
    (h : s.arrive x n u = some (w, id)) (hy : w.caller y = .waiting m v j q b) :
    ∃ b', s.caller y = .waiting m v j q b' := by
  have hback (z : RecvBarriers ι) (hz : (z.completeIfLast id).caller y = .waiting m v j q b) :
      ∃ b', z.caller y = .waiting m v j q b' := by
    unfold completeIfLast at hz
    split at hz
    · split at hz
      · obtain ⟨b', hb, -⟩ := notify_eq_waiting hz
        exact ⟨b', hb⟩
      · exact ⟨b, hz⟩
    · exact ⟨b, hz⟩
  unfold arrive at h
  split at h
  · obtain ⟨rfl, rfl⟩ := Prod.mk.inj (Option.some.inj h)
    exact hback ((s.note x n u).emplace n u) hy
  · rename_i id' hb
    obtain ⟨st, -, h⟩ := Option.map_eq_some_iff.mp h
    obtain ⟨rfl, rfl⟩ := Prod.mk.inj h
    exact hback ((s.note x n u).countDown id' st) hy

theorem Tally.arrive {x : ι} {n : UInt8} {u : Bytes} {id : ℕ} (ho : Orderly s) (ht : Tally N s)
    (hn : n.toNat = N u) (hlt : s.arrived u < N u) (h : s.arrive x n u = some (w, id)) :
    Tally N w := by
  obtain ⟨h1, h2, h3, h4, h5, h6, h7, h8, -⟩ := arrive_effect h
  -- the first call starts the only round of its UUID, and no later call starts another
  have hround : (0 < s.arrived u ∧ s.arrivals u (s.round u) < s.size u) ∨
      (s.arrived u = 0 ∧ s.size u ≤ s.arrivals u (s.round u) ∧ s.arrivals u (s.round u + 1) = 0) := by
    rcases Nat.eq_zero_or_pos (s.arrived u) with h0 | h0
    · obtain ⟨-, ha⟩ := ho.absent u (ht.untouched u h0)
      exact .inr ⟨h0, Nat.le_of_eq ha.symm, ho.later u _ (Nat.lt_succ_self _)⟩
    · obtain ⟨hs, ha⟩ := ht.agreed u h0
      exact .inl ⟨h0, by omega⟩
  have hlive : ¬ (s.barriers u = none ∧ 0 < s.arrived u) := by
    rintro ⟨hb, h0⟩
    obtain ⟨-, ha⟩ := ho.absent u hb
    obtain ⟨hs, ha'⟩ := ht.agreed u h0
    omega
  constructor
  · intro v
    have := ht.count v
    rw [h1, h2, h3]
    by_cases hv : v = u
    · subst hv
      simp only [note, Function.update_self, List.length_cons]
      omega
    · simpa [note, hv] using this
  · intro v
    have := ht.most v
    rw [h2]
    by_cases hv : v = u
    · subst hv
      simp only [note, Function.update_self]
      omega
    · simpa [note, hv] using this
  · intro v hv0
    rw [h2] at hv0
    rw [h8]
    by_cases hv : v = u
    · simp [note, hv] at hv0
    · simp only [note, Function.update_of_ne hv] at hv0 ⊢
      exact ht.untouched v hv0
  · intro v hv0
    rw [h2] at hv0
    rw [h2, h5, h6, h7]
    by_cases hv : v = u
    · subst hv
      rcases hround with ⟨h0, hfull⟩ | ⟨h0, hfull, hz⟩
      · obtain ⟨hs, ha⟩ := ht.agreed v h0
        have hfull : ¬ s.size v ≤ s.arrivals v (s.round v) := by omega
        simp only [note, hfull, ↓reduceIte, Function.update_self]
        exact ⟨hs, by rw [ha]⟩
      · simp [note, hfull, hn, h0, hz]
    · simp only [note, Function.update_of_ne hv] at hv0 ⊢
      obtain ⟨hs, ha⟩ := ht.agreed v hv0
      refine ⟨?_, ha⟩
      split
      · rw [Function.update_of_ne hv, hs]
      · exact hs
  · intro v
    have := ht.erased v
    rw [h2, h4, h8]
    by_cases hv : v = u
    · subst hv
      rw [this, if_neg hlive]
      simp
    · simpa [note, hv] using this

theorem Members.arrive {x : ι} {n : UInt8} {u : Bytes} {id : ℕ} (hm : Members none s)
    (hx : s.caller x = .out) (h : s.arrive x n u = some (w, id)) : Members (some (x, u)) w := by
  obtain ⟨h1, -, -, -, -, -, -, -, h9⟩ := arrive_effect h
  constructor
  · intro v
    rw [h1]
    by_cases hv : v = u
    · subst hv
      simp only [note, Function.update_self, List.nodup_cons]
      refine ⟨fun hin => ?_, hm.nodup v⟩
      obtain h | ⟨m, j, r, b, hw⟩ := hm.back x v hin
      · cases h
      · simp [hx] at hw
    · simpa [note, hv] using hm.nodup v
  · intro y v hy
    rw [h1] at hy
    have hcases : y = x ∧ v = u ∨ y ∈ s.inside v := by
      by_cases hv : v = u
      · subst hv
        simpa [note] using hy
      · exact .inr (by simpa [note, hv] using hy)
    rcases hcases with ⟨rfl, rfl⟩ | hin
    · exact .inl rfl
    · obtain h | ⟨m, j, r, b, hw⟩ := hm.back y v hin
      · cases h
      · obtain ⟨b', hb'⟩ := h9 y m v j r b hw
        exact .inr ⟨m, j, r, b', hb'⟩

/-- A waiting caller is inside its own barrier only. -/
theorem Members.inside_only (hm : Members none s) {x : ι} {n : UInt8} {u : Bytes} {id r : ℕ}
    {b : Bool} (hx : s.caller x = .waiting n u id r b) (v : Bytes) (hv : x ∈ s.inside v) :
    v = u := by
  obtain h | ⟨m, j, r', b', hw⟩ := hm.back x v hv
  · cases h
  · rw [hx] at hw
    simp only [CallerPc.waiting.injEq] at hw
    exact hw.2.1.symm

/-- The three invariants of a run whose calls are as agreed. -/
structure Agreed (N : Bytes → ℕ) (s : RecvBarriers ι) : Prop where
  orderly : Orderly s
  tally : Tally N s
  members : Members none s

/-- The barrier of a UUID is complete from the last arrival on. -/
theorem Agreed.complete {u : Bytes} {id : ℕ} (hg : Agreed N s) (hall : s.arrived u = N u)
    (hf : s.barriers u = some id) : ∃ st, s.entries id = some st ∧ st.complete = true := by
  obtain ⟨st, hst, hok⟩ := hg.orderly.present u id hf
  refine ⟨st, hst, ?_⟩
  obtain ⟨hsize, harr⟩ := hg.tally.agreed u (hg.tally.arrived_pos hf)
  by_contra hc
  simp only [EntryOk, hc, ↓reduceIte] at hok
  omega

variable [DecidableEq ι]

/-- Whoever leaves is taken off the list; the last one also erases the entry. -/
theorem Tally.leave {x : ι} {n : UInt8} {u : Bytes} {id r : ℕ} {st : BarrierState}
    (ht : Tally N s) (hin : x ∈ s.inside u) (hf : s.barriers u = some id) :
    Tally N (s.leave x n u id r st) := by
  have hlen : ((s.inside u).erase x).length = (s.inside u).length - 1 :=
    List.length_erase_of_mem hin
  have hpos : 0 < (s.inside u).length := List.length_pos_of_mem hin
  have hcount := ht.count u
  have herased : s.erased u = 0 := by simp [ht.erased u, hf]
  constructor
  · intro v
    by_cases hv : v = u
    · subst hv
      simp only [RecvBarriers.leave, Function.update_self]
      omega
    · simpa [RecvBarriers.leave, hv] using ht.count v
  · exact ht.most
  · intro v hv0
    by_cases hv : v = u
    · subst hv
      simp only [RecvBarriers.leave] at hv0
      omega
    · simp only [RecvBarriers.leave] at hv0 ⊢
      split
      · rw [Function.update_of_ne hv]
        exact ht.untouched v hv0
      · exact ht.untouched v hv0
  · exact ht.agreed
  · intro v
    by_cases hv : v = u
    · subst hv
      have h0 : 0 < s.arrived v := by omega
      by_cases hl : st.toExit - 1 = 0 <;> simp [RecvBarriers.leave, hl, herased, h0, hf]
    · have := ht.erased v
      by_cases hl : st.toExit - 1 = 0 <;> simpa [RecvBarriers.leave, hl, hv] using this

theorem Members.settle {x : ι} {n : UInt8} {u : Bytes} {id r : ℕ} (hm : Members (some (x, u)) s)
    (honly : ∀ v, x ∈ s.inside v → v = u) (h : s.settle x n u id r = some t) : Members none t := by
  obtain ⟨st, hst, ⟨-, rfl⟩ | ⟨-, rfl⟩⟩ := settle_cases h
  · constructor
    · intro v
      by_cases hv : v = u
      · subst hv
        simpa [leave] using (hm.nodup v).erase x
      · simpa [leave, hv] using hm.nodup v
    · intro y v hy
      have hy' : y ∈ s.inside v ∧ y ≠ x := by
        by_cases hv : v = u
        · subst hv
          simp only [leave, Function.update_self] at hy
          rw [(hm.nodup v).mem_erase_iff] at hy
          exact ⟨hy.2, hy.1⟩
        · simp only [leave, Function.update_of_ne hv] at hy
          exact ⟨hy, fun h => hv (honly v (h ▸ hy))⟩
      obtain h | hw := hm.back y v hy'.1
      · exact absurd (Prod.mk.inj (Option.some.inj h)).1.symm hy'.2
      · exact .inr (by simpa [leave, hy'.2] using hw)
  · refine ⟨hm.nodup, fun y v hy => .inr ?_⟩
    by_cases hyx : y = x
    · subst hyx
      obtain rfl := honly v hy
      exact ⟨n, id, r, false, by simp⟩
    · obtain h | hw := hm.back y v hy
      · exact absurd (Prod.mk.inj (Option.some.inj h)).1.symm hyx
      · simpa [hyx] using hw

theorem Tally.settle {x : ι} {n : UInt8} {u : Bytes} {id r : ℕ} (ht : Tally N s)
    (hin : x ∈ s.inside u) (hf : s.barriers u = some id) (h : s.settle x n u id r = some t) :
    Tally N t := by
  obtain ⟨st, hst, ⟨-, rfl⟩ | ⟨-, rfl⟩⟩ := settle_cases h
  · exact ht.leave hin hf
  · exact ⟨ht.count, ht.most, ht.untouched, ht.agreed, ht.erased⟩

theorem Agreed.woken {x : ι} {n : UInt8} {u : Bytes} {id r : ℕ} {b : Bool} (hg : Agreed N s)
    (hx : s.caller x = .waiting n u id r b) (h : s.settle x n u id r = some t) : Agreed N t := by
  obtain ⟨ho, ht, hm⟩ := hg
  have hw := ho.waits _ _ _ _ _ _ hx
  refine ⟨settle_orderly ho hw.inside hw.found hw.round hw.size h, ht.settle hw.inside hw.found h, ?_⟩
  have hm' : Members (some (x, u)) s :=
    ⟨hm.nodup, fun y v hy => .inr ((hm.back y v hy).resolve_left nofun)⟩
  exact hm'.settle (hm.inside_only hx) h

theorem Agreed.step {a : Act ι} (hg : Agreed N s) (hc : asAgreed N s a) (h : s.step a = some t) :
    Agreed N t := by
  cases a with
  | call x n u =>
    cases hx : s.caller x with
    | waiting => simp [RecvBarriers.step, hx] at h
    | out =>
      obtain ⟨ho, ht, hm⟩ := hg
      obtain ⟨w, id, hw, how, -, hin, hf, hn⟩ := arrive_fits ho hx (ht.fits ho hc)
      simp only [RecvBarriers.step, hx, hw, Option.bind_some] at h
      refine ⟨settle_orderly how hin hf rfl hn h, (ht.arrive ho hc.1 hc.2 hw).settle hin hf h,
        (hm.arrive hx hw).settle ?_ h⟩
      intro v hv
      obtain ⟨h1, -⟩ := arrive_effect hw
      rw [h1] at hv
      by_contra hvu
      simp only [note, Function.update_of_ne hvu] at hv
      obtain h | ⟨m, j, r, b, hw⟩ := hm.back x v hv
      · cases h
      · simp [hx] at hw
  | wake x =>
    simp only [RecvBarriers.step] at h
    split at h
    case h_1 hx => exact hg.woken hx h
    case h_2 => cases h
  | spurious x =>
    simp only [RecvBarriers.step] at h
    split at h
    case h_1 hx => exact hg.woken hx h
    case h_2 => cases h

theorem Agreed.of_reach (h : Reach recvBarrierSystem (asAgreed N) s) : Agreed N s := by
  refine h.invariant (Agreed N) ?_ fun s a t _ hg hc ht => hg.step hc ht
  rintro s rfl
  exact ⟨orderly_start, tally_start, members_start⟩

/-- From the last arrival on a waiting caller has been notified, and returns when
it wakes up. -/
theorem Agreed.wake {x : ι} {n : UInt8} {u : Bytes} {id r : ℕ} {b : Bool} (hg : Agreed N s)
    (hall : s.arrived u = N u) (hx : s.caller x = .waiting n u id r b) :
    ∃ st, s.entries id = some st ∧ s.step (.wake x) = some (s.leave x n u id r st) := by
  have hw := hg.orderly.waits _ _ _ _ _ _ hx
  obtain ⟨st, hst, hc⟩ := hg.complete hall hw.found
  obtain rfl := hw.notified st hst hc
  exact ⟨st, hst, by simp [RecvBarriers.step, hx, RecvBarriers.settle, hst, hc]⟩

/-- From the last arrival on all the waiting callers can return one after the other. -/
theorem Agreed.all_return {u : Bytes} (hg : Agreed N s) (hall : s.arrived u = N u) :
    ∃ t, Path recvBarrierSystem (fun _ a => ∃ x, a = .wake x) s t ∧ t.left u = N u := by
  refine (Path.progress (fun s => Agreed N s ∧ s.arrived u = N u) (fun t => t.left u = N u)
    (fun s => (s.inside u).length) ?_ s ⟨hg, hall⟩).imp fun t ht => ⟨ht.1, ht.2.2⟩
  rintro s ⟨hg, hall⟩ hne
  have hcount := hg.tally.count u
  obtain ⟨x, hx⟩ := List.exists_mem_of_length_pos (l := s.inside u) (by omega)
  obtain h | ⟨n, id, r, b, hw⟩ := hg.members.back x u hx
  · cases h
  obtain ⟨st, hst, hstep⟩ := hg.wake hall hw
  refine ⟨_, .single ⟨x, rfl⟩ hstep, ⟨hg.step (a := .wake x) trivial hstep, hall⟩, ?_⟩
  have hlen : ((s.inside u).erase x).length = (s.inside u).length - 1 := List.length_erase_of_mem hx
  simp only [leave, Function.update_self]
  omega

/-- A wake-up changes its own caller only, which leaves or goes on waiting. -/
theorem settle_caller {x y : ι} {n m : UInt8} {u v : Bytes} {id r j q : ℕ} {b : Bool}
    (h : s.settle x n u id r = some t) (hy : t.caller y = .waiting m v j q b) :
    (y = x ∧ m = n ∧ v = u) ∨ s.caller y = .waiting m v j q b := by
  by_cases hyx : y = x
  · subst hyx
    refine .inl ⟨rfl, ?_⟩
    obtain ⟨st, -, ⟨-, rfl⟩ | ⟨-, rfl⟩⟩ := settle_cases h
    · simp [RecvBarriers.leave] at hy
    · simp only [Function.update_self, CallerPc.waiting.injEq] at hy
      exact ⟨hy.1.symm, hy.2.1.symm⟩
  · refine .inr ?_
    obtain ⟨st, -, ⟨-, rfl⟩ | ⟨-, rfl⟩⟩ := settle_cases h
    · simpa [RecvBarriers.leave, hyx] using hy
    · simpa [hyx] using hy

/-- A wake-up before the barrier is complete changes nothing. -/
theorem settle_same {x : ι} {n : UInt8} {u : Bytes} {id r : ℕ}
    (hx : s.caller x = .waiting n u id r false)
    (hrest : (s.entries id).any (fun st => !st.complete) = true)
    (h : s.settle x n u id r = some t) : t = s := by
  obtain ⟨st, hst, ⟨hcomplete, -⟩ | ⟨-, rfl⟩⟩ := settle_cases h
  · simp [hst, hcomplete] at hrest
  · rw [← hx, Function.update_eq_self]

theorem settle_arrived {x : ι} {n : UInt8} {u : Bytes} {id r : ℕ}
    (h : s.settle x n u id r = some t) : t.arrived = s.arrived := by
  obtain ⟨st, -, ⟨-, rfl⟩ | ⟨-, rfl⟩⟩ := settle_cases h <;> rfl

/-- What a call does to the callers and to the number of arrivals. -/
theorem call_effect {x : ι} {n : UInt8} {u : Bytes} (h : s.step (.call x n u) = some t) :
    t.arrived = Function.update s.arrived u (s.arrived u + 1) ∧
      ∀ y m v j q b, t.caller y = .waiting m v j q b →
        (y = x ∧ m = n ∧ v = u) ∨ ∃ b', s.caller y = .waiting m v j q b' := by
  simp only [RecvBarriers.step] at h
  split at h
  · obtain ⟨⟨w, id⟩, hw, h⟩ := Option.bind_eq_some_iff.mp h
    obtain ⟨-, harrived, -⟩ := arrive_effect hw
    refine ⟨(settle_arrived h).trans harrived, fun y m v j q b hy => ?_⟩
    apply (settle_caller h hy).imp_right
    intro hw'
    exact arrive_caller hw hw'
  · cases h

/-- What a wake-up does to the callers and to the number of arrivals. -/
theorem wake_effect {x : ι} {a : Act ι} (ha : a = .wake x ∨ a = .spurious x)
    (h : s.step a = some t) : t.arrived = s.arrived ∧ ∀ y m v j q b,
    t.caller y = .waiting m v j q b → ∃ j' q' b', s.caller y = .waiting m v j' q' b' := by
  have hsettle {n u id r b} (hx : s.caller x = .waiting n u id r b) (h : s.settle x n u id r = some t) :
      t.arrived = s.arrived ∧
        ∀ y m v j q b, t.caller y = .waiting m v j q b → ∃ j' q' b', s.caller y = .waiting m v j' q' b' := by
    refine ⟨settle_arrived h, fun y m v j q b' hy => ?_⟩
    rcases settle_caller h hy with ⟨rfl, rfl, rfl⟩ | hs
    · exact ⟨id, r, b, hx⟩
    · exact ⟨j, q, b', hs⟩
  rcases ha with rfl | rfl
  · simp only [RecvBarriers.step] at h
    split at h
    case h_1 hx => exact hsettle hx h
    case h_2 => cases h
  · simp only [RecvBarriers.step] at h
    split at h
    case h_1 hx => exact hsettle hx h
    case h_2 => cases h

/-- A call as agreed is never refused. -/
theorem Agreed.call {x : ι} {n : UInt8} {u : Bytes} (hg : Agreed N s) (hx : s.caller x = .out)
    (hc : asAgreed N s (.call x n u)) : ∃ t, s.step (.call x n u) = some t := by
  obtain ⟨w, id, hw, how, -, -, hf, -⟩ := arrive_fits hg.orderly hx (hg.tally.fits hg.orderly hc)
  obtain ⟨st, hst, -⟩ := how.present u id hf
  simp [RecvBarriers.step, hx, hw, RecvBarriers.settle, hst]

/-- What the barrier of a UUID does for its `N u` callers. -/
structure Served (N : Bytes → ℕ) (s : RecvBarriers ι) (u : Bytes) : Prop where
  /-- Nobody returns before all have arrived. -/
  patient : 0 < s.left u → s.arrived u = N u
  /-- Then each waiting caller returns when it wakes up, -/
  released : s.arrived u = N u → ∀ x n id r b, s.caller x = .waiting n u id r b →
    ∃ t, recvBarrierSystem.step s (.wake x) = some t ∧ t.caller x = .out
  /-- and all of them can. -/
  returns : s.arrived u = N u →
    ∃ t, Path recvBarrierSystem (fun _ a => ∃ x, a = .wake x) s t ∧ t.left u = N u
  /-- The entry is erased once, when the last one leaves. -/
  erased : s.erased u = if 0 < N u ∧ s.left u = N u then 1 else 0
  alive : ∀ x n id r b, s.caller x = .waiting n u id r b →
    s.barriers u = some id ∧ s.entries id ≠ none
  gone : s.left u = N u → s.barriers u = none

/-- Barriers that are used as agreed serve their callers, whatever the order of
the calls and of the wake-ups. -/
theorem recvBarrier_serves (h : Reach recvBarrierSystem (asAgreed N) s) (u : Bytes) :
    Served N s u := by
  have hg := Agreed.of_reach h
  have hcount := hg.tally.count u
  have hmost := hg.tally.most u
  have hpatient (hl : 0 < s.left u) : s.arrived u = N u := by
    obtain ⟨hsize, harr⟩ := hg.tally.agreed u (by omega)
    cases hb : s.barriers u with
    | none =>
      obtain ⟨-, ha⟩ := hg.orderly.absent u hb
      omega
    | some id =>
      obtain ⟨st, -, hok⟩ := hg.orderly.present u id hb
      unfold EntryOk at hok
      split at hok <;> omega
  have hgone (hl : s.left u = N u) : s.barriers u = none := by
    cases hb : s.barriers u with
    | none => rfl
    | some id =>
      obtain ⟨st, -, hok⟩ := hg.orderly.present u id hb
      have h0 := hg.tally.arrived_pos hb
      obtain ⟨hsize, harr⟩ := hg.tally.agreed u h0
      unfold EntryOk at hok
      split at hok <;> omega
  refine ⟨hpatient, ?_, hg.all_return, ?_, ?_, hgone⟩
  · intro hall x n id r b hx
    obtain ⟨st, hst, hstep⟩ := hg.wake hall hx
    exact ⟨_, hstep, by simp [leave]⟩
  · rw [hg.tally.erased u]
    congr 1
    ext
    constructor
    · rintro ⟨hb, h0⟩
      obtain ⟨hi, ha⟩ := hg.orderly.absent u hb
      obtain ⟨hsize, harr⟩ := hg.tally.agreed u h0
      simp only [hi, List.length_nil] at hcount
      omega
    · rintro ⟨h0, hl⟩
      exact ⟨hgone hl, by omega⟩
  · intro x n id r b hx
    have hw := hg.orderly.waits _ _ _ _ _ _ hx
    obtain ⟨st, hst, -⟩ := hg.orderly.present u id hw.found
    exact ⟨hw.found, by simp [hst]⟩

/-- Two UUIDs, a barrier of two and one of one. -/
def twoAndOne (u : Bytes) : ℕ := if u = [97] then 2 else if u = [98] then 1 else 0

theorem recvBarrier_serves_two : ∃ s : RecvBarriers Bool,
    Reach recvBarrierSystem (asAgreed twoAndOne) s ∧ s.left [97] = 2 ∧ Served twoAndOne s [97] := by
  have hx : (exec recvBarrierSystem start [Act.call false 2 [97], .spurious false, .call true 1 [98],
      .call true 2 [97], .wake false]).map (fun s : RecvBarriers Bool => s.left [97]) = some 2 := by
    decide +kernel
  obtain ⟨t, ht, hleft⟩ := Option.map_eq_some_iff.mp hx
  have hr : Reach recvBarrierSystem (asAgreed twoAndOne) t := by
    exact Reach.of_exec (fun s a => decide (asAgreed twoAndOne s a)) (fun _ _ => of_decide_eq_true)
      (.init rfl) (by decide +kernel) ht
  exact ⟨t, hr, hleft, recvBarrier_serves hr [97]⟩

end RecvBarriers

end CogServer
