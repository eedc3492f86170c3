import CogServer.RecvBarrierRounds
import CogServer.Decimals

/-! How `(cog-barrier N "uuid")` reaches `recv_barrier`: by way of the handler of
the s-expression shell, or as the scheme primitive. -/
namespace CogServer

open Transition

/-- `%u` of `sscanf`. `conv` is the `unsigned int` that the library stores for a number. -/
def scanUnsigned (conv : ℤ → UInt32) (s : Bytes) : Option (UInt32 × Bytes) :=
  let signed := scanSign (s.dropWhile isSpace)
  let digits := signed.2.takeWhile isDigit
  if digits = [] then none
  else some (conv (if signed.1 then -digitsValue digits else digitsValue digits),
    signed.2.dropWhile isDigit)

/-- `sscanf(args.c_str(), "%u \"%31[^\"]\"", &n, uuid)`, from `n = 0` and an empty `uuid`. -/
def scanBarrier (conv : ℤ → UInt32) (args : Bytes) : UInt32 × Bytes :=
  match scanUnsigned conv (cStr args) with
  | none => (0, [])
  | some (n, s) =>
    match s.dropWhile isSpace with
    | c :: s' => if c = quote then (n, (s'.takeWhile (· ≠ quote)).take 31) else (n, [])
    | [] => (n, [])

/-- The handler of `cog-barrier` in the s-expression shell: what it passes to `recv_barrier`. -/
def sexprBarrier (conv : ℤ → UInt32) (args : Bytes) : UInt8 × Bytes :=
  let (n, uuid) := scanBarrier conv args
  (n.toUInt8, uuid)

/-- `SchemeShellModule::recv_barrier`: what it passes on. -/
def schemeBarrier (n : ℤ) (uuid : Bytes) : UInt8 × Bytes := (UInt8.ofNat (n % 256).toNat, uuid)

/-- What the handler is given: the number, the quoted UUID, and the rest of the message. -/
def barrierArgs (N : ℕ) (u rest : Bytes) : Bytes :=
  decimal N ++ blank :: quote :: (u ++ quote :: rest)

/-- A number is read back, up to the first character after it. -/
theorem scanUnsigned_decimal (conv : ℤ → UInt32) {N : ℕ} (h : 1 ≤ N) {c : UInt8} (s : Bytes)
    (hc : isDigit c = false) : scanUnsigned conv (decimal N ++ c :: s) = some (conv N, c :: s) := by
  have hne := decimal_ne_nil h
  have hdigits := decimal_digits N
  have hsign : scanSign ((decimal N ++ c :: s).dropWhile isSpace) = (false, decimal N ++ c :: s) := by
    cases hd : decimal N with
    | nil => exact absurd hd hne
    | cons d ds =>
      have hdigit := hdigits d (by simp [hd])
      have h1 : d ≠ 45 := ne_of_isDigit hdigit (by decide)
      have h2 : d ≠ 43 := ne_of_isDigit hdigit (by decide)
      simp [isSpace_of_isDigit hdigit, scanSign, h1, h2]
  have htake : (decimal N ++ c :: s).takeWhile isDigit = decimal N := by
    rw [List.takeWhile_append_of_pos hdigits, List.takeWhile_cons_of_neg (by simp [hc]),
      List.append_nil]
  have hdrop : (decimal N ++ c :: s).dropWhile isDigit = c :: s := by
    rw [List.dropWhile_append_of_pos hdigits, List.dropWhile_cons_of_neg (by simp [hc])]
  simp [scanUnsigned, hsign, htake, hdrop, hne, digitsValue_decimal]

/-- What is read of a quoted string is what comes before a NUL. -/
theorem takeWhile_cStr_quoted {u rest : Bytes} (h : quote ∉ u) :
    (cStr (u ++ quote :: rest)).takeWhile (· ≠ quote) = cStr u := by
  induction u with
  | nil =>
    have : quote ≠ 0 := by decide
    simp [cStr, this]
  | cons c u ih =>
    obtain ⟨hc, hu⟩ := not_or.mp (fun h' => h (List.mem_cons.mpr h'))
    by_cases h0 : c = 0
    · simp [cStr, h0]
    · have ih := ih hu
      simp only [cStr] at ih
      simp only [cStr, List.cons_append, List.takeWhile_cons, h0, ne_eq, not_false_eq_true, decide_true,
        ↓reduceIte, Ne.symm hc]
      rw [← ih]

/-- What the handler makes of a well-formed message. -/
theorem sexprBarrier_args (conv : ℤ → UInt32) {N : ℕ} (hN : 1 ≤ N) {u : Bytes} (rest : Bytes)
    (hq : quote ∉ u) :
    sexprBarrier conv (barrierArgs N u rest) = ((conv N).toUInt8, (cStr u).take 31) := by
  have hzero : 0 ∉ decimal N :=
    fun h => ne_of_isDigit (d := 0) (decimal_digits N 0 h) (by decide) rfl
  have hstr : cStr (barrierArgs N u rest) =
      decimal N ++ blank :: quote :: cStr (u ++ quote :: rest) := by
    rw [barrierArgs, cStr_append_of_not_mem hzero]
    rfl
  have hscan := scanUnsigned_decimal conv hN (quote :: cStr (u ++ quote :: rest))
    (show isDigit blank = false by decide)
  have hspace : (blank :: quote :: cStr (u ++ quote :: rest)).dropWhile isSpace =
      quote :: cStr (u ++ quote :: rest) := by
    rw [List.dropWhile_cons_of_pos (by decide), List.dropWhile_cons_of_neg (by decide)]
  simp only [sexprBarrier, scanBarrier, hstr, hscan, hspace, ↓reduceIte]
  rw [takeWhile_cStr_quoted hq]

/-- Up to 31 characters are kept, and nothing from a NUL on. -/
theorem take_cStr_eq_iff {u : Bytes} : (cStr u).take 31 = u ↔ u.length ≤ 31 ∧ 0 ∉ u := by
  constructor
  · intro h
    have hlen : ((cStr u).take 31).length = u.length := by rw [h]
    have hle : (cStr u).length ≤ u.length := (List.takeWhile_sublist _).length_le
    rw [List.length_take] at hlen
    refine ⟨by omega, fun h0 => ?_⟩
    have heq : cStr u = u :=
      List.IsPrefix.eq_of_length (List.takeWhile_prefix _) (show (cStr u).length = u.length by omega)
    have hall := List.all_takeWhile (p := (· ≠ (0 : UInt8))) (l := u)
    rw [show u.takeWhile (· ≠ 0) = u from heq, List.all_eq_true] at hall
    simpa using hall 0 h0
  · rintro ⟨hlen, h0⟩
    rw [cStr_of_not_mem h0, List.take_of_length_le hlen]

namespace RecvBarriers

/-- What an arrival does to the barrier, once it is counted. -/
def mark (st : BarrierState) : BarrierState :=
  if st.remaining = 0 ∧ st.complete = false then { st with complete := true } else st

/-- A barrier after its first call, for `n`, and `k` more; nobody has left it. -/
def afterArrivals (n : UInt8) : ℕ → BarrierState
  | 0 => mark ⟨n - 1, n, false⟩
  | k + 1 => mark { afterArrivals n k with remaining := (afterArrivals n k).remaining - 1 }

/-- The barrier is completed by the `N`-th arrival. -/
def Sized (n : UInt8) (N : ℕ) : Prop := ∀ k < N, (afterArrivals n k).complete = true ↔ k + 1 = N

theorem mark_complete (st : BarrierState) :
    (mark st).complete = true ↔ st.complete = true ∨ st.remaining = 0 := by
  unfold mark
  split
  case isTrue h => simp [h.1]
  case isFalse h =>
    cases hc : st.complete
    · simpa [hc] using h
    · simp

theorem mark_remaining (st : BarrierState) : (mark st).remaining = st.remaining := by
  unfold mark
  split <;> rfl

/-- `remaining` counts down from `n - 1`, and the barrier is complete from zero on. -/
theorem afterArrivals_spec (n : UInt8) (k : ℕ) :
    ((afterArrivals n k).complete = true ↔ (n - 1).toNat ≤ k) ∧
      (k ≤ (n - 1).toNat → (afterArrivals n k).remaining.toNat + k = (n - 1).toNat) := by
  induction k with
  | zero =>
    simp only [afterArrivals, mark_complete, mark_remaining, Bool.false_eq_true, false_or]
    refine ⟨?_, fun _ => rfl⟩
    rw [← UInt8.toNat_inj, Nat.le_zero]
    rfl
  | succ k ih =>
    obtain ⟨hc, hr⟩ := ih
    simp only [afterArrivals, mark_complete, mark_remaining, hc]
    by_cases hk : (n - 1).toNat ≤ k
    · exact ⟨⟨fun _ => by omega, fun _ => .inl hk⟩, fun h => by omega⟩
    · have hsum := hr (by omega)
      have hne : (afterArrivals n k).remaining ≠ 0 := by
        intro h
        simp [h] at hsum
        omega
      obtain ⟨hpred, hpos⟩ := toNat_pred hne
      rw [← UInt8.toNat_inj, hpred]
      refine ⟨⟨fun h => ?_, fun h => .inr ?_⟩, fun _ => by omega⟩
      · rcases h with h | h
        · omega
        · simp at h
          omega
      · simp
        omega

theorem sized_iff {n : UInt8} {N : ℕ} (hN : 1 ≤ N) : Sized n N ↔ (n - 1).toNat + 1 = N := by
  constructor
  · intro h
    have hle := (afterArrivals_spec n (N - 1)).1.mp ((h (N - 1) (by omega)).mpr (by omega))
    by_contra hne
    exact hne ((h (n - 1).toNat (by omega)).mp ((afterArrivals_spec n _).1.mpr (Nat.le_refl _)))
  · rintro rfl k hk
    rw [(afterArrivals_spec n k).1]
    omega

section FirstRound

variable {ι : Type*} {s t w : RecvBarriers ι} {n : UInt8} {u : Bytes} {N : ℕ}

theorem completeIfLast_entries (id : ℕ) (st : BarrierState) (h : s.entries id = some st) :
    (s.completeIfLast id).entries = Function.update s.entries id (some (mark st)) ∧
      (s.completeIfLast id).nextEntry = s.nextEntry ∧
      ∀ y m v j r b, (s.completeIfLast id).caller y = .waiting m v j r b →
        ∃ b', s.caller y = .waiting m v j r b' := by
  simp only [completeIfLast, h, mark]
  split
  · refine ⟨rfl, rfl, fun y m v j r b hy => ?_⟩
    obtain ⟨b', hb', -⟩ := notify_eq_waiting hy
    exact ⟨b', hb'⟩
  · refine ⟨?_, rfl, fun y m v j r b hy => ⟨b, hy⟩⟩
    rw [← h, Function.update_eq_self]

/-- What an arrival does to the entries. -/
theorem arrive_entries {x : ι} {m : UInt8} {v : Bytes} {id : ℕ} (h : s.arrive x m v = some (w, id)) :
    (∀ j, j ≠ id → w.entries j = s.entries j) ∧
      (s.barriers v = none ∧ id = s.nextEntry ∧ w.nextEntry = s.nextEntry + 1 ∧
          w.entries id = some (afterArrivals m 0) ∨
        s.barriers v = some id ∧ w.nextEntry = s.nextEntry ∧ ∃ st, s.entries id = some st ∧
          w.entries id = some (mark { st with remaining := st.remaining - 1 })) ∧
      ∀ y m' v' j r b, w.caller y = .waiting m' v' j r b → ∃ b', s.caller y = .waiting m' v' j r b' := by
  unfold arrive at h
  split at h
  case h_1 hb =>
    obtain ⟨rfl, rfl⟩ := Prod.mk.inj (Option.some.inj h)
    obtain ⟨h1, h2, h3⟩ := completeIfLast_entries (s := (s.note x m v).emplace m v) s.nextEntry
      ⟨m - 1, m, false⟩ (by simp [emplace, note])
    rw [h1, h2]
    refine ⟨fun j hj => ?_, .inl ⟨hb, rfl, rfl, by simp [afterArrivals]⟩, h3⟩
    simp only [emplace, note, Function.update_of_ne hj]
  case h_2 id' hb =>
    obtain ⟨st, hst, h⟩ := Option.map_eq_some_iff.mp h
    obtain ⟨rfl, rfl⟩ := Prod.mk.inj h
    obtain ⟨h1, h2, h3⟩ := completeIfLast_entries (s := (s.note x m v).countDown id' st) id'
      { st with remaining := st.remaining - 1 } (by simp [countDown])
    rw [h1, h2]
    refine ⟨fun j hj => ?_, .inr ⟨hb, rfl, st, hst, by simp⟩, h3⟩
    simp only [countDown, note, Function.update_of_ne hj]

/-- Every call for the UUID of `c` is `c`. -/
def only (c : UInt8 × Bytes) (_ : RecvBarriers ι) : Act ι → Prop
  | .call _ n v => v = c.2 → n = c.1
  | _ => True

/-- What holds of a barrier until `N` calls have arrived at it. The other
barriers are used in any way at all. -/
structure Filling (n : UInt8) (u : Bytes) (N : ℕ) (s : RecvBarriers ι) : Prop where
  fresh : ∀ v id, s.barriers v = some id → id < s.nextEntry
  own : ∀ v v' id, s.barriers v = some id → s.barriers v' = some id → v = v'
  waits : ∀ x m v id r b, s.caller x = .waiting m v id r b →
    id < s.nextEntry ∧ ∀ v', s.barriers v' = some id → v' = v
  unreleased : s.arrived u < N → s.left u = 0
  found : s.arrived u < N → ∀ x m id r b, s.caller x = .waiting m u id r b → s.barriers u = some id
  empty : s.arrived u = 0 → s.barriers u = none
  count : 0 < s.arrived u → s.arrived u < N →
    ∃ id, s.barriers u = some id ∧ s.entries id = some (afterArrivals n (s.arrived u - 1))

theorem Filling.arrived_pos {id : ℕ} (hs : Filling n u N s) (hb : s.barriers u = some id) :
    0 < s.arrived u := by
  apply Nat.pos_of_ne_zero
  intro h
  simp [hs.empty h] at hb

/-- The barrier of `u` is as so many arrivals have left it. -/
theorem Filling.entry {id : ℕ} (hs : Filling n u N s) (hb : s.barriers u = some id)
    (hlt : s.arrived u < N) : s.entries id = some (afterArrivals n (s.arrived u - 1)) := by
  obtain ⟨j, hj, hst⟩ := hs.count (hs.arrived_pos hb) hlt
  obtain rfl : id = j := Option.some.inj (hb.symm.trans hj)
  exact hst

/-- One more arrival at it. -/
theorem Filling.arrive_entry {x : ι} {id : ℕ} (hs : Filling n u N s) (hlt : s.arrived u < N)
    (h : s.arrive x n u = some (w, id)) : w.entries id = some (afterArrivals n (s.arrived u)) := by
  obtain ⟨-, hkind, -⟩ := arrive_entries h
  rcases hkind with ⟨hb, -, -, hst⟩ | ⟨hb, -, st, hst, hw⟩
  · have h0 : s.arrived u = 0 := by
      by_contra hne
      obtain ⟨j, hj, -⟩ := hs.count (Nat.pos_of_ne_zero hne) hlt
      simp [hb] at hj
    rw [hst, h0]
  · have h0 := hs.arrived_pos hb
    obtain rfl : st = _ := Option.some.inj (hst.symm.trans (hs.entry hb hlt))
    obtain ⟨k, hk⟩ : ∃ k, s.arrived u = k + 1 := ⟨s.arrived u - 1, by omega⟩
    rw [hw, hk]
    rfl

theorem Filling.arrive {x : ι} {m : UInt8} {v : Bytes} {id : ℕ} (hs : Filling n u N s)
    (honly : v = u → m = n) (h : s.arrive x m v = some (w, id)) : Filling n u N w := by
  obtain ⟨-, h2, h3, -, -, -, -, h8, -⟩ := arrive_effect h
  obtain ⟨he, hkind, hcallers⟩ := arrive_entries h
  have hnext : s.nextEntry ≤ w.nextEntry := by
    rcases hkind with ⟨-, -, hn, -⟩ | ⟨-, hn, -⟩ <;> omega
  have hid : id < w.nextEntry := by
    rcases hkind with ⟨-, hid, hn, -⟩ | ⟨hb, hn, -⟩
    · omega
    · have := hs.fresh v id hb
      omega
  have hother (v' : Bytes) (hb : s.barriers v' = some id) : v' = v := by
    rcases hkind with ⟨-, rfl, -⟩ | ⟨hb', -⟩
    · exact absurd (hs.fresh v' _ hb) (Nat.lt_irrefl _)
    · exact hs.own v' v id hb hb'
  have harrived (v' : Bytes) (hv : v' ≠ v) : w.arrived v' = s.arrived v' := by
    rw [h2]
    exact Function.update_of_ne hv _ _
  have hone : w.arrived v = s.arrived v + 1 := by
    rw [h2]
    exact Function.update_self _ _ _
  have hbarriers (v' : Bytes) (hv : v' ≠ v) : w.barriers v' = s.barriers v' := by
    rw [h8, Function.update_of_ne hv]
  have hself : w.barriers v = some id := by rw [h8, Function.update_self]
  have hle : s.arrived u ≤ w.arrived u := by
    by_cases hv : u = v
    · rw [hv, hone]
      omega
    · rw [harrived u hv]
  constructor
  · intro v' j hj
    by_cases hv : v' = v
    · rw [hv, hself] at hj
      exact Option.some.inj hj ▸ hid
    · rw [hbarriers v' hv] at hj
      exact Nat.lt_of_lt_of_le (hs.fresh v' j hj) hnext
  · intro v1 v2 j h1 h2
    by_cases hv1 : v1 = v <;> by_cases hv2 : v2 = v
    · rw [hv1, hv2]
    · rw [hv1, hself] at h1
      rw [hbarriers v2 hv2, ← Option.some.inj h1] at h2
      exact absurd (hother v2 h2) hv2
    · rw [hv2, hself] at h2
      rw [hbarriers v1 hv1, ← Option.some.inj h2] at h1
      exact absurd (hother v1 h1) hv1
    · rw [hbarriers v1 hv1] at h1
      rw [hbarriers v2 hv2] at h2
      exact hs.own v1 v2 j h1 h2
  · intro y m' v1 j r b hy
    obtain ⟨b', hy⟩ := hcallers y m' v1 j r b hy
    obtain ⟨hj, hw⟩ := hs.waits y m' v1 j r b' hy
    refine ⟨Nat.lt_of_lt_of_le hj hnext, fun v2 hv2 => ?_⟩
    by_cases hv : v2 = v
    · subst hv
      obtain rfl : id = j := Option.some.inj (hself.symm.trans hv2)
      rcases hkind with ⟨-, rfl, -⟩ | ⟨hb, -⟩
      · exact absurd hj (Nat.lt_irrefl _)
      · exact hw v2 hb
    · exact hw v2 (hbarriers v2 hv ▸ hv2)
  · intro hlt
    rw [h3]
    exact hs.unreleased (by omega)
  · intro hlt y m' j r b hy
    obtain ⟨b', hy⟩ := hcallers y m' u j r b hy
    have hf := hs.found (by omega) y m' j r b' hy
    by_cases hv : u = v
    · subst hv
      rcases hkind with ⟨hb, -⟩ | ⟨hb, -⟩
      · simp [hb] at hf
      · rw [hself, ← hb, hf]
    · rw [hbarriers u hv, hf]
  · intro h0
    by_cases hv : u = v
    · rw [hv, hone] at h0
      omega
    · rw [hbarriers u hv]
      exact hs.empty (harrived u hv ▸ h0)
  · intro h0 hlt
    by_cases hv : u = v
    · subst hv
      obtain rfl := honly rfl
      refine ⟨id, hself, ?_⟩
      rw [hone, Nat.add_sub_cancel]
      exact hs.arrive_entry (by omega) h
    · rw [harrived u hv] at h0 hlt ⊢
      obtain ⟨j, hj, hst⟩ := hs.count h0 hlt
      refine ⟨j, (hbarriers u hv).trans hj, ?_⟩
      rw [he j fun h => hv (hother u (h ▸ hj)), hst]

variable [DecidableEq ι]

theorem Filling.settle {x : ι} {m : UInt8} {v : Bytes} {id r : ℕ} (hN : Sized n N)
    (hs : Filling n u N s) (hid : id < s.nextEntry) (hown : ∀ v', s.barriers v' = some id → v' = v)
    (hu : v = u → s.arrived u < N → s.barriers u = some id) (h : s.settle x m v id r = some t) :
    Filling n u N t := by
  obtain ⟨st, hst, ⟨hc, rfl⟩ | ⟨-, rfl⟩⟩ := settle_cases h
  · have hold (v' : Bytes) (j : ℕ) (hj : (s.leave x m v id r st).barriers v' = some j) :
        s.barriers v' = some j := by
      simp only [leave] at hj
      split at hj
      · by_cases hv : v' = v
        · simp [hv] at hj
        · rwa [Function.update_of_ne hv] at hj
      · exact hj
    -- nobody leaves the barrier of `u` before its `N`-th arrival
    have hne (hlt : s.arrived u < N) : u ≠ v := by
      rintro rfl
      have hf := hu rfl hlt
      have h0 := hs.arrived_pos hf
      obtain rfl : st = _ := Option.some.inj (hst.symm.trans (hs.entry hf hlt))
      have := (hN _ (by omega)).mp hc
      omega
    have hkeep (hv : u ≠ v) : (s.leave x m v id r st).barriers u = s.barriers u := by
      simp only [leave]
      split
      · exact Function.update_of_ne hv _ _
      · rfl
    have hcaller (y : ι) (m' : UInt8) (v' : Bytes) (j r' : ℕ) (b : Bool)
        (hy : (s.leave x m v id r st).caller y = .waiting m' v' j r' b) :
        s.caller y = .waiting m' v' j r' b := by
      by_cases hyx : y = x
      · simp [leave, hyx] at hy
      · simpa [leave, hyx] using hy
    constructor
    · intro v' j hj
      exact hs.fresh v' j (hold v' j hj)
    · intro v1 v2 j h1 h2
      exact hs.own v1 v2 j (hold v1 j h1) (hold v2 j h2)
    · intro y m' v' j r' b hy
      obtain ⟨hj, hw⟩ := hs.waits y m' v' j r' b (hcaller y m' v' j r' b hy)
      exact ⟨hj, fun v2 h2 => hw v2 (hold v2 j h2)⟩
    · intro hlt
      rw [← hs.unreleased hlt]
      exact Function.update_of_ne (hne hlt) _ _
    · intro hlt y m' j r' b hy
      rw [hkeep (hne hlt)]
      exact hs.found hlt y m' j r' b (hcaller y m' u j r' b hy)
    · intro h0
      have := hs.empty h0
      simp only [leave]
      split
      · by_cases hv : u = v
        · simp [hv]
        · rwa [Function.update_of_ne hv]
      · exact this
    · intro h0 hlt
      obtain ⟨j, hj, hst'⟩ := hs.count h0 hlt
      have hji : j ≠ id := by
        rintro rfl
        exact hne hlt (hown u hj)
      exact ⟨j, (hkeep (hne hlt)).trans hj, (Function.update_of_ne hji _ _).trans hst'⟩
  · refine ⟨hs.fresh, hs.own, ?_, hs.unreleased, ?_, hs.empty, hs.count⟩
    · intro y m' v' j r' b hy
      by_cases hyx : y = x
      · subst hyx
        simp only [Function.update_self, CallerPc.waiting.injEq] at hy
        obtain ⟨rfl, rfl, rfl, rfl, rfl⟩ := hy
        exact ⟨hid, hown⟩
      · exact hs.waits y m' v' j r' b (by simpa [hyx] using hy)
    · intro hlt y m' j r' b hy
      by_cases hyx : y = x
      · subst hyx
        simp only [Function.update_self, CallerPc.waiting.injEq] at hy
        obtain ⟨rfl, rfl, rfl, rfl, rfl⟩ := hy
        exact hu rfl hlt
      · exact hs.found hlt y m' j r' b (by simpa [hyx] using hy)

theorem Filling.woken {x : ι} {m : UInt8} {v : Bytes} {id r : ℕ} {b : Bool} (hN : Sized n N)
    (hs : Filling n u N s) (hx : s.caller x = .waiting m v id r b)
    (h : s.settle x m v id r = some t) : Filling n u N t := by
  obtain ⟨hid, hown⟩ := hs.waits _ _ _ _ _ _ hx
  refine hs.settle hN hid hown ?_ h
  rintro rfl hlt
  exact hs.found hlt _ _ _ _ _ hx

theorem Filling.step {a : Act ι} (hN : Sized n N) (hs : Filling n u N s) (hc : only (n, u) s a)
    (h : s.step a = some t) : Filling n u N t := by
  cases a with
  | call x m v =>
    simp only [RecvBarriers.step] at h
    split at h
    case h_2 => cases h
    obtain ⟨⟨w, id⟩, hw, h⟩ := Option.bind_eq_some_iff.mp h
    obtain ⟨-, -, -, -, -, -, -, h8, -⟩ := arrive_effect hw
    have hf : w.barriers v = some id := by rw [h8, Function.update_self]
    have hs' := hs.arrive hc hw
    refine hs'.settle hN (hs'.fresh v id hf) (fun v' hv' => hs'.own v' v id hv' hf) ?_ h
    rintro rfl -
    exact hf
  | wake x =>
    simp only [RecvBarriers.step] at h
    split at h
    case h_1 hx => exact hs.woken hN hx h
    case h_2 => cases h
  | spurious x =>
    simp only [RecvBarriers.step] at h
    split at h
    case h_1 hx => exact hs.woken hN hx h
    case h_2 => cases h

/-- No socket is released before `N` sockets have arrived. -/
theorem released_full (hN : Sized n N) (h : Reach recvBarrierSystem (only (n, u)) s)
    (hl : 0 < s.left u) : N ≤ s.arrived u := by
  have hs : Filling n u N s := by
    refine h.invariant (Filling n u N) ?_ fun s a t _ hs hc ht => hs.step hN hc ht
    rintro s rfl
    constructor <;> simp [start]
  by_contra hlt
  have := hs.unreleased (by omega)
  omega

end FirstRound

end RecvBarriers

/-- The two kinds of shell that a barrier call may come from. -/
inductive BarrierShell
  | sexpr | scheme
  deriving DecidableEq, Repr

/-- What `recv_barrier` is called with when a client asks for `N` and `u`. `rest`
is what follows the closing quote. -/
def barrierCall (conv : ℤ → UInt32) (rest : Bytes) (N : ℕ) (u : Bytes) : BarrierShell → UInt8 × Bytes
  | .sexpr => sexprBarrier conv (barrierArgs N u rest)
  | .scheme => schemeBarrier N u

/-- The call joins the barrier of `u`, which the `N`-th arrival completes. -/
structure AsNamed (call : UInt8 × Bytes) (N : ℕ) (u : Bytes) : Prop where
  key : call.2 = u
  size : RecvBarriers.Sized call.1 N

/-- The numbers and the UUIDs that get through. -/
def Carried (N : ℕ) (u : Bytes) : BarrierShell → Prop
  | .sexpr => N ≤ 256 ∧ u.length ≤ 31 ∧ 0 ∉ u
  | .scheme => N ≤ 256

theorem pred_toNat_eq {N : ℕ} (hN : 1 ≤ N) : (UInt8.ofNat N - 1).toNat + 1 = N ↔ N ≤ 256 := by
  have : (UInt8.ofNat N - 1).toNat = (N + 255) % 256 := by
    rw [UInt8.toNat_sub, UInt8.toNat_ofNat']
    simp
    omega
  omega

theorem barrierCall_sized (conv : ℤ → UInt32)
    (hconv : ∀ k : ℕ, k < 2 ^ 32 → conv k = UInt32.ofNat k) {N : ℕ} (hN : 1 ≤ N) {u : Bytes}
    (hq : quote ∉ u) (rest : Bytes) (shell : BarrierShell) :
    RecvBarriers.Sized (barrierCall conv rest N u shell).1 N ↔ N ≤ 256 := by
  rw [RecvBarriers.sized_iff hN]
  cases shell with
  | sexpr =>
    simp only [barrierCall, sexprBarrier_args conv hN rest hq]
    by_cases hlt : N < 2 ^ 32
    · rw [hconv N hlt, ← pred_toNat_eq hN]
      have : (UInt32.ofNat N).toUInt8 = UInt8.ofNat N := by
        rw [← UInt8.toNat_inj]
        simp
      rw [this]
    · have := ((conv N).toUInt8 - 1).toNat_lt
      omega
  | scheme =>
    have : UInt8.ofNat ((N : ℤ) % 256).toNat = UInt8.ofNat N := by
      rw [← UInt8.toNat_inj, UInt8.toNat_ofNat', UInt8.toNat_ofNat']
      omega
    simp only [barrierCall, schemeBarrier, this]
    exact pred_toNat_eq hN

theorem barrierCall_key (conv : ℤ → UInt32) {N : ℕ} (hN : 1 ≤ N) {u : Bytes} (hq : quote ∉ u)
    (rest : Bytes) (shell : BarrierShell) (h : Carried N u shell) :
    (barrierCall conv rest N u shell).2 = u := by
  cases shell with
  | sexpr =>
    simp only [barrierCall, sexprBarrier_args conv hN rest hq]
    exact take_cStr_eq_iff.mpr h.2
  | scheme => rfl

/-- A client gets the barrier that it names exactly when the number fits a byte,
with 256 for zero, and a UUID sent as text has at most 31 characters and no NUL.
Such barriers are shared as named and release nobody early. -/
theorem barrier_as_named (conv : ℤ → UInt32) (hconv : ∀ k : ℕ, k < 2 ^ 32 → conv k = UInt32.ofNat k)
    {N : ℕ} (hN : 1 ≤ N) {u : Bytes} (hq : quote ∉ u) (rest : Bytes) (shell : BarrierShell) :
    (AsNamed (barrierCall conv rest N u shell) N u ↔ Carried N u shell) ∧
      (Carried N u shell → ∀ {M : ℕ} {v : Bytes} (rest' : Bytes) (shell' : BarrierShell), 1 ≤ M →
        quote ∉ v → Carried M v shell' →
        ((barrierCall conv rest N u shell).2 = (barrierCall conv rest' M v shell').2 ↔ u = v)) ∧
      (Carried N u shell → ∀ {ι : Type} [DecidableEq ι] (s : RecvBarriers ι),
        Reach recvBarrierSystem (RecvBarriers.only (barrierCall conv rest N u shell)) s →
        0 < s.left u → N ≤ s.arrived u) := by
  have hsized := barrierCall_sized conv hconv hN hq rest shell
  have hle (h : Carried N u shell) : N ≤ 256 := by
    cases shell with
    | sexpr => exact h.1
    | scheme => exact h
  refine ⟨⟨fun h => ?_, fun h => ⟨barrierCall_key conv hN hq rest shell h, hsized.mpr (hle h)⟩⟩, ?_, ?_⟩
  · have h256 := hsized.mp h.size
    cases shell with
    | sexpr =>
      have hkey := h.key
      simp only [barrierCall, sexprBarrier_args conv hN rest hq] at hkey
      exact ⟨h256, take_cStr_eq_iff.mp hkey⟩
    | scheme => exact h256
  · intro h M v rest' shell' hM hv h'
    rw [barrierCall_key conv hN hq rest shell h, barrierCall_key conv hM hv rest' shell' h']
  · intro h ι _ s hs hl
    have hkey := barrierCall_key conv hN hq rest shell h
    generalize barrierCall conv rest N u shell = c at hs hkey hsized
    obtain ⟨n, v⟩ := c
    obtain rfl : v = u := hkey
    exact RecvBarriers.released_full (hsized.mpr (hle h)) hs hl

/-- A library that stores the number modulo the size of an `unsigned int`. -/
def wrapUnsigned (z : ℤ) : UInt32 := UInt32.ofNat (z % 2 ^ 32).toNat

theorem wrapUnsigned_exact (k : ℕ) (h : k < 2 ^ 32) : wrapUnsigned k = UInt32.ofNat k := by
  have : ((k : ℤ) % 2 ^ 32).toNat = k := by omega
  rw [wrapUnsigned, this]

theorem barrier_as_named_pair :
    AsNamed (barrierCall wrapUnsigned [41] 2 [97, 98] .sexpr) 2 [97, 98] :=
  (barrier_as_named wrapUnsigned wrapUnsigned_exact (by decide) (by decide) [41] .sexpr).1.mpr
    ⟨by decide, by decide, by decide⟩

/-- Two UUIDs of 32 characters share a barrier, and a barrier of 257 is complete
at its first call. -/
theorem barrier_as_named_fails :
    ¬ AsNamed (barrierCall wrapUnsigned [41] 2 (List.replicate 32 97) .sexpr) 2 (List.replicate 32 97) ∧
      (barrierCall wrapUnsigned [41] 2 (List.replicate 32 97) .sexpr).2 =
        (barrierCall wrapUnsigned [41] 2 (List.replicate 31 97 ++ [98]) .sexpr).2 ∧
      (RecvBarriers.afterArrivals (barrierCall wrapUnsigned [41] 257 [97] .scheme).1 0).complete = true := by
  have hargs (u : Bytes) (hq : quote ∉ u) :
      (barrierCall wrapUnsigned [41] 2 u .sexpr).2 = (cStr u).take 31 := by
    rw [barrierCall, sexprBarrier_args wrapUnsigned (by decide) [41] hq]
  refine ⟨fun h => ?_, ?_, ?_⟩
  · have hkey := h.key
    rw [hargs _ (by decide)] at hkey
    exact absurd hkey (by decide)
  · rw [hargs _ (by decide), hargs _ (by decide)]
    decide
  · exact (RecvBarriers.afterArrivals_spec _ 0).1.mpr (by decide)

end CogServer
