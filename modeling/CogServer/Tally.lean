import Mathlib.Data.Set.Card

/-! Counting the threads that are at a place of a kind, of which there are finitely many at each
moment, while their places change one at a time. -/
namespace Tally

variable {ι α : Type*}

/-- How many threads are at a place with `P`. -/
noncomputable def tally (place : ι → α) (P : α → Prop) : ℕ := {i | P (place i)}.ncard

variable {place : ι → α} {P : α → Prop} {i : ι}

theorem tally_congr {place' : ι → α} (h : ∀ i, P (place' i) ↔ P (place i)) :
    tally place' P = tally place P := by
  unfold tally
  congr 1
  ext i
  exact h i

theorem tally_eq_zero (h : ∀ i, ¬ P (place i)) : tally place P = 0 := by
  unfold tally
  rw [Set.eq_empty_of_forall_notMem (s := {i | P (place i)}) h, Set.ncard_empty]

theorem tally_pos (h : {j | P (place j)}.Finite) (hi : P (place i)) : 0 < tally place P :=
  (Set.ncard_pos h).mpr ⟨i, hi⟩

variable [DecidableEq ι]

theorem finite_update (h : {j | P (place j)}.Finite) (i : ι) (a : α) :
    {j | P (Function.update place i a j)}.Finite := by
  apply (h.insert i).subset
  intro j hj
  by_cases hji : j = i
  · exact .inl hji
  · right
    simpa [hji] using hj

/-- A thread that goes to another place is counted there and no longer where it was. -/
theorem tally_update [DecidablePred P] (h : {j | P (place j)}.Finite) (i : ι) (a : α) :
    tally (Function.update place i a) P + (if P (place i) then 1 else 0) =
      tally place P + (if P a then 1 else 0) := by
  have hrest : {j | P (Function.update place i a j)} \ {i} = {j | P (place j)} \ {i} := by
    ext j
    by_cases hji : j = i <;> simp [hji]
  have hold : tally place P = ({j | P (place j)} \ {i}).ncard + if P (place i) then 1 else 0 := by
    split
    · rename_i hi
      exact (Set.ncard_sdiff_singleton_add_one (s := {j | P (place j)}) hi h).symm
    · rename_i hi
      rw [Set.sdiff_singleton_eq_self (s := {j | P (place j)}) hi]
      rfl
  have hnew : tally (Function.update place i a) P =
      ({j | P (place j)} \ {i}).ncard + if P a then 1 else 0 := by
    rw [← hrest]
    have hi : i ∈ {j | P (Function.update place i a j)} ↔ P a := by simp
    split
    · rename_i ha
      exact (Set.ncard_sdiff_singleton_add_one (hi.mpr ha) (finite_update h i a)).symm
    · rename_i ha
      rw [Set.sdiff_singleton_eq_self (fun hmem => ha (hi.mp hmem))]
      rfl
  rw [hold, hnew]
  omega

end Tally
