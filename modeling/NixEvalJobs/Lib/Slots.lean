import Mathlib

/-!
# Counting over a family of slots

A pool is a function from slot indices to slot contents. A step of a pool
changes one slot, so a count over all slots changes by what that slot
contributes.
-/

namespace NixEvalJobs

variable {ι α : Type} [Fintype ι]

/-- How many slots satisfy `p`. -/
def countSlots (p : α → Bool) (f : ι → α) : Nat :=
  ∑ i, (p (f i)).toNat

theorem countSlots_eq_zero {p : α → Bool} {f : ι → α} :
    countSlots p f = 0 ↔ ∀ i, p (f i) = false := by
  simp [countSlots]

theorem countSlots_pos {p : α → Bool} {f : ι → α} :
    0 < countSlots p f ↔ ∃ i, p (f i) = true := by
  rw [Nat.pos_iff_ne_zero, ne_eq, countSlots_eq_zero]
  simp

theorem countSlots_le {p : α → Bool} {f : ι → α} : countSlots p f ≤ Fintype.card ι := by
  unfold countSlots
  refine (Finset.sum_le_card_nsmul _ _ 1 fun i _ => Bool.toNat_le _).trans ?_
  rw [Finset.card_univ, smul_eq_mul, Nat.mul_one]

/-- If at most one slot counts, two slots that count are the same one. -/
theorem countSlots_le_one {p : α → Bool} {f : ι → α} (h : countSlots p f ≤ 1) {i j : ι}
    (hi : p (f i) = true) (hj : p (f j) = true) : i = j := by
  classical
  by_contra hne
  have hpair := Finset.sum_le_sum_of_subset (f := fun k => (p (f k)).toNat)
    (Finset.subset_univ {i, j})
  rw [Finset.sum_pair hne, hi, hj] at hpair
  exact absurd (hpair.trans h) (by decide)

/-- Counts agree when every slot contributes the same. -/
theorem countSlots_congr {p : α → Bool} {f g : ι → α} (h : ∀ i, p (f i) = p (g i)) :
    countSlots p f = countSlots p g := by
  simp only [countSlots, h]

/-- Two counts agree when every slot is counted by both or by none. -/
theorem countSlots_congr_pred {p q : α → Bool} {f : ι → α} (h : ∀ i, p (f i) = q (f i)) :
    countSlots p f = countSlots q f := by
  simp only [countSlots, h]

/-- Rewriting one slot moves a sum by the difference of that slot. -/
theorem sumSlots_update [DecidableEq ι] (g : α → Nat) (f : ι → α) (i : ι) (a : α) :
    ∑ j, g (Function.update f i a j) + g (f i) = ∑ j, g (f j) + g a := by
  -- every other slot contributes the same before and after
  have hrest : ∑ j ∈ Finset.univ.erase i, g (Function.update f i a j) =
      ∑ j ∈ Finset.univ.erase i, g (f j) := by
    refine Finset.sum_congr rfl fun j hj => ?_
    rw [Function.update_of_ne (Finset.ne_of_mem_erase hj)]
  have hnew := Finset.add_sum_erase Finset.univ (fun j => g (Function.update f i a j))
    (Finset.mem_univ i)
  have hold := Finset.add_sum_erase Finset.univ (fun j => g (f j)) (Finset.mem_univ i)
  simp only [Function.update_self, hrest] at hnew
  omega

/-- Rewriting one slot moves the count by the difference of that slot. -/
theorem countSlots_update [DecidableEq ι] (p : α → Bool) (f : ι → α) (i : ι) (a : α) :
    countSlots p (Function.update f i a) + (p (f i)).toNat =
      countSlots p f + (p a).toNat :=
  sumSlots_update (fun x => (p x).toNat) f i a

omit [Fintype ι] in
/-- What a new content shares with the old one is the same in every slot. -/
theorem apply_update_of_eq [DecidableEq ι] {β : Type} (g : α → β) {f : ι → α} {i : ι} {a : α}
    (h : g a = g (f i)) (j : ι) : g (Function.update f i a j) = g (f j) := by
  by_cases hj : j = i
  · subst hj
    rw [Function.update_self, h]
  · rw [Function.update_of_ne hj]

end NixEvalJobs
