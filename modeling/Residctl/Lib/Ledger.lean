import Mathlib.Algebra.BigOperators.Group.Finset.Basic
import Mathlib.Algebra.Order.BigOperators.Group.Finset
import Mathlib.Algebra.BigOperators.Ring.Finset
import Mathlib.Data.Fintype.BigOperators

/-!
# Weighted totals over a finite index type

`total w p` is the weight of the indices that satisfy `p`. A counter that follows such
a total is updated when one index enters or leaves.
-/

namespace Ledger

variable {ι : Type*} [Fintype ι] (w : ι → ℕ)

def total (p : ι → Prop) [DecidablePred p] : ℕ := ∑ i, if p i then w i else 0

variable {w} {p q : ι → Prop} [DecidablePred p] [DecidablePred q]

theorem total_congr (h : ∀ i, p i ↔ q i) : total w p = total w q :=
  Finset.sum_congr rfl fun i _ => by simp only [h i]

theorem total_eq_zero (h : ∀ i, ¬ p i) : total w p = 0 :=
  Finset.sum_eq_zero fun i _ => if_neg (h i)

theorem total_le (p : ι → Prop) [DecidablePred p] : total w p ≤ ∑ i, w i := by
  refine Finset.sum_le_sum fun i _ => ?_
  split
  · exact le_rfl
  · exact Nat.zero_le _

/-- Totals of exclusive predicates add up. -/
theorem total_or (h : ∀ i, p i → ¬ q i) :
    total w (fun i => p i ∨ q i) = total w p + total w q := by
  rw [total, total, total, ← Finset.sum_add_distrib]
  refine Finset.sum_congr rfl fun i _ => ?_
  by_cases hp : p i
  · simp [hp, h i hp]
  · simp [hp]

/-- An index in the total weighs no more than the total. -/
theorem le_total {c : ι} (hp : p c) : w c ≤ total w p := by
  have hsingle := Finset.single_le_sum (f := fun i => if p i then w i else 0)
    (fun _ _ => Nat.zero_le _) (Finset.mem_univ c)
  simpa only [total, hp, if_true] using hsingle

section

variable {β : Type*} [DecidableEq β] {B : ι → Finset β} {m : ℕ} {S : Finset β}

/-- Where the indices own disjoint sets, as large as their weights say, a total is a size. -/
theorem total_eq_card (hdisjoint : (Set.univ : Set ι).PairwiseDisjoint B)
    (hcard : ∀ i, w i = m * (B i).card) :
    total w p = m * ((Finset.univ.filter p).biUnion B).card := by
  have hsub : ((Finset.univ.filter p : Finset ι) : Set ι).PairwiseDisjoint B :=
    hdisjoint.subset (Set.subset_univ _)
  rw [total, ← Finset.sum_filter, Finset.card_biUnion hsub, Finset.mul_sum]
  exact Finset.sum_congr rfl fun i _ => hcard i

theorem total_le_card (hdisjoint : (Set.univ : Set ι).PairwiseDisjoint B)
    (hcard : ∀ i, w i = m * (B i).card) (h : ∀ i, p i → B i ⊆ S) : total w p ≤ m * S.card := by
  rw [total_eq_card hdisjoint hcard]
  apply Nat.mul_le_mul_left
  apply Finset.card_le_card
  exact Finset.biUnion_subset.2 fun i hi => h i (Finset.mem_filter.1 hi).2

theorem card_le_total (hdisjoint : (Set.univ : Set ι).PairwiseDisjoint B)
    (hcard : ∀ i, w i = m * (B i).card) (h : ∀ b ∈ S, ∃ i, p i ∧ b ∈ B i) :
    m * S.card ≤ total w p := by
  rw [total_eq_card hdisjoint hcard]
  apply Nat.mul_le_mul_left
  apply Finset.card_le_card
  intro b hb
  obtain ⟨i, hp, hi⟩ := h b hb
  exact Finset.mem_biUnion.2 ⟨i, Finset.mem_filter.2 ⟨Finset.mem_univ i, hp⟩, hi⟩

end

variable [DecidableEq ι]

/-- A total after a change at one index. -/
theorem total_update {c : ι} (h : ∀ i, i ≠ c → (q i ↔ p i)) :
    total w q + (if p c then w c else 0) = total w p + (if q c then w c else 0) := by
  have hrest : ∑ i ∈ Finset.univ.erase c, (if q i then w i else 0) =
      ∑ i ∈ Finset.univ.erase c, if p i then w i else 0 := by
    refine Finset.sum_congr rfl fun i hi => ?_
    simp only [h i (Finset.ne_of_mem_erase hi)]
  rw [total, total, ← Finset.add_sum_erase _ _ (Finset.mem_univ c),
    ← Finset.add_sum_erase _ _ (Finset.mem_univ c), hrest]
  ac_rfl

end Ledger
