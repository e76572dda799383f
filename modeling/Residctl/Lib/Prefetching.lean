import Residctl.Lib.Paging

/-!
# Loading ahead of use

A cache that loads and drops items whenever it likes, while the references go to items that it
holds. `Served` is a schedule of `Paging.Serves` that grows at its end. `Shadowed` sets the two
side by side: on the same references some schedule that loads on demand has paid no more than
the cache, which has paid for what it has dropped and for what it still holds.
-/

namespace Paging

variable {α : Type*} [DecidableEq α]

/-- A schedule up to now: the references, the cache after the last of them, and the cost. -/
inductive Served (w : α → ℕ) (B : ℕ) : List α → Finset α → ℕ → Prop
  | nil : Served w B [] ∅ 0
  | read {refs C C' m} (c : α) (h : Served w B refs C m) (hsub : C' ⊆ insert c C) (hload : c ∈ C')
      (hfit : weight w C' ≤ B) : Served w B (refs ++ [c]) C' (m + if c ∈ C then 0 else w c)

/-- The cache holds `H`, and the weights of what it has dropped add up to `out`. -/
def Shadowed (w : α → ℕ) (B : ℕ) (refs : List α) (H : Finset α) (out : ℕ) : Prop :=
  ∃ C D m, Served w B refs C m ∧ D ⊆ C ∧ D ⊆ H ∧ m ≤ out + weight w D

variable {w : α → ℕ} {B : ℕ} {refs rest : List α} {C H H' : Finset α} {m k out out' : ℕ}

/-- A schedule up to now and one from now on are one schedule. -/
theorem Served.append (h : Served w B refs C m) (hrest : Serves w B C rest k) :
    Serves w B ∅ (refs ++ rest) (m + k) := by
  induction h generalizing rest k with
  | nil => simpa using hrest
  | @read refs C C' m c h hsub hload hfit ih =>
    have hnext := ih (Serves.cons hsub (fun _ => hload) hfit hrest)
    rwa [List.append_assoc, List.singleton_append, Nat.add_assoc]

theorem Served.serves (h : Served w B refs C m) : Serves w B ∅ refs m := by
  have hall := h.append Serves.nil
  rwa [List.append_nil] at hall

/-- Renaming the items. -/
theorem Serves.map {β : Type*} [DecidableEq β] (f : α ↪ β) {w : β → ℕ}
    (h : Serves (w ∘ f) B C refs m) : Serves w B (C.map f) (refs.map f) m := by
  induction h with
  | nil => exact Serves.nil
  | @cons C C' c refs m hsub hload hfit hrest ih =>
    have hsub' : C'.map f ⊆ insert (f c) (C.map f) := by
      rw [← Finset.map_insert]
      exact Finset.map_subset_map.2 hsub
    have hfit' : weight w (C'.map f) ≤ B := by
      rw [weight, Finset.sum_map]
      exact hfit
    have hnext := Serves.cons hsub' (fun hB => Finset.mem_map_of_mem f (hload hB)) hfit' ih
    simpa only [Finset.mem_map', Function.comp_apply, List.map_cons] using hnext

namespace Shadowed

theorem nil : Shadowed w B ([] : List α) ∅ 0 :=
  ⟨∅, ∅, 0, Served.nil, Finset.Subset.refl _, Finset.Subset.refl _, Nat.zero_le _⟩

/-- Loading items the schedule has no use for yet. -/
theorem mono (h : Shadowed w B refs H out) (hsub : H ⊆ H') (hle : out ≤ out') :
    Shadowed w B refs H' out' := by
  rcases h with ⟨C, D, m, hserved, hDC, hDH, hm⟩
  exact ⟨C, D, m, hserved, hDC, hDH.trans hsub, by omega⟩

/-- The schedule drops what the cache drops, and may have to load it again. -/
theorem drop (h : Shadowed w B refs H out) (x : α) :
    Shadowed w B refs (H.erase x) (out + w x) := by
  rcases h with ⟨C, D, m, hserved, hDC, hDH, hm⟩
  have hweight : weight w D ≤ weight w (D.erase x) + w x := by
    by_cases hx : x ∈ D
    · exact (weight_erase_add hx).ge
    · rw [Finset.erase_eq_of_notMem hx]
      exact Nat.le_add_right _ _
  refine ⟨C, D.erase x, m, hserved, (Finset.erase_subset x D).trans hDC,
    Finset.erase_subset_erase x hDH, ?_⟩
  omega

/-- A reference to an item of the cache: if the schedule does not have it, the cache has paid
for it all the same. -/
theorem read {c : α} (h : Shadowed w B refs H out) (hc : c ∈ H) (hfit : weight w H ≤ B) :
    Shadowed w B (refs ++ [c]) H out := by
  rcases h with ⟨C, D, m, hserved, hDC, hDH, hm⟩
  have hsub : insert c D ⊆ H := Finset.insert_subset hc hDH
  have hserved' := hserved.read c (Finset.insert_subset_insert c hDC) (Finset.mem_insert_self c D)
    ((weight_mono hsub).trans hfit)
  refine ⟨insert c D, insert c D, _, hserved', Finset.Subset.refl _, hsub, ?_⟩
  by_cases hcD : c ∈ D
  · rw [if_pos (hDC hcD), Finset.insert_eq_of_mem hcD]
    exact hm
  · have hpaid : (if c ∈ C then 0 else w c) ≤ w c := by
      split_ifs
      · exact Nat.zero_le _
      · exact le_rfl
    rw [weight_insert hcD]
    omega

/-- The cache has paid at least what some schedule pays that loads on demand. -/
theorem serves (h : Shadowed w B refs H out) :
    ∃ m ≤ out + weight w H, Serves w B ∅ refs m := by
  rcases h with ⟨C, D, m, hserved, -, hDH, hm⟩
  exact ⟨m, hm.trans (Nat.add_le_add_left (weight_mono hDH) out), hserved.serves⟩

end Shadowed

end Paging
