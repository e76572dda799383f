import Mathlib.Data.Multiset.MapFold
import Mathlib.Data.Multiset.Range
import Mathlib.Data.Multiset.Bind
import Mathlib.Logic.Equiv.Basic
import Mathlib.Tactic.Linarith

/-!
# Binary max-heaps embedded in an array

The array is a function `a : ℕ → β` of which the first `size` cells are in use;
`key` orders the entries. The children of cell `i` are `2 * i + 1` and
`2 * i + 2`. The two sift loops restore the heap order after one cell changed;
both only ever exchange cells below `size`, so they permute the stored entries.
-/

namespace BinHeap

variable {β : Type*}

/-- Exchange cells `i` and `j`. -/
def swap (a : ℕ → β) (i j : ℕ) : ℕ → β :=
  fun k => if k = i then a j else if k = j then a i else a k

@[simp] theorem swap_left (a : ℕ → β) (i j : ℕ) : swap a i j i = a j := by simp [swap]

@[simp] theorem swap_right (a : ℕ → β) (i j : ℕ) : swap a i j j = a i := by
  by_cases h : j = i
  · subst h; simp [swap]
  · simp [swap, h]

theorem swap_of_ne (a : ℕ → β) {i j k : ℕ} (hi : k ≠ i) (hj : k ≠ j) : swap a i j k = a k := by
  simp [swap, hi, hj]

theorem swap_eq_update (a : ℕ → β) (i j : ℕ) :
    swap a i j = Function.update (Function.update a i (a j)) j (a i) := by
  funext k
  by_cases hj : k = j
  · subst hj
    rw [Function.update_self, swap_right]
  · rw [Function.update_of_ne hj]
    by_cases hi : k = i
    · rw [hi, Function.update_self, swap_left]
    · rw [Function.update_of_ne hi, swap_of_ne a hi hj]

/-- The entries stored in the first `size` cells. -/
def entries (size : ℕ) (a : ℕ → β) : Multiset β := (Multiset.range size).map a

theorem entries_succ (size : ℕ) (a : ℕ → β) :
    entries (size + 1) a = a size ::ₘ entries size a := by
  simp [entries, Multiset.range_succ]

@[simp] theorem card_entries (size : ℕ) (a : ℕ → β) : (entries size a).card = size := by
  simp [entries]

theorem entries_congr {size : ℕ} {a b : ℕ → β} (h : ∀ k < size, a k = b k) :
    entries size a = entries size b :=
  Multiset.map_congr rfl fun k hk => h k (Multiset.mem_range.1 hk)

theorem mem_entries {size : ℕ} {a : ℕ → β} {x : β} :
    x ∈ entries size a ↔ ∃ k < size, a k = x := by
  simp [entries]

/-- Exchanging two cells in use keeps the stored entries. -/
theorem entries_swap {size : ℕ} (a : ℕ → β) {i j : ℕ} (hi : i < size) (hj : j < size) :
    entries size (swap a i j) = entries size a := by
  have hcomp : swap a i j = a ∘ Equiv.swap i j := by
    funext k
    simp only [swap, Function.comp_apply, Equiv.swap_apply_def]
    split_ifs <;> rfl
  have hrange : (Multiset.range size).map (Equiv.swap i j) = Multiset.range size := by
    refine (Multiset.Nodup.ext
      ((Multiset.nodup_range size).map (Equiv.swap i j).injective)
      (Multiset.nodup_range size)).2 fun k => ?_
    simp only [Multiset.mem_map, Multiset.mem_range]
    constructor
    · rintro ⟨x, hx, rfl⟩
      rw [Equiv.swap_apply_def]
      split_ifs <;> omega
    · intro hk
      refine ⟨Equiv.swap i j k, ?_, Equiv.swap_apply_self i j k⟩
      rw [Equiv.swap_apply_def]
      split_ifs <;> omega
  rw [entries, hcomp, ← Multiset.map_map, hrange, entries]

variable (key : β → ℕ)

/-- The heap order on the first `size` cells. -/
def IsHeap (size : ℕ) (a : ℕ → β) : Prop :=
  ∀ i, 0 < i → i < size → key (a i) ≤ key (a ((i - 1) / 2))

/-- Heap order everywhere except between `i` and its parent; the children of `i`
are below that parent. -/
structure UpTo (size : ℕ) (a : ℕ → β) (i : ℕ) : Prop where
  order : ∀ j, 0 < j → j < size → j ≠ i → key (a j) ≤ key (a ((j - 1) / 2))
  skip : ∀ j, 0 < j → j < size → (j - 1) / 2 = i → 0 < i → key (a j) ≤ key (a ((i - 1) / 2))

/-- Heap order everywhere except between `i` and its children; those children are
below the parent of `i`. -/
structure DownTo (size : ℕ) (a : ℕ → β) (i : ℕ) : Prop where
  order : ∀ j, 0 < j → j < size → (j - 1) / 2 ≠ i → key (a j) ≤ key (a ((j - 1) / 2))
  skip : ∀ j, 0 < j → j < size → (j - 1) / 2 = i → 0 < i → key (a j) ≤ key (a ((i - 1) / 2))

/-- Move cell `i` up while it exceeds its parent. -/
def siftUp (a : ℕ → β) (i : ℕ) : ℕ → β :=
  if 0 < i then
    if key (a ((i - 1) / 2)) ≥ key (a i) then a
    else siftUp (swap a ((i - 1) / 2) i) ((i - 1) / 2)
  else a
termination_by i

/-- The largest of cell `i` and its children in use, the left one first. -/
def largest (size : ℕ) (a : ℕ → β) (i : ℕ) : ℕ :=
  let m := if 2 * i + 1 < size ∧ key (a (2 * i + 1)) > key (a i) then 2 * i + 1 else i
  if 2 * i + 2 < size ∧ key (a (2 * i + 2)) > key (a m) then 2 * i + 2 else m

theorem largest_cases (size : ℕ) (a : ℕ → β) (i : ℕ) :
    largest key size a i = i ∨
      (i < largest key size a i ∧ largest key size a i < size ∧
        (largest key size a i - 1) / 2 = i) := by
  unfold largest
  dsimp only
  split_ifs <;> omega

theorem le_largest (size : ℕ) (a : ℕ → β) (i : ℕ) {j : ℕ} (hj : j < size)
    (hji : j = i ∨ (0 < j ∧ (j - 1) / 2 = i)) : key (a j) ≤ key (a (largest key size a i)) := by
  have hcases : j = i ∨ j = 2 * i + 1 ∨ j = 2 * i + 2 := by omega
  unfold largest
  dsimp only
  rcases hcases with rfl | rfl | rfl <;> split_ifs <;> omega

/-- Move cell `i` down while one of its children exceeds it. -/
def siftDown (size : ℕ) (a : ℕ → β) (i : ℕ) : ℕ → β :=
  if largest key size a i = i then a
  else siftDown size (swap a i (largest key size a i)) (largest key size a i)
termination_by size - i
decreasing_by
  have := largest_cases key size a i
  omega

/-- A cell without children in use stays. -/
theorem siftDown_of_le {size i : ℕ} (a : ℕ → β) (h : size ≤ 2 * i + 1) :
    siftDown key size a i = a := by
  have hstop : largest key size a i = i := by
    unfold largest
    dsimp only
    split_ifs <;> omega
  rw [siftDown, if_pos hstop]

/-! ## The loops permute the entries in use -/

theorem entries_siftUp {size : ℕ} (a : ℕ → β) {i : ℕ} (hi : i < size) :
    entries size (siftUp key a i) = entries size a := by
  induction a, i using siftUp.induct key with
  | case1 a i hpos hge => rw [siftUp, if_pos hpos, if_pos hge]
  | case2 a i hpos hge ih =>
    rw [siftUp, if_pos hpos, if_neg hge, ih (by omega), entries_swap a (by omega) hi]
  | case3 a i hpos => rw [siftUp, if_neg hpos]

theorem entries_siftDown {size : ℕ} (a : ℕ → β) {i : ℕ} (hi : i < size) :
    entries size (siftDown key size a i) = entries size a := by
  induction a, i using siftDown.induct key size with
  | case1 a i hl => rw [siftDown, if_pos hl]
  | case2 a i hl ih =>
    have hcases := largest_cases key size a i
    have hlt : largest key size a i < size := by omega
    rw [siftDown, if_neg hl, ih hlt, entries_swap a hi hlt]

/-! ## The loops restore the heap order -/

theorem siftUp_isHeap {size : ℕ} (a : ℕ → β) {i : ℕ} (h : UpTo key size a i) (hi : i < size) :
    IsHeap key size (siftUp key a i) := by
  induction a, i using siftUp.induct key with
  | case1 a i hpos hge =>
    rw [siftUp, if_pos hpos, if_pos hge]
    intro j hj hjs
    by_cases hji : j = i
    · subst hji; exact hge
    · exact h.order j hj hjs hji
  | case2 a i hpos hge ih =>
    rw [siftUp, if_pos hpos, if_neg hge]
    refine ih ⟨fun j hj hjs hjp => ?_, fun j hj hjs hjp hp => ?_⟩ (by omega)
    · by_cases hji : j = i
      · subst hji
        rw [swap_right, swap_left]
        omega
      · rw [swap_of_ne a hjp hji]
        by_cases hpj : (j - 1) / 2 = i
        · rw [hpj, swap_right]
          exact h.skip j hj hjs hpj hpos
        · by_cases hpp : (j - 1) / 2 = (i - 1) / 2
          · rw [hpp, swap_left]
            have := h.order j hj hjs hji
            rw [hpp] at this
            omega
          · rw [swap_of_ne a hpp hpj]
            exact h.order j hj hjs hji
    · have hgp := h.order ((i - 1) / 2) hp (by omega) (by omega)
      rw [swap_of_ne a (show ((i - 1) / 2 - 1) / 2 ≠ (i - 1) / 2 by omega) (by omega)]
      by_cases hji : j = i
      · subst hji
        rw [swap_right]
        exact hgp
      · rw [swap_of_ne a (by omega) hji]
        have := h.order j hj hjs hji
        rw [hjp] at this
        omega
  | case3 a i hpos =>
    rw [siftUp, if_neg hpos]
    intro j hj hjs
    exact h.order j hj hjs (by omega)

theorem siftDown_isHeap {size : ℕ} (a : ℕ → β) {i : ℕ} (h : DownTo key size a i) (hi : i < size) :
    IsHeap key size (siftDown key size a i) := by
  induction a, i using siftDown.induct key size with
  | case1 a i hl =>
    rw [siftDown, if_pos hl]
    intro j hj hjs
    by_cases hji : (j - 1) / 2 = i
    · have := le_largest key size a i hjs (Or.inr ⟨hj, hji⟩)
      rwa [hl, ← hji] at this
    · exact h.order j hj hjs hji
  | case2 a i hl ih =>
    rw [siftDown, if_neg hl]
    obtain ⟨him, hms, hpar⟩ := (largest_cases key size a i).resolve_left hl
    have hmax : ∀ j, j < size → (j = i ∨ (0 < j ∧ (j - 1) / 2 = i)) →
        key (a j) ≤ key (a (largest key size a i)) :=
      fun j hj hji => le_largest key size a i hj hji
    generalize largest key size a i = m at *
    refine ih ⟨fun j hj hjs hjm => ?_, fun j hj hjs hjm hm => ?_⟩ hms
    · by_cases hji : j = i
      · -- the cell moved up to `i` stays below the parent of `i`
        subst hji
        rw [swap_left, swap_of_ne a (by omega) (by omega)]
        exact h.skip m (by omega) hms hpar (by omega)
      · by_cases hpj : (j - 1) / 2 = i
        · rw [hpj, swap_left]
          by_cases hjm' : j = m
          · subst hjm'
            rw [swap_right]
            exact hmax i hi (Or.inl rfl)
          · rw [swap_of_ne a hji hjm']
            exact hmax j hjs (Or.inr ⟨hj, hpj⟩)
        · rw [swap_of_ne a hpj (by omega), swap_of_ne a hji (by omega)]
          exact h.order j hj hjs hpj
    · rw [hpar, swap_left, swap_of_ne a (by omega) (by omega)]
      have := h.order j hj hjs (by omega)
      rwa [hjm] at this

/-- The root of a heap is maximal. -/
theorem IsHeap.le_root {size : ℕ} {a : ℕ → β} (h : IsHeap key size a) :
    ∀ k, k < size → key (a k) ≤ key (a 0) := by
  intro k
  induction k using Nat.strong_induction_on with
  | _ k ih =>
    intro hk
    rcases Nat.eq_zero_or_pos k with rfl | hpos
    · exact le_rfl
    · exact (h k hpos hk).trans (ih ((k - 1) / 2) (by omega) (by omega))

end BinHeap
