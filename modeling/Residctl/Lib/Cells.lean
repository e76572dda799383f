import Mathlib.Data.Nat.Notation
import Mathlib.Logic.Function.Basic

/-!
# Arrays with checked accesses

`read` and `write` are `none` outside the array. `Holds a m f` says what an array of `m` cells
holds: cell `i` has `f i`. A program over arrays is related in this way to one over functions,
in which no access can fail.
-/

namespace Cells

open Function

variable {α : Type*}

/-- A load. -/
def read (a : Array α) (i : ℕ) : Option α := a[i]?

/-- A store. -/
def write (a : Array α) (i : ℕ) (x : α) : Option (Array α) :=
  if i < a.size then some (a.setIfInBounds i x) else none

/-- The `m` cells of the array are the values of `f` below `m`. -/
structure Holds (a : Array α) (m : ℕ) (f : ℕ → α) : Prop where
  size : a.size = m
  cell : ∀ i < m, a[i]? = some (f i)

variable {a : Array α} {m i : ℕ} {f g : ℕ → α}

theorem Holds.read (h : Holds a m f) (hi : i < m) : read a i = some (f i) := h.cell i hi

/-- A store inside the array succeeds, and updates one cell. -/
theorem Holds.write (h : Holds a m f) (hi : i < m) (x : α) :
    ∃ a', write a i x = some a' ∧ Holds a' m (update f i x) := by
  have hi' : i < a.size := by rwa [h.size]
  refine ⟨a.setIfInBounds i x, if_pos hi', ?_, ?_⟩
  · rw [Array.size_setIfInBounds, h.size]
  · intro k hk
    by_cases hki : k = i
    · subst hki
      simp [hi']
    · rw [Array.getElem?_setIfInBounds_ne (Ne.symm hki), h.cell k hk, update_of_ne hki]

theorem Holds.read_eq_none (h : Holds a m f) (hi : m ≤ i) : Cells.read a i = none :=
  Array.getElem?_eq_none (by rw [h.size]; exact hi)

theorem Holds.congr (h : Holds a m f) (hfg : ∀ i < m, f i = g i) : Holds a m g where
  size := h.size
  cell i hi := (h.cell i hi).trans (congrArg some (hfg i hi))

/-- `calloc`, and an array that a loop has filled with one value. -/
theorem holds_replicate (m : ℕ) (x : α) : Holds (Array.replicate m x) m fun _ => x where
  size := Array.size_replicate
  cell i hi := by simp [hi]

theorem holds_map {β : Type*} (h : Holds a m f) (φ : α → β) :
    Holds (a.map φ) m fun i => φ (f i) where
  size := by rw [Array.size_map, h.size]
  cell i hi := by simp [h.cell i hi]

end Cells
