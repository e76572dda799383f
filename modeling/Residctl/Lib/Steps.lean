import Mathlib.Algebra.BigOperators.Fin
import Mathlib.Algebra.Order.BigOperators.Group.Finset
import Mathlib.Data.Fintype.Card
import Mathlib.Data.Finset.Max

/-!
# Threads that walk the same steps

Every thread of a team takes the steps `0, 1, 2, …` in this order; `pos t` is the number
of steps that thread `t` has finished. `finished pos k` counts the threads that have
finished step `k`: a counter that is raised whenever a thread finishes `k` has this value,
and a step is complete when it has reached the size of the team.

Within a step the work `0, 1, …, m - 1` is dealt out by stride.
-/

namespace Steps

open Finset Function

variable {T : Type*} [Fintype T] {pos : T → ℕ} {j k : ℕ} {t : T}

/-- How many threads have finished step `k`. -/
def finished (pos : T → ℕ) (k : ℕ) : ℕ := #{t | k < pos t}

theorem finished_le_card (pos : T → ℕ) (k : ℕ) : finished pos k ≤ Fintype.card T :=
  card_le_univ _

/-- A step is complete when every thread has finished it. -/
theorem card_le_finished_iff : Fintype.card T ≤ finished pos k ↔ ∀ t, k < pos t := by
  have hcard : Fintype.card T ≤ finished pos k ↔ finished pos k = Fintype.card T :=
    ⟨fun h => le_antisymm (finished_le_card pos k) h, fun h => h.ge⟩
  rw [hcard, finished, card_eq_iff_eq_univ, eq_univ_iff_forall]
  simp

/-- The counters are raised one at a time. -/
theorem finished_update [DecidableEq T] (hpos : pos t = k) :
    finished (update pos t (k + 1)) = update (finished pos) k (finished pos k + 1) := by
  funext j
  by_cases hj : j = k
  · subst hj
    have hset : univ.filter (fun u => j < update pos t (j + 1) u) =
        insert t (univ.filter fun u => j < pos u) := by
      ext u
      by_cases hu : u = t
      · simp [hu]
      · simp [hu]
    rw [update_self, finished, hset, card_insert_of_notMem (by simp [hpos])]
    rfl
  · rw [update_of_ne hj]
    apply congrArg card
    ext u
    by_cases hu : u = t
    · subst hu
      simp only [mem_filter, mem_univ, true_and, update_self]
      omega
    · simp [hu]

/-- Some thread is behind all the others. -/
theorem exists_last [Nonempty T] (pos : T → ℕ) : ∃ t, ∀ u, pos t ≤ pos u :=
  let ⟨t, _, ht⟩ := univ.exists_min_image pos univ_nonempty
  ⟨t, fun u => ht u (mem_univ u)⟩

/-! ## Dealing out by stride -/

/-- What the workers of a team of `nt` process adds up to the whole. -/
theorem sum_stride {M : Type*} [AddCommMonoid M] {nt : ℕ} (hnt : 0 < nt) (f : ℕ → M) (m : ℕ) :
    ∑ t : Fin nt, ∑ i ∈ range m with i % nt = t.1, f i = ∑ i ∈ range m, f i := by
  rw [← sum_fiberwise (range m) (fun i => (⟨i % nt, Nat.mod_lt i hnt⟩ : Fin nt)) f]
  refine sum_congr rfl fun t _ => sum_congr ?_ fun _ _ => rfl
  ext i
  simp [Fin.ext_iff]

/-- Pieces of size `b`, the last one cut off at `len`, add up to `len`. -/
theorem sum_pieces {b : ℕ} (hb : 0 < b) (len : ℕ) :
    ∑ i ∈ range ((len + b - 1) / b), min (len - i * b) b = len := by
  have hsum : ∀ m, ∑ i ∈ range m, min (len - i * b) b = min (m * b) len := by
    intro m
    induction m with
    | zero => simp
    | succ m ih =>
      rw [sum_range_succ, ih, Nat.succ_mul]
      omega
  rw [hsum]
  have hlt := Nat.lt_div_mul_add (a := len + b - 1) hb
  omega

end Steps
