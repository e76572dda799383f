import Mathlib.Order.Nat
import Residctl.Lib.Runs

/-!
# Runs that come to an end

Some of the allowed steps of a machine do work, the others may be taken as often as one
likes. A ranking bounds the work that is left: no allowed step raises it and a step that works
lowers it (`Ranking.bounded`). When moreover every state short of the goal has a run with
a step that works, the goal is reached (`Ranking.reaches`).
-/

namespace Runs

variable {S A : Type*}

/-- A run of allowed steps from `s` to `s'`, `k` of which work. -/
inductive Work (M : Machine S A) (ok : A → S → Prop) (works : A → S → S → Prop) (s : S) :
    ℕ → S → Prop
  | refl : Work M ok works s 0 s
  | rest {k s' s'' a} (hrun : Work M ok works s k s') (hok : ok a s')
      (hstep : M.step a s' = some s'') (hworks : ¬ works a s' s'') : Work M ok works s k s''
  | work {k s' s'' a} (hrun : Work M ok works s k s') (hok : ok a s')
      (hstep : M.step a s' = some s'') (hworks : works a s' s'') : Work M ok works s (k + 1) s''

variable {M : Machine S A} {ok : A → S → Prop} {works : A → S → S → Prop} {I goal : S → Prop}
  {rank : S → ℕ} {s s' s'' : S} {a : A} {k l : ℕ}

theorem Work.trans (h : Work M ok works s k s') (h' : Work M ok works s' l s'') :
    Work M ok works s (k + l) s'' := by
  induction h' with
  | refl => exact h
  | rest _ hok hstep hworks ih => exact ih.rest hok hstep hworks
  | work _ hok hstep hworks ih => exact ih.work hok hstep hworks

/-- One step more, whether it works or not. -/
theorem Work.step (h : Work M ok works s k s') (hok : ok a s') (hstep : M.step a s' = some s'') :
    ∃ l, k ≤ l ∧ Work M ok works s l s'' := by
  by_cases hworks : works a s' s''
  · exact ⟨k + 1, Nat.le_succ k, h.work hok hstep hworks⟩
  · exact ⟨k, le_refl k, h.rest hok hstep hworks⟩

theorem Work.invariant (h : Work M ok works s k s')
    (hkeep : ∀ a s s', I s → ok a s → M.step a s = some s' → I s') (hs : I s) : I s' := by
  induction h with
  | refl => exact hs
  | rest _ hok hstep _ ih => exact hkeep _ _ _ ih hok hstep
  | work _ hok hstep _ ih => exact hkeep _ _ _ ih hok hstep

/-- `rank` bounds the work that is left in the states of `I`. -/
structure Ranking (M : Machine S A) (ok : A → S → Prop) (works : A → S → S → Prop) (I : S → Prop)
    (rank : S → ℕ) : Prop where
  keep : ∀ a s s', I s → ok a s → M.step a s = some s' → I s'
  rest : ∀ a s s', I s → ok a s → M.step a s = some s' → rank s' ≤ rank s
  work : ∀ a s s', I s → ok a s → M.step a s = some s' → works a s s' → rank s' < rank s

theorem Ranking.bounded (h : Ranking M ok works I rank) (hs : I s) (hrun : Work M ok works s k s') :
    k + rank s' ≤ rank s := by
  induction hrun with
  | refl => exact (Nat.zero_add _).le
  | rest hrun hok hstep _ ih =>
    have hle := h.rest _ _ _ (hrun.invariant h.keep hs) hok hstep
    omega
  | work hrun hok hstep hworks ih =>
    have hlt := h.work _ _ _ (hrun.invariant h.keep hs) hok hstep hworks
    omega

/-- Work that can always be done leads to the goal. -/
theorem Ranking.reaches (h : Ranking M ok works I rank)
    (hprogress : ∀ s, I s → goal s ∨ ∃ k s', Work M ok works s (k + 1) s') (hs : I s) :
    ∃ k s', Work M ok works s k s' ∧ goal s' := by
  induction hr : rank s using Nat.strong_induction_on generalizing s with
  | _ r ih =>
    rcases hprogress s hs with hgoal | ⟨k, s₁, hrun⟩
    · exact ⟨0, s, Work.refl, hgoal⟩
    · have hlt := h.bounded hs hrun
      rcases ih (rank s₁) (by omega) (hrun.invariant h.keep hs) rfl with ⟨l, s₂, hrest, hgoal⟩
      exact ⟨_, s₂, hrun.trans hrest, hgoal⟩

end Runs
