import Mathlib.Algebra.BigOperators.Intervals
import Residctl.Lookahead

/-!
# The threaded driver ends

Every step of a thread uses up some of the remaining work. A mark that completes a step
wakes the sleepers, who look at their condition once more; the work of a mark includes a
step for each of them. So the number of steps is bounded, spurious wake-ups apart, and as some
thread is never blocked (`State.Inv.exists_unblocked`) the driver stops only when all have ended.
-/

namespace Residctl.Replay

open Runs Steps Function

variable {n : ℕ} {a : Args n} {s s' : State a} {t u : Fin a.nThreads} {k : ℕ} {p : Pc}

/-- More than the steps that a thread takes from the head of round `k` on; a completing
mark pays for the threads that it wakes. -/
def Args.rest (a : Args n) (k : ℕ) : ℕ :=
  1 + ∑ j ∈ Finset.Ico k a.totalSteps, (a.len j + a.nThreads + 12)

/-- The steps that a thread at `p` has left, each wake-up counted where it is caused. -/
def Pc.cost (a : Args n) : Pc → ℕ
  | .waitToStart k => a.rest k
  | .asleepToStart k => a.rest k - 1
  | .signal k .entered => a.rest (k + 1) + a.len k + a.nThreads + 10
  | .signal k .accessed => a.rest (k + 1) + a.len k + a.nThreads + 9
  | .read k off _ _ => a.rest (k + 1) + (a.len k - off) + a.nThreads + 8
  | .compute k _ => a.rest (k + 1) + a.nThreads + 7
  | .markDone k => a.rest (k + 1) + a.nThreads + 6
  | .notify k .entered => a.rest (k + 1) + 5
  | .notify k .accessed => a.rest (k + 1) + 4
  | .waitFull k => a.rest (k + 1) + 3
  | .asleepFull k => a.rest (k + 1) + 2
  | .record k => a.rest (k + 1) + 1
  | .done => 0

def State.cost (s : State a) : ℕ := ∑ t, (s.pc t).cost a

theorem Args.rest_eq (hk : k < a.totalSteps) :
    a.rest k = a.rest (k + 1) + a.len k + a.nThreads + 12 := by
  rw [Args.rest, Args.rest, Finset.sum_eq_sum_Ico_succ_bot hk]
  omega

theorem Pc.cost_woken_le (a : Args n) (p : Pc) : p.woken.cost a ≤ p.cost a + 1 := by
  have hrest : ∀ k, a.rest k ≤ a.rest k - 1 + 1 := fun k => by omega
  cases p with
  | asleepToStart k => exact hrest k
  | asleepFull k => exact le_rfl
  | _ => exact Nat.le_succ _

/-- A thread that moves on has less to do, and the others are as they were. -/
theorem State.goto_cost_lt {s₁ : State a} (hs₁ : s₁.pc = s.pc)
    (h : p.cost a < (s.pc t).cost a) : (s₁.goto t p).cost < s.cost := by
  refine Finset.sum_lt_sum (fun u _ => ?_) ⟨t, Finset.mem_univ t, ?_⟩
  · show (update s₁.pc t p u).cost a ≤ _
    by_cases hu : u = t
    · rw [hu, update_self]
      exact h.le
    · rw [update_of_ne hu, hs₁]
  · show (update s₁.pc t p t).cost a < _
    rwa [update_self]

theorem State.cost_afterMark_le (t : Fin a.nThreads) (k : ℕ) :
    (State.afterMark t k).cost a ≤ a.rest (k + 1) + 3 := by
  unfold State.afterMark
  split
  · exact le_rfl
  · exact Nat.le_add_right _ _

theorem State.cost_afterComplete_le (t : Fin a.nThreads) (k : ℕ) :
    (State.afterComplete t k).cost a ≤ a.rest (k + 1) + 5 := by
  unfold State.afterComplete
  split
  · exact le_rfl
  · exact (State.cost_afterMark_le t k).trans (by omega)

/-- The mark that completes a step has kept a step for everyone it may wake. -/
theorem State.mark_cost_lt (hpc : s.pc t = .markDone k) : (s.mark t k).cost < s.cost := by
  have hat : (s.pc t).cost a = a.rest (k + 1) + a.nThreads + 6 := by rw [hpc]; rfl
  have hone : ((s.mark t k).pc t).cost a ≤ a.rest (k + 1) + 5 := by
    by_cases hlast : s.completed k + 1 = a.nThreads
    · rw [State.mark_pc_of_last hlast, update_self]
      exact State.cost_afterComplete_le t k
    · rw [State.mark_pc_of_not_last hlast, update_self]
      exact (State.cost_afterMark_le t k).trans (by omega)
  have hother : ∀ u, u ≠ t → ((s.mark t k).pc u).cost a ≤ (s.pc u).cost a + 1 := by
    intro u hu
    by_cases hlast : s.completed k + 1 = a.nThreads
    · rw [State.mark_pc_of_last hlast, update_of_ne hu]
      exact Pc.cost_woken_le a _
    · rw [State.mark_pc_of_not_last hlast, update_of_ne hu]
      exact Nat.le_succ _
  have hrest : ∑ u ∈ Finset.univ.erase t, ((s.mark t k).pc u).cost a ≤
      ∑ u ∈ Finset.univ.erase t, (s.pc u).cost a + (a.nThreads - 1) := by
    have hcard : (Finset.univ.erase t).card = a.nThreads - 1 := by
      rw [Finset.card_erase_of_mem (Finset.mem_univ t), Finset.card_univ, Fintype.card_fin]
    calc ∑ u ∈ Finset.univ.erase t, ((s.mark t k).pc u).cost a
        ≤ ∑ u ∈ Finset.univ.erase t, ((s.pc u).cost a + 1) :=
          Finset.sum_le_sum fun u hu => hother u (Finset.ne_of_mem_erase hu)
      _ = ∑ u ∈ Finset.univ.erase t, (s.pc u).cost a + (a.nThreads - 1) := by
          rw [Finset.sum_add_distrib, Finset.sum_const, smul_eq_mul, mul_one, hcard]
  unfold State.cost
  rw [← Finset.add_sum_erase _ _ (Finset.mem_univ t), ← Finset.add_sum_erase _ _ (Finset.mem_univ t)]
  omega

/-- Every step of a thread uses up some of the remaining work. -/
theorem State.exec_cost_lt (hs : s.exec t = some s') : s'.cost < s.cost := by
  obtain ⟨p, hpc, hbranch⟩ := State.exec_branch hs
  cases hbranch with
  | signalFirst hlt _ _ | start hlt _ =>
    refine State.goto_cost_lt rfl ?_
    rw [hpc]
    show _ < a.rest _
    rw [Args.rest_eq hlt]
    exact Nat.add_lt_add_left (by decide) _
  | @sleepToStart k _ _ =>
    refine State.goto_cost_lt rfl ?_
    rw [hpc]
    show a.rest k - 1 < a.rest k
    unfold Args.rest
    omega
  | @ended k _ =>
    refine State.goto_cost_lt rfl ?_
    rw [hpc]
    show 0 < a.rest k
    unfold Args.rest
    omega
  | access | release | notifyAccess | full _ | sleepFull _ =>
    refine State.goto_cost_lt rfl ?_
    rw [hpc]
    exact Nat.add_lt_add_left (by decide) _
  | @readPage k off pageIdx myBytes hoff =>
    have hless : a.len k - (off + RESIDCTL_ALIGN) < a.len k - off := by
      unfold RESIDCTL_ALIGN
      omega
    unfold State.readPage
    split
    · refine State.goto_cost_lt rfl ?_
      rw [hpc]
      simp only [Pc.cost]
      omega
    · refine State.goto_cost_lt rfl ?_
      rw [hpc]
      simp only [Pc.cost]
      omega
  | readDone _ =>
    refine State.goto_cost_lt rfl ?_
    rw [hpc]
    simp only [Pc.cost]
    omega
  | compute =>
    refine State.goto_cost_lt ?_ ?_
    · unfold State.computeBusy
      split <;> rfl
    · rw [hpc]
      exact Nat.add_lt_add_left (by decide) _
  | markDone => exact State.mark_cost_lt hpc
  | notifyRelease =>
    refine State.goto_cost_lt rfl ?_
    rw [hpc]
    exact (State.cost_afterMark_le t _).trans_lt (Nat.add_lt_add_left (by decide) _)
  | record =>
    refine State.goto_cost_lt ?_ ?_
    · unfold State.recordRef
      dsimp only
      split <;> rfl
    · rw [hpc]
      exact Nat.lt_succ_self _

/-- Without spurious wake-ups no run is longer than the work at its start. -/
theorem run_length_le (ts : List (Fin a.nThreads))
    (h : run (driver a) (ts.map Action.step) s = some s') : ts.length + s'.cost ≤ s.cost := by
  induction ts generalizing s with
  | nil =>
    cases h
    simp
  | cons t ts ih =>
    rcases Option.bind_eq_some_iff.1 h with ⟨s₁, hs₁, hrest⟩
    have hlt := State.exec_cost_lt hs₁
    have hle := ih hrest
    rw [List.length_cons]
    omega

/-- Every run can be continued until all threads are joined; by `run_length_le` it gets
there whatever the order of the steps. -/
theorem exists_joined (hs : Reachable (driver a) s) :
    ∃ (ts : List (Fin a.nThreads)) (s' : State a),
      run (driver a) (ts.map Action.step) s = some s' ∧ s'.Joined := by
  induction hcost : s.cost using Nat.strongRecOn generalizing s with
  | _ m ih =>
    by_cases hjoined : s.Joined
    · exact ⟨[], s, rfl, hjoined⟩
    · unfold State.Joined at hjoined
      push Not at hjoined
      obtain ⟨t₀, ht₀⟩ := hjoined
      obtain ⟨t, hend, hblocked⟩ := (reachable_inv hs).exists_unblocked ht₀
      obtain ⟨s₁, hs₁⟩ := Option.isSome_iff_exists.1 (State.exec_isSome hend hblocked)
      have hlt := State.exec_cost_lt hs₁
      have hreach : Reachable (driver a) s₁ := Reach.step hs trivial (a := Action.step t) hs₁
      obtain ⟨ts, s', hrun, hjoin⟩ := ih s₁.cost (hcost ▸ hlt) hreach rfl
      refine ⟨t :: ts, s', ?_, hjoin⟩
      show (s.exec t).bind (run (driver a) (ts.map Action.step)) = some s'
      rw [hs₁]
      exact hrun

end Residctl.Replay
