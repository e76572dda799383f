import Residctl.CyclicFloor
import Residctl.DefaultReplay
import Residctl.Lib.CyclicMin

/-!
# The solver and the replay on a cyclic scan

The exact number of misses that `belady_simulate` reports for a scan, at every capacity. It is
also what `layer_order_declared` fetches under `replay_cyclic`, and without a policy the replay
fetches at most one chunk more in each pass after the first.
-/

namespace Residctl

open Paging Cyclic Function

namespace Belady

variable {ref : List ℕ} {n nPasses : ℕ}

theorem scanFrom_passes (n nPasses : ℕ) : ScanFrom n 0 ((List.range (nPasses * n)).map (· % n)) := by
  intro i x hx
  rw [List.getElem?_map] at hx
  rcases Option.map_eq_some_iff.1 hx with ⟨j, hj, rfl⟩
  rcases List.getElem?_eq_some_iff.1 hj with ⟨hi, hj⟩
  rw [List.getElem_range] at hj
  rw [Nat.zero_add, hj]

/-- A scan is the scan in file order under other names. -/
theorem CyclicScan.rename (h : CyclicScan ref n nPasses) :
    ∃ f : ℕ → ℕ, Injective f ∧ ref = ((List.range (nPasses * n)).map (· % n)).map f := by
  rcases h with ⟨hn, hpasses, perm, hperm, rfl⟩
  have hlength : perm.length = n := hperm.length_eq.trans List.length_range
  have hin : ∀ i < n, ∃ hi : i < perm.length, perm.getD i i = perm[i] ∧ perm[i] < n := by
    intro i hi
    have hi' : i < perm.length := by omega
    refine ⟨hi', List.getD_eq_getElem _ _ hi', ?_⟩
    exact List.mem_range.1 (hperm.mem_iff.1 (List.getElem_mem hi'))
  have hout : ∀ i, n ≤ i → perm.getD i i = i :=
    fun i hi => List.getD_eq_default _ _ (hlength.le.trans hi)
  refine ⟨fun i => perm.getD i i, fun i j hij => ?_, List.ext_getElem? fun i => ?_⟩
  · simp only at hij
    rcases Nat.lt_or_ge i n with hi | hi
    · rcases hin i hi with ⟨hi', hgeti, hlti⟩
      rcases Nat.lt_or_ge j n with hj | hj
      · rcases hin j hj with ⟨hj', hgetj, -⟩
        rw [hgeti, hgetj] at hij
        exact (hperm.nodup_iff.2 List.nodup_range).getElem_inj_iff.1 hij
      · rw [hgeti, hout j hj] at hij
        omega
    · rcases Nat.lt_or_ge j n with hj | hj
      · rcases hin j hj with ⟨hj', hgetj, hltj⟩
        rw [hout i hi, hgetj] at hij
        omega
      · rwa [hout i hi, hout j hj] at hij
  · rw [List.getElem?_map, List.getElem?_map]
    rcases Nat.lt_or_ge i (nPasses * n) with hi | hi
    · rcases hin (i % n) (Nat.mod_lt i hn) with ⟨hi', hget, -⟩
      rw [getElem?_flatten_replicate _ (by rwa [hlength]), hlength, List.getElem?_range hi,
        List.getElem?_eq_getElem hi', Option.map_some, Option.map_some, hget]
    · rw [List.getElem?_eq_none (by simpa [hlength] using hi),
        List.getElem?_eq_none (by simpa using hi)]
      rfl

/-- The cost of the furthest-in-future rule on a scan. -/
theorem CyclicScan.furthest (h : CyclicScan ref n nPasses) (k : ℕ) :
    Furthest k ∅ ref (scanOptimum n k (nPasses * n)) := by
  have hn : 0 < n := h.1
  rcases h.rename with ⟨f, hf, rfl⟩
  have hscan := (Furthest.of_scan hn k (scanFrom_passes n nPasses)).map hf
  rwa [Finset.image_empty, List.length_map, List.length_range] at hscan

/-- What the solver reports for a scan, at every capacity. -/
theorem beladySimulate_scan (h : CyclicScan ref n nPasses) (hn : n < 2 ^ 32)
    (hlen : ref.length < 2 ^ 64) (k : ℕ) :
    ∃ r, beladySimulate ref k = some r ∧ r.misses = scanOptimum n k (nPasses * n) := by
  have hids : ∀ c ∈ ref, c < 2 ^ 32 - 1 := by
    intro c hc
    have := (h.mem_iff c).1 hc
    omega
  rcases beladySimulate_furthest k hids hlen with ⟨r, hr, hfur⟩
  exact ⟨r, hr, hfur.cost_unique (h.furthest k)⟩

theorem beladySimulate_scan_reversed : ∃ r,
    beladySimulate (List.replicate 3 [5, 4, 3, 2, 1, 0]).flatten 4 = some r ∧ r.misses = 10 := by
  have hscan : CyclicScan (List.replicate 3 [5, 4, 3, 2, 1, 0]).flatten 6 3 :=
    ⟨by decide, by decide, [5, 4, 3, 2, 1, 0], by decide, rfl⟩
  exact beladySimulate_scan hscan (by decide) (by decide) 4

end Belady

/-! ## The replay -/

variable {n : ℕ} {σ : Type}

theorem passes_scan {nPasses : ℕ} (hn : 0 < n) (hpasses : 1 ≤ nPasses) :
    Belady.CyclicScan ((passes n nPasses).map Fin.val) n nPasses := by
  refine ⟨hn, hpasses, List.range n, .refl _, ?_⟩
  rw [passes, List.map_flatMap, List.map_coe_finRange_eq_range, List.flatMap_def, List.map_const',
    List.length_range]

/-- What `layer_order_declared` fetches, in closed form. -/
theorem replayCyclic_declared (cfg : Config n LoDeclared) (pre : Bool) (clock : ℕ → ℕ)
    (nPasses L : ℕ) (hn : 0 < n) (hn32 : n < 2 ^ 32) (hpasses : 1 ≤ nPasses) (hL : 0 < L)
    (hB : L ≤ cfg.budgetBytes) (hlen : ∀ c, cfg.table.len c = L)
    (hpolicy : cfg.policy = some (policyLayerOrderDeclared n ⟨false, pre⟩))
    (hpf : cfg.NoPrefetch) :
    ∃ s, replayCyclic cfg clock nPasses (SyncState.init n
        (loDeclaredDeclareSequence (loDeclaredInit n) (List.range n))) = some s ∧
      s.region.stats.absentHandled = scanOptimum n (cfg.budgetBytes / L) (nPasses * n) := by
  rcases replay_spec hlen hpolicy hpf clock hn32 hL hB (passes n nPasses) SyncState.init_inv
    (passes_cyclicFrom n nPasses) with ⟨s, m, hs, -, hcount, hrun⟩
  have hm := hrun.cost_unique ((passes_scan hn hpasses).furthest (cfg.budgetBytes / L))
  refine ⟨s, by rw [replayCyclic_eq]; exact hs, ?_⟩
  rw [hcount, ← hm]
  exact Nat.zero_add m

theorem replayCyclic_declared_threePages :
    ∃ s, replayCyclic threePages (fun _ => 0) 4 (SyncState.init 3
        (loDeclaredDeclareSequence (loDeclaredInit 3) (List.range 3))) = some s ∧
      s.region.stats.absentHandled = 7 :=
  replayCyclic_declared threePages true (fun _ => 0) 4 4096 (by decide) (by decide) (by decide)
    (by decide) (by decide) (by decide) rfl (Or.inl rfl)

/-- Without a policy a replay fetches at most one chunk in each pass after the first that the
optimum does not. -/
theorem replayCyclic_default_near (cfg : Config n σ) (p : σ) (clock : ℕ → ℕ) (nPasses L : ℕ)
    (hn : 0 < n) (hn32 : n < 2 ^ 32) (hpasses : 1 ≤ nPasses) (hlong : nPasses * n < 2 ^ 64)
    (hpolicy : cfg.policy = none) (hlen : ∀ c, cfg.table.len c = L) (hL : 0 < L)
    (hB : L ≤ cfg.budgetBytes) (hslots : cfg.budgetBytes / L < 2 ^ 32) :
    ∃ s r, replayCyclic cfg clock nPasses (SyncState.init n p) = some s ∧
      Belady.beladySimulate s.refTrace (Belady.slots cfg.budgetBytes L) = some r ∧
      r.misses ≤ s.region.stats.absentHandled ∧
      s.region.stats.absentHandled ≤ r.misses + (nPasses - 1) := by
  have hpol : Pager.Shipped cfg.policy := hpolicy ▸ .unset
  rcases AtScan.replay hpolicy hlen hL hB p clock nPasses with ⟨s, hs, -, hcount⟩
  have hresult := replayCyclic_some hpol (noPrefetch_none hpolicy) hs
  have hscan : Belady.CyclicScan s.refTrace n nPasses := by
    rw [hresult.refTrace]
    exact passes_scan hn hpasses
  have hids : ∀ c ∈ s.refTrace, c < 2 ^ 32 - 1 := by
    intro c hc
    have := (hscan.mem_iff c).1 hc
    omega
  rcases Belady.beladySimulate_furthest (cfg.budgetBytes / L) hids (by rw [hscan.length]; exact hlong)
    with ⟨r, hr, hfur⟩
  refine ⟨s, r, hs, (Belady.slots_of_lt hslots).symm ▸ hr, ?_, ?_⟩
  · have hslots := hresult.slots hL hlen
    rw [← hresult.refTrace] at hslots
    exact greedy_le (hfur.greedy (by simp)) hslots
  · -- each pass of any schedule loads what does not fit beside the rest
    have hfloor := hscan.misses_le hfur.isLeast.1
    have hle : passFaults n (cfg.budgetBytes / L) ≤ n - cfg.budgetBytes / L + 1 := by
      rw [passFaults]
      split_ifs <;> omega
    have hmul := Nat.mul_le_mul_left (nPasses - 1) hle
    rw [hcount, scanFaults_passes n _ hpasses]
    rw [Nat.mul_add, Nat.mul_one] at hmul
    omega

theorem replayCyclic_default_near_fivePages :
    ∃ s r, replayCyclic fivePages (fun _ => 0) 4 (SyncState.init 5 ()) = some s ∧
      Belady.beladySimulate s.refTrace (Belady.slots 12288 4096) = some r ∧
      r.misses ≤ s.region.stats.absentHandled ∧
      s.region.stats.absentHandled ≤ r.misses + 3 :=
  replayCyclic_default_near fivePages () (fun _ => 0) 4 4096 (by decide) (by decide) (by decide)
    (by decide) rfl (fun _ => rfl) (by decide) (by decide) (by decide)

end Residctl
