import Residctl.SyncSound

/-!
# No policy on a cyclic scan

`replay_cyclic` with the policy `default`: the budget code then evicts the first chunk that it can.
In the first pass that makes it a queue. From then on one slot goes from chunk to chunk, while
the last chunks stay where they are (`scanResident`).
-/

namespace Residctl

open Cyclic
open Pager (Shipped)

variable {n : ℕ} {σ : Type} {cfg : Config n σ} {R D : Finset (Fin n)} {s : SyncState n σ}
  {c v : Fin n} {L k t : ℕ} {clock : ℕ → ℕ}

/-! ## The first victim -/

theorem defaultSelectVictim_least {chunks : Chunks n} (h : defaultSelectVictim chunks = some v) :
    ∀ d, (chunks d).Evictable → v ≤ d := by
  rcases List.find?_eq_some_iff_append.1 h with ⟨-, before, after, hlist, hbefore⟩
  intro d hd
  have hsorted := List.pairwise_lt_finRange n
  have hmem := List.mem_finRange d
  rw [hlist] at hsorted hmem
  rcases List.mem_append.1 hmem with hd' | hd'
  · have := hbefore d hd'
    simp [hd] at this
  rcases List.mem_cons.1 hd' with rfl | hd'
  · exact le_rfl
  · exact (List.rel_of_pairwise_cons (List.pairwise_append.1 hsorted).2.1 hd').le

/-- With chunks of one length at most one chunk is evicted, the first one. -/
theorem Evicted.default (h : Evicted cfg c R D) (hpolicy : cfg.policy = none)
    (hlen : ∀ c, cfg.table.len c = L) (hL : 0 < L) (hR : R.card ≤ cfg.budgetBytes / L) :
    D = R ∨ R.card = cfg.budgetBytes / L ∧ ∃ m, IsLeast (R : Set (Fin n)) m ∧ D = R.erase m := by
  induction h with
  | stop => exact Or.inl rfl
  | @evict D s v hD hover hsel _ ih =>
    have hfull : cfg.budgetBytes / L ≤ D.card := by
      simp only [hlen, Finset.sum_const, smul_eq_mul] at hover
      rw [← Nat.add_one_mul] at hover
      exact Nat.le_of_lt_succ ((Nat.div_lt_iff_lt_mul hL).2 hover)
    have hdefault : defaultSelectVictim s.region.chunks = some v := by
      rw [Config.selectVictim, hpolicy] at hsel
      exact hsel
    rcases ih with rfl | ⟨hcard, m, hm, rfl⟩
    · refine Or.inr ⟨le_antisymm hR hfull, v, ⟨?_, fun d hd => ?_⟩, rfl⟩
      · exact (hD.evictable_iff v).1 (defaultSelectVictim_evictable hdefault)
      · exact defaultSelectVictim_least hdefault d ((hD.evictable_iff d).2 hd)
    · -- after one eviction there is room
      have hpos := Finset.card_pos.2 ⟨m, hm.1⟩
      rw [Finset.card_erase_of_mem hm.1] at hfull
      omega

/-! ## The scan -/

/-- The chunk in the slot that moves, before reference `i` of a pass. -/
def slotChunk (n k i : ℕ) : ℕ := if i = 0 then n - k else min (i - 1) (n - k)

/-- What is resident after `t` references of the scan, when `k` chunks fit. -/
def scanResident (n k t : ℕ) : Finset (Fin n) :=
  Finset.univ.filter fun c =>
    if t < n then c.1 < t ∧ t ≤ c.1 + k else n < c.1 + k ∨ c.1 = slotChunk n k (t % n)

/-- The faults of a pass after the first. -/
def passFaults (n k : ℕ) : ℕ := if n ≤ k then 0 else n - k + 1

/-- The faults of the first `t` references. -/
def scanFaults (n k t : ℕ) : ℕ := min t n + stutter (passFaults n k) n (t - n)

theorem mem_scanResident : c ∈ scanResident n k t ↔
    if t < n then c.1 < t ∧ t ≤ c.1 + k else n < c.1 + k ∨ c.1 = slotChunk n k (t % n) := by
  rw [scanResident, Finset.mem_filter, and_iff_right (Finset.mem_univ c)]

theorem slotChunk_succ (hn : 0 < n) (hk : 0 < k) (t : ℕ) :
    slotChunk n k ((t + 1) % n) = min (t % n) (n - k) := by
  have hlt := Nat.mod_lt t hn
  rw [← Nat.mod_add_mod]
  by_cases hlast : t % n + 1 = n
  · rw [hlast, Nat.mod_self, slotChunk, if_pos rfl]
    omega
  · rw [Nat.mod_eq_of_lt (by omega), slotChunk, if_neg (Nat.succ_ne_zero _), Nat.add_sub_cancel]

/-- In a pass after the first, the references before the last chunks fault. -/
theorem scan_hit_iff (hc : c.1 = t % n) :
    c ∈ scanResident n k t ↔ n ≤ t ∧ passFaults n k ≤ t % n := by
  have hlt := c.2
  rw [mem_scanResident, passFaults, slotChunk]
  by_cases ht : t < n
  · rw [Nat.mod_eq_of_lt ht] at *
    rw [if_pos ht]
    omega
  · rw [if_neg ht]
    split_ifs <;> omega

theorem scanFaults_succ (hk : 0 < k) (hc : c.1 = t % n) :
    scanFaults n k (t + 1) = scanFaults n k t + if c ∈ scanResident n k t then 0 else 1 := by
  have hn : 0 < n := Nat.zero_lt_of_lt c.2
  have hle : passFaults n k ≤ n := by
    rw [passFaults]
    split_ifs <;> omega
  simp only [scanFaults, scan_hit_iff hc]
  by_cases ht : t < n
  · have hnow : t - n = 0 := by omega
    have hnext : t + 1 - n = 0 := by omega
    rw [hnow, hnext, if_neg (by omega)]
    omega
  · have hnext : t + 1 - n = t - n + 1 := by omega
    have hmod : (t - n) % n = t % n := (Nat.mod_eq_sub_mod (by omega)).symm
    rw [hnext, stutter_succ hn hle, hmod]
    split_ifs <;> omega

/-- A hit changes nothing. -/
theorem scanResident_hit (hk : 0 < k) (hc : c.1 = t % n) (h : c ∈ scanResident n k t) :
    scanResident n k (t + 1) = scanResident n k t := by
  have hn : 0 < n := Nat.zero_lt_of_lt c.2
  rcases (scan_hit_iff hc).1 h with ⟨ht, hpass⟩
  have hlt := Nat.mod_lt t hn
  ext d
  have hd := d.2
  rw [mem_scanResident, mem_scanResident, if_neg (by omega), if_neg (by omega),
    slotChunk_succ hn hk, slotChunk]
  unfold passFaults at hpass
  split_ifs at hpass ⊢ <;> omega

/-- While there is room nothing is evicted. -/
theorem scanResident_fill (hk : 0 < k) (hc : c.1 = t % n) (h : c ∉ scanResident n k t)
    (hroom : min t n < k) : scanResident n k (t + 1) = insert c (scanResident n k t) := by
  have hn : 0 < n := Nat.zero_lt_of_lt c.2
  rw [scan_hit_iff hc, passFaults] at h
  have ht : t < n := by
    by_contra ht
    rw [if_pos (by omega)] at h
    omega
  ext d
  have hd := d.2
  rw [Nat.mod_eq_of_lt ht] at hc
  rw [Finset.mem_insert, mem_scanResident, mem_scanResident, if_pos ht,
    slotChunk_succ hn hk, Nat.mod_eq_of_lt ht, Fin.ext_iff]
  split_ifs <;> omega

/-- Then the first resident chunk makes room. -/
theorem scanResident_evict (hk : 0 < k) (hc : c.1 = t % n) (h : c ∉ scanResident n k t)
    (hfull : k ≤ min t n) {m : Fin n} (hm : IsLeast (scanResident n k t : Set (Fin n)) m) :
    scanResident n k (t + 1) = insert c ((scanResident n k t).erase m) := by
  have hn : 0 < n := Nat.zero_lt_of_lt c.2
  rw [scan_hit_iff hc, passFaults] at h
  have hmem := Finset.mem_coe.1 hm.1
  by_cases ht : t < n
  · -- the oldest one
    have hold : m.1 = t - k := by
      have hle : m ≤ (⟨t - k, by omega⟩ : Fin n) :=
        hm.2 (Finset.mem_coe.2 (mem_scanResident.2 (by rw [if_pos ht]; simp only; omega)))
      rw [mem_scanResident, if_pos ht] at hmem
      have : m.1 ≤ t - k := hle
      omega
    ext d
    have hd := d.2
    rw [Nat.mod_eq_of_lt ht] at hc
    rw [Finset.mem_insert, Finset.mem_erase, mem_scanResident, mem_scanResident, if_pos ht,
      slotChunk_succ hn hk, Nat.mod_eq_of_lt ht, Fin.ext_iff, Ne, Fin.ext_iff]
    split_ifs <;> omega
  · -- the one in the slot that moves
    have hlt := Nat.mod_lt t hn
    have hslot : slotChunk n k (t % n) ≤ n - k := by
      unfold slotChunk
      split_ifs <;> omega
    have hold : m.1 = slotChunk n k (t % n) := by
      have hle : m ≤ (⟨slotChunk n k (t % n), by omega⟩ : Fin n) :=
        hm.2 (Finset.mem_coe.2 (mem_scanResident.2 (by rw [if_neg ht]; exact Or.inr rfl)))
      rw [mem_scanResident, if_neg ht] at hmem
      have : m.1 ≤ slotChunk n k (t % n) := hle
      omega
    ext d
    have hd := d.2
    rw [Finset.mem_insert, Finset.mem_erase, mem_scanResident, mem_scanResident, if_neg ht,
      if_neg (by omega), slotChunk_succ hn hk, Fin.ext_iff, Ne, Fin.ext_iff, hold, slotChunk]
    split_ifs at h ⊢ <;> omega

/-! ## The run -/

/-- The state after `t` references of the scan. -/
structure AtScan (cfg : Config n σ) (L t : ℕ) (s : SyncState n σ) : Prop where
  sound : SyncSound cfg none (scanResident n (cfg.budgetBytes / L) t) s
  card : (scanResident n (cfg.budgetBytes / L) t).card = min (min t n) (cfg.budgetBytes / L)

/-- Nothing predicts. -/
theorem noPrefetch_none (hpolicy : cfg.policy = none) : cfg.NoPrefetch := by
  refine Or.inr fun predict hpredict => ?_
  rw [hpolicy] at hpredict
  cases hpredict

section

variable (hpolicy : cfg.policy = none) (hlen : ∀ c, cfg.table.len c = L) (hL : 0 < L)
  (hB : L ≤ cfg.budgetBytes)

include hpolicy hlen hL hB in
theorem AtScan.step (clock : ℕ → ℕ) (h : AtScan cfg L t s) (hc : c.1 = t % n) :
    ∃ s', replayStep cfg clock s c = some s' ∧ AtScan cfg L (t + 1) s' ∧
      s'.region.stats.absentHandled = s.region.stats.absentHandled +
        if c ∈ scanResident n (cfg.budgetBytes / L) t then 0 else 1 := by
  have hpol : Shipped cfg.policy := hpolicy ▸ .unset
  have hk : 0 < cfg.budgetBytes / L := Nat.div_pos hB hL
  have hlt := c.2
  have hmiss := (scan_hit_iff (k := cfg.budgetBytes / L) hc).not
  rcases h.sound.step clock hpol (noPrefetch_none hpolicy) (c := c) (by rw [hlen c]; exact hB) with
    ⟨R', s', hs', hsound, hhit, hload, hcounted⟩
  refine ⟨s', hs', ?_, hcounted.absentHandled⟩
  by_cases hin : c ∈ scanResident n (cfg.budgetBytes / L) t
  · -- a hit
    have hsame := scanResident_hit hk hc hin
    have ht := ((scan_hit_iff hc).1 hin).1
    rw [hhit hin] at hsound
    refine ⟨hsame.symm ▸ hsound, ?_⟩
    rw [hsame, h.card]
    omega
  rcases hload hin with ⟨D, hev, rfl⟩
  have hcard := h.card
  have hfits := hsound.fits
  rcases hev.default hpolicy hlen hL (by omega) with rfl | ⟨hfull, m, hm, rfl⟩
  · -- there was room
    simp only [hlen, Finset.sum_const, smul_eq_mul, Finset.card_insert_of_notMem hin] at hfits
    have hroom : (scanResident n (cfg.budgetBytes / L) t).card + 1 ≤ cfg.budgetBytes / L :=
      (Nat.le_div_iff_mul_le hL).2 hfits
    have hfill := scanResident_fill hk hc hin (by omega)
    have ht : t < n := by
      have hnot := hmiss.1 hin
      rw [passFaults] at hnot
      split_ifs at hnot <;> omega
    refine ⟨hfill.symm ▸ hsound, ?_⟩
    rw [hfill, Finset.card_insert_of_notMem hin]
    omega
  · have hevict := scanResident_evict hk hc hin (by omega) hm
    refine ⟨hevict.symm ▸ hsound, ?_⟩
    rw [hevict, Finset.card_insert_of_notMem fun hc => hin (Finset.mem_of_mem_erase hc),
      Finset.card_erase_of_mem hm.1]
    have hnot := hmiss.1 hin
    rw [passFaults] at hnot
    split_ifs at hnot <;> omega

include hpolicy hlen hL hB in
theorem AtScan.run (clock : ℕ → ℕ) (refs : List (Fin n)) (h : AtScan cfg L t s)
    (hcyc : CyclicFrom n t (refs.map Fin.val)) :
    ∃ s', refs.foldlM (replayStep cfg clock) s = some s' ∧ AtScan cfg L (t + refs.length) s' ∧
      s'.region.stats.absentHandled + scanFaults n (cfg.budgetBytes / L) t =
        s.region.stats.absentHandled + scanFaults n (cfg.budgetBytes / L) (t + refs.length) := by
  induction refs generalizing t s with
  | nil => exact ⟨s, rfl, h, rfl⟩
  | cons c refs ih =>
    have hc : c.1 = t % n := hcyc 0 c.1 rfl
    rcases h.step hpolicy hlen hL hB clock hc with ⟨s₁, hs₁, h₁, hcount⟩
    rcases ih h₁ hcyc.tail with ⟨s', hs', h', hcounts⟩
    have hnext := scanFaults_succ (Nat.div_pos hB hL) hc
    have hlength : t + 1 + refs.length = t + (c :: refs).length := by
      rw [List.length_cons]
      omega
    rw [hlength] at h' hcounts
    refine ⟨s', ?_, h', by omega⟩
    rw [List.foldlM_cons, hs₁]
    exact hs'

include hpolicy hlen hL hB in
theorem AtScan.replay (p : σ) (clock : ℕ → ℕ) (nPasses : ℕ) :
    ∃ s, replayCyclic cfg clock nPasses (SyncState.init n p) = some s ∧
      AtScan cfg L (nPasses * n) s ∧
      s.region.stats.absentHandled = scanFaults n (cfg.budgetBytes / L) (nPasses * n) := by
  have hinit : AtScan cfg L 0 (SyncState.init n p) := by
    have hempty : scanResident n (cfg.budgetBytes / L) 0 = ∅ := by
      refine Finset.eq_empty_of_forall_notMem fun c hc => ?_
      have hlt := c.2
      rw [mem_scanResident, if_pos (by omega)] at hc
      exact Nat.not_lt_zero _ hc.1
    exact ⟨hempty ▸ SyncSound.init cfg p, by simp [hempty]⟩
  rcases hinit.run hpolicy hlen hL hB clock (passes n nPasses) (passes_cyclicFrom n nPasses) with
    ⟨s, hs, hat, hcount⟩
  have hlength : 0 + (passes n nPasses).length = nPasses * n := by
    simpa using congrArg List.length (passes_map_val n nPasses)
  have hzero : (SyncState.init n p).region.stats.absentHandled = 0 := rfl
  have hstart : scanFaults n (cfg.budgetBytes / L) 0 = 0 := by simp [scanFaults, stutter]
  rw [hlength] at hat hcount
  rw [hzero, hstart] at hcount
  exact ⟨s, by rw [replayCyclic_eq]; exact hs, hat, by omega⟩

end

/-- The faults of whole passes. -/
theorem scanFaults_passes (n k : ℕ) {nPasses : ℕ} (hpasses : 1 ≤ nPasses) :
    scanFaults n k (nPasses * n) = n + (nPasses - 1) * passFaults n k := by
  rcases Nat.exists_eq_add_of_le' hpasses with ⟨q, rfl⟩
  have hle : n ≤ (q + 1) * n := Nat.le_mul_of_pos_left n (Nat.succ_pos q)
  have hrest : (q + 1) * n - n = n * q + 0 := by
    rw [Nat.add_one_mul, Nat.add_sub_cancel, Nat.mul_comm, Nat.add_zero]
  rw [scanFaults, min_eq_right hle, hrest, Nat.add_sub_cancel]
  rcases Nat.eq_zero_or_pos n with rfl | hn
  · simp [stutter, passFaults]
  · rw [stutter_eq hn, Nat.zero_min, Nat.add_zero]

/-- Without a policy every reference of the first pass faults, and in each further pass the
references before the last `k - 1` chunks, when `k` of the `n` chunks fit. -/
theorem replayCyclic_default (cfg : Config n σ) (p : σ) (clock : ℕ → ℕ) (nPasses L : ℕ)
    (hpasses : 1 ≤ nPasses) (hpolicy : cfg.policy = none) (hlen : ∀ c, cfg.table.len c = L)
    (hL : 0 < L) (hB : L ≤ cfg.budgetBytes) :
    ∃ s, replayCyclic cfg clock nPasses (SyncState.init n p) = some s ∧
      s.region.stats.absentHandled = n + (nPasses - 1) *
        if n ≤ cfg.budgetBytes / L then 0 else n - cfg.budgetBytes / L + 1 := by
  rcases AtScan.replay hpolicy hlen hL hB p clock nPasses with ⟨s, hs, -, hcount⟩
  rw [scanFaults_passes n _ hpasses, passFaults] at hcount
  exact ⟨s, hs, hcount⟩

/-- Five pages and a budget of three. -/
def fivePages : Config 5 Unit where
  table := {
    regionOff := fun c => c.1 * 4096
    len := fun _ => 4096
    regionLen := 20480
    len_pos := by decide
    aligned := by decide
    regionOff_eq := by decide
    regionLen_eq := by decide
    regionLen_lt := by decide }
  registered := by decide
  truncated := by decide
  budgetBytes := 12288
  reconcileInterval := 16
  policy := none
  asyncHandler := false
  pool := false
  workers := 0
  prefetchEnabled := false
  prefetchDepth := 1
  prefetchAdmissionAlways := false
  prefetchRetentionPinned := true
  fetchingTimeoutMs := 0
  modelFileSize := 0
  fileByte := fun _ => 0

theorem replayCyclic_default_fivePages :
    ∃ s, replayCyclic fivePages (fun _ => 0) 4 (SyncState.init 5 ()) = some s ∧
      s.region.stats.absentHandled = 5 + 3 * 3 :=
  replayCyclic_default fivePages () (fun _ => 0) 4 4096 (by decide) rfl (fun _ => rfl) (by decide)
    (by decide)

end Residctl
