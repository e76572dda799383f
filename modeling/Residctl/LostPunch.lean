import Residctl.Reconcile

/-!
# Hole punches that free nothing

`reconcile` runs right after each eviction. Were the punch lost, the pages of the victim would
stay while its bytes leave `resident_bytes`: `memory.stat[shmem]` is then too high by the
length of the victim. The check lets the first chunk's length pass, and what is reserved.
-/

namespace Residctl

open Ledger

variable {n : ℕ} {σ : Type}

/-! ## The reconciliation after the eviction -/

/-- The reserved bytes that no fetch has populated yet. -/
def Config.unpopulatedBytes (cfg : Config n σ) (r : Region n σ) (A : ℕ → Bool) : ℕ :=
  r.residentBytes + r.reservedBytes - cfg.memfdBytes A

section

variable {cfg : Config n σ} {r : Region n σ} {counted fetching : Fin n → Prop}
  [DecidablePred counted] [DecidablePred fetching] {A : ℕ → Bool} {v : Fin n}

/-- The checks after the victim's bytes are gone from `resident_bytes`, its pages still there. -/
theorem Exact.reconcileOk_evictBody (h : Exact cfg r counted fetching A)
    (hv : (r.chunks v).state = .resident) :
    reconcileOk cfg (evictBody cfg r v) (cfg.memfdBytes A) ↔
      cfg.table.len v ≤ cfg.reconcileThreshold + cfg.unpopulatedBytes r A := by
  have hsmall := h.small
  have hlen := h.len_le hv
  have hthr := cfg.reconcileThreshold_lt
  obtain ⟨hlo, hhi⟩ := h.memfdBytes_mem
  have hbytes : (evictBody cfg r v).residentBytes = r.residentBytes - cfg.table.len v :=
    sub64_of_le hlen (by omega)
  have hkept : (evictBody cfg r v).reservedBytes = r.reservedBytes := rfl
  unfold reconcileOk Config.unpopulatedBytes
  rw [hbytes, hkept, wrap64_of_lt (by omega), wrap64_of_lt (v := _ + r.reservedBytes) (by omega),
    wrap64_of_lt (by omega)]
  omega

end

namespace Pager

open Mutex Runs

/-- `evict_chunk` with a punch that reports success and frees nothing. -/
def evictChunkLost (cfg : Config n σ) (sh : Shared n σ) (v : Fin n) : Shared n σ :=
  sh.setRegion (evictBody cfg sh.region v)

section

variable {cfg : Config n σ} {sh : Shared n σ} {s : State n σ} {counted fetching : Fin n → Prop}
  [DecidablePred counted] [DecidablePred fetching] {A : ℕ → Bool} {v : Fin n} {t : Tid}
  {io : Input n} {j : Job n} {a : ℕ}

/-- The punch is all that is lost. -/
theorem evictChunkLost_setKernel (cfg : Config n σ) (sh : Shared n σ) (v : Fin n) :
    evictChunk cfg sh v = (evictChunkLost cfg sh v).setKernel
      (sh.kernel.punch (cfg.table.regionOff v) (cfg.table.len v)) := rfl

theorem Config.reconcileThreshold_eq (cfg : Config n σ) (v : Fin n) :
    cfg.reconcileThreshold = cfg.table.len ⟨0, v.pos⟩ := dif_pos v.pos

/-- With exact accounting before the call, the reconciliation after a lost punch aborts if and
only if the victim is longer than the first chunk and the reserved bytes that are not populated. -/
theorem lostPunch_aborts_iff (h : Exact cfg sh.region counted fetching A)
    (hv : (sh.region.chunks v).Evictable) (hshmem : io.shmem = knownOverheadBytes + cfg.memfdBytes A) :
    exec cfg t io (evictChunkLost cfg sh v) (.job j (.reconcile a)) = .abort ↔
      cfg.table.len ⟨0, v.pos⟩ + cfg.unpopulatedBytes sh.region A < cfg.table.len v := by
  have hbytes : io.shmem = cfg.memfdBytes A := hshmem.trans (Nat.zero_add _)
  have hiff := h.reconcileOk_evictBody hv.1
  rw [Config.reconcileThreshold_eq cfg v, ← hbytes] at hiff
  rw [← Nat.not_le, ← hiff]
  by_cases hok : reconcileOk cfg (evictBody cfg sh.region v) io.shmem
  · have hpass : reconcileOk cfg (evictChunkLost cfg sh v).region io.shmem := hok
    simp [exec, execJob, hpass, hok]
  · have hfail : ¬ reconcileOk cfg (evictChunkLost cfg sh v).region io.shmem := hok
    simp [exec, execJob, hfail, hok]

/-- The accounting of a run is exact whenever its fetches populate their own chunks. -/
theorem Reach.exact {p : σ} (h : Reach (pager cfg p) (Confined cfg) s) :
    Exact cfg s.sh.region (s.sh.life s.role).Counted (fun c => (s.role c).Reserves)
      s.sh.kernel.alloc :=
  (Reach.populated h).exact (Reach.sound h) (Reach.backed h) fun _ _ => rfl

end

theorem shortHead_regionOff (c : Fin 2) : 4096 * c.1 = ∑ i : Fin c, (4096 + 4096 * i.1) := by
  revert c
  decide

theorem three_pages_fit : 12288 < 2 ^ 64 := by decide

/-- One page, then two. -/
def shortHead : ChunkTable 2 where
  regionOff c := 4096 * c
  len c := 4096 + 4096 * c
  regionLen := 12288
  len_pos := by decide
  aligned := by decide
  regionOff_eq := shortHead_regionOff
  regionLen_eq := by decide
  regionLen_lt := three_pages_fit

/-- Room for the longer chunk only. -/
def onePageHead : Config 2 Unit := { twoPages with
  table := shortHead
  registered := by decide
  truncated := by decide
  budgetBytes := 8192
  modelFileSize := 12288 }

/-- Chunk 1 is resident. -/
def tailResident : Shared 2 Unit :=
  (((Shared.init onePageHead ()).setRegion { Region.init 2 () with
    chunks := fun c => if c = 1 then { Chunk.init with state := .resident } else Chunk.init
    residentBytes := 8192 })).setKernel { Kernel.init with alloc := fun q => q == 1 || q == 2 }

theorem tailResident_exact :
    Exact onePageHead tailResident.region (fun c => c = 1) (fun _ => False)
      tailResident.kernel.alloc where
  exclusive _ _ := id
  resident := by decide
  residentBytes := by decide
  reservedBytes := by decide
  filled := by
    rintro _ q rfl ⟨hlo, hhi⟩
    change 4096 ≤ q * 4096 at hlo
    change (q + 1) * 4096 ≤ 12288 at hhi
    obtain rfl | rfl : q = 1 ∨ q = 2 := by omega
    · rfl
    · rfl
  within q hq := by
    change (q == 1 || q == 2) = true at hq
    have hpage : q = 1 ∨ q = 2 := by simpa using hq
    refine ⟨1, ?_, Or.inl rfl⟩
    rcases hpage with rfl | rfl
    · decide
    · decide

theorem lostPunch_onePageHead :
    exec onePageHead (.worker 0) { shmem := 8192 } (evictChunkLost onePageHead tailResident 1)
      (.job (.demand 0) (.reconcile 0)) = .abort :=
  (lostPunch_aborts_iff tailResident_exact (by decide) (by decide +kernel)).2 (by decide +kernel)

/-- Chunk 0 is resident, and worker 1 is about to evict it for chunk 1. -/
def evictZero : List (Action 2) :=
  residentZero ++ turns (.worker 0) [2] ++
    [.exec (.client 1) { op := .touch 4096 }, .exec (.client 1) {}, .exec .handler {}] ++
    turns .handler [1, 1] ++ turns (.worker 1) [1, 1, 3, 0]

theorem evictZero_runs :
    (run (pager twoPages ()) evictZero (pager twoPages ()).init).isSome = true := by
  decide +kernel

def aboutToEvict : State 2 Unit :=
  (run (pager twoPages ()) evictZero (pager twoPages ()).init).get evictZero_runs

/-- The only resident page is not freed, and the reconciliation passes. -/
theorem lostPunch_unnoticed :
    Reachable (pager twoPages ()) aboutToEvict ∧
      aboutToEvict.pc (.worker 1) = .go (.job (.demand 1) (.evict 0 0)) ∧
      Exact twoPages aboutToEvict.sh.region (aboutToEvict.sh.life aboutToEvict.role).Counted
        (fun c => (aboutToEvict.role c).Reserves) aboutToEvict.sh.kernel.alloc ∧
      (aboutToEvict.sh.region.chunks 0).Evictable ∧
      exec twoPages (.worker 1)
        { shmem := knownOverheadBytes + twoPages.memfdBytes aboutToEvict.sh.kernel.alloc }
        (evictChunkLost twoPages aboutToEvict.sh 0) (.job (.demand 1) (.reconcile 0)) ≠ .abort := by
  have hreach : Reachable (pager twoPages ()) aboutToEvict := reachable_get evictZero evictZero_runs
  refine ⟨hreach, by decide +kernel, Reach.exact (Reach.confined (by decide) hreach),
    by decide +kernel, ?_⟩
  have hpass : reconcileOk twoPages (evictChunkLost twoPages aboutToEvict.sh 0).region
      (knownOverheadBytes + twoPages.memfdBytes aboutToEvict.sh.kernel.alloc) := by
    decide +kernel
  simp [exec, execJob, hpass]

end Pager

end Residctl
