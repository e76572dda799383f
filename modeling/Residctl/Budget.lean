import Residctl.Policy

/-!
# Budget, eviction and pins

`budget.c`. The functions below are the bodies of its critical sections, on the
part of `region_t` that `budget_lock` and the chunk locks guard. `ensure_budget`
and `ensure_budget_prefetch` are split at the points where they wait: one
evaluation of the loop head is `demandDecision` or `prefetchDecision`, and the body of
`evict_chunk` is `evictBody`. The byte counts that the budget is checked against wrap in 64
bits, the pins in 32; the statistics of `Stats` only count and are natural numbers.
-/

namespace Residctl

open Scan

variable {n : ℕ} {σ : Type}

/-! ## The region -/

/-- The counters of `region_t` that the modelled code updates. -/
structure Stats where
  dedupResident : ℕ := 0
  dedupFetching : ℕ := 0
  absentHandled : ℕ := 0
  evictions : ℕ := 0
  bytesPunched : ℕ := 0
  infeasible : ℕ := 0
  prefetches : ℕ := 0
  prefetchInfeasible : ℕ := 0
  prefetchDeclined : ℕ := 0
  bytesFetched : ℕ := 0
  pinBroken : ℕ := 0
  fetchingTimeout : ℕ := 0
deriving DecidableEq, Repr

/-- The mutable part of `region_t`. -/
structure Region (n : ℕ) (σ : Type) where
  chunks : Chunks n
  residentBytes : ℕ
  reservedBytes : ℕ
  faultSeq : ℕ
  fetchesSinceReconcile : ℕ
  /-- `pinned_prefetch_queue` from its head, oldest first -/
  pinnedPrefetch : List (Fin n)
  policyState : σ
  stats : Stats

/-- `region_t` after `region_startup`. -/
def Region.init (n : ℕ) (s : σ) : Region n σ where
  chunks := fun _ => Chunk.init
  residentBytes := 0
  reservedBytes := 0
  faultSeq := 0
  fetchesSinceReconcile := 0
  pinnedPrefetch := []
  policyState := s
  stats := {}

/-- What `region_startup` and the caller fix before the pager runs. -/
structure Config (n : ℕ) (σ : Type) where
  table : ChunkTable n
  /-- `UFFDIO_REGISTER` accepts whole pages only -/
  registered : table.regionLen % RESIDCTL_ALIGN = 0
  /-- the length that `ftruncate` accepts is signed -/
  truncated : table.regionLen < 2 ^ 63
  budgetBytes : ℕ
  reconcileInterval : ℕ
  /-- `none`: no policy configured -/
  policy : Option (Policy n σ)
  asyncHandler : Bool
  /-- a fetch pool is running -/
  pool : Bool
  workers : ℕ
  prefetchEnabled : Bool
  prefetchDepth : ℕ
  prefetchAdmissionAlways : Bool
  prefetchRetentionPinned : Bool
  fetchingTimeoutMs : ℕ
  /-- the model file: its length and bytes -/
  modelFileSize : ℕ
  fileByte : ℕ → UInt8

/-- `pinned_prefetch_cap`. -/
def Config.pinnedPrefetchCap (cfg : Config n σ) : ℕ :=
  if cfg.prefetchDepth > 0 then cfg.prefetchDepth else 1

/-! ## Updates of one chunk -/

/-- Change the record of chunk `c`. -/
def Region.modify (r : Region n σ) (c : Fin n) (f : Chunk → Chunk) : Region n σ :=
  { r with chunks := Function.update r.chunks c (f (r.chunks c)) }

/-- `c->pin++`. -/
def Chunk.incPin (k : Chunk) : Chunk := { k with pin := (k.pin + 1) % 2 ^ 32 }

/-- `c->pin--`. -/
def Chunk.decPin (k : Chunk) : Chunk := { k with pin := (k.pin + 2 ^ 32 - 1) % 2 ^ 32 }

theorem Chunk.decPin_incPin (k : Chunk) (h : k.pin < 2 ^ 32) : k.incPin.decPin = k := by
  have hpin : ((k.pin + 1) % 2 ^ 32 + 2 ^ 32 - 1) % 2 ^ 32 = k.pin := by omega
  show { k with pin := ((k.pin + 1) % 2 ^ 32 + 2 ^ 32 - 1) % 2 ^ 32 } = k
  rw [hpin]

/-- Enter `FETCHING` at time `now` with fault number `seq`. -/
def Chunk.beginFetch (k : Chunk) (now seq : ℕ) : Chunk :=
  { k with state := .fetching, fetchingSinceNs := now, lastFaultSeq := seq }

/-- Leave `FETCHING` with the chunk's pages mapped. -/
def Chunk.becomeResident (k : Chunk) : Chunk := { k with state := .resident, fetchingSinceNs := 0 }

/-- The state reset of `pager_abandon_fetch`. -/
def Chunk.abandonFetch (k : Chunk) : Chunk := { k with state := .absent, fetchingSinceNs := 0 }

@[simp] theorem Region.modify_chunks_self (r : Region n σ) (c : Fin n) (f : Chunk → Chunk) :
    (r.modify c f).chunks c = f (r.chunks c) := Function.update_self _ _ _

@[simp] theorem Region.modify_chunks_of_ne (r : Region n σ) {c d : Fin n} (h : d ≠ c)
    (f : Chunk → Chunk) : (r.modify c f).chunks d = r.chunks d := Function.update_of_ne h _ _

/-- Pins and states do not interfere. -/
theorem Chunk.becomeResident_incPin (k : Chunk) :
    k.incPin.becomeResident = k.becomeResident.incPin := rfl

/-! ## Reconciliation -/

/-- The slack of `reconcile`: the length of the first chunk. -/
def Config.reconcileThreshold (cfg : Config n σ) : ℕ :=
  if h : 0 < n then cfg.table.len ⟨0, h⟩ else RESIDCTL_ALIGN

/-- The I-7 checks pass for the value `shmem` read from `memory.stat`. -/
def reconcileOk (cfg : Config n σ) (r : Region n σ) (shmem : ℕ) : Prop :=
  ¬ wrap64 (shmem + cfg.reconcileThreshold) < r.residentBytes ∧
    ¬ shmem > wrap64 (wrap64 (r.residentBytes + r.reservedBytes) + cfg.reconcileThreshold)

instance (cfg : Config n σ) (r : Region n σ) (shmem : ℕ) : Decidable (reconcileOk cfg r shmem) :=
  inferInstanceAs (Decidable (_ ∧ _))

/-- A fetch request counts towards the periodic reconciliation. -/
def countFetch (r : Region n σ) : Region n σ :=
  { r with fetchesSinceReconcile := r.fetchesSinceReconcile + 1 }

/-- The periodic reconciliation is due. -/
def reconcileDue (cfg : Config n σ) (r : Region n σ) : Prop :=
  cfg.reconcileInterval ≤ 1 ∨ r.fetchesSinceReconcile ≥ cfg.reconcileInterval

instance (cfg : Config n σ) (r : Region n σ) : Decidable (reconcileDue cfg r) :=
  inferInstanceAs (Decidable (_ ∨ _))

/-- After a reconciliation. -/
def reconciled (r : Region n σ) : Region n σ := { r with fetchesSinceReconcile := 0 }

/-! ## Eviction and reservation -/

/-- `evict_chunk` after its assertions, the hole punch apart. -/
def evictBody (cfg : Config n σ) (r : Region n σ) (c : Fin n) : Region n σ :=
  { r.modify c fun k => { k with state := .absent } with
    residentBytes := sub64 r.residentBytes (cfg.table.len c)
    stats := { r.stats with evictions := r.stats.evictions + 1,
                            bytesPunched := r.stats.bytesPunched + cfg.table.len c } }

/-- Promise the chunk's bytes to a fetch. -/
def reserve (cfg : Config n σ) (r : Region n σ) (c : Fin n) : Region n σ :=
  { r with reservedBytes := wrap64 (r.reservedBytes + cfg.table.len c) }

/-- `commit_reserved`. -/
def commitReserved (cfg : Config n σ) (r : Region n σ) (c : Fin n) : Region n σ :=
  { r with reservedBytes := sub64 r.reservedBytes (cfg.table.len c)
           residentBytes := wrap64 (r.residentBytes + cfg.table.len c) }

/-- `commit_reserved_and_pin`. -/
def commitReservedAndPin (cfg : Config n σ) (r : Region n σ) (c : Fin n) : Region n σ :=
  (commitReserved cfg r c).modify c Chunk.incPin

/-- `pin_chunk`. -/
def pinChunk (r : Region n σ) (c : Fin n) : Region n σ := r.modify c Chunk.incPin

/-- `unpin_chunk`. -/
def unpinChunk (r : Region n σ) (c : Fin n) : Region n σ := r.modify c Chunk.decPin

/-! ## The retention FIFO -/

/-- Append `target`, dropping and unpinning the oldest entry when full. -/
def prefetchRetainOnResident (cfg : Config n σ) (r : Region n σ) (target : Fin n) : Region n σ :=
  match r.pinnedPrefetch with
  | oldest :: rest =>
    if r.pinnedPrefetch.length ≥ cfg.pinnedPrefetchCap then
      { unpinChunk r oldest with pinnedPrefetch := rest ++ [target] }
    else { r with pinnedPrefetch := r.pinnedPrefetch ++ [target] }
  | [] => { r with pinnedPrefetch := [target] }

/-- Remove and unpin `c` if it is retained. -/
def prefetchRetainRelease (r : Region n σ) (c : Fin n) : Region n σ :=
  if c ∈ r.pinnedPrefetch then
    { unpinChunk r c with pinnedPrefetch := r.pinnedPrefetch.erase c }
  else r

/-- The policy's distance, `INT64_MAX` without one. -/
def Config.nextUseDistance (cfg : Config n σ) (r : Region n σ) (c : Fin n) : ℤ :=
  match cfg.policy.bind Policy.nextUseDistance with
  | some dist => dist r.policyState r.chunks c
  | none => INT64_MAX

/-- The coldest retained chunk, the oldest of several. -/
def pinBreakSelectVictim (cfg : Config n σ) (r : Region n σ) : Option (Fin n) :=
  scanBest (fun c => (r.chunks c).state = .resident)
    (fun i b => cfg.nextUseDistance r i > cfg.nextUseDistance r b) r.pinnedPrefetch

/-! ## The loop heads -/

/-- The policy's victim, or the default one. -/
def Config.selectVictim (cfg : Config n σ) (r : Region n σ) : Option (Fin n) :=
  match cfg.policy with
  | some p => p.selectVictim r.policyState r.chunks
  | none => defaultSelectVictim r.chunks

/-- What one evaluation of a budget loop's head decides. -/
inductive Decision (n : ℕ)
  | reserve
  | evict (v : Fin n)
  | breakPin (v : Fin n)
  | infeasible
  | decline

/-- The request for `need` bytes does not fit. -/
def exceeds (cfg : Config n σ) (r : Region n σ) (need : ℕ) : Prop :=
  wrap64 (wrap64 (r.residentBytes + r.reservedBytes) + need) > cfg.budgetBytes

instance (cfg : Config n σ) (r : Region n σ) (need : ℕ) : Decidable (exceeds cfg r need) :=
  inferInstanceAs (Decidable (_ > _))

/-- The request for a chunk does not fit. -/
def overBudget (cfg : Config n σ) (r : Region n σ) (c : Fin n) : Prop :=
  exceeds cfg r (cfg.table.len c)

instance (cfg : Config n σ) (r : Region n σ) (c : Fin n) : Decidable (overBudget cfg r c) :=
  inferInstanceAs (Decidable (exceeds _ _ _))

/-- `ensure_budget`: a demand request breaks a retained chunk's pin rather than fail. -/
def demandHead (cfg : Config n σ) (need : ℕ) (r : Region n σ) : Decision n :=
  if exceeds cfg r need then
    match cfg.selectVictim r with
    | some v => .evict v
    | none =>
      if cfg.prefetchRetentionPinned then
        match pinBreakSelectVictim cfg r with
        | some v => .breakPin v
        | none => .infeasible
      else .infeasible
  else .reserve

/-- The same for a chunk. -/
def demandDecision (cfg : Config n σ) (r : Region n σ) (c : Fin n) : Decision n :=
  demandHead cfg (cfg.table.len c) r

/-- The admission rule: the victim must be needed strictly later than the target. -/
def admits (cfg : Config n σ) (r : Region n σ) (target v : Fin n) : Prop :=
  cfg.prefetchAdmissionAlways = true ∨ (cfg.policy.bind Policy.nextUseDistance).isNone = true ∨
    cfg.nextUseDistance r v > cfg.nextUseDistance r target

instance (cfg : Config n σ) (r : Region n σ) (target v : Fin n) :
    Decidable (admits cfg r target v) := inferInstanceAs (Decidable (_ ∨ _ ∨ _))

/-- `ensure_budget_prefetch`. -/
def prefetchDecision (cfg : Config n σ) (r : Region n σ) (c : Fin n) : Decision n :=
  if overBudget cfg r c then
    match cfg.selectVictim r with
    | some v => if admits cfg r c v then .evict v else .decline
    | none => .infeasible
  else .reserve

/-- The pin of a chunk about to be broken is released before its eviction. -/
def breakPin (r : Region n σ) (v : Fin n) : Region n σ :=
  let r := prefetchRetainRelease r v
  { r with stats := { r.stats with pinBroken := r.stats.pinBroken + 1 } }

/-- `stat_infeasible++`. -/
def countInfeasible (r : Region n σ) : Region n σ :=
  { r with stats := { r.stats with infeasible := r.stats.infeasible + 1 } }

/-- `stat_prefetch_declined++`. -/
def countDeclined (r : Region n σ) : Region n σ :=
  { r with stats := { r.stats with prefetchDeclined := r.stats.prefetchDeclined + 1 } }

/-! ## Basic facts -/

theorem Config.len_lt (cfg : Config n σ) (c : Fin n) : cfg.table.len c < 2 ^ 63 := by
  have hle := cfg.table.end_le_regionLen c
  have hlt := cfg.truncated
  omega

theorem Config.reconcileThreshold_lt (cfg : Config n σ) : cfg.reconcileThreshold < 2 ^ 63 := by
  unfold Config.reconcileThreshold
  split
  · rename_i hn
    exact cfg.len_lt ⟨0, hn⟩
  · decide

section

variable {cfg : Config n σ} {r : Region n σ}

/-- A value of `memory.stat` between what is resident and what is resident or promised
passes both checks. -/
theorem reconcileOk_of_mem {shmem : ℕ} (hlo : r.residentBytes ≤ shmem)
    (hhi : shmem ≤ r.residentBytes + r.reservedBytes)
    (hsmall : r.residentBytes + r.reservedBytes < 2 ^ 63) : reconcileOk cfg r shmem := by
  have hthr := cfg.reconcileThreshold_lt
  rw [reconcileOk, wrap64_of_lt (by omega), wrap64_of_lt (v := r.residentBytes + _) (by omega),
    wrap64_of_lt (by omega)]
  omega

theorem Config.selectVictim_evictable {v : Fin n} (h : cfg.selectVictim r = some v) :
    (r.chunks v).Evictable := by
  unfold Config.selectVictim at h
  split at h
  · exact Policy.selectVictim_evictable _ h
  · exact defaultSelectVictim_evictable h

theorem pinBreakSelectVictim_some {v : Fin n} (h : pinBreakSelectVictim cfg r = some v) :
    (r.chunks v).state = .resident ∧ v ∈ r.pinnedPrefetch := by
  obtain ⟨hv, hmem, -⟩ := scanBest_some (fun i => cfg.nextUseDistance r i) (fun _ _ => Iff.rfl) h
  exact ⟨hv, hmem⟩

theorem demandDecision_of_fits {c : Fin n} (h : ¬ overBudget cfg r c) :
    demandDecision cfg r c = .reserve := if_neg h

theorem demandDecision_of_over {c : Fin n} (h : overBudget cfg r c) :
    demandDecision cfg r c = match cfg.selectVictim r with
      | some v => .evict v
      | none =>
        if cfg.prefetchRetentionPinned then
          match pinBreakSelectVictim cfg r with
          | some v => .breakPin v
          | none => .infeasible
        else .infeasible := if_pos h

theorem demandDecision_evict {c v : Fin n} (h : demandDecision cfg r c = .evict v) :
    overBudget cfg r c ∧ cfg.selectVictim r = some v := by
  unfold demandDecision demandHead at h
  split at h
  · rename_i hover
    split at h
    · cases h; exact ⟨hover, by assumption⟩
    · split at h
      · split at h <;> cases h
      · cases h
  · cases h

theorem demandDecision_breakPin {c v : Fin n} (h : demandDecision cfg r c = .breakPin v) :
    overBudget cfg r c ∧ cfg.selectVictim r = none ∧ cfg.prefetchRetentionPinned = true ∧
      pinBreakSelectVictim cfg r = some v := by
  unfold demandDecision demandHead at h
  split at h
  · rename_i hover
    split at h
    · cases h
    · split at h
      · split at h
        · cases h; exact ⟨hover, by assumption, by assumption, by assumption⟩
        · cases h
      · cases h
  · cases h

theorem prefetchDecision_decline {c : Fin n} (h : prefetchDecision cfg r c = .decline) :
    overBudget cfg r c ∧ ∃ v, cfg.selectVictim r = some v ∧ ¬ admits cfg r c v := by
  unfold prefetchDecision at h
  split at h
  · rename_i hover
    split at h
    · split at h
      · cases h
      · exact ⟨hover, _, by assumption, by assumption⟩
    · cases h
  · cases h

theorem prefetchDecision_evict {c v : Fin n} (h : prefetchDecision cfg r c = .evict v) :
    overBudget cfg r c ∧ cfg.selectVictim r = some v ∧ admits cfg r c v := by
  unfold prefetchDecision at h
  split at h
  · rename_i hover
    split at h
    · split at h
      · cases h; exact ⟨hover, by assumption, by assumption⟩
      · cases h
    · cases h
  · cases h

theorem prefetchDecision_ne_breakPin {c v : Fin n} : prefetchDecision cfg r c ≠ .breakPin v := by
  unfold prefetchDecision
  split
  · split
    · split <;> simp
    · simp
  · simp

theorem demandDecision_reserve {c : Fin n} (h : demandDecision cfg r c = .reserve) :
    ¬ overBudget cfg r c := by
  unfold demandDecision demandHead at h
  split at h
  · split at h
    · cases h
    · split at h
      · split at h <;> cases h
      · cases h
  · assumption

theorem prefetchDecision_reserve {c : Fin n} (h : prefetchDecision cfg r c = .reserve) :
    ¬ overBudget cfg r c := by
  unfold prefetchDecision at h
  split at h
  · split at h
    · split at h <;> cases h
    · cases h
  · assumption

end

end Residctl
