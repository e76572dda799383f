import Residctl.Ensure
import Residctl.SyncReplay
import Residctl.Lib.Prefetching

/-!
# The synchronous handler under any policy

`replay_cyclic` with `--sync-handler`, for chunks of any lengths and any policy of the program.
A reference is served when its chunk fits into the budget at all, and waits for ever when it
does not; no check of the pager stops a run. What a run fetches is the cost of an on-demand schedule, so no policy
fetches less than the offline optimum.
-/

namespace Residctl

open Function Paging
open Pager (Shipped)

variable {n : ℕ} {σ : Type} {cfg : Config n σ} {w : Option (Fin n)} {R D : Finset (Fin n)}
  {s s' : SyncState n σ} {c v : Fin n} {clock : ℕ → ℕ}

/-! ## The invariant -/

/-- `R` is resident and `w` is being fetched. -/
structure SyncSound (cfg : Config n σ) (w : Option (Fin n)) (R : Finset (Fin n))
    (s : SyncState n σ) : Prop where
  state : ∀ c, (s.region.chunks c).state =
    if c ∈ R then .resident else if w = some c then .fetching else .absent
  pin : ∀ c, (s.region.chunks c).pin = 0
  mapped : ∀ c, s.mapped c = true ↔ c ∈ R
  busy : ∀ c, w = some c → c ∉ R
  resident : s.region.residentBytes = ∑ c ∈ R, cfg.table.len c
  reserved : s.region.reservedBytes = 0
  fits : ∑ c ∈ R, cfg.table.len c ≤ cfg.budgetBytes
  fifo : s.region.pinnedPrefetch = []

/-- What making room leaves alone. -/
structure SameWork (s s' : SyncState n σ) : Prop where
  refTrace : s'.refTrace = s.refTrace
  absentHandled : s'.region.stats.absentHandled = s.region.stats.absentHandled
  bytesFetched : s'.region.stats.bytesFetched = s.region.stats.bytesFetched

theorem SameWork.refl (s : SyncState n σ) : SameWork s s := ⟨rfl, rfl, rfl⟩

theorem SameWork.trans {s₁ s₂ s₃ : SyncState n σ} (h : SameWork s₁ s₂) (h' : SameWork s₂ s₃) :
    SameWork s₁ s₃ :=
  ⟨h'.refTrace.trans h.refTrace, h'.absentHandled.trans h.absentHandled,
    h'.bytesFetched.trans h.bytesFetched⟩

theorem SyncSound.init (cfg : Config n σ) (p : σ) :
    SyncSound cfg none ∅ (SyncState.init n p) where
  state _ := by simp [SyncState.init, Region.init, Chunk.init]
  pin _ := rfl
  mapped _ := by simp [SyncState.init]
  busy := by simp
  resident := by simp [SyncState.init, Region.init]
  reserved := rfl
  fits := by simp
  fifo := rfl

theorem SyncSound.evictable_iff (h : SyncSound cfg w R s) (c : Fin n) :
    (s.region.chunks c).Evictable ↔ c ∈ R := by
  rw [Chunk.Evictable, h.pin c, h.state c]
  split_ifs <;> simp_all

theorem SyncSound.shmem_eq (h : SyncSound cfg w R s) :
    s.shmem cfg = ∑ c ∈ R, cfg.table.len c := by
  rw [SyncState.shmem, ← Finset.sum_filter]
  congr 1
  ext c
  simp [h.mapped c]

theorem Config.sum_len_lt (cfg : Config n σ) (R : Finset (Fin n)) :
    ∑ c ∈ R, cfg.table.len c < 2 ^ 63 := by
  have hsum : ∑ c ∈ R, cfg.table.len c ≤ cfg.table.regionLen :=
    cfg.table.regionLen_eq ▸ Finset.sum_le_sum_of_subset (Finset.subset_univ R)
  exact hsum.trans_lt cfg.truncated

/-! ## Reconciliation and eviction -/

/-- The kernel counts exactly the resident chunks. -/
theorem SyncSound.reconcile (h : SyncSound cfg w R s) :
    ∃ s', reconcileSync cfg s = some s' ∧ SyncSound cfg w R s' ∧ SameWork s s' := by
  have hbytes := cfg.sum_len_lt R
  have hok : reconcileOk cfg s.region (s.shmem cfg) := by
    refine reconcileOk_of_mem ?_ ?_ ?_
    · rw [h.shmem_eq, h.resident]
    · rw [h.shmem_eq, h.resident, h.reserved, Nat.add_zero]
    · rw [h.resident, h.reserved, Nat.add_zero]
      exact hbytes
  exact ⟨{ s with region := reconciled s.region }, if_pos hok, { h with }, ⟨rfl, rfl, rfl⟩⟩

theorem SyncSound.evict (h : SyncSound cfg w R s) (hv : v ∈ R) :
    ∃ s', evictSync cfg s v = some s' ∧ SyncSound cfg w (R.erase v) s' ∧ SameWork s s' := by
  have hsum := Finset.sum_erase_add R cfg.table.len hv
  have hlt := cfg.sum_len_lt R
  set s₁ : SyncState n σ := { s with region := evictBody cfg s.region v
                                     mapped := update s.mapped v false }
  have hother : ∀ d, d ≠ v → s₁.region.chunks d = s.region.chunks d := by
    intro d hd
    simp [s₁, evictBody, Region.modify, hd]
  have hself : s₁.region.chunks v = { s.region.chunks v with state := .absent } := by
    simp [s₁, evictBody, Region.modify]
  have h₁ : SyncSound cfg w (R.erase v) s₁ := {
    state := by
      intro d
      by_cases hd : d = v
      · subst hd
        have hwd : w ≠ some d := fun hw => h.busy d hw hv
        simp [hself, hwd]
      · rw [hother d hd, h.state d]
        simp [hd]
    pin := by
      intro d
      by_cases hd : d = v
      · subst hd
        rw [hself]
        exact h.pin d
      · rw [hother d hd]
        exact h.pin d
    mapped := by
      intro d
      by_cases hd : d = v
      · subst hd
        simp [s₁]
      · simpa [s₁, hd] using h.mapped d
    busy := fun d hw hd => h.busy d hw (Finset.mem_of_mem_erase hd)
    resident := by
      show sub64 s.region.residentBytes (cfg.table.len v) = _
      rw [h.resident, sub64_of_le (by omega) (by omega)]
      omega
    reserved := h.reserved
    fits := by
      have hfits := h.fits
      omega
    fifo := h.fifo }
  rcases h₁.reconcile with ⟨s₂, hs₂, h₂, hsame⟩
  refine ⟨s₂, ?_, h₂, hsame.refTrace, hsame.absentHandled, hsame.bytesFetched⟩
  rw [evictSync, if_pos ((h.evictable_iff v).2 hv)]
  exact hs₂

/-! ## The budget -/

theorem SyncSound.overBudget_iff (h : SyncSound cfg w R s) (c : Fin n) :
    overBudget cfg s.region c ↔
      cfg.budgetBytes < ∑ d ∈ R, cfg.table.len d + cfg.table.len c := by
  have hsum := cfg.sum_len_lt R
  have hone := cfg.len_lt c
  rw [overBudget, exceeds, h.resident, h.reserved, Nat.add_zero,
    wrap64_of_lt (v := ∑ d ∈ R, cfg.table.len d) (by omega), wrap64_of_lt (by omega)]

/-- What `ensure_budget` does to the region in the end. -/
def answered (cfg : Config n σ) (c : Fin n) (r : Region n σ) : Region n σ :=
  if cfg.table.len c ≤ cfg.budgetBytes then reserve cfg r c else countInfeasible r

/-- For the request of `c` the chunks `R` are evicted one after the other, each for want of room and
as the selected victim, until `D` is left. -/
inductive Evicted (cfg : Config n σ) (c : Fin n) (R : Finset (Fin n)) : Finset (Fin n) → Prop
  | stop : Evicted cfg c R R
  | evict {D : Finset (Fin n)} {s : SyncState n σ} {v : Fin n} (h : SyncSound cfg (some c) D s)
      (hover : cfg.budgetBytes < ∑ d ∈ D, cfg.table.len d + cfg.table.len c)
      (hsel : cfg.selectVictim s.region = some v) (hD : Evicted cfg c R D) :
      Evicted cfg c R (D.erase v)

theorem Evicted.subset (h : Evicted cfg c R D) : D ⊆ R := by
  induction h with
  | stop => exact subset_rfl
  | evict _ _ _ _ ih => exact (Finset.erase_subset _ _).trans ih

/-- Chunks are evicted until the request fits, or nothing is left. -/
theorem SyncSound.ensureLoop (hpol : Shipped cfg.policy) (h : SyncSound cfg (some c) D s)
    (hev : Evicted cfg c R D) {fuel : ℕ} (hfuel : D.card < fuel) :
    ∃ D s', ensureBudgetLoop cfg (demandDecision cfg) c fuel s =
        some ({ s' with region := answered cfg c s'.region },
          decide (cfg.table.len c ≤ cfg.budgetBytes)) ∧
      SyncSound cfg (some c) D s' ∧ SameWork s s' ∧ Evicted cfg c R D ∧
      (cfg.table.len c ≤ cfg.budgetBytes →
        ∑ d ∈ D, cfg.table.len d + cfg.table.len c ≤ cfg.budgetBytes) := by
  induction fuel generalizing D s with
  | zero => exact absurd hfuel (Nat.not_lt_zero _)
  | succ fuel ih =>
    by_cases hover : overBudget cfg s.region c
    · have hbytes := (h.overBudget_iff c).1 hover
      cases hsel : cfg.selectVictim s.region with
      | some v =>
        have hv : v ∈ D := (h.evictable_iff v).1 (Config.selectVictim_evictable hsel)
        rcases h.evict hv with ⟨s₁, hs₁, h₁, hsame₁⟩
        have hcard := Finset.card_pos.2 ⟨v, hv⟩
        rcases ih h₁ (.evict h hbytes hsel hev) (by rw [Finset.card_erase_of_mem hv]; omega) with
          ⟨D', s₂, hs₂, h₂, hsame₂, hev', hroom⟩
        refine ⟨D', s₂, ?_, h₂, hsame₁.trans hsame₂, hev', hroom⟩
        simp only [ensureBudgetLoop, demandDecision_of_over hover, hsel, hs₁, Option.bind_some]
        exact hs₂
      | none =>
        -- nothing is resident, and nothing is retained whose pin could be broken
        have hempty : D = ∅ := by
          refine Finset.eq_empty_of_forall_notMem fun d hd => ?_
          exact hpol.selectVictim_none hsel d ((h.evictable_iff d).2 hd)
        rw [hempty, Finset.sum_empty, Nat.zero_add] at hbytes
        have hbreak : pinBreakSelectVictim cfg s.region = none := by
          rw [pinBreakSelectVictim, h.fifo]
          rfl
        have hlarge : ¬ cfg.table.len c ≤ cfg.budgetBytes := Nat.not_le.2 hbytes
        refine ⟨D, s, ?_, h, .refl s, hev, fun hle => absurd hle hlarge⟩
        simp only [ensureBudgetLoop, demandDecision_of_over hover, hsel, hbreak, answered, hlarge,
          if_false, ite_self, decide_false]
    · have hroom := Nat.le_of_not_lt fun hlt => hover ((h.overBudget_iff c).2 hlt)
      have hone : cfg.table.len c ≤ cfg.budgetBytes := (Nat.le_add_left _ _).trans hroom
      refine ⟨D, s, ?_, h, .refl s, hev, fun _ => hroom⟩
      simp only [ensureBudgetLoop, demandDecision_of_fits hover, answered, hone, if_true,
        decide_true]

theorem SyncSound.ensure (hpol : Shipped cfg.policy) (h : SyncSound cfg (some c) R s) :
    ∃ D s', ensureBudget cfg c s =
        some ({ s' with region := answered cfg c s'.region },
          decide (cfg.table.len c ≤ cfg.budgetBytes)) ∧
      SyncSound cfg (some c) D s' ∧ SameWork s s' ∧ Evicted cfg c R D ∧
      (cfg.table.len c ≤ cfg.budgetBytes →
        ∑ d ∈ D, cfg.table.len d + cfg.table.len c ≤ cfg.budgetBytes) := by
  have hfuel : R.card < n + 1 := by
    have hle := Finset.card_le_univ R
    rw [Fintype.card_fin] at hle
    omega
  set s₁ : SyncState n σ := { s with region := countFetch s.region }
  have h₁ : SyncSound cfg (some c) R s₁ := { h with }
  have hsame₁ : SameWork s s₁ := ⟨rfl, rfl, rfl⟩
  by_cases hdue : reconcileDue cfg s₁.region
  · rcases h₁.reconcile with ⟨s₂, hs₂, h₂, hsame₂⟩
    rcases h₂.ensureLoop hpol .stop hfuel with ⟨D, s₃, hs₃, h₃, hsame₃, hD⟩
    refine ⟨D, s₃, ?_, h₃, (hsame₁.trans hsame₂).trans hsame₃, hD⟩
    rw [ensureBudget, budgetCall, if_pos hdue, hs₂]
    exact hs₃
  · rcases h₁.ensureLoop hpol .stop hfuel with ⟨D, s₂, hs₂, h₂, hsame₂, hD⟩
    refine ⟨D, s₂, ?_, h₂, hsame₁.trans hsame₂, hD⟩
    rw [ensureBudget, budgetCall, if_neg hdue]
    exact hs₂

/-- Trying again does not help a chunk that is larger than the budget. -/
theorem SyncSound.retry_refused (hpol : Shipped cfg.policy) (h : SyncSound cfg (some c) R s)
    (hlarge : cfg.budgetBytes < cfg.table.len c) (attempts : ℕ) :
    ∃ s', ensureBudgetRetry cfg c attempts s = some (s', false) ∧
      ∃ D, SyncSound cfg (some c) D s' := by
  have hnot : ¬ cfg.table.len c ≤ cfg.budgetBytes := Nat.not_le.2 hlarge
  have hone : ∀ {R : Finset (Fin n)} {s : SyncState n σ}, SyncSound cfg (some c) R s →
      ∃ s', ensureBudget cfg c s = some (s', false) ∧ ∃ D, SyncSound cfg (some c) D s' := by
    intro R s h
    rcases h.ensure hpol with ⟨D, s', hs', h', -⟩
    rw [answered, if_neg hnot, decide_eq_false hnot] at hs'
    exact ⟨_, hs', D, { h' with }⟩
  induction attempts generalizing R s with
  | zero => exact hone h
  | succ attempts ih =>
    rcases hone h with ⟨s₁, hs₁, D, h₁⟩
    rcases ih h₁ with ⟨s₂, hs₂, hsound⟩
    refine ⟨s₂, ?_, hsound⟩
    simp only [ensureBudgetRetry, hs₁, Option.bind_eq_bind, Option.bind_some, Bool.false_eq_true,
      if_false]
    exact hs₂

/-! ## One fault -/

/-- The chunk enters `FETCHING`, and the policy hears of the fault. -/
theorem SyncSound.start (h : SyncSound cfg none R s) (hc : c ∉ R) (now : ℕ) :
    SyncSound cfg (some c) R { s with region := startAbsent cfg now s.region c } ∧
      SameWork s { s with region := startAbsent cfg now s.region c } := by
  have hstart : ∃ p, startAbsent cfg now s.region c =
      { s.region.modify c fun k => k.beginFetch now (s.region.faultSeq + 1) with
        faultSeq := s.region.faultSeq + 1
        policyState := p } := by
    unfold startAbsent
    split <;> exact ⟨_, rfl⟩
  rcases hstart with ⟨p, hstart⟩
  rw [hstart]
  refine ⟨?_, rfl, rfl, rfl⟩
  refine { h with state := ?_, pin := ?_, busy := ?_ }
  · intro d
    by_cases hd : d = c
    · subst hd
      simp [Chunk.beginFetch, hc]
    · simpa [hd, Ne.symm hd] using h.state d
  · intro d
    by_cases hd : d = c
    · subst hd
      simpa [Chunk.beginFetch] using h.pin d
    · simpa [hd] using h.pin d
  · intro d hd
    cases hd
    exact hc

/-- The tail of `handle_absent`, for any `on_resident` hook. -/
theorem completeAbsent_any (cfg : Config n σ) (r : Region n σ) (c : Fin n) :
    ∃ p, completeAbsent cfg r c = { unpinChunk ((commitReservedAndPin cfg r c).modify c
        Chunk.becomeResident) c with
      policyState := p
      stats := { r.stats with bytesFetched := r.stats.bytesFetched + cfg.table.len c,
                              absentHandled := r.stats.absentHandled + 1 } } := by
  unfold completeAbsent fetchedAbsent tellResident
  split <;> exact ⟨_, rfl⟩

/-- The pin taken with the commit is dropped again. -/
theorem unpinned_chunks (cfg : Config n σ) {r : Region n σ} (hpin : (r.chunks c).pin < 2 ^ 32) (d : Fin n) :
    (unpinChunk ((commitReservedAndPin cfg r c).modify c Chunk.becomeResident) c).chunks d =
      if d = c then (r.chunks c).becomeResident else r.chunks d := by
  rw [unpinChunk, commitReservedAndPin]
  by_cases hd : d = c
  · subst hd
    rw [if_pos rfl, Region.modify_chunks_self, Region.modify_chunks_self,
      Region.modify_chunks_self, Chunk.becomeResident_incPin]
    exact Chunk.decPin_incPin (r.chunks d).becomeResident hpin
  · rw [if_neg hd, Region.modify_chunks_of_ne _ hd, Region.modify_chunks_of_ne _ hd,
      Region.modify_chunks_of_ne _ hd]
    rfl

/-- The reserved chunk is committed and becomes `RESIDENT`. -/
theorem SyncSound.load (h : SyncSound cfg (some c) R s)
    (hroom : ∑ d ∈ R, cfg.table.len d + cfg.table.len c ≤ cfg.budgetBytes) :
    SyncSound cfg none (insert c R)
      { s with region := completeAbsent cfg (reserve cfg s.region c) c
               mapped := update s.mapped c true } := by
  have hc : c ∉ R := h.busy c rfl
  have hlt := cfg.sum_len_lt (insert c R)
  have hsum : ∑ d ∈ insert c R, cfg.table.len d = cfg.table.len c + ∑ d ∈ R, cfg.table.len d :=
    Finset.sum_insert hc
  have hpin : ((reserve cfg s.region c).chunks c).pin < 2 ^ 32 := by
    show (s.region.chunks c).pin < 2 ^ 32
    rw [h.pin c]
    exact Nat.two_pow_pos 32
  have hchunks := unpinned_chunks cfg hpin
  rcases completeAbsent_any cfg (reserve cfg s.region c) c with ⟨p, hcomplete⟩
  rw [hcomplete]
  constructor
  case state =>
    intro d
    show ((unpinChunk _ c).chunks d).state = _
    rw [hchunks]
    by_cases hd : d = c
    · subst hd
      simp [Chunk.becomeResident]
    · simpa [hd, Ne.symm hd, reserve] using h.state d
  case pin =>
    intro d
    show ((unpinChunk _ c).chunks d).pin = 0
    rw [hchunks]
    by_cases hd : d = c
    · rw [if_pos hd]
      exact h.pin c
    · rw [if_neg hd]
      exact h.pin d
  case mapped =>
    intro d
    show update s.mapped c true d = true ↔ _
    by_cases hd : d = c
    · subst hd
      simp
    · simpa [hd] using h.mapped d
  case busy => simp
  case resident =>
    show wrap64 (s.region.residentBytes + cfg.table.len c) = _
    rw [h.resident, hsum, wrap64_of_lt (by omega), Nat.add_comm]
  case reserved =>
    show sub64 (wrap64 (s.region.reservedBytes + cfg.table.len c)) (cfg.table.len c) = _
    rw [h.reserved, Nat.zero_add, wrap64_of_lt (by omega), sub64_of_le le_rfl (by omega),
      Nat.sub_self]
  case fits =>
    rw [hsum, Nat.add_comm]
    exact hroom
  case fifo => exact h.fifo

/-- What one reference to `c` counts: nothing for a hit. -/
structure Counted (R : Finset (Fin n)) (cfg : Config n σ) (c : Fin n) (s s' : SyncState n σ) :
    Prop where
  refTrace : s'.refTrace = s.refTrace ++ [c.1]
  absentHandled : s'.region.stats.absentHandled =
    s.region.stats.absentHandled + if c ∈ R then 0 else 1
  bytesFetched : s'.region.stats.bytesFetched =
    s.region.stats.bytesFetched + if c ∈ R then 0 else cfg.table.len c

theorem SyncSound.handleAbsent (hpol : Shipped cfg.policy) (hpf : cfg.NoPrefetch) (h : SyncSound cfg none R s)
    (hc : c ∉ R) (hfit : cfg.table.len c ≤ cfg.budgetBytes) (now : ℕ) :
    ∃ D s', Residctl.handleAbsent cfg now s c = some s' ∧
      SyncSound cfg none (insert c D) s' ∧ Evicted cfg c R D ∧
      Counted R cfg c s { s' with refTrace := s'.refTrace ++ [c.1] } := by
  rcases h.start hc now with ⟨hstart, hsame₀⟩
  rcases hstart.ensure hpol with ⟨D, s₁, hs₁, h₁, hsame₁, hev, hroom⟩
  have hsame := hsame₀.trans hsame₁
  rw [answered, if_pos hfit, decide_eq_true hfit] at hs₁
  rcases completeAbsent_any cfg (reserve cfg s₁.region c) c with ⟨p, hcomplete⟩
  refine ⟨D, { s₁ with region := completeAbsent cfg (reserve cfg s₁.region c) c
                       mapped := update s₁.mapped c true }, ?_, h₁.load (hroom hfit), hev,
    ?_, ?_, ?_⟩
  · rw [hpf.handleAbsent, ensureBudgetRetry_of_ok hs₁]
    rfl
  · show s₁.refTrace ++ [c.1] = _
    rw [hsame.refTrace]
  · rw [if_neg hc, hcomplete, ← hsame.absentHandled]
    rfl
  · rw [if_neg hc, hcomplete, ← hsame.bytesFetched]
    rfl

/-- The fetch of a chunk larger than the budget is abandoned. -/
theorem SyncSound.handleAbsent_refused (hpol : Shipped cfg.policy) (hpf : cfg.NoPrefetch) (h : SyncSound cfg none R s)
    (hc : c ∉ R) (hlarge : cfg.budgetBytes < cfg.table.len c) (now : ℕ) :
    ∃ s', Residctl.handleAbsent cfg now s c = some s' ∧ s'.mapped c = false := by
  rcases (h.start hc now).1.retry_refused hpol hlarge (if cfg.prefetchDepth > 1 then 200 else 0)
    with ⟨s₁, hs₁, D, h₁⟩
  refine ⟨_, by rw [hpf.handleAbsent, hs₁]; rfl, ?_⟩
  have hm := (h₁.mapped c).not.2 (h₁.busy c rfl)
  simpa using hm

/-! ## One reference -/

/-- Nothing is retained: an access signal is for the policy only. -/
theorem SyncSound.notify (h : SyncSound cfg none R s) (c : Fin n) :
    SyncSound cfg none R { s with region := notifyAccess cfg s.region c } ∧
      SameWork s { s with region := notifyAccess cfg s.region c } := by
  have hkeep : ∀ r : Region n σ, r.pinnedPrefetch = [] →
      (if cfg.prefetchRetentionPinned then prefetchRetainRelease r c else r) = r := by
    intro r hr
    simp [prefetchRetainRelease, hr]
  have hnotify : ∃ p, notifyAccess cfg s.region c = { s.region with policyState := p } := by
    unfold notifyAccess
    split
    · exact ⟨_, hkeep _ h.fifo⟩
    · exact ⟨s.region.policyState, hkeep _ h.fifo⟩
  rcases hnotify with ⟨p, hnotify⟩
  rw [hnotify]
  exact ⟨{ h with }, rfl, rfl, rfl⟩

/-- A reference to a chunk that fits is served. -/
theorem SyncSound.step (clock : ℕ → ℕ) (hpol : Shipped cfg.policy) (hpf : cfg.NoPrefetch) (h : SyncSound cfg none R s)
    (hfit : cfg.table.len c ≤ cfg.budgetBytes) :
    ∃ R' s', replayStep cfg clock s c = some s' ∧ SyncSound cfg none R' s' ∧
      (c ∈ R → R' = R) ∧ (c ∉ R → ∃ D, Evicted cfg c R D ∧ R' = insert c D) ∧
      Counted R cfg c s s' := by
  rcases h.notify c with ⟨h₁, hsame⟩
  set s₁ : SyncState n σ := { s with region := notifyAccess cfg s.region c } with hs₁
  by_cases hc : c ∈ R
  · -- the page is mapped, and the pager does not run
    have hm : s₁.mapped c = true := (h₁.mapped c).2 hc
    refine ⟨R, { s₁ with refTrace := s₁.refTrace ++ [c.1] }, ?_, { h₁ with }, fun _ => rfl,
      fun hnot => absurd hc hnot, ?_, ?_, ?_⟩
    · rw [replayStep, ← hs₁, if_pos hm, Option.bind_some, if_pos hm]
    · rw [hsame.refTrace]
    · rw [if_pos hc]
      exact hsame.absentHandled
    · rw [if_pos hc]
      exact hsame.bytesFetched
  · have hm : ¬ s₁.mapped c = true := fun hm => hc ((h₁.mapped c).1 hm)
    have hstate : (s₁.region.chunks c).state = .absent := by
      rw [h₁.state c, if_neg hc, if_neg (by simp)]
    rcases h₁.handleAbsent hpol hpf hc hfit (clock s₁.region.faultSeq) with
      ⟨D, s₂, hs₂, h₂, hev, hcounted⟩
    have hm₂ : s₂.mapped c = true := (h₂.mapped c).2 (Finset.mem_insert_self c D)
    have hfault : handleFaultSync cfg (clock s₁.region.faultSeq) s₁ c = some s₂ := by
      simp only [handleFaultSync, hstate]
      exact hs₂
    refine ⟨insert c D, { s₂ with refTrace := s₂.refTrace ++ [c.1] }, ?_, { h₂ with },
      fun hin => absurd hin hc, fun _ => ⟨D, hev, rfl⟩, ?_, ?_, ?_⟩
    · rw [replayStep, ← hs₁, if_neg hm, hfault, Option.bind_some, if_pos hm₂]
    · rw [hcounted.refTrace, hsame.refTrace]
    · rw [hcounted.absentHandled, hsame.absentHandled]
    · rw [hcounted.bytesFetched, hsame.bytesFetched]

/-- A reference to a chunk that does not fit faults for ever. -/
theorem SyncSound.step_stuck (hpol : Shipped cfg.policy) (hpf : cfg.NoPrefetch) (h : SyncSound cfg none R s)
    (hlarge : cfg.budgetBytes < cfg.table.len c) : replayStep cfg clock s c = none := by
  rcases h.notify c with ⟨h₁, -⟩
  set s₁ : SyncState n σ := { s with region := notifyAccess cfg s.region c } with hs₁
  have hc : c ∉ R := by
    intro hc
    have hle := Finset.single_le_sum (f := cfg.table.len) (fun _ _ => Nat.zero_le _) hc
    have hfits := h.fits
    omega
  have hm : ¬ s₁.mapped c = true := fun hm => hc ((h₁.mapped c).1 hm)
  have hstate : (s₁.region.chunks c).state = .absent := by
    rw [h₁.state c, if_neg hc, if_neg (by simp)]
  rcases h₁.handleAbsent_refused hpol hpf hc hlarge (clock s₁.region.faultSeq) with ⟨s₂, hs₂, hm₂⟩
  have hfault : handleFaultSync cfg (clock s₁.region.faultSeq) s₁ c = some s₂ := by
    simp only [handleFaultSync, hstate]
    exact hs₂
  rw [replayStep, ← hs₁, if_neg hm, hfault, Option.bind_some, if_neg (by simp [hm₂])]

/-! ## Whole runs -/

/-- References to chunks that fit are served, for the cost of an on-demand schedule. -/
theorem SyncSound.run (clock : ℕ → ℕ) (hpol : Shipped cfg.policy) (hpf : cfg.NoPrefetch) (refs : List (Fin n))
    (h : SyncSound cfg none R s) (hfit : ∀ c ∈ refs, cfg.table.len c ≤ cfg.budgetBytes) :
    ∃ R' s' m k, refs.foldlM (replayStep cfg clock) s = some s' ∧ SyncSound cfg none R' s' ∧
      s'.refTrace = s.refTrace ++ refs.map Fin.val ∧
      Serves cfg.table.len cfg.budgetBytes R refs m ∧
      s'.region.stats.bytesFetched = s.region.stats.bytesFetched + m ∧
      s'.region.stats.absentHandled = s.region.stats.absentHandled + k ∧
      ∀ L, (∀ c, cfg.table.len c = L) → m = k * L := by
  induction refs generalizing R s with
  | nil => exact ⟨R, s, 0, 0, rfl, h, by simp, Serves.nil, rfl, rfl, by simp⟩
  | cons c refs ih =>
    have hc : cfg.table.len c ≤ cfg.budgetBytes := hfit c List.mem_cons_self
    rcases h.step clock hpol hpf hc with ⟨R₁, s₁, hs₁, h₁, hhit, hmiss, hcounted⟩
    have hloaded : R₁ ⊆ insert c R ∧ c ∈ R₁ := by
      by_cases hin : c ∈ R
      · rw [hhit hin]
        exact ⟨Finset.subset_insert c R, hin⟩
      · rcases hmiss hin with ⟨D, hev, rfl⟩
        exact ⟨Finset.insert_subset_insert c hev.subset, Finset.mem_insert_self c D⟩
    rcases ih h₁ fun d hd => hfit d (List.mem_cons_of_mem c hd) with
      ⟨R', s', m, k, hs', h', htrace, hm, hbytes, hcount, hequal⟩
    refine ⟨R', s', _, (if c ∈ R then 0 else 1) + k, ?_, h', ?_,
      Serves.cons hloaded.1 (fun _ => hloaded.2) h₁.fits hm, ?_, ?_, ?_⟩
    · rw [List.foldlM_cons, hs₁]
      exact hs'
    · rw [htrace, hcounted.refTrace, List.map_cons, List.append_assoc]
      rfl
    · rw [hbytes, hcounted.bytesFetched, Nat.add_assoc]
    · rw [hcount, hcounted.absentHandled, Nat.add_assoc]
    · intro L hL
      rw [hequal L hL, Nat.add_mul, hL c]
      split_ifs <;> simp

theorem SyncSound.run_stuck (hpol : Shipped cfg.policy) (hpf : cfg.NoPrefetch) (refs : List (Fin n))
    (h : SyncSound cfg none R s) (hlarge : ∃ c ∈ refs, cfg.budgetBytes < cfg.table.len c) :
    refs.foldlM (replayStep cfg clock) s = none := by
  induction refs generalizing R s with
  | nil =>
    rcases hlarge with ⟨c, hc, -⟩
    cases hc
  | cons c refs ih =>
    rw [List.foldlM_cons]
    by_cases hc : cfg.table.len c ≤ cfg.budgetBytes
    · rcases h.step clock hpol hpf hc with ⟨R₁, s₁, hs₁, h₁, -⟩
      rw [hs₁]
      refine ih h₁ ?_
      rcases hlarge with ⟨d, hd, hlt⟩
      rcases List.mem_cons.1 hd with rfl | hd
      · exact absurd hc (Nat.not_le.2 hlt)
      · exact ⟨d, hd, hlt⟩
    · rw [h.step_stuck hpol hpf (Nat.lt_of_not_le hc)]
      rfl

theorem mem_passes {nPasses : ℕ} : c ∈ passes n nPasses ↔ 0 < nPasses := by
  simp only [passes, List.mem_flatMap, List.mem_range, List.mem_finRange, and_true]
  constructor
  · rintro ⟨i, hi⟩
    exact Nat.zero_lt_of_lt hi
  · intro h
    exact ⟨0, h⟩

/-- What a replay that comes to its end leaves. -/
structure SyncResult (cfg : Config n σ) (refs : List (Fin n)) (s : SyncState n σ) : Prop where
  /-- every reference was recorded, in order -/
  refTrace : s.refTrace = refs.map Fin.val
  /-- a chunk is `RESIDENT` or `ABSENT`, and mapped exactly when it is `RESIDENT` -/
  settled : ∀ c, (s.region.chunks c).state = if s.mapped c then .resident else .absent
  unpinned : ∀ c, (s.region.chunks c).pin = 0
  accounted : s.region.residentBytes = s.shmem cfg
  unreserved : s.region.reservedBytes = 0
  budget : s.region.residentBytes ≤ cfg.budgetBytes
  /-- the bytes fetched are those of an on-demand schedule within the budget -/
  served : Serves cfg.table.len cfg.budgetBytes ∅ refs s.region.stats.bytesFetched
  equal : ∀ L, (∀ c, cfg.table.len c = L) →
    s.region.stats.bytesFetched = s.region.stats.absentHandled * L

/-- With chunks of one length the faults are the cost of a schedule over slots. -/
theorem SyncResult.slots {refs : List (Fin n)} {L : ℕ} (h : SyncResult cfg refs s) (hL : 0 < L)
    (hlen : ∀ c, cfg.table.len c = L) :
    Serves (fun _ => 1) (cfg.budgetBytes / L) (∅ : Finset ℕ) (refs.map Fin.val)
      s.region.stats.absentHandled := by
  rcases h.served.to_slots hL (by simp) fun c _ => hlen c with ⟨k, hk, hslots⟩
  have hcount : k = s.region.stats.absentHandled :=
    Nat.eq_of_mul_eq_mul_right hL (hk.symm.trans (h.equal L hlen))
  have hmap := Serves.map (w := fun _ => 1) (Fin.valEmbedding (n := n)) hslots
  rwa [Finset.map_empty, hcount] at hmap

theorem replayCyclic_result (clock : ℕ → ℕ) (hpol : Shipped cfg.policy) (hpf : cfg.NoPrefetch) {nPasses : ℕ} (p : σ)
    (hfit : nPasses = 0 ∨ ∀ c, cfg.table.len c ≤ cfg.budgetBytes) :
    ∃ s, replayCyclic cfg clock nPasses (SyncState.init n p) = some s ∧
      SyncResult cfg (passes n nPasses) s := by
  have hall : ∀ c ∈ passes n nPasses, cfg.table.len c ≤ cfg.budgetBytes := by
    intro c hc
    rcases hfit with h0 | hall
    · exact absurd (mem_passes.1 hc) (by omega)
    · exact hall c
  rcases SyncSound.run clock hpol hpf (passes n nPasses) (SyncSound.init cfg p) hall with
    ⟨R, s, m, k, hs, h, htrace, hm, hbytes, hcount, hequal⟩
  have hm' : s.region.stats.bytesFetched = m := hbytes.trans (Nat.zero_add m)
  have hk' : s.region.stats.absentHandled = k := hcount.trans (Nat.zero_add k)
  refine ⟨s, by rw [replayCyclic_eq]; exact hs, htrace, ?_, h.pin, ?_, h.reserved, ?_, ?_, ?_⟩
  · intro c
    rw [h.state c]
    by_cases hc : c ∈ R
    · rw [if_pos hc, if_pos ((h.mapped c).2 hc)]
    · rw [if_neg hc, if_neg (by simp), if_neg fun hmap => hc ((h.mapped c).1 hmap)]
  · rw [h.resident, h.shmem_eq]
  · rw [h.resident]
    exact h.fits
  · rw [hm']
    exact hm
  · intro L hL
    rw [hm', hk']
    exact hequal L hL

theorem replayCyclic_stuck (hpol : Shipped cfg.policy) (hpf : cfg.NoPrefetch) {nPasses : ℕ} {p : σ}
    (hfit : ¬ (nPasses = 0 ∨ ∀ c, cfg.table.len c ≤ cfg.budgetBytes)) :
    replayCyclic cfg clock nPasses (SyncState.init n p) = none := by
  push Not at hfit
  rcases hfit with ⟨hne, c, hlarge⟩
  rw [replayCyclic_eq]
  exact SyncSound.run_stuck hpol hpf (passes n nPasses) (SyncSound.init cfg p)
    ⟨c, mem_passes.2 (Nat.pos_of_ne_zero hne), hlarge⟩

theorem replayCyclic_some (hpol : Shipped cfg.policy) (hpf : cfg.NoPrefetch) {nPasses : ℕ} {p : σ}
    (hs : replayCyclic cfg clock nPasses (SyncState.init n p) = some s) :
    SyncResult cfg (passes n nPasses) s := by
  by_cases hfit : nPasses = 0 ∨ ∀ c, cfg.table.len c ≤ cfg.budgetBytes
  · rcases replayCyclic_result clock hpol hpf p hfit with ⟨s', hs', hresult⟩
    rw [hs] at hs'
    cases hs'
    exact hresult
  · rw [replayCyclic_stuck hpol hpf hfit] at hs
    cases hs

/-- Under any policy of the program a replay comes to its end exactly when every chunk fits into
the budget, and what it fetches is then the cost of a schedule. -/
theorem replayCyclic_sound (cfg : Config n σ) (hpol : Shipped cfg.policy) (hpf : cfg.NoPrefetch) (clock : ℕ → ℕ)
    (nPasses : ℕ) (p : σ) :
    ((replayCyclic cfg clock nPasses (SyncState.init n p)).isSome ↔
      nPasses = 0 ∨ ∀ c, cfg.table.len c ≤ cfg.budgetBytes) ∧
    ∀ s, replayCyclic cfg clock nPasses (SyncState.init n p) = some s →
      SyncResult cfg (passes n nPasses) s := by
  refine ⟨⟨fun hsome => ?_, fun hfit => ?_⟩, fun s hs => replayCyclic_some hpol hpf hs⟩
  · by_contra hfit
    rw [replayCyclic_stuck hpol hpf hfit] at hsome
    cases hsome
  · rcases replayCyclic_result clock hpol hpf p hfit with ⟨s, hs, -⟩
    rw [hs]
    rfl

theorem replayCyclic_sound_threePages :
    ((replayCyclic threePages (fun _ => 0) 2 (SyncState.init 3
        (loDeclaredDeclareSequence (loDeclaredInit 3) (List.range 3)))).isSome ↔
      2 = 0 ∨ ∀ c, threePages.table.len c ≤ threePages.budgetBytes) ∧
    ∀ s, replayCyclic threePages (fun _ => 0) 2 (SyncState.init 3
        (loDeclaredDeclareSequence (loDeclaredInit 3) (List.range 3))) = some s →
      SyncResult threePages (passes 3 2) s :=
  replayCyclic_sound threePages (.declared ⟨false, true⟩) (Or.inl rfl) (fun _ => 0) 2 _

end Residctl
