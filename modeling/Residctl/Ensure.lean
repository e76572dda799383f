import Residctl.Pins

/-!
# The budget calls from beginning to end

`ensure_budget` and `ensure_budget_prefetch` with `budget_lock` held throughout, from any
state of the pager. `shmem` reads `memory.stat`; `none` is an abort, or the end of the
fuel. Each call also returns its evictions.

Both calls evict chunks of a fixed set, one at a time, until the request fits or nothing
of the set is left. `ensure_budget` draws from everything that is not pinned and, when
retention is on, from the retained chunks; `ensure_budget_prefetch` from what its target
may displace. The calls are those of the threads: `ensureJob_exec` finds a call of a job in the
steps that its thread takes alone.
-/

namespace Residctl.Pager

open Mutex Function Runs Ledger Scan Relation

variable {n : ℕ} {σ : Type}

/-! ## The calls -/

/-- `reconcile` and the reset of `fetches_since_reconcile`. -/
def reconcileNow (cfg : Config n σ) (shmem : Shared n σ → ℕ) (sh : Shared n σ) :
    Option (Shared n σ) :=
  if reconcileOk cfg sh.region (shmem sh) then some (sh.setRegion (reconciled sh.region)) else none

/-- `evict_chunk` and the reconciliation after it. -/
def evictAndReconcile (cfg : Config n σ) (shmem : Shared n σ → ℕ) (sh : Shared n σ) (v : Fin n) :
    Option (Shared n σ) :=
  if (sh.region.chunks v).Evictable then reconcileNow cfg shmem (evictChunk cfg sh v) else none

/-- An eviction of a budget call. -/
structure Eviction (n : ℕ) (σ : Type) where
  /-- when the victim was selected -/
  before : Shared n σ
  victim : Fin n
  /-- the victim's retention pin was broken -/
  broken : Bool

/-- The loop of both calls, with `head` for what one evaluation of its head decides. -/
def ensureLoop (cfg : Config n σ) (shmem : Shared n σ → ℕ) (need : ℕ)
    (head : Region n σ → Decision n) :
    ℕ → Shared n σ → Option (Shared n σ × Bool × List (Eviction n σ))
  | 0, _ => none
  | fuel + 1, sh =>
    match head sh.region with
    | .reserve =>
      some (sh.setRegion { sh.region with
        reservedBytes := wrap64 (sh.region.reservedBytes + need) }, true, [])
    | .evict v => do
      let sh₁ ← evictAndReconcile cfg shmem sh v
      let (sh', ok, log) ← ensureLoop cfg shmem need head fuel sh₁
      some (sh', ok, ⟨sh, v, false⟩ :: log)
    | .breakPin v => do
      let sh₁ ← evictAndReconcile cfg shmem (sh.setRegion (breakPin sh.region v)) v
      let (sh', ok, log) ← ensureLoop cfg shmem need head fuel sh₁
      some (sh', ok, ⟨sh, v, true⟩ :: log)
    | .infeasible => some (sh.setRegion (countInfeasible sh.region), false, [])
    | .decline => some (sh.setRegion (countDeclined sh.region), false, [])

/-- The periodic reconciliation, then the loop. -/
def ensureCall (cfg : Config n σ) (shmem : Shared n σ → ℕ) (need : ℕ)
    (head : Region n σ → Decision n) (sh : Shared n σ) :
    Option (Shared n σ × Bool × List (Eviction n σ)) :=
  let sh := sh.setRegion (countFetch sh.region)
  if reconcileDue cfg sh.region then
    (reconcileNow cfg shmem sh).bind (ensureLoop cfg shmem need head (n + 1))
  else ensureLoop cfg shmem need head (n + 1) sh

def ensureBudget (cfg : Config n σ) (shmem : Shared n σ → ℕ) (need : ℕ) (sh : Shared n σ) :
    Option (Shared n σ × Bool × List (Eviction n σ)) :=
  ensureCall cfg shmem need (demandHead cfg need) sh

def ensureBudgetPrefetch (cfg : Config n σ) (shmem : Shared n σ → ℕ) (target : Fin n)
    (sh : Shared n σ) : Option (Shared n σ × Bool × List (Eviction n σ)) :=
  ensureCall cfg shmem (cfg.table.len target) (fun r => prefetchDecision cfg r target) sh

/-! ## The calls are the machine's -/

/-- A thread that runs alone goes from one point of its job to the next. -/
def ExecStep (cfg : Config n σ) (shmem : Shared n σ → ℕ) (j : Job n)
    (x y : Shared n σ × Instr n) : Prop :=
  execJob cfg { shmem := shmem x.1 } x.1 j x.2 = .next y.1 (.job j y.2)

/-- The budget call of a job. -/
def ensureJob (cfg : Config n σ) (shmem : Shared n σ → ℕ) (j : Job n) (sh : Shared n σ) :
    Option (Shared n σ × Bool × List (Eviction n σ)) :=
  if j.speculative then ensureBudgetPrefetch cfg shmem j.target sh
  else ensureBudget cfg shmem (cfg.table.len j.target) sh

section

variable {cfg : Config n σ} {shmem : Shared n σ → ℕ} {j : Job n} {a : ℕ} {need : ℕ}
  {head : Region n σ → Decision n} {sh sh' : Shared n σ} {ok : Bool}
  {log : List (Eviction n σ)}

theorem reconcileNow_exec (h : reconcileNow cfg shmem sh = some sh') :
    ExecStep cfg shmem j (sh, .reconcile a) (sh', .fit a) := by
  unfold reconcileNow at h
  split at h
  · rename_i hok
    cases h
    exact if_pos hok
  · cases h

theorem evictAndReconcile_exec {v : Fin n} (h : evictAndReconcile cfg shmem sh v = some sh') :
    ReflTransGen (ExecStep cfg shmem j) (sh, .evict a v) (sh', .fit a) := by
  unfold evictAndReconcile at h
  split at h
  · rename_i hv
    have hevict : ExecStep cfg shmem j (sh, .evict a v) (evictChunk cfg sh v, .reconcile a) :=
      if_pos hv
    exact .head hevict (.single (reconcileNow_exec h))
  · cases h

/-- Every iteration of the loop is a passage through the head of the machine's. -/
theorem ensureLoop_exec
    (hhead : ∀ r, head r = if j.speculative then prefetchDecision cfg r j.target
      else demandDecision cfg r j.target) {fuel : ℕ}
    (h : ensureLoop cfg shmem (cfg.table.len j.target) head fuel sh = some (sh', ok, log)) :
    ReflTransGen (ExecStep cfg shmem j) (sh, .fit a) (sh', ensured cfg a ok j) := by
  induction fuel generalizing sh log with
  | zero => cases h
  | succ fuel ih =>
    have hfit : ∀ y i, budgetLoop cfg sh j a = .next y (.job j i) →
        ExecStep cfg shmem j (sh, .fit a) (y, i) := fun y i hy => hy
    unfold budgetLoop at hfit
    rw [ensureLoop] at h
    rw [← hhead] at hfit
    cases hd : head sh.region with
    | reserve =>
      rw [hd] at h hfit
      cases h
      exact .single (hfit _ _ rfl)
    | evict v =>
      rw [hd] at h hfit
      obtain ⟨sh₁, h₁, h⟩ := Option.bind_eq_some_iff.1 h
      obtain ⟨⟨sh₂, ok₂, log₂⟩, h₂, h⟩ := Option.bind_eq_some_iff.1 h
      cases h
      exact .head (hfit _ _ rfl) ((evictAndReconcile_exec h₁).trans (ih h₂))
    | breakPin v =>
      rw [hd] at h hfit
      obtain ⟨sh₁, h₁, h⟩ := Option.bind_eq_some_iff.1 h
      obtain ⟨⟨sh₂, ok₂, log₂⟩, h₂, h⟩ := Option.bind_eq_some_iff.1 h
      cases h
      exact .head (hfit _ _ rfl) ((evictAndReconcile_exec h₁).trans (ih h₂))
    | infeasible =>
      rw [hd] at h hfit
      cases h
      exact .single (hfit _ _ rfl)
    | decline =>
      rw [hd] at h hfit
      cases h
      exact .single (hfit _ _ rfl)

/-- The call of a job is what its thread executes alone, from the point of the call to the
point behind it. -/
theorem ensureJob_exec (h : ensureJob cfg shmem j sh = some (sh', ok, log)) :
    ReflTransGen (ExecStep cfg shmem j) (sh, .ensure a) (sh', ensured cfg a ok j) := by
  have hcall : ∃ head : Region n σ → Decision n,
      (∀ r, head r = if j.speculative then prefetchDecision cfg r j.target
        else demandDecision cfg r j.target) ∧
      ensureCall cfg shmem (cfg.table.len j.target) head sh = some (sh', ok, log) := by
    unfold ensureJob at h
    split at h
    · rename_i hspec
      exact ⟨fun r => prefetchDecision cfg r j.target, fun r => (if_pos hspec).symm, h⟩
    · rename_i hspec
      exact ⟨demandHead cfg (cfg.table.len j.target), fun r => (if_neg hspec).symm, h⟩
  obtain ⟨head, hhead, h⟩ := hcall
  have hensure : ExecStep cfg shmem j (sh, .ensure a) (sh.setRegion (countFetch sh.region),
      if reconcileDue cfg (countFetch sh.region) then .reconcile a else .fit a) := rfl
  refine .head hensure ?_
  unfold ensureCall at h
  by_cases hdue : reconcileDue cfg (countFetch sh.region)
  · rw [if_pos hdue]
    obtain ⟨sh₁, h₁, h⟩ := Option.bind_eq_some_iff.1 ((if_pos hdue).symm.trans h)
    exact .head (reconcileNow_exec h₁) (ensureLoop_exec hhead h)
  · rw [if_neg hdue]
    exact ensureLoop_exec hhead ((if_neg hdue).symm.trans h)

end

/-! ## The policies of the program -/

/-- What `region_t.policy` can be. -/
inductive Shipped : {σ : Type} → Option (Policy n σ) → Prop
  /-- no policy configured -/
  | unset {σ : Type} : Shipped (none : Option (Policy n σ))
  | lru : Shipped (some (policyLru n))
  | learned : Shipped (some (policyLayerOrderLearned n))
  | declared (g : LoSettings) : Shipped (some (policyLayerOrderDeclared n g))

/-- The chunks that `ensure_budget` may evict. -/
def takeable (cfg : Config n σ) (r : Region n σ) : Finset (Fin n) :=
  {c | (r.chunks c).Evictable ∨ (cfg.prefetchRetentionPinned = true ∧
    c ∈ r.pinnedPrefetch.toFinset)}

/-- The chunks that `ensure_budget_prefetch` may evict for `target`. -/
def displaceable (cfg : Config n σ) (r : Region n σ) (target : Fin n) : Finset (Fin n) :=
  {c | (r.chunks c).Evictable ∧ admits cfg r target c}

section

variable {cfg : Config n σ} {r r' : Region n σ} {c v target : Fin n}

@[simp] theorem mem_takeable : c ∈ takeable cfg r ↔ (r.chunks c).Evictable ∨
    (cfg.prefetchRetentionPinned = true ∧ c ∈ r.pinnedPrefetch) := by
  rw [takeable, Finset.mem_filter_univ, List.mem_toFinset]

@[simp] theorem mem_displaceable :
    c ∈ displaceable cfg r target ↔ (r.chunks c).Evictable ∧ admits cfg r target c := by
  rw [displaceable, Finset.mem_filter_univ]

/-- No selector misses a victim. -/
theorem Shipped.selectVictim_none (hpol : Shipped cfg.policy) (h : cfg.selectVictim r = none)
    (c : Fin n) : ¬ (r.chunks c).Evictable := by
  unfold Config.selectVictim at h
  generalize cfg.policy = policy at hpol h
  cases hpol with
  | unset =>
    have hall := List.find?_eq_none.1 h c (List.mem_finRange c)
    simpa using hall
  | lru =>
    exact scanVictim_none (fun i => OrderDual.toDual (r.chunks i).lastFaultSeq)
      (fun _ _ => Iff.rfl) h c
  | learned => exact scanVictim_none (loLearnedComputeDist r.policyState) (fun _ _ => Iff.rfl) h c
  | declared g => exact loDeclaredSelectVictim_none h c

/-- The walk numbers the chunks below `CHUNK_NONE`. -/
theorem loLearnedWalk_le (st : LoLearned n) (hops : ℕ) {node : Fin n} {d : ℕ} {dist : Fin n → ℕ}
    (hd : d + hops ≤ 2 ^ 32) (hdist : ∀ x, dist x ≤ CHUNK_NONE) (x : Fin n) :
    loLearnedWalk st hops node d dist x ≤ CHUNK_NONE := by
  induction hops generalizing node d dist with
  | zero => exact hdist x
  | succ hops ih =>
    cases hnext : st.successor node with
    | none =>
      simp only [loLearnedWalk, hnext]
      exact hdist x
    | some next =>
      by_cases hseen : dist next ≠ CHUNK_NONE
      · simp only [loLearnedWalk, hnext, if_pos hseen]
        exact hdist x
      · simp only [loLearnedWalk, hnext, if_neg hseen]
        refine ih (by omega) fun y => ?_
        rw [update_apply]
        split
        · unfold CHUNK_NONE
          omega
        · exact hdist y

theorem loLearnedComputeDist_le (hn : n < 2 ^ 32) (st : LoLearned n) (x : Fin n) :
    loLearnedComputeDist st x ≤ CHUNK_NONE := by
  cases hlast : st.lastFetched with
  | none => simp only [loLearnedComputeDist, hlast, le_rfl]
  | some node =>
    simp only [loLearnedComputeDist, hlast]
    exact loLearnedWalk_le st n (by omega) (fun _ => le_rfl) x

/-- The distance that the admission rule compares follows the one that selects victims. -/
theorem loLearnedNextUseDistance_mono (hn : n < 2 ^ 32) (st : LoLearned n) {x y : Fin n}
    (h : loLearnedComputeDist st x ≤ loLearnedComputeDist st y) :
    loLearnedNextUseDistance st x ≤ loLearnedNextUseDistance st y := by
  have hx := loLearnedComputeDist_le hn st x
  have hy := loLearnedComputeDist_le hn st y
  unfold loLearnedNextUseDistance INT64_MAX
  unfold CHUNK_NONE at *
  split <;> split <;> omega

/-- The selected victim is as far away as any other chunk that could go. -/
theorem Shipped.selectVictim_farthest (hn : n < 2 ^ 32) (hpol : Shipped cfg.policy)
    (h : cfg.selectVictim r = some v) (hc : (r.chunks c).Evictable) :
    cfg.nextUseDistance r c ≤ cfg.nextUseDistance r v := by
  unfold Config.selectVictim at h
  unfold Config.nextUseDistance
  generalize cfg.policy = policy at hpol h
  cases hpol with
  | unset => exact le_rfl
  | lru => exact le_rfl
  | learned =>
    have hfar := (scanVictim_some (loLearnedComputeDist r.policyState) (fun _ _ => Iff.rfl) h).2
    exact loLearnedNextUseDistance_mono hn r.policyState (hfar c hc)
  | declared g => exact (loDeclaredSelectVictim_some h).2 c hc

/-- Admission is up to the policy's own state. -/
theorem Shipped.nextUseDistance_congr (hpol : Shipped cfg.policy)
    (h : r'.policyState = r.policyState) (c : Fin n) :
    cfg.nextUseDistance r' c = cfg.nextUseDistance r c := by
  unfold Config.nextUseDistance
  rw [h]
  generalize cfg.policy = policy at hpol
  cases hpol <;> rfl

theorem Shipped.admits_congr (hpol : Shipped cfg.policy) (h : r'.policyState = r.policyState)
    (target c : Fin n) : admits cfg r' target c ↔ admits cfg r target c := by
  unfold admits
  rw [hpol.nextUseDistance_congr h, hpol.nextUseDistance_congr h]

/-- If the selected victim is not admitted, no chunk is. -/
theorem Shipped.not_displaceable (hn : n < 2 ^ 32) (hpol : Shipped cfg.policy)
    (h : cfg.selectVictim r = some v) (hv : ¬ admits cfg r target v) (c : Fin n) :
    c ∉ displaceable cfg r target := by
  rw [mem_displaceable]
  rintro ⟨hc, hadm⟩
  have hfar := hpol.selectVictim_farthest hn h hc
  unfold admits at hv hadm
  push Not at hv
  rcases hadm with halways | hnone | hfarther
  · exact hv.1 halways
  · exact hv.2.1 hnone
  · exact absurd hfarther (not_lt.2 (hfar.trans hv.2.2))

end

/-! ## What a loop leaves behind -/

/-- What a budget call relies on when it begins. -/
structure Steady (cfg : Config n σ) (sh : Shared n σ) : Prop where
  nodup : sh.region.pinnedPrefetch.Nodup
  retained : ∀ c ∈ sh.region.pinnedPrefetch,
    (sh.region.chunks c).state = .resident ∧ (sh.region.chunks c).pin = 1
  sum_le : ∀ G : Finset (Fin n), (∀ c ∈ G, (sh.region.chunks c).state = .resident) →
    ∑ c ∈ G, cfg.table.len c ≤ sh.region.residentBytes
  small : sh.region.residentBytes + sh.region.reservedBytes < 2 ^ 63

/-- Since `sh₀` the chunks of `G` have been evicted. Everything else is as it was. -/
structure Evicted (cfg : Config n σ) (sh₀ : Shared n σ) (G : Finset (Fin n))
    (sh : Shared n σ) : Prop where
  was : ∀ c ∈ G, (sh₀.region.chunks c).state = .resident
  gone : ∀ c ∈ G, (sh.region.chunks c).state = .absent
  kept : ∀ c ∉ G, sh.region.chunks c = sh₀.region.chunks c
  fifo : sh.region.pinnedPrefetch = sh₀.region.pinnedPrefetch.filter (· ∉ G)
  resident : sh.region.residentBytes + ∑ c ∈ G, cfg.table.len c = sh₀.region.residentBytes
  reserved : sh.region.reservedBytes = sh₀.region.reservedBytes
  policyState : sh.region.policyState = sh₀.region.policyState
  alloc : ∀ q, sh.kernel.alloc q = true ↔ sh₀.kernel.alloc q = true ∧
    ∀ c ∈ G, ¬ PageWithin (cfg.table.regionOff c) (cfg.table.len c) q

/-- `memory.stat` is what `reconcile` takes it for. -/
def Accurate (shmem : Shared n σ → ℕ) : Prop :=
  ∀ sh, sh.region.residentBytes ≤ shmem sh ∧
    shmem sh ≤ sh.region.residentBytes + sh.region.reservedBytes

/-- The least that `memory.stat` can report: no fetch in flight has populated a page. -/
def residentStat (sh : Shared n σ) : ℕ := sh.region.residentBytes

theorem accurate_residentStat : Accurate (residentStat : Shared n σ → ℕ) :=
  fun _ => ⟨le_rfl, Nat.le_add_right _ _⟩

/-- The request does not fit. -/
def Over (cfg : Config n σ) (need : ℕ) (r : Region n σ) : Prop :=
  cfg.budgetBytes < r.residentBytes + r.reservedBytes + need

section

variable {cfg : Config n σ} {shmem : Shared n σ → ℕ} {need : ℕ} {sh₀ sh sh' : Shared n σ}
  {G F : Finset (Fin n)} {c v : Fin n} {s : State n σ}

theorem Sound.steady (h : Sound cfg s) : Steady cfg s.sh where
  nodup := h.life.nodup
  retained c hc := by
    obtain ⟨hst, hpins⟩ := h.life.retained c hc
    refine ⟨hst, ?_⟩
    have hpin : (s.sh.region.chunks c).pin =
        s.sh.region.pinnedPrefetch.count c + (s.role c).pins := h.life.pin c
    have hone : s.sh.region.pinnedPrefetch.count c = 1 :=
      List.count_eq_one_of_mem h.life.nodup hc
    have hzero : (s.role c).pins = 0 := hpins
    omega
  sum_le G hG := by
    show _ ≤ (s.sh.life s.role).resident
    rw [h.life.resident, total, ← Finset.sum_filter]
    refine Finset.sum_le_sum_of_subset fun c hc => ?_
    exact Finset.mem_filter.2 ⟨Finset.mem_univ c, Or.inl (hG c hc)⟩
  small := h.counters_lt

theorem Evicted.refl (cfg : Config n σ) (sh : Shared n σ) : Evicted cfg sh ∅ sh where
  was := by simp
  gone := by simp
  kept := by simp
  fifo := by simp
  resident := by simp
  reserved := rfl
  policyState := rfl
  alloc := by simp

/-- Counters that the loops do not read may change. -/
theorem Evicted.of_eq (h : Evicted cfg sh₀ G sh) (hchunks : sh'.region.chunks = sh.region.chunks)
    (hfifo : sh'.region.pinnedPrefetch = sh.region.pinnedPrefetch)
    (hres : sh'.region.residentBytes = sh.region.residentBytes)
    (hrsv : sh'.region.reservedBytes = sh.region.reservedBytes)
    (hpol : sh'.region.policyState = sh.region.policyState)
    (hkernel : sh'.kernel = sh.kernel) : Evicted cfg sh₀ G sh' := by
  obtain ⟨hwas, hgone, hkept, hfifo₀, hres₀, hrsv₀, hpol₀, halloc⟩ := h
  constructor
  · exact hwas
  · rwa [hchunks]
  · rwa [hchunks]
  · rwa [hfifo]
  · rwa [hres]
  · rwa [hrsv]
  · rwa [hpol]
  · rwa [hkernel]

theorem Evicted.evictable_iff (h : Evicted cfg sh₀ G sh) (c : Fin n) :
    (sh.region.chunks c).Evictable ↔ c ∉ G ∧ (sh₀.region.chunks c).Evictable := by
  by_cases hc : c ∈ G
  · have hgone := h.gone c hc
    simp [Chunk.Evictable, hgone, hc]
  · rw [h.kept c hc]
    simp [hc]

theorem Evicted.mem_fifo (h : Evicted cfg sh₀ G sh) (c : Fin n) :
    c ∈ sh.region.pinnedPrefetch ↔ c ∉ G ∧ c ∈ sh₀.region.pinnedPrefetch := by
  rw [h.fifo, List.mem_filter, decide_eq_true_iff, and_comm]

/-- A retained chunk that is left is `RESIDENT` with its one pin. -/
theorem Evicted.retained (h : Evicted cfg sh₀ G sh) (hs : Steady cfg sh₀)
    (hc : c ∈ sh.region.pinnedPrefetch) :
    (sh.region.chunks c).state = .resident ∧ (sh.region.chunks c).pin = 1 := by
  obtain ⟨hcG, hc₀⟩ := (h.mem_fifo c).1 hc
  rw [h.kept c hcG]
  exact hs.retained c hc₀

theorem Evicted.small (h : Evicted cfg sh₀ G sh) (hs : Steady cfg sh₀) :
    sh.region.residentBytes + sh.region.reservedBytes < 2 ^ 63 := by
  have hres := h.resident
  have hrsv := h.reserved
  have hsmall := hs.small
  omega

/-- One more chunk is punched. Before that its retention pin may have been dropped. -/
theorem Evicted.punch (h : Evicted cfg sh₀ G sh) (hs : Steady cfg sh₀) (hvG : v ∉ G)
    (hst : (sh.region.chunks v).state = .resident) {r : Region n σ}
    (hchunks : ∀ c ≠ v, r.chunks c = sh.region.chunks c)
    (hfifo : r.pinnedPrefetch = sh.region.pinnedPrefetch.filter (· != v))
    (hres : r.residentBytes = sh.region.residentBytes)
    (hrsv : r.reservedBytes = sh.region.reservedBytes)
    (hpol : r.policyState = sh.region.policyState) :
    Evicted cfg sh₀ (insert v G) (evictChunk cfg (sh.setRegion r) v) := by
  rw [h.kept v hvG] at hst
  -- the victim was resident at the start, as the others were
  have hwas : ∀ c ∈ insert v G, (sh₀.region.chunks c).state = .resident := by
    intro c hc
    rcases Finset.mem_insert.1 hc with rfl | hc
    · exact hst
    · exact h.was c hc
  have hsum := hs.sum_le (insert v G) hwas
  have hbytes := h.resident
  have hsmall := hs.small
  rw [Finset.sum_insert hvG] at hsum
  constructor
  · exact hwas
  · intro c hc
    show ((r.modify v fun k => { k with state := .absent }).chunks c).state = .absent
    by_cases hcv : c = v
    · rw [hcv, Region.modify_chunks_self]
    · rw [Region.modify_chunks_of_ne r hcv, hchunks c hcv]
      exact h.gone c ((Finset.mem_insert.1 hc).resolve_left hcv)
  · intro c hc
    rw [Finset.mem_insert, not_or] at hc
    show (r.modify v fun k => { k with state := .absent }).chunks c = sh₀.region.chunks c
    rw [Region.modify_chunks_of_ne r hc.1, hchunks c hc.1, h.kept c hc.2]
  · show r.pinnedPrefetch = _
    rw [hfifo, h.fifo, List.filter_filter]
    refine List.filter_congr fun c _ => ?_
    rw [Bool.eq_iff_iff]
    simp [Finset.mem_insert, not_or]
  · show sub64 r.residentBytes (cfg.table.len v) + _ = _
    rw [Finset.sum_insert hvG, hres, sub64_of_le (by omega) (by omega)]
    omega
  · exact hrsv.trans h.reserved
  · exact hpol.trans h.policyState
  · intro q
    have hold := h.alloc q
    show (if PageWithin (cfg.table.regionOff v) (cfg.table.len v) q then false
      else sh.kernel.alloc q) = true ↔ _
    simp only [Finset.mem_insert, forall_eq_or_imp]
    split
    · rename_i hq
      simp [hq]
    · rename_i hq
      simp [hq, hold]

theorem Evicted.evict (h : Evicted cfg sh₀ G sh) (hs : Steady cfg sh₀)
    (hv : (sh.region.chunks v).Evictable) :
    Evicted cfg sh₀ (insert v G) (evictChunk cfg sh v) := by
  have hnot : v ∉ sh.region.pinnedPrefetch := fun hm => by
    have hpin := (h.retained hs hm).2
    rw [hv.2] at hpin
    cases hpin
  have hfifo : sh.region.pinnedPrefetch = sh.region.pinnedPrefetch.filter (· != v) := by
    refine (List.filter_eq_self.2 fun c hc => bne_iff_ne.2 ?_).symm
    rintro rfl
    exact hnot hc
  exact h.punch hs ((h.evictable_iff v).1 hv).1 hv.1 (fun _ _ => rfl) hfifo rfl rfl rfl

/-- Once its pin is broken a retained chunk is evicted like any other. -/
theorem Evicted.breakPin (h : Evicted cfg sh₀ G sh) (hs : Steady cfg sh₀)
    (hv : v ∈ sh.region.pinnedPrefetch) :
    ((breakPin sh.region v).chunks v).Evictable ∧
      Evicted cfg sh₀ (insert v G) (evictChunk cfg (sh.setRegion (breakPin sh.region v)) v) := by
  obtain ⟨hst, hpin⟩ := h.retained hs hv
  have hnodup : sh.region.pinnedPrefetch.Nodup := by
    rw [h.fifo]
    exact hs.nodup.filter _
  have hbreak : Residctl.breakPin sh.region v =
      { unpinChunk sh.region v with
        pinnedPrefetch := sh.region.pinnedPrefetch.erase v
        stats := { sh.region.stats with pinBroken := sh.region.stats.pinBroken + 1 } } := by
    unfold Residctl.breakPin prefetchRetainRelease
    rw [if_pos hv]
    rfl
  rw [hbreak]
  constructor
  · show ((unpinChunk sh.region v).chunks v).Evictable
    rw [unpinChunk, Region.modify_chunks_self]
    unfold Chunk.decPin Chunk.Evictable
    simp only [hst, hpin, true_and]
    norm_num
  · refine h.punch hs ((h.mem_fifo v).1 hv).1 hst (fun c hc => ?_) ?_ rfl rfl rfl
    · exact Region.modify_chunks_of_ne sh.region hc Chunk.decPin
    · exact hnodup.erase_eq_filter v

/-- Reconciliation passes at every state of a loop. -/
theorem Evicted.reconcileNow (h : Evicted cfg sh₀ G sh) (hs : Steady cfg sh₀)
    (hstat : Accurate shmem) :
    ∃ sh', reconcileNow cfg shmem sh = some sh' ∧ Evicted cfg sh₀ G sh' := by
  have hok : reconcileOk cfg sh.region (shmem sh) :=
    reconcileOk_of_mem (hstat sh).1 (hstat sh).2 (h.small hs)
  exact ⟨_, if_pos hok, h.of_eq rfl rfl rfl rfl rfl rfl⟩

theorem exceeds_iff {r : Region n σ} (hneed : r.residentBytes + r.reservedBytes + need < 2 ^ 64) :
    exceeds cfg r need ↔ Over cfg need r := by
  rw [exceeds, wrap64_of_lt (v := r.residentBytes + _) (by omega), wrap64_of_lt hneed]
  exact Iff.rfl

end

/-! ## The loops -/

/-- What the head of a loop may decide when the chunks of `F` could go and `G` has gone. -/
def HeadSpec (cfg : Config n σ) (need : ℕ) (F G : Finset (Fin n)) (sh : Shared n σ) :
    Decision n → Prop
  | .reserve => ¬ Over cfg need sh.region
  | .evict v => Over cfg need sh.region ∧ v ∈ F ∧ (sh.region.chunks v).Evictable
  | .breakPin v => Over cfg need sh.region ∧ v ∈ F ∧ v ∈ sh.region.pinnedPrefetch ∧
      ∀ c, ¬ (sh.region.chunks c).Evictable
  | .infeasible => Over cfg need sh.region ∧ F ⊆ G
  | .decline => Over cfg need sh.region ∧ F ⊆ G

/-- The request did not fit before the eviction, and no pin was broken for it while another
chunk could go. -/
def Eviction.Justified (cfg : Config n σ) (need : ℕ) (e : Eviction n σ) : Prop :=
  Over cfg need e.before.region ∧
    (e.broken = true → ∀ c, ¬ (e.before.region.chunks c).Evictable)

/-- A call that draws on the chunks of `F` is granted when the request fits without them. -/
structure Ends (cfg : Config n σ) (need : ℕ) (F : Finset (Fin n)) (sh₀ sh : Shared n σ) (ok : Bool)
    (log : List (Eviction n σ)) : Prop where
  granted : ok = true ↔ sh₀.region.residentBytes + sh₀.region.reservedBytes + need ≤
    cfg.budgetBytes + ∑ c ∈ F, cfg.table.len c
  refused : ok = false → Evicted cfg sh₀ F sh
  justified : ∀ e ∈ log, e.Justified cfg need

section

variable {cfg : Config n σ} {shmem : Shared n σ → ℕ} {need : ℕ} {sh₀ sh sh' : Shared n σ}
  {F G : Finset (Fin n)} {c v target : Fin n} {head : Region n σ → Decision n}

theorem Ends.of_fits (h : Evicted cfg sh₀ G sh) (hG : G ⊆ F) (hfit : ¬ Over cfg need sh.region) :
    Ends cfg need F sh₀ sh' true [] where
  granted := by
    have hsub : ∑ c ∈ G, cfg.table.len c ≤ ∑ c ∈ F, cfg.table.len c :=
      Finset.sum_le_sum_of_subset hG
    have hres := h.resident
    have hrsv := h.reserved
    unfold Over at hfit
    simp only [true_iff]
    omega
  refused hfalse := by cases hfalse
  justified := by simp

theorem Ends.of_exhausted (h : Evicted cfg sh₀ G sh) (hG : G ⊆ F) (hF : F ⊆ G)
    (hover : Over cfg need sh.region) (h' : Evicted cfg sh₀ G sh') :
    Ends cfg need F sh₀ sh' false [] where
  granted := by
    have hres := h.resident
    have hrsv := h.reserved
    rw [Finset.Subset.antisymm hG hF] at hres
    unfold Over at hover
    simp only [Bool.false_eq_true, false_iff]
    omega
  refused _ := Finset.Subset.antisymm hG hF ▸ h'
  justified := by simp

theorem Ends.cons {ok : Bool} {log : List (Eviction n σ)} {e : Eviction n σ}
    (h : Ends cfg need F sh₀ sh ok log) (he : e.Justified cfg need) :
    Ends cfg need F sh₀ sh ok (e :: log) where
  granted := h.granted
  refused := h.refused
  justified e' he' := by
    rcases List.mem_cons.1 he' with rfl | he'
    · exact he
    · exact h.justified e' he'

/-- Every continuing iteration takes a chunk of `F` that was not gone, so the loop ends. -/
theorem ensureLoop_ends (hs : Steady cfg sh₀) (hstat : Accurate shmem)
    (hhead : ∀ sh G, Evicted cfg sh₀ G sh → HeadSpec cfg need F G sh (head sh.region))
    (fuel : ℕ) (hG : G ⊆ F) (h : Evicted cfg sh₀ G sh) (hfuel : n < fuel + G.card) :
    ∃ sh' ok log, ensureLoop cfg shmem need head fuel sh = some (sh', ok, log) ∧
      Ends cfg need F sh₀ sh' ok log := by
  induction fuel generalizing sh G with
  | zero =>
    have hcard : G.card ≤ n := by simpa using Finset.card_le_univ G
    omega
  | succ fuel ih =>
    have hspec := hhead sh G h
    -- the rest of the loop after the eviction of a chunk
    have hrest : ∀ (v : Fin n) (sh₁ : Shared n σ), v ∈ F → v ∉ G →
        (sh₁.region.chunks v).Evictable →
        Evicted cfg sh₀ (insert v G) (evictChunk cfg sh₁ v) →
        ∃ sh₂, evictAndReconcile cfg shmem sh₁ v = some sh₂ ∧ ∃ sh' ok log,
          ensureLoop cfg shmem need head fuel sh₂ = some (sh', ok, log) ∧
            Ends cfg need F sh₀ sh' ok log := by
      intro v sh₁ hvF hvG hv h₁
      obtain ⟨sh₂, hrec, h₂⟩ := h₁.reconcileNow hs hstat
      refine ⟨sh₂, (if_pos hv).trans hrec, ih (Finset.insert_subset hvF hG) h₂ ?_⟩
      rw [Finset.card_insert_of_notMem hvG]
      omega
    rw [ensureLoop]
    cases hd : head sh.region with
    | reserve =>
      rw [hd] at hspec
      exact ⟨_, true, [], rfl, .of_fits h hG hspec⟩
    | evict v =>
      rw [hd] at hspec
      obtain ⟨hover, hvF, hv⟩ := hspec
      obtain ⟨sh₂, hevict, sh', ok, log, hloop, hends⟩ :=
        hrest v sh hvF ((h.evictable_iff v).1 hv).1 hv (h.evict hs hv)
      refine ⟨sh', ok, ⟨sh, v, false⟩ :: log, ?_, hends.cons ⟨hover, by simp⟩⟩
      simp only [hevict, hloop, Option.bind_eq_bind, Option.bind_some]
    | breakPin v =>
      rw [hd] at hspec
      obtain ⟨hover, hvF, hv, hnone⟩ := hspec
      obtain ⟨hbroken, h₁⟩ := h.breakPin hs hv
      obtain ⟨sh₂, hevict, sh', ok, log, hloop, hends⟩ :=
        hrest v (sh.setRegion (breakPin sh.region v)) hvF ((h.mem_fifo v).1 hv).1 hbroken h₁
      refine ⟨sh', ok, ⟨sh, v, true⟩ :: log, ?_, hends.cons ⟨hover, fun _ => hnone⟩⟩
      simp only [hevict, hloop, Option.bind_eq_bind, Option.bind_some]
    | infeasible =>
      rw [hd] at hspec
      exact ⟨_, false, [], rfl,
        .of_exhausted h hG hspec.2 hspec.1 (h.of_eq rfl rfl rfl rfl rfl rfl)⟩
    | decline =>
      rw [hd] at hspec
      exact ⟨_, false, [], rfl,
        .of_exhausted h hG hspec.2 hspec.1 (h.of_eq rfl rfl rfl rfl rfl rfl)⟩

theorem ensureCall_ends (hs : Steady cfg sh₀) (hstat : Accurate shmem)
    (hhead : ∀ sh G, Evicted cfg sh₀ G sh → HeadSpec cfg need F G sh (head sh.region)) :
    ∃ sh ok log, ensureCall cfg shmem need head sh₀ = some (sh, ok, log) ∧
      Ends cfg need F sh₀ sh ok log := by
  have hcount : Evicted cfg sh₀ ∅ (sh₀.setRegion (countFetch sh₀.region)) :=
    (Evicted.refl cfg sh₀).of_eq rfl rfl rfl rfl rfl rfl
  have hfuel : n < n + 1 + (∅ : Finset (Fin n)).card := by simp
  unfold ensureCall
  by_cases hdue : reconcileDue cfg (countFetch sh₀.region)
  · obtain ⟨sh₁, hrec, h₁⟩ := hcount.reconcileNow hs hstat
    obtain ⟨sh, ok, log, hloop, hends⟩ :=
      ensureLoop_ends hs hstat hhead (n + 1) (Finset.empty_subset F) h₁ hfuel
    refine ⟨sh, ok, log, ?_, hends⟩
    exact (if_pos hdue).trans ((congrArg (Option.bind · _) hrec).trans hloop)
  · obtain ⟨sh, ok, log, hloop, hends⟩ :=
      ensureLoop_ends hs hstat hhead (n + 1) (Finset.empty_subset F) hcount hfuel
    exact ⟨sh, ok, log, (if_neg hdue).trans hloop, hends⟩

theorem Evicted.pinBreak_none (h : Evicted cfg sh₀ G sh) (hs : Steady cfg sh₀)
    (hnone : pinBreakSelectVictim cfg sh.region = none) (c : Fin n) :
    c ∉ sh.region.pinnedPrefetch := by
  intro hc
  exact scanBest_none (fun i => cfg.nextUseDistance sh.region i) (fun _ _ => Iff.rfl) hnone c hc
    (h.retained hs hc).1

theorem demandHead_spec (hs : Steady cfg sh₀) (hpol : Shipped cfg.policy)
    (hneed : sh₀.region.residentBytes + sh₀.region.reservedBytes + need < 2 ^ 64)
    (h : Evicted cfg sh₀ G sh) :
    HeadSpec cfg need (takeable cfg sh₀.region) G sh (demandHead cfg need sh.region) := by
  have hover : exceeds cfg sh.region need ↔ Over cfg need sh.region := by
    have hres := h.resident
    have hrsv := h.reserved
    exact exceeds_iff (by omega)
  -- what is left of the takeable chunks can be selected, or is retained
  have hleft : ∀ c ∈ takeable cfg sh₀.region, c ∉ G → (sh.region.chunks c).Evictable ∨
      (cfg.prefetchRetentionPinned = true ∧ c ∈ sh.region.pinnedPrefetch) := by
    intro c hc hcG
    rcases mem_takeable.1 hc with hev | ⟨hpinned, hc⟩
    · exact Or.inl ((h.evictable_iff c).2 ⟨hcG, hev⟩)
    · exact Or.inr ⟨hpinned, (h.mem_fifo c).2 ⟨hcG, hc⟩⟩
  unfold demandHead
  split
  · rename_i hexc
    cases hsel : cfg.selectVictim sh.region with
    | some v =>
      have hv := Config.selectVictim_evictable hsel
      exact ⟨hover.1 hexc, mem_takeable.2 (Or.inl ((h.evictable_iff v).1 hv).2), hv⟩
    | none =>
      have hnone := hpol.selectVictim_none hsel
      by_cases hpinned : cfg.prefetchRetentionPinned = true
      · simp only [hpinned, if_true]
        cases hbreak : pinBreakSelectVictim cfg sh.region with
        | some v =>
          obtain ⟨-, hv⟩ := pinBreakSelectVictim_some hbreak
          refine ⟨hover.1 hexc, mem_takeable.2 ?_, hv, hnone⟩
          exact Or.inr ⟨hpinned, ((h.mem_fifo v).1 hv).2⟩
        | none =>
          refine ⟨hover.1 hexc, fun c hc => ?_⟩
          by_contra hcG
          rcases hleft c hc hcG with hev | ⟨-, hmem⟩
          · exact hnone c hev
          · exact h.pinBreak_none hs hbreak c hmem
      · simp only [hpinned, Bool.false_eq_true, if_false]
        refine ⟨hover.1 hexc, fun c hc => ?_⟩
        by_contra hcG
        rcases hleft c hc hcG with hev | ⟨hpin, -⟩
        · exact hnone c hev
        · exact hpinned hpin
  · rename_i hexc
    exact fun ho => hexc (hover.2 ho)

theorem prefetchDecision_spec (hn : n < 2 ^ 32) (hs : Steady cfg sh₀) (hpol : Shipped cfg.policy)
    (h : Evicted cfg sh₀ G sh) :
    HeadSpec cfg (cfg.table.len target) (displaceable cfg sh₀.region target) G sh
      (prefetchDecision cfg sh.region target) := by
  have hover : overBudget cfg sh.region target ↔ Over cfg (cfg.table.len target) sh.region := by
    have hlen := cfg.len_lt target
    have hsmall := h.small hs
    exact exceeds_iff (by omega)
  have hadm := fun c => hpol.admits_congr h.policyState target c
  -- what is left of the displaceable chunks still is displaceable
  have hleft : ∀ c ∈ displaceable cfg sh₀.region target, c ∉ G →
      c ∈ displaceable cfg sh.region target := by
    intro c hc hcG
    rw [mem_displaceable] at hc ⊢
    exact ⟨(h.evictable_iff c).2 ⟨hcG, hc.1⟩, (hadm c).2 hc.2⟩
  unfold prefetchDecision
  split
  · rename_i hexc
    cases hsel : cfg.selectVictim sh.region with
    | some v =>
      have hv := Config.selectVictim_evictable hsel
      by_cases hva : admits cfg sh.region target v
      · simp only [hva, if_true]
        refine ⟨hover.1 hexc, mem_displaceable.2 ?_, hv⟩
        exact ⟨((h.evictable_iff v).1 hv).2, (hadm v).1 hva⟩
      · simp only [hva, if_false]
        refine ⟨hover.1 hexc, fun c hc => ?_⟩
        by_contra hcG
        exact hpol.not_displaceable hn hsel hva c (hleft c hc hcG)
    | none =>
      refine ⟨hover.1 hexc, fun c hc => ?_⟩
      by_contra hcG
      exact hpol.selectVictim_none hsel c (mem_displaceable.1 (hleft c hc hcG)).1
  · rename_i hexc
    exact fun ho => hexc (hover.2 ho)

theorem ensureBudget_ends (hs : Steady cfg sh₀) (hpol : Shipped cfg.policy)
    (hstat : Accurate shmem)
    (hneed : sh₀.region.residentBytes + sh₀.region.reservedBytes + need < 2 ^ 64) :
    ∃ sh ok log, ensureBudget cfg shmem need sh₀ = some (sh, ok, log) ∧
      Ends cfg need (takeable cfg sh₀.region) sh₀ sh ok log := by
  unfold ensureBudget
  exact ensureCall_ends hs hstat fun sh G h => demandHead_spec hs hpol hneed h

theorem ensureBudgetPrefetch_ends (hn : n < 2 ^ 32) (hs : Steady cfg sh₀)
    (hpol : Shipped cfg.policy) (hstat : Accurate shmem) :
    ∃ sh ok log, ensureBudgetPrefetch cfg shmem target sh₀ = some (sh, ok, log) ∧
      Ends cfg (cfg.table.len target) (displaceable cfg sh₀.region target) sh₀ sh ok log := by
  unfold ensureBudgetPrefetch
  exact ensureCall_ends hs hstat fun sh G h => prefetchDecision_spec hn hs hpol h

end

/-! ## From every reachable state -/

section

variable {cfg : Config n σ} {shmem : Shared n σ → ℕ} {need : ℕ} {s : State n σ}

open Classical in
/-- What is resident is what `ensure_budget` may evict and what it may not. -/
theorem residentBytes_eq (cfg : Config n σ) (p : σ) (h : Reachable (pager cfg p) s) :
    s.sh.region.residentBytes = ∑ c ∈ takeable cfg s.sh.region, cfg.table.len c +
      total cfg.table.len (fun c => ((s.sh.region.chunks c).state = .resident ∨ s.Committed c) ∧
        c ∉ takeable cfg s.sh.region) := by
  have hs : Sound cfg s := Reach.sound h
  have htake : ∀ c ∈ takeable cfg s.sh.region, (s.sh.region.chunks c).state = .resident := by
    intro c hc
    rcases mem_takeable.1 hc with hev | ⟨-, hc⟩
    · exact hev.1
    · exact (hs.steady.retained c hc).1
  have hsum : ∑ c ∈ takeable cfg s.sh.region, cfg.table.len c =
      total cfg.table.len (· ∈ takeable cfg s.sh.region) := by
    rw [total, Finset.sum_ite_mem, Finset.univ_inter]
  rw [hsum, ← total_or fun c hc hc' => hc'.2 hc]
  refine hs.life.resident.trans (total_congr fun c => ?_)
  have hcounted : (s.sh.life s.role).Counted c ↔
      (s.sh.region.chunks c).state = .resident ∨ s.Committed c :=
    or_congr Iff.rfl (hs.committed_iff c)
  rw [hcounted]
  by_cases hc : c ∈ takeable cfg s.sh.region
  · simp [hc, htake c hc]
  · simp [hc]

open Classical in
/-- `ensure_budget` ends. While the sum that it compares with the budget does not wrap, it fails
only when the request does not fit beside what can neither be evicted nor have its retention
pin broken, it evicts only while the request does not fit, and it breaks a pin only when nothing
else can go. -/
theorem ensureBudget_exact (cfg : Config n σ) (p : σ) (hpol : Shipped cfg.policy)
    (hstat : Accurate shmem) (h : Reachable (pager cfg p) s)
    (hneed : s.sh.region.residentBytes + s.sh.region.reservedBytes + need < 2 ^ 64) :
    ∃ sh ok log, ensureBudget cfg shmem need s.sh = some (sh, ok, log) ∧
      (ok = true ↔ need + s.sh.region.reservedBytes +
        total cfg.table.len (fun c => ((s.sh.region.chunks c).state = .resident ∨ s.Committed c) ∧
          c ∉ takeable cfg s.sh.region) ≤ cfg.budgetBytes) ∧
      ∀ e ∈ log, e.Justified cfg need := by
  have hs : Steady cfg s.sh := (Reach.sound h).steady
  obtain ⟨sh, ok, log, hcall, hends⟩ := ensureBudget_ends hs hpol hstat hneed
  refine ⟨sh, ok, log, hcall, ?_, hends.justified⟩
  have hres := residentBytes_eq cfg p h
  rw [hends.granted]
  constructor
  · intro hfit
    omega
  · intro hfit
    omega

/-- Worker 0 drops its pin of chunk 0; chunk 1 is retained. -/
def unpinZero : List (Action 4) :=
  retainOne ++ [.acquire (.worker 0), .exec (.worker 0) {}]

theorem unpinZero_runs : (run (pager fourAhead fourAheadCycle) unpinZero
    (pager fourAhead fourAheadCycle).init).isSome = true := by
  decide +kernel

def oneRetained : State 4 LoDeclared := (run (pager fourAhead fourAheadCycle) unpinZero
  (pager fourAhead fourAheadCycle).init).get unpinZero_runs

/-- With the whole budget asked for, chunk 0 is evicted and the pin of chunk 1 broken. -/
theorem ensureBudget_fourAhead : ∃ s : State 4 LoDeclared, s.sh.region.pinnedPrefetch = [1] ∧
    ∃ sh ok log, ensureBudget fourAhead residentStat 16384 s.sh = some (sh, ok, log) ∧
      (log.map fun e => (e.victim, e.broken)) = [(0, false), (1, true)] ∧
      ∀ e ∈ log, e.Justified fourAhead 16384 := by
  have hlog : ((ensureBudget fourAhead residentStat 16384 oneRetained.sh).map fun x =>
      x.2.2.map fun e => (e.victim, e.broken)) = some [(0, false), (1, true)] := by
    decide +kernel
  have hfits : oneRetained.sh.region.residentBytes + oneRetained.sh.region.reservedBytes + 16384 <
      2 ^ 64 := by decide +kernel
  obtain ⟨sh, ok, log, hcall, -, hjust⟩ := ensureBudget_exact fourAhead fourAheadCycle
    (.declared _) accurate_residentStat (reachable_get unpinZero unpinZero_runs) hfits
  refine ⟨oneRetained, by decide +kernel, sh, ok, log, hcall, ?_, hjust⟩
  rw [oneRetained, hcall] at hlog
  exact Option.some.inj hlog

open Classical in
/-- With one page reserved a request for all but one page of the 64-bit range makes the sum 0,
and it is granted. -/
theorem ensureBudget_wraps : ¬ ∀ (s : State 2 Unit) (need : ℕ), Reachable (pager twoPages ()) s →
    need < 2 ^ 64 → ∃ sh ok log, ensureBudget twoPages residentStat need s.sh = some (sh, ok, log) ∧
      (ok = true ↔ need + s.sh.region.reservedBytes +
        total twoPages.table.len (fun c =>
          ((s.sh.region.chunks c).state = .resident ∨ s.Committed c) ∧
            c ∉ takeable twoPages s.sh.region) ≤ twoPages.budgetBytes) ∧
      ∀ e ∈ log, e.Justified twoPages need := by
  intro hall
  obtain ⟨sh, ok, log, hcall, hgranted, -⟩ := hall _ 18446744073709547520
    (reachable_get reserveZero reserveZero_runs) (by norm_num)
  have hok : ((ensureBudget twoPages residentStat 18446744073709547520
      ((run (pager twoPages ()) reserveZero (pager twoPages ()).init).get reserveZero_runs).sh).map
        fun x => x.2.1) = some true := by
    decide +kernel
  rw [hcall] at hok
  have hfits := hgranted.1 (Option.some.inj hok)
  have hbudget : twoPages.budgetBytes = 4096 := rfl
  omega

/-- A refused prefetch has evicted every chunk that its target may displace, and nothing else
has changed. It is refused when it would not fit even so. -/
theorem ensureBudgetPrefetch_refused (cfg : Config n σ) (p : σ) (hn : n < 2 ^ 32)
    (hpol : Shipped cfg.policy) (hstat : Accurate shmem) (target : Fin n)
    (h : Reachable (pager cfg p) s) :
    ∃ sh ok log, ensureBudgetPrefetch cfg shmem target s.sh = some (sh, ok, log) ∧
      (ok = false ↔
        cfg.budgetBytes + ∑ c ∈ displaceable cfg s.sh.region target, cfg.table.len c <
          s.sh.region.residentBytes + s.sh.region.reservedBytes + cfg.table.len target) ∧
      (ok = false → Evicted cfg s.sh (displaceable cfg s.sh.region target) sh) ∧
      (ok = false → displaceable cfg s.sh.region target = ∅ →
        sh.region.chunks = s.sh.region.chunks ∧
          sh.region.residentBytes = s.sh.region.residentBytes ∧
          sh.region.reservedBytes = s.sh.region.reservedBytes ∧
          ∀ q, sh.kernel.alloc q = s.sh.kernel.alloc q) := by
  have hs : Steady cfg s.sh := (Reach.sound h).steady
  obtain ⟨sh, ok, log, hcall, hends⟩ := ensureBudgetPrefetch_ends hn hs hpol hstat
  refine ⟨sh, ok, log, hcall, ?_, hends.refused, fun hfalse hnone => ?_⟩
  · rw [← Bool.not_eq_true, hends.granted, not_le]
  · have hev := hends.refused hfalse
    rw [hnone] at hev
    refine ⟨funext fun c => hev.kept c (Finset.notMem_empty c), ?_, hev.reserved, fun q => ?_⟩
    · simpa using hev.resident
    · rw [Bool.eq_iff_iff, hev.alloc q]
      simp

end

/-- Two chunks of one page and one of two, a budget of two pages, and the declared order. -/
def unequalThree : Config 3 LoDeclared where
  table := {
    regionOff := ![0, 4096, 8192]
    len := ![4096, 4096, 8192]
    regionLen := 16384
    len_pos := by decide
    aligned := by decide
    regionOff_eq := by decide
    regionLen_eq := by decide
    regionLen_lt := by decide }
  registered := by decide
  truncated := by decide
  budgetBytes := 8192
  reconcileInterval := 1
  policy := some (policyLayerOrderDeclared 3 ⟨false, false⟩)
  asyncHandler := false
  pool := false
  workers := 0
  prefetchEnabled := true
  prefetchDepth := 1
  prefetchAdmissionAlways := false
  prefetchRetentionPinned := false
  fetchingTimeoutMs := 0
  modelFileSize := 16384
  fileByte := fun _ => 7

def inOrderThree : LoDeclared := loDeclaredDeclareSequence (loDeclaredInit 3) [0, 1, 2]

/-- Client 0 faults on chunk 0; the handler fetches it and then chunk 1. -/
def fetchFirstTwo : List (Action 3) :=
  [.tick 1, .exec (.client 0) {}, .exec (.client 0) {}] ++ List.replicate 3 (.exec .handler {}) ++
    [1, 1, 8, 3, 2, 9, 4, 2].flatMap fun k =>
      .acquire .handler :: List.replicate k (.exec .handler { count := 4096 })

theorem fetchFirstTwo_runs : (run (pager unequalThree inOrderThree) fetchFirstTwo
    (pager unequalThree inOrderThree).init).isSome = true := by
  decide +kernel

theorem ensureBudgetPrefetch_unequalThree : ∃ s : State 3 LoDeclared,
    s.sh.region.residentBytes = 8192 ∧ ∃ sh ok log,
      ensureBudgetPrefetch unequalThree residentStat 2 s.sh = some (sh, ok, log) ∧
      (ok = false → Evicted unequalThree s.sh (displaceable unequalThree s.sh.region 2) sh) := by
  obtain ⟨sh, ok, log, hcall, -, hrefused, -⟩ := ensureBudgetPrefetch_refused unequalThree
    inOrderThree (by decide) (.declared _) accurate_residentStat 2
    (reachable_get fetchFirstTwo fetchFirstTwo_runs)
  exact ⟨_, by decide +kernel, sh, ok, log, hcall, hrefused⟩

/-- Both chunks that fit are resident. -/
def firstTwo : State 3 LoDeclared := (run (pager unequalThree inOrderThree) fetchFirstTwo
  (pager unequalThree inOrderThree).init).get fetchFirstTwo_runs

theorem prefetchLast_returns :
    (ensureBudgetPrefetch unequalThree residentStat 2 firstTwo.sh).isSome = true := by
  decide +kernel

/-- Chunk 2 needs the bytes of both. Chunk 0 is needed later than it and is evicted; chunk 1 is
not, and the prefetch is declined. -/
theorem ensureBudgetPrefetch_costs : ¬ ∀ (s : State 3 LoDeclared) (target : Fin 3)
    (sh : Shared 3 LoDeclared) (log : List (Eviction 3 LoDeclared)),
    Reachable (pager unequalThree inOrderThree) s →
      ensureBudgetPrefetch unequalThree residentStat target s.sh = some (sh, false, log) →
      (∀ c, (sh.region.chunks c).state = (s.sh.region.chunks c).state) ∧
        sh.region.residentBytes = s.sh.region.residentBytes ∧
        sh.region.reservedBytes = s.sh.region.reservedBytes ∧
        ∀ q, sh.kernel.alloc q = s.sh.kernel.alloc q := by
  intro hall
  have hdeclined : ((ensureBudgetPrefetch unequalThree residentStat 2 firstTwo.sh).get
      prefetchLast_returns).2.1 = false := by
    decide +kernel
  have hcall := (Option.some_get prefetchLast_returns).symm
  rw [← Prod.mk.eta (p := Option.get _ prefetchLast_returns),
    ← Prod.mk.eta (p := (Option.get _ prefetchLast_returns).2), hdeclined] at hcall
  have hsame := (hall firstTwo 2 _ _ (reachable_get fetchFirstTwo fetchFirstTwo_runs) hcall).1 0
  revert hsame
  decide +kernel

end Residctl.Pager
