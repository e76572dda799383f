import Residctl.Belady
import Residctl.Budget
import Residctl.Declared

/-!
# Sequential replay through the synchronous handler

`replay_cyclic` with `--sync-handler` and no fetch pool: the workload signals and
reads one chunk after the other, and each fault is served to the end by
`handle_absent` before the read goes on. `mapped` is the page table of mapping A, a
chunk at a time; `memory.stat` reports the populated bytes. `none` is an abort, or a
read that faults for ever because its fetch was abandoned. The results are about runs
that prefetch nothing (`Config.NoPrefetch`).

With `layer_order_declared` and equal chunk lengths a run is a furthest-in-future
run over `budget / len` slots, hence as good as the offline optimum.
-/

namespace Residctl

open Paging Cyclic

variable {n : ℕ} {σ : Type}

structure SyncState (n : ℕ) (σ : Type) where
  region : Region n σ
  mapped : Fin n → Bool
  /-- the chunk ids of the reference trace -/
  refTrace : List ℕ

def SyncState.init (n : ℕ) (s : σ) : SyncState n σ := ⟨Region.init n s, fun _ => false, []⟩

/-- `memory.stat[shmem]`: the bytes fetched and not punched since. -/
def SyncState.shmem (cfg : Config n σ) (s : SyncState n σ) : ℕ :=
  ∑ c, if s.mapped c then cfg.table.len c else 0

/-- `reconcile` followed by the counter reset. -/
def reconcileSync (cfg : Config n σ) (s : SyncState n σ) : Option (SyncState n σ) :=
  if reconcileOk cfg s.region (s.shmem cfg) then some { s with region := reconciled s.region }
  else none

/-- `evict_chunk` and the reconciliation after it. -/
def evictSync (cfg : Config n σ) (s : SyncState n σ) (v : Fin n) : Option (SyncState n σ) :=
  if (s.region.chunks v).Evictable then
    reconcileSync cfg { s with region := evictBody cfg s.region v,
                               mapped := Function.update s.mapped v false }
  else none

/-- The loop of `ensure_budget` and `ensure_budget_prefetch`, which differ in the `head` of the
loop. Every continuing iteration evicts a chunk, so `n + 1` units of fuel reach the exit. -/
def ensureBudgetLoop (cfg : Config n σ) (head : Region n σ → Fin n → Decision n) (c : Fin n) :
    ℕ → SyncState n σ → Option (SyncState n σ × Bool)
  | 0, _ => none
  | fuel + 1, s =>
    match head s.region c with
    | .reserve => some ({ s with region := reserve cfg s.region c }, true)
    | .evict v => (evictSync cfg s v).bind (ensureBudgetLoop cfg head c fuel)
    | .breakPin v =>
      (evictSync cfg { s with region := breakPin s.region v } v).bind
        (ensureBudgetLoop cfg head c fuel)
    | .infeasible => some ({ s with region := countInfeasible s.region }, false)
    | .decline => some ({ s with region := countDeclined s.region }, false)

/-- A budget call: the periodic reconciliation, then the loop. -/
def budgetCall (cfg : Config n σ) (head : Region n σ → Fin n → Decision n) (c : Fin n)
    (s : SyncState n σ) : Option (SyncState n σ × Bool) :=
  let s := { s with region := countFetch s.region }
  if reconcileDue cfg s.region then
    (reconcileSync cfg s).bind (ensureBudgetLoop cfg head c (n + 1))
  else ensureBudgetLoop cfg head c (n + 1) s

/-- `ensure_budget`. -/
def ensureBudget (cfg : Config n σ) (c : Fin n) (s : SyncState n σ) :
    Option (SyncState n σ × Bool) :=
  budgetCall cfg (demandDecision cfg) c s

/-- `ensure_budget_prefetch`. -/
def ensureBudgetPrefetch (cfg : Config n σ) (c : Fin n) (s : SyncState n σ) :
    Option (SyncState n σ × Bool) :=
  budgetCall cfg (prefetchDecision cfg) c s

/-- The bounded retry of a failed request. -/
def ensureBudgetRetry (cfg : Config n σ) (c : Fin n) :
    ℕ → SyncState n σ → Option (SyncState n σ × Bool)
  | 0, s => ensureBudget cfg c s
  | attempts + 1, s => do
    let (s, ok) ← ensureBudget cfg c s
    if ok then some (s, true) else ensureBudgetRetry cfg c attempts s

/-- A fetched chunk is committed, becomes `RESIDENT` and is counted; a prefetch is not pinned by
the commit. -/
def markFetched (cfg : Config n σ) (commit : Region n σ) (c : Fin n) : Region n σ :=
  let r := commit.modify c Chunk.becomeResident
  { r with stats := { r.stats with bytesFetched := r.stats.bytesFetched + cfg.table.len c } }

/-- `on_resident`. -/
def tellResident (cfg : Config n σ) (r : Region n σ) (c : Fin n) : Region n σ :=
  match cfg.policy.bind Policy.onResident with
  | some onResident => { r with policyState := onResident r.policyState c }
  | none => r

/-- The fetch of `maybe_prefetch` once its target has the budget. -/
def completePrefetch (cfg : Config n σ) (r : Region n σ) (target : Fin n) : Region n σ :=
  let r := markFetched cfg (commitReserved cfg r target) target
  let r := if cfg.prefetchRetentionPinned then prefetchRetainOnResident cfg r target
    else unpinChunk r target
  let r := { r with stats := { r.stats with prefetches := r.stats.prefetches + 1 } }
  tellResident cfg r target

/-- The exit of `maybe_prefetch` when its target has not got the budget. -/
def abandonPrefetch (r : Region n σ) (target : Fin n) : Region n σ :=
  let r := (unpinChunk r target).modify target Chunk.abandonFetch
  { r with stats := { r.stats with prefetchInfeasible := r.stats.prefetchInfeasible + 1 } }

/-- `maybe_prefetch` at time `now`, after `jr` became resident. -/
def maybePrefetch (cfg : Config n σ) (now : ℕ) (s : SyncState n σ) (jr : Fin n) :
    Option (SyncState n σ) :=
  match cfg.policy.bind Policy.predictNext with
  | none => some s
  | some predict =>
    let p := predict s.region.policyState jr
    if p < 0 then some s
    else if h : p.toNat < n then
      let target : Fin n := ⟨p.toNat, h⟩
      if target = jr ∨ (s.region.chunks target).state ≠ .absent then some s
      else
        let r := (pinChunk s.region target).modify target fun k =>
          k.beginFetch now (s.region.faultSeq + 1)
        let r := pinChunk { r with faultSeq := s.region.faultSeq + 1 } jr
        (ensureBudgetPrefetch cfg target { s with region := r }).map fun (s, ok) =>
          let r := unpinChunk s.region jr
          if ok then
            { s with region := completePrefetch cfg r target
                     mapped := Function.update s.mapped target true }
          else { s with region := abandonPrefetch r target }
    else none

/-- The prefetch that follows a fetch. `prefetch_pool_top_up` returns when no pool runs. -/
def prefetchAfter (cfg : Config n σ) (now : ℕ) (s : SyncState n σ) (c : Fin n) :
    Option (SyncState n σ) :=
  if cfg.prefetchEnabled ∧ cfg.prefetchDepth ≤ 1 then maybePrefetch cfg now s c else some s

/-- `handle_absent` after `fetch_chunk`, up to the prefetch. -/
def fetchedAbsent (cfg : Config n σ) (r : Region n σ) (c : Fin n) : Region n σ :=
  tellResident cfg (markFetched cfg (commitReservedAndPin cfg r c) c) c

/-- `handle_absent` after the prefetch. -/
def finishAbsent (r : Region n σ) (c : Fin n) : Region n σ :=
  let r := unpinChunk r c
  { r with stats := { r.stats with absentHandled := r.stats.absentHandled + 1 } }

/-- The head of `handle_absent`: the chunk enters `FETCHING` and the policy hears of it. -/
def startAbsent (cfg : Config n σ) (now : ℕ) (r : Region n σ) (c : Fin n) : Region n σ :=
  let r := { r.modify c fun k => k.beginFetch now (r.faultSeq + 1) with faultSeq := r.faultSeq + 1 }
  match cfg.policy.bind Policy.onFault with
  | some onFault => { r with policyState := onFault r.policyState c }
  | none => r

/-- `handle_absent` at time `now`, for a chunk that is `ABSENT`. -/
def handleAbsent (cfg : Config n σ) (now : ℕ) (s : SyncState n σ) (c : Fin n) :
    Option (SyncState n σ) :=
  (ensureBudgetRetry cfg c (if cfg.prefetchDepth > 1 then 200 else 0)
    { s with region := startAbsent cfg now s.region c }).bind fun (s, ok) =>
      if ok then
        (prefetchAfter cfg now { s with region := fetchedAbsent cfg s.region c
                                        mapped := Function.update s.mapped c true } c).map
          fun s => { s with region := finishAbsent s.region c }
      else some { s with region := s.region.modify c Chunk.abandonFetch }

/-- `handle_fault`. -/
def handleFaultSync (cfg : Config n σ) (now : ℕ) (s : SyncState n σ) (c : Fin n) :
    Option (SyncState n σ) :=
  match (s.region.chunks c).state with
  | .resident => some { s with region := { s.region with
      stats := { s.region.stats with dedupResident := s.region.stats.dedupResident + 1 } } }
  | .fetching => some { s with region := { s.region with
      stats := { s.region.stats with dedupFetching := s.region.stats.dedupFetching + 1 } } }
  | .absent => handleAbsent cfg now s c

/-- `pager_notify_access`. -/
def notifyAccess (cfg : Config n σ) (r : Region n σ) (c : Fin n) : Region n σ :=
  let r := match cfg.policy.bind Policy.onAccess with
    | some onAccess => { r with policyState := onAccess r.policyState c }
    | none => r
  if cfg.prefetchRetentionPinned then prefetchRetainRelease r c else r

/-- One reference: signal, read the chunk, record the reference. `clock` gives the time
of each fault. -/
def replayStep (cfg : Config n σ) (clock : ℕ → ℕ) (s : SyncState n σ) (c : Fin n) :
    Option (SyncState n σ) :=
  let s := { s with region := notifyAccess cfg s.region c }
  (if s.mapped c then some s else handleFaultSync cfg (clock s.region.faultSeq) s c).bind fun s =>
    if s.mapped c then some { s with refTrace := s.refTrace ++ [c.1] } else none

def replayCyclic (cfg : Config n σ) (clock : ℕ → ℕ) (nPasses : ℕ) (s : SyncState n σ) :
    Option (SyncState n σ) :=
  (List.range nPasses).foldlM
    (fun s _ => (List.finRange n).foldlM (replayStep cfg clock) s) s

/-! ## Without prefetches -/

/-- Prefetching is off, or the policy predicts nothing. -/
def Config.NoPrefetch (cfg : Config n σ) : Prop :=
  cfg.prefetchEnabled = false ∨
    ∀ predict, cfg.policy.bind Policy.predictNext = some predict → ∀ st c, predict st c < 0

theorem Config.NoPrefetch.maybePrefetch {cfg : Config n σ}
    (h : ∀ predict, cfg.policy.bind Policy.predictNext = some predict → ∀ st c, predict st c < 0)
    (now : ℕ) (s : SyncState n σ) (c : Fin n) : Residctl.maybePrefetch cfg now s c = some s := by
  unfold Residctl.maybePrefetch
  split
  · rfl
  · rename_i predict hpredict
    exact if_pos (h predict hpredict _ c)

theorem Config.NoPrefetch.prefetchAfter {cfg : Config n σ} (h : cfg.NoPrefetch) (now : ℕ)
    (s : SyncState n σ) (c : Fin n) : Residctl.prefetchAfter cfg now s c = some s := by
  unfold Residctl.prefetchAfter
  rcases h with hoff | hnone
  · rw [if_neg (by simp [hoff])]
  · rw [Config.NoPrefetch.maybePrefetch hnone, ite_self]

/-- The tail of `handle_absent` after `fetch_chunk`, without a prefetch. -/
def completeAbsent (cfg : Config n σ) (r : Region n σ) (c : Fin n) : Region n σ :=
  finishAbsent (fetchedAbsent cfg r c) c

/-- A fault is served by one fetch. -/
theorem Config.NoPrefetch.handleAbsent {cfg : Config n σ} (h : cfg.NoPrefetch) (now : ℕ)
    (s : SyncState n σ) (c : Fin n) : Residctl.handleAbsent cfg now s c =
      (ensureBudgetRetry cfg c (if cfg.prefetchDepth > 1 then 200 else 0)
        { s with region := startAbsent cfg now s.region c }).map fun (s, ok) =>
          if ok then
            { s with region := completeAbsent cfg s.region c
                     mapped := Function.update s.mapped c true }
          else { s with region := s.region.modify c Chunk.abandonFetch } := by
  rw [Option.map_eq_bind]
  refine congrArg _ (funext fun ⟨s₁, ok⟩ => ?_)
  cases ok with
  | true =>
    simp only [if_true, h.prefetchAfter]
    rfl
  | false => rfl

/-! ## The invariant -/

variable {cfg : Config n LoDeclared} {pre : Bool} {L t : ℕ} {w : Option (Fin n)} {C D : Finset ℕ}
  {s s' : SyncState n LoDeclared} {c : Fin n} {clock : ℕ → ℕ}

/-- After `t` signals, with `C` resident and `w` being fetched. -/
structure SyncInv (cfg : Config n LoDeclared) (L t : ℕ) (w : Option (Fin n)) (C : Finset ℕ)
    (s : SyncState n LoDeclared) : Prop where
  policy : s.region.policyState = declaredAfter n (List.range n) t
  state : ∀ c : Fin n, (s.region.chunks c).state =
    if c.1 ∈ C then .resident else if w = some c then .fetching else .absent
  pin : ∀ c, (s.region.chunks c).pin = 0
  mapped : ∀ c : Fin n, s.mapped c = true ↔ c.1 ∈ C
  ids : ∀ x ∈ C, x < n
  busy : ∀ c : Fin n, w = some c → c.1 ∉ C
  resident : s.region.residentBytes = C.card * L
  reserved : s.region.reservedBytes = 0
  fits : C.card * L ≤ cfg.budgetBytes
  fifo : s.region.pinnedPrefetch = []

/-- The reference trace and the number of served faults are those of `s`. -/
structure SameCounts (s s' : SyncState n LoDeclared) : Prop where
  refTrace : s'.refTrace = s.refTrace
  absentHandled : s'.region.stats.absentHandled = s.region.stats.absentHandled

theorem SyncState.init_inv : SyncInv cfg L 0 none ∅ (SyncState.init n
    (loDeclaredDeclareSequence (loDeclaredInit n) (List.range n))) where
  policy := rfl
  state _ := by simp [SyncState.init, Region.init, Chunk.init]
  pin _ := rfl
  mapped _ := by simp [SyncState.init]
  ids := by simp
  busy := by simp
  resident := by simp [SyncState.init, Region.init]
  reserved := rfl
  fits := by simp
  fifo := rfl

theorem SyncInv.evictable_iff (h : SyncInv cfg L t w C s) (c : Fin n) :
    (s.region.chunks c).Evictable ↔ c.1 ∈ C := by
  rw [Chunk.Evictable, h.pin c, h.state c]
  split_ifs <;> simp_all

/-- A chunk outside `C` leaves room in the region for one more length. -/
theorem SyncInv.card_lt (h : SyncInv cfg L t w C s) (hc : c.1 ∉ C) : C.card < n := by
  have hsub : C ⊆ (Finset.range n).erase c.1 := fun x hx =>
    Finset.mem_erase.2 ⟨fun hxc => hc (hxc ▸ hx), Finset.mem_range.2 (h.ids x hx)⟩
  have hcard := Finset.card_le_card hsub
  rw [Finset.card_erase_of_mem (Finset.mem_range.2 c.2), Finset.card_range] at hcard
  have := c.2
  omega

theorem ChunkTable.mul_len_lt {T : ChunkTable n} (hlen : ∀ c, T.len c = L) {k : ℕ} (hk : k ≤ n) :
    k * L < 2 ^ 64 := by
  have hreg : T.regionLen = n * L := by
    rw [T.regionLen_eq, Finset.sum_congr rfl fun c _ => hlen c]
    simp
  have hle : k * L ≤ n * L := Nat.mul_le_mul_right L hk
  have hlt := T.regionLen_lt
  omega

/-! ## Reconciliation and eviction -/

section

variable (hlen : ∀ c, cfg.table.len c = L)

include hlen

/-- The kernel counts exactly the resident chunks. -/
theorem SyncInv.shmem_eq (h : SyncInv cfg L t w C s) : s.shmem cfg = C.card * L := by
  have hterm : ∀ c : Fin n, (if s.mapped c then cfg.table.len c else 0) =
      if c.1 ∈ C then L else 0 := by
    intro c
    simp only [h.mapped c, hlen c]
  have hsub : Finset.range n ∩ C = C :=
    Finset.inter_eq_right.2 fun x hx => Finset.mem_range.2 (h.ids x hx)
  rw [SyncState.shmem, Finset.sum_congr rfl fun c _ => hterm c,
    Fin.sum_univ_eq_sum_range (fun i => if i ∈ C then L else 0) n, Finset.sum_ite_mem, hsub,
    Finset.sum_const, smul_eq_mul]

/-- Reconciliation passes and changes nothing but its own counter. -/
theorem reconcileSync_spec (h : SyncInv cfg L t w C s) (hcard : C.card < n) :
    ∃ s', reconcileSync cfg s = some s' ∧ SyncInv cfg L t w C s' ∧ SameCounts s s' := by
  have hn : 0 < n := Nat.zero_lt_of_lt hcard
  have hthr : cfg.reconcileThreshold = L := by
    rw [Config.reconcileThreshold, dif_pos hn, hlen]
  have hlt : (C.card + 1) * L < 2 ^ 64 := ChunkTable.mul_len_lt hlen hcard
  rw [Nat.add_mul, Nat.one_mul] at hlt
  have hok : reconcileOk cfg s.region (s.shmem cfg) := by
    rw [reconcileOk, h.shmem_eq hlen, hthr, h.resident, h.reserved, Nat.add_zero,
      wrap64_of_lt hlt, wrap64_of_lt (v := C.card * L) (by omega), wrap64_of_lt hlt]
    constructor <;> omega
  refine ⟨{ s with region := reconciled s.region }, ?_, ?_, ?_⟩
  · rw [reconcileSync, if_pos hok]
  · exact { h with }
  · exact ⟨rfl, rfl⟩

theorem evictSync_spec (h : SyncInv cfg L t w C s) {v : Fin n} (hv : v.1 ∈ C) :
    ∃ s', evictSync cfg s v = some s' ∧ SyncInv cfg L t w (C.erase v.1) s' ∧ SameCounts s s' := by
  have hpos : 0 < C.card := Finset.card_pos.2 ⟨v.1, hv⟩
  have hcard : (C.erase v.1).card = C.card - 1 := Finset.card_erase_of_mem hv
  have hle : C.card ≤ n := by
    simpa using Finset.card_le_card fun x hx => Finset.mem_range.2 (h.ids x hx)
  have hlt : C.card * L < 2 ^ 64 := ChunkTable.mul_len_lt hlen hle
  have hmul : C.card * L = (C.card - 1) * L + L := by
    rw [← Nat.succ_mul, Nat.succ_eq_add_one, Nat.sub_add_cancel hpos]
  have hwv : w ≠ some v := fun hw => h.busy v hw hv
  set s₁ : SyncState n LoDeclared := { s with region := evictBody cfg s.region v
                                              mapped := Function.update s.mapped v false }
  have hinv : SyncInv cfg L t w (C.erase v.1) s₁ := {
    policy := h.policy
    state := by
      intro d
      by_cases hd : d = v
      · subst hd
        simp [s₁, evictBody, Region.modify, hwv]
      · have hne : d.1 ≠ v.1 := fun he => hd (Fin.ext he)
        simpa [s₁, evictBody, Region.modify, hd, hne] using h.state d
    pin := by
      intro d
      by_cases hd : d = v
      · subst hd
        simpa [s₁, evictBody, Region.modify] using h.pin d
      · simpa [s₁, evictBody, Region.modify, hd] using h.pin d
    mapped := by
      intro d
      by_cases hd : d = v
      · subst hd
        simp [s₁]
      · have hne : d.1 ≠ v.1 := fun he => hd (Fin.ext he)
        simpa [s₁, hd, hne] using h.mapped d
    ids := fun x hx => h.ids x (Finset.mem_of_mem_erase hx)
    busy := fun d hw hd => h.busy d hw (Finset.mem_of_mem_erase hd)
    resident := by
      show sub64 s.region.residentBytes (cfg.table.len v) = _
      rw [h.resident, hlen, sub64_of_le (by omega) hlt, hcard]
      omega
    reserved := h.reserved
    fits := by
      have := h.fits
      rw [hcard]
      omega
    fifo := h.fifo }
  obtain ⟨s₂, hs₂, hinv₂, hsame⟩ := reconcileSync_spec hlen hinv (by omega)
  refine ⟨s₂, ?_, hinv₂, hsame.refTrace, hsame.absentHandled⟩
  rw [evictSync, if_pos ((h.evictable_iff v).2 hv)]
  exact hs₂

end

/-! ## The victim is furthest in the future -/

/-- `l` is the part of the cyclic reference string that starts at reference `t`. -/
def CyclicFrom (n t : ℕ) (l : List ℕ) : Prop := ∀ i x, l[i]? = some x → x = (t + i) % n

theorem CyclicFrom.tail {x : ℕ} {l : List ℕ} (h : CyclicFrom n t (x :: l)) :
    CyclicFrom n (t + 1) l := by
  intro i y hy
  rw [Nat.add_assoc, Nat.add_comm 1 i]
  exact h (i + 1) y hy

theorem repeated_range (hn : 0 < n) (i : ℕ) :
    repeated (List.range n) CHUNK_NONE i = i % n := by
  have hlt : i % (List.range n).length < (List.range n).length := by
    rw [List.length_range]
    exact Nat.mod_lt i hn
  rw [← repeated_mod, repeated_of_lt CHUNK_NONE hlt, List.getElem_range, List.length_range]

/-- A signal for the reference that is next in order. -/
theorem declaredAfter_range_succ (hn : 0 < n) (hc : c.1 = t % n) :
    loDeclaredOnAccess (declaredAfter n (List.range n) t) c.1 =
      declaredAfter n (List.range n) (t + 1) := by
  have hseq : (declaredAfter n (List.range n) t).seqAt t = c.1 := by
    rw [LoDeclared.seqAt, declaredAfter_seq, repeated_range hn, hc]
  rw [← hseq]
  rfl

/-- A chunk that is not nearer than `e` does not come up before `e`, whatever the part of
the string that is still to come. In pre-consumption mode the scan starts with the
chunk being read, which is no candidate. -/
theorem idxOf_le_of_dist_le (hn : 0 < n) (hn32 : n < 2 ^ 32) {rest : List ℕ}
    (hrest : CyclicFrom n (t + 1) rest) {e v : ℕ} (he : e ≠ t % n)
    (hdist : loDeclaredDist ⟨false, pre⟩ (declaredAfter n (List.range n) (t + 1)) e ≤
      loDeclaredDist ⟨false, pre⟩ (declaredAfter n (List.range n) (t + 1)) v) :
    rest.idxOf e ≤ rest.idxOf v := by
  by_contra hlt
  have hseq : List.range n ≠ [] := List.ne_nil_of_length_pos (by rwa [List.length_range])
  have hfuture : OccursBefore (fun i => (t + 1 + i) % n) v e :=
    occursBefore_of_idxOf_lt hrest (Nat.lt_of_not_le hlt)
  have hahead : OccursBefore ((declaredAfter n (List.range n) (t + 1)).ahead ⟨false, pre⟩) v e := by
    rw [funext (declaredAfter_ahead pre hseq)]
    simp only [repeated_range hn]
    cases pre with
    | true =>
      refine OccursBefore.cons ?_ (Ne.symm he)
      simpa [Nat.add_assoc] using hfuture
    | false => simpa using hfuture
  have hlen : (declaredAfter n (List.range n) (t + 1)).seq.length < 2 ^ 32 := by
    rwa [declaredAfter_seq, List.length_range]
  have hcloser := (loDeclaredDist_lt_iff rfl (by rwa [declaredAfter_seq]) hlen v e).2 hahead
  omega

/-- `D` is what is left of `C` once there is room for one more chunk. -/
structure MakesRoom (n budget L t : ℕ) (C D : Finset ℕ) : Prop where
  room : (D.card + 1) * L ≤ budget
  furthest : D = C ∨ ∃ f ∈ C, D = C.erase f ∧ C.card = budget / L ∧
    ∀ rest, CyclicFrom n (t + 1) rest → ∀ e ∈ C, rest.idxOf e ≤ rest.idxOf f

/-- Making room and loading is one miss of a furthest-in-future run. -/
theorem MakesRoom.furthest_cons {budget : ℕ} (h : MakesRoom n budget L t C D) (hL : 0 < L) {c : ℕ}
    (hc : c ∉ C) {rest : List ℕ} {m : ℕ} (hcyc : CyclicFrom n (t + 1) rest)
    (hrest : Furthest (budget / L) (insert c D) rest m) :
    Furthest (budget / L) C (c :: rest) (m + 1) := by
  rcases h.furthest with rfl | ⟨f, hf, rfl, hfull, hmax⟩
  · have hroom : D.card + 1 ≤ budget / L := (Nat.le_div_iff_mul_le hL).2 h.room
    exact Furthest.fill hc hroom hrest
  · exact Furthest.evict hc hfull hf (hmax rest hcyc) hrest

/-! ## One fault -/

section

variable (hlen : ∀ c, cfg.table.len c = L)
  (hpolicy : cfg.policy = some (policyLayerOrderDeclared n ⟨false, pre⟩))

include hlen in
theorem SyncInv.overBudget_iff (h : SyncInv cfg L t w C s) (hc : c.1 ∉ C) :
    overBudget cfg s.region c ↔ cfg.budgetBytes < (C.card + 1) * L := by
  have hlt : (C.card + 1) * L < 2 ^ 64 := ChunkTable.mul_len_lt hlen (h.card_lt hc)
  have hsucc : (C.card + 1) * L = C.card * L + L := Nat.succ_mul _ _
  rw [overBudget, exceeds, h.resident, h.reserved, hlen, Nat.add_zero,
    wrap64_of_lt (v := C.card * L) (by omega), ← hsucc, wrap64_of_lt hlt]

include hpolicy in
/-- While a chunk is over budget the declared policy finds a furthest resident chunk. -/
theorem SyncInv.selectVictim_spec (h : SyncInv cfg L (t + 1) w C s) (hn32 : n < 2 ^ 32)
    (hC : C.Nonempty) (ht : t % n ∉ C) :
    ∃ v : Fin n, cfg.selectVictim s.region = some v ∧ v.1 ∈ C ∧
      ∀ rest, CyclicFrom n (t + 1) rest → ∀ e ∈ C, rest.idxOf e ≤ rest.idxOf v.1 := by
  have hsel : cfg.selectVictim s.region =
      loDeclaredSelectVictim ⟨false, pre⟩ s.region.policyState s.region.chunks := by
    rw [Config.selectVictim, hpolicy]
    rfl
  rcases hC with ⟨x, hx⟩
  have hn : 0 < n := Nat.zero_lt_of_lt (h.ids x hx)
  cases hv : loDeclaredSelectVictim ⟨false, pre⟩ s.region.policyState s.region.chunks with
  | none =>
    have hnot := loDeclaredSelectVictim_none hv ⟨x, h.ids x hx⟩
    exact absurd ((h.evictable_iff ⟨x, h.ids x hx⟩).2 hx) hnot
  | some v =>
    obtain ⟨hev, hmax⟩ := loDeclaredSelectVictim_some hv
    refine ⟨v, hsel.trans hv, (h.evictable_iff v).1 hev, fun rest hrest e he => ?_⟩
    have hle := hmax ⟨e, h.ids e he⟩ ((h.evictable_iff ⟨e, h.ids e he⟩).2 he)
    rw [h.policy] at hle
    apply idxOf_le_of_dist_le hn hn32 hrest _ hle
    exact fun heq => ht (heq ▸ he)

include hlen hpolicy in
/-- The budget loop evicts nothing, or one furthest chunk, and reserves. -/
theorem ensureBudgetLoop_spec (h : SyncInv cfg L (t + 1) (some c) C s) (hn32 : n < 2 ^ 32)
    (hL : 0 < L) (hB : L ≤ cfg.budgetBytes) (ht : c.1 = t % n) (fuel : ℕ) :
    ∃ D s', ensureBudgetLoop cfg (demandDecision cfg) c (fuel + 2) s =
        some ({ s' with region := reserve cfg s'.region c }, true) ∧
      SyncInv cfg L (t + 1) (some c) D s' ∧ SameCounts s s' ∧
      MakesRoom n cfg.budgetBytes L t C D := by
  have hc : c.1 ∉ C := h.busy c rfl
  by_cases hover : overBudget cfg s.region c
  · -- full: one eviction makes room, the second evaluation of the loop head reserves
    have hfull := (h.overBudget_iff hlen hc).1 hover
    have hsucc : (C.card + 1) * L = C.card * L + L := Nat.succ_mul _ _
    have hpos : 0 < C.card := by
      rcases Nat.eq_zero_or_pos C.card with h0 | hpos
      · rw [h0] at hfull
        omega
      · exact hpos
    obtain ⟨v, hsel, hv, hmax⟩ :=
      h.selectVictim_spec hpolicy hn32 (Finset.card_pos.1 hpos) (ht ▸ hc)
    obtain ⟨s₁, hs₁, hinv₁, hsame₁⟩ := evictSync_spec hlen h hv
    have hcard : (C.erase v.1).card + 1 = C.card := by
      rw [Finset.card_erase_of_mem hv, Nat.sub_add_cancel hpos]
    have hnot : ¬ overBudget cfg s₁.region c := by
      rw [hinv₁.overBudget_iff hlen (hinv₁.busy c rfl), hcard]
      exact Nat.not_lt.2 h.fits
    have hcap : C.card = cfg.budgetBytes / L := by
      apply le_antisymm
      · exact (Nat.le_div_iff_mul_le hL).2 h.fits
      · exact Nat.le_of_lt_succ ((Nat.div_lt_iff_lt_mul hL).2 hfull)
    refine ⟨C.erase v.1, s₁, ?_, hinv₁, hsame₁, ?_, ?_⟩
    · simp only [ensureBudgetLoop, demandDecision_of_over hover, hsel, hs₁,
        demandDecision_of_fits hnot, Option.bind_some]
    · rw [hcard]
      exact h.fits
    · exact Or.inr ⟨v.1, hv, rfl, hcap, hmax⟩
  · refine ⟨C, s, ?_, h, ⟨rfl, rfl⟩, ?_, Or.inl rfl⟩
    · simp only [ensureBudgetLoop, demandDecision_of_fits hover]
    · exact Nat.le_of_not_lt fun hlt => hover ((h.overBudget_iff hlen hc).2 hlt)

include hlen hpolicy in
theorem ensureBudget_spec (h : SyncInv cfg L (t + 1) (some c) C s) (hn32 : n < 2 ^ 32)
    (hL : 0 < L) (hB : L ≤ cfg.budgetBytes) (ht : c.1 = t % n) :
    ∃ D s', ensureBudget cfg c s =
        some ({ s' with region := reserve cfg s'.region c }, true) ∧
      SyncInv cfg L (t + 1) (some c) D s' ∧ SameCounts s s' ∧
      MakesRoom n cfg.budgetBytes L t C D := by
  obtain ⟨fuel, hfuel⟩ : ∃ fuel, n + 1 = fuel + 2 := ⟨n - 1, by have := c.2; omega⟩
  set s₁ : SyncState n LoDeclared := { s with region := countFetch s.region }
  have h₁ : SyncInv cfg L (t + 1) (some c) C s₁ := { h with }
  by_cases hdue : reconcileDue cfg s₁.region
  · obtain ⟨s₂, hs₂, h₂, hsame₂⟩ := reconcileSync_spec hlen h₁ (h.card_lt (h.busy c rfl))
    obtain ⟨D, s₃, hs₃, h₃, hsame₃, hroom⟩ :=
      ensureBudgetLoop_spec hlen hpolicy h₂ hn32 hL hB ht fuel
    refine ⟨D, s₃, ?_, h₃, ⟨hsame₃.refTrace.trans hsame₂.refTrace,
      hsame₃.absentHandled.trans hsame₂.absentHandled⟩, hroom⟩
    rw [ensureBudget, budgetCall, if_pos hdue, hs₂, hfuel]
    exact hs₃
  · obtain ⟨D, s₂, hs₂, h₂, hsame₂, hroom⟩ :=
      ensureBudgetLoop_spec hlen hpolicy h₁ hn32 hL hB ht fuel
    refine ⟨D, s₂, ?_, h₂, ⟨hsame₂.refTrace, hsame₂.absentHandled⟩, hroom⟩
    rw [ensureBudget, budgetCall, if_neg hdue, hfuel]
    exact hs₂

theorem ensureBudgetRetry_of_ok {cfg : Config n σ} {c : Fin n} {s s' : SyncState n σ}
    (h : ensureBudget cfg c s = some (s', true)) (attempts : ℕ) :
    ensureBudgetRetry cfg c attempts s = some (s', true) := by
  cases attempts with
  | zero => exact h
  | succ attempts =>
    rw [ensureBudgetRetry, h]
    rfl

/-- The chunk enters `FETCHING`; the declared policy ignores the fault. -/
theorem SyncInv.start (hfault : cfg.policy.bind Policy.onFault = some fun st _ => st)
    (h : SyncInv cfg L t none C s) (hc : c.1 ∉ C) (now : ℕ) :
    SyncInv cfg L t (some c) C { s with region := startAbsent cfg now s.region c } := by
  have hstart : startAbsent cfg now s.region c =
      { s.region.modify c fun k => k.beginFetch now (s.region.faultSeq + 1) with
        faultSeq := s.region.faultSeq + 1 } := by
    simp only [startAbsent, hfault]
  rw [hstart]
  constructor
  case policy => exact h.policy
  case state =>
    intro d
    by_cases hd : d = c
    · subst hd
      simp [Chunk.beginFetch, hc]
    · simpa [hd, Ne.symm hd] using h.state d
  case pin =>
    intro d
    by_cases hd : d = c
    · subst hd
      simpa [Chunk.beginFetch] using h.pin d
    · simpa [hd] using h.pin d
  case mapped => exact h.mapped
  case ids => exact h.ids
  case busy =>
    intro d hd
    cases hd
    exact hc
  case resident => exact h.resident
  case reserved => exact h.reserved
  case fits => exact h.fits
  case fifo => exact h.fifo

/-- The tail in terms of its parts, for a policy whose `on_resident` does nothing. -/
theorem completeAbsent_eq {cfg : Config n σ}
    (hres : cfg.policy.bind Policy.onResident = some fun st _ => st) (r : Region n σ) (c : Fin n) :
    completeAbsent cfg r c = { unpinChunk ((commitReservedAndPin cfg r c).modify c
        Chunk.becomeResident) c with
      stats := { r.stats with bytesFetched := r.stats.bytesFetched + cfg.table.len c,
                              absentHandled := r.stats.absentHandled + 1 } } := by
  simp only [completeAbsent, fetchedAbsent, tellResident, hres]
  rfl

/-- The pin taken with the commit is dropped, so that only the state has changed. -/
theorem completeAbsent_chunks {cfg : Config n σ} {c : Fin n}
    (hres : cfg.policy.bind Policy.onResident = some fun st _ => st)
    {r : Region n σ} (hpin : (r.chunks c).pin < 2 ^ 32) (d : Fin n) :
    (completeAbsent cfg r c).chunks d =
      if d = c then (r.chunks c).becomeResident else r.chunks d := by
  rw [completeAbsent_eq hres]
  show (((commitReservedAndPin cfg r c).modify c Chunk.becomeResident).modify c
    Chunk.decPin).chunks d = _
  rw [commitReservedAndPin]
  by_cases hd : d = c
  · subst hd
    rw [if_pos rfl, Region.modify_chunks_self, Region.modify_chunks_self,
      Region.modify_chunks_self, Chunk.becomeResident_incPin]
    exact Chunk.decPin_incPin (r.chunks d).becomeResident hpin
  · rw [if_neg hd, Region.modify_chunks_of_ne _ hd, Region.modify_chunks_of_ne _ hd,
      Region.modify_chunks_of_ne _ hd]
    rfl

include hlen in
/-- The reserved chunk is committed, becomes `RESIDENT` and is unpinned again. -/
theorem SyncInv.load (hres : cfg.policy.bind Policy.onResident = some fun st _ => st)
    (h : SyncInv cfg L t (some c) C s) (hroom : (C.card + 1) * L ≤ cfg.budgetBytes) :
    SyncInv cfg L t none (insert c.1 C)
      { s with region := completeAbsent cfg (reserve cfg s.region c) c
               mapped := Function.update s.mapped c true } := by
  have hc : c.1 ∉ C := h.busy c rfl
  have hlt : (C.card + 1) * L < 2 ^ 64 := ChunkTable.mul_len_lt hlen (h.card_lt hc)
  have hsucc : (C.card + 1) * L = C.card * L + L := Nat.succ_mul _ _
  have hcard : (insert c.1 C).card = C.card + 1 := Finset.card_insert_of_notMem hc
  have hpin : ((reserve cfg s.region c).chunks c).pin < 2 ^ 32 := by
    show (s.region.chunks c).pin < 2 ^ 32
    rw [h.pin c]
    exact Nat.two_pow_pos 32
  have hchunks := completeAbsent_chunks hres hpin
  constructor
  case policy =>
    rw [completeAbsent_eq hres]
    exact h.policy
  case state =>
    intro d
    show ((completeAbsent cfg (reserve cfg s.region c) c).chunks d).state = _
    rw [hchunks]
    by_cases hd : d = c
    · subst hd
      simp [Chunk.becomeResident]
    · have hne : d.1 ≠ c.1 := fun he => hd (Fin.ext he)
      simpa [hd, hne, Ne.symm hd, reserve] using h.state d
  case pin =>
    intro d
    show ((completeAbsent cfg (reserve cfg s.region c) c).chunks d).pin = 0
    rw [hchunks]
    split
    · exact h.pin c
    · exact h.pin d
  case mapped =>
    intro d
    show Function.update s.mapped c true d = true ↔ _
    by_cases hd : d = c
    · subst hd
      simp
    · have hne : d.1 ≠ c.1 := fun he => hd (Fin.ext he)
      simpa [hd, hne] using h.mapped d
  case ids =>
    intro x hx
    rcases Finset.mem_insert.1 hx with rfl | hx
    · exact c.2
    · exact h.ids x hx
  case busy => simp
  case resident =>
    rw [completeAbsent_eq hres]
    show wrap64 (s.region.residentBytes + cfg.table.len c) = _
    rw [h.resident, hlen, hcard, hsucc, wrap64_of_lt (by omega)]
  case reserved =>
    rw [completeAbsent_eq hres]
    show sub64 (wrap64 (s.region.reservedBytes + cfg.table.len c)) (cfg.table.len c) = _
    rw [h.reserved, hlen, Nat.zero_add, wrap64_of_lt (by omega), sub64_of_le le_rfl (by omega),
      Nat.sub_self]
  case fits =>
    rw [hcard]
    exact hroom
  case fifo =>
    rw [completeAbsent_eq hres]
    exact h.fifo

include hlen hpolicy in
/-- One fault: the chunk is loaded, after at most one furthest eviction. -/
theorem handleAbsent_spec (hpf : cfg.NoPrefetch) (h : SyncInv cfg L (t + 1) none C s) (hn32 : n < 2 ^ 32) (hL : 0 < L)
    (hB : L ≤ cfg.budgetBytes) (ht : c.1 = t % n) (hc : c.1 ∉ C) (now : ℕ) :
    ∃ D s', handleAbsent cfg now s c = some s' ∧
      SyncInv cfg L (t + 1) none (insert c.1 D) s' ∧
      s'.refTrace = s.refTrace ∧
      s'.region.stats.absentHandled = s.region.stats.absentHandled + 1 ∧
      MakesRoom n cfg.budgetBytes L t C D := by
  have hfault : cfg.policy.bind Policy.onFault = some fun st _ => st := by
    rw [hpolicy]
    rfl
  have hres : cfg.policy.bind Policy.onResident = some fun st _ => st := by
    rw [hpolicy]
    rfl
  obtain ⟨D, s₁, hs₁, h₁, hsame, hroom⟩ :=
    ensureBudget_spec hlen hpolicy (h.start hfault hc now) hn32 hL hB ht
  refine ⟨D, { s₁ with region := completeAbsent cfg (reserve cfg s₁.region c) c
                       mapped := Function.update s₁.mapped c true }, ?_,
    h₁.load hlen hres hroom.room, hsame.refTrace, ?_, hroom⟩
  · rw [hpf.handleAbsent, ensureBudgetRetry_of_ok hs₁]
    rfl
  · rw [completeAbsent_eq hres]
    show s₁.region.stats.absentHandled + 1 = _
    rw [hsame.absentHandled]
    simp only [startAbsent, hfault]
    rfl

include hpolicy in
/-- Nothing is retained, so the access signal only advances the declared position. -/
theorem SyncInv.notifyAccess_eq (h : SyncInv cfg L t none C s) (c : Fin n) :
    notifyAccess cfg s.region c =
      { s.region with policyState := loDeclaredOnAccess s.region.policyState c.1 } := by
  have hacc : cfg.policy.bind Policy.onAccess = some fun st idx => loDeclaredOnAccess st idx.1 := by
    rw [hpolicy]
    rfl
  simp [notifyAccess, hacc, prefetchRetainRelease, h.fifo]

include hpolicy in
theorem SyncInv.notify (h : SyncInv cfg L t none C s) (ht : c.1 = t % n) :
    SyncInv cfg L (t + 1) none C { s with region := notifyAccess cfg s.region c } := by
  rw [h.notifyAccess_eq hpolicy]
  refine { h with policy := ?_ }
  show loDeclaredOnAccess s.region.policyState c.1 = _
  rw [h.policy, declaredAfter_range_succ (Nat.zero_lt_of_lt c.2) ht]

end

/-! ## The whole run -/

section

variable (hlen : ∀ c, cfg.table.len c = L)
  (hpolicy : cfg.policy = some (policyLayerOrderDeclared n ⟨false, pre⟩)) (hpf : cfg.NoPrefetch)

include hlen hpolicy hpf

/-- One reference is one step of a furthest-in-future run over `budget / L` slots. -/
theorem replayStep_spec (clock : ℕ → ℕ) (h : SyncInv cfg L t none C s) (hn32 : n < 2 ^ 32) (hL : 0 < L)
    (hB : L ≤ cfg.budgetBytes) (ht : c.1 = t % n) :
    ∃ C' s' d, replayStep cfg clock s c = some s' ∧ SyncInv cfg L (t + 1) none C' s' ∧
      s'.refTrace = s.refTrace ++ [c.1] ∧
      s'.region.stats.absentHandled = s.region.stats.absentHandled + d ∧
      ∀ rest m, CyclicFrom n (t + 1) rest → Furthest (cfg.budgetBytes / L) C' rest m →
        Furthest (cfg.budgetBytes / L) C (c.1 :: rest) (m + d) := by
  have h₁ := h.notify hpolicy ht
  have hstats : (notifyAccess cfg s.region c).stats = s.region.stats := by
    rw [h.notifyAccess_eq hpolicy]
  set s₁ : SyncState n LoDeclared := { s with region := notifyAccess cfg s.region c } with hs₁
  by_cases hc : c.1 ∈ C
  · -- a hit: the page is mapped, the pager does not run
    have hm : s₁.mapped c = true := (h₁.mapped c).2 hc
    refine ⟨C, { s₁ with refTrace := s₁.refTrace ++ [c.1] }, 0, ?_, { h₁ with }, rfl, ?_, ?_⟩
    · rw [replayStep, ← hs₁, if_pos hm, Option.bind_some, if_pos hm]
    · exact congrArg Stats.absentHandled hstats
    · exact fun rest m _ hrest => Furthest.hit hc hrest
  · have hm : ¬ s₁.mapped c = true := fun hm => hc ((h₁.mapped c).1 hm)
    obtain ⟨D, s₂, hs₂, h₂, href, hcount, hroom⟩ :=
      handleAbsent_spec hlen hpolicy hpf h₁ hn32 hL hB ht hc (clock s₁.region.faultSeq)
    have hstate : (s₁.region.chunks c).state = .absent := by
      rw [h₁.state c, if_neg hc, if_neg (by simp)]
    have hm₂ : s₂.mapped c = true := (h₂.mapped c).2 (Finset.mem_insert_self _ _)
    have hfault : handleFaultSync cfg (clock s₁.region.faultSeq) s₁ c = some s₂ := by
      simp only [handleFaultSync, hstate]
      exact hs₂
    refine ⟨insert c.1 D, { s₂ with refTrace := s₂.refTrace ++ [c.1] }, 1, ?_, { h₂ with }, ?_,
      ?_, ?_⟩
    · rw [replayStep, ← hs₁, if_neg hm, hfault, Option.bind_some, if_pos hm₂]
    · show s₂.refTrace ++ [c.1] = _
      rw [href]
    · show s₂.region.stats.absentHandled = _
      rw [hcount]
      exact congrArg (· + 1) (congrArg Stats.absentHandled hstats)
    · exact fun rest m hcyc hrest => hroom.furthest_cons hL hc hcyc hrest

/-- A stretch of references in cyclic order. -/
theorem replay_spec (clock : ℕ → ℕ) (hn32 : n < 2 ^ 32) (hL : 0 < L) (hB : L ≤ cfg.budgetBytes)
    (refs : List (Fin n)) (h : SyncInv cfg L t none C s)
    (hrefs : CyclicFrom n t (refs.map Fin.val)) :
    ∃ s' m, refs.foldlM (replayStep cfg clock) s = some s' ∧
      s'.refTrace = s.refTrace ++ refs.map Fin.val ∧
      s'.region.stats.absentHandled = s.region.stats.absentHandled + m ∧
      Furthest (cfg.budgetBytes / L) C (refs.map Fin.val) m := by
  induction refs generalizing t C s with
  | nil => exact ⟨s, 0, rfl, by simp, rfl, Furthest.nil⟩
  | cons c refs ih =>
    have ht : c.1 = t % n := hrefs 0 c.1 rfl
    obtain ⟨C', s₁, d, hs₁, h₁, href₁, hcount₁, hstep⟩ :=
      replayStep_spec hlen hpolicy hpf clock h hn32 hL hB ht
    obtain ⟨s₂, m, hs₂, href₂, hcount₂, hrun⟩ := ih h₁ hrefs.tail
    refine ⟨s₂, m + d, ?_, ?_, ?_, hstep _ m hrefs.tail hrun⟩
    · rw [List.foldlM_cons, hs₁]
      exact hs₂
    · rw [href₂, href₁, List.append_assoc]
      rfl
    · omega

end

/-- The references of `nPasses` passes, in order. -/
def passes (n nPasses : ℕ) : List (Fin n) :=
  (List.range nPasses).flatMap fun _ => List.finRange n

theorem replayCyclic_eq (cfg : Config n σ) (clock : ℕ → ℕ) (nPasses : ℕ) (s : SyncState n σ) :
    replayCyclic cfg clock nPasses s = (passes n nPasses).foldlM (replayStep cfg clock) s := by
  rw [replayCyclic, passes]
  generalize List.range nPasses = ps
  induction ps generalizing s with
  | nil => rfl
  | cons p ps ih =>
    rw [List.foldlM_cons, List.flatMap_cons, List.foldlM_append]
    exact congrArg _ (funext fun s => ih s)

theorem passes_map_val (n nPasses : ℕ) :
    (passes n nPasses).map Fin.val = (List.range (nPasses * n)).map (· % n) := by
  induction nPasses with
  | zero => simp [passes]
  | succ k ih =>
    have hone : (List.finRange n).map Fin.val = (List.range n).map fun i => (k * n + i) % n := by
      rw [List.map_coe_finRange_eq_range]
      apply Eq.symm
      rw [List.map_congr_left (g := id), List.map_id]
      intro i hi
      rw [Nat.mul_comm, Nat.mul_add_mod, Nat.mod_eq_of_lt (List.mem_range.1 hi)]
      rfl
    have hsplit : passes n (k + 1) = passes n k ++ List.finRange n := by
      simp [passes, List.range_succ]
    rw [hsplit, List.map_append, ih, hone, Nat.succ_mul, List.range_add, List.map_append,
      List.map_map]
    rfl

theorem passes_cyclicFrom (n nPasses : ℕ) :
    CyclicFrom n 0 ((passes n nPasses).map Fin.val) := by
  intro i x hx
  rw [passes_map_val, List.getElem?_map] at hx
  rcases Option.map_eq_some_iff.1 hx with ⟨k, hk, rfl⟩
  rcases List.getElem?_eq_some_iff.1 hk with ⟨hi, hk⟩
  rw [List.getElem_range] at hk
  rw [Nat.zero_add, hk]

/-- With equal chunk lengths and a budget of at least one chunk, the declared policy
fetches exactly as often as the offline optimum over `budget / L` slots misses. -/
theorem replayCyclic_matches_belady (cfg : Config n LoDeclared) (pre : Bool) (clock : ℕ → ℕ)
    (nPasses L : ℕ) (hn : 0 < n) (hn32 : n < 2 ^ 32) (hpasses : nPasses < 2 ^ 32) (hL : 0 < L)
    (hB : L ≤ cfg.budgetBytes) (hslots : cfg.budgetBytes / L < 2 ^ 32)
    (hlen : ∀ c, cfg.table.len c = L)
    (hpolicy : cfg.policy = some (policyLayerOrderDeclared n ⟨false, pre⟩))
    (hpf : cfg.NoPrefetch) :
    ∃ s r, replayCyclic cfg clock nPasses (SyncState.init n
        (loDeclaredDeclareSequence (loDeclaredInit n) (List.range n))) = some s ∧
      Belady.beladySimulate s.refTrace (Belady.slots cfg.budgetBytes L) = some r ∧
      s.refTrace.length = n * nPasses ∧ s.region.stats.absentHandled = r.misses := by
  obtain ⟨s, m, hs, href, hcount, hrun⟩ := replay_spec hlen hpolicy hpf clock hn32 hL hB
    (passes n nPasses) SyncState.init_inv (passes_cyclicFrom n nPasses)
  have href' : s.refTrace = (List.range (nPasses * n)).map (· % n) :=
    href.trans (passes_map_val n nPasses)
  have hlength : s.refTrace.length = n * nPasses := by
    rw [href', List.length_map, List.length_range, Nat.mul_comm]
  have hids : ∀ c ∈ s.refTrace, c < 2 ^ 32 - 1 := by
    intro c hc
    rw [href'] at hc
    rcases List.mem_map.1 hc with ⟨i, -, rfl⟩
    have := Nat.mod_lt i hn
    omega
  have hlt : s.refTrace.length < 2 ^ 64 := by
    have hmul : n * nPasses < 2 ^ 32 * 2 ^ 32 := Nat.mul_lt_mul'' hn32 hpasses
    omega
  obtain ⟨r, hr, hfur⟩ := Belady.beladySimulate_furthest (cfg.budgetBytes / L) hids hlt
  refine ⟨s, r, ?_, (Belady.slots_of_lt hslots).symm ▸ hr, hlength, ?_⟩
  · rw [replayCyclic_eq]
    exact hs
  · rw [show s.refTrace = (passes n nPasses).map Fin.val from href] at hfur
    rw [hcount, hfur.cost_unique hrun]
    exact Nat.zero_add m

/-- Three chunks of one page, a budget of two pages. -/
def threePages : Config 3 LoDeclared where
  table := ChunkTable.uniform 3 4096 page_pos page_aligned (by decide)
  registered := by decide
  truncated := by decide
  budgetBytes := 8192
  reconcileInterval := 1
  policy := some (policyLayerOrderDeclared 3 ⟨false, true⟩)
  asyncHandler := false
  pool := false
  workers := 0
  prefetchEnabled := false
  prefetchDepth := 1
  prefetchAdmissionAlways := false
  prefetchRetentionPinned := false
  fetchingTimeoutMs := 0
  modelFileSize := 0
  fileByte := fun _ => 0

theorem replayCyclic_matches_belady_threePages :
    ∃ s r, replayCyclic threePages (fun _ => 0) 2 (SyncState.init 3
        (loDeclaredDeclareSequence (loDeclaredInit 3) (List.range 3))) = some s ∧
      Belady.beladySimulate s.refTrace (Belady.slots threePages.budgetBytes 4096) = some r ∧
      s.refTrace.length = 3 * 2 ∧ s.region.stats.absentHandled = r.misses :=
  replayCyclic_matches_belady threePages true (fun _ => 0) 2 4096 (by decide) (by decide)
    (by decide) (by decide) (by decide) (by decide) (fun _ => rfl) rfl (Or.inl rfl)

/-- One page and a budget of `2 ^ 32` of them. -/
def onePage : Config 1 LoDeclared where
  table := ChunkTable.uniform 1 4096 page_pos page_aligned (by decide)
  registered := by decide
  truncated := by decide
  budgetBytes := 17592186044416
  reconcileInterval := 1
  policy := some (policyLayerOrderDeclared 1 ⟨false, true⟩)
  asyncHandler := false
  pool := false
  workers := 0
  prefetchEnabled := false
  prefetchDepth := 1
  prefetchAdmissionAlways := false
  prefetchRetentionPinned := false
  fetchingTimeoutMs := 0
  modelFileSize := 0
  fileByte := fun _ => 0

/-- The page is fetched once and read twice. -/
theorem onePage_runs : (replayCyclic onePage (fun _ => 0) 2 (SyncState.init 1
    (loDeclaredDeclareSequence (loDeclaredInit 1) (List.range 1)))).map
      (fun s => (s.refTrace, s.region.stats.absentHandled)) = some ([0, 0], 1) := by
  decide +kernel

/-- The solver's capacity is an `uint32_t`: it is cut to 0, and every reference misses. -/
theorem replayCyclic_capacity_cut :
    ¬ ∀ (nPasses : ℕ) (s : SyncState 1 LoDeclared) (r : Belady.Result),
      replayCyclic onePage (fun _ => 0) nPasses (SyncState.init 1
        (loDeclaredDeclareSequence (loDeclaredInit 1) (List.range 1))) = some s →
      Belady.beladySimulate s.refTrace (Belady.slots onePage.budgetBytes 4096) = some r →
      s.region.stats.absentHandled = r.misses := by
  intro hall
  rcases Option.map_eq_some_iff.1 onePage_runs with ⟨s, hs, hcounts⟩
  rcases Prod.ext_iff.1 hcounts with ⟨htrace, hcount⟩
  dsimp only at htrace hcount
  have hmisses : Belady.beladySimulate [0, 0] (Belady.slots onePage.budgetBytes 4096) =
      some ⟨2, 2⟩ := by
    decide +kernel
  have hequal := hall 2 s ⟨2, 2⟩ hs (by rw [htrace]; exact hmisses)
  rw [hcount] at hequal
  cases hequal

end Residctl
