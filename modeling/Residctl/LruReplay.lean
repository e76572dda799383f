import Residctl.SyncReplay

/-!
# LRU on a cyclic scan

`replay_cyclic` with the `lru` policy and chunks of any lengths. As long as every reference
faults, the fault numbers record the scan: `lastRef` is the number of a chunk's latest
reference. The resident set is then closed upwards in that order, and the chunk that comes
next is its least element, so that it can only be resident when everything is.
-/

namespace Residctl

open Cyclic

variable {n : ℕ}

/-! ## The order of a cyclic scan -/

/-- One more than the last of the references `0 .. t-1` that went to chunk `c`, 0 if none
did. -/
def lastRef (n : ℕ) : ℕ → ℕ → ℕ
  | 0, _ => 0
  | t + 1, c => if t % n = c then t + 1 else lastRef n t c

theorem lastRef_self (n t : ℕ) : lastRef n (t + 1) (t % n) = t + 1 := if_pos rfl

theorem lastRef_of_ne {n t c : ℕ} (h : c ≠ t % n) : lastRef n (t + 1) c = lastRef n t c :=
  if_neg (Ne.symm h)

theorem lastRef_le (n t c : ℕ) : lastRef n t c ≤ t := by
  induction t with
  | zero => exact le_rfl
  | succ t ih =>
    rw [lastRef]
    split_ifs <;> omega

theorem lastRef_mod {n t c : ℕ} (h : 0 < lastRef n t c) : (lastRef n t c - 1) % n = c := by
  induction t with
  | zero => exact absurd h (Nat.lt_irrefl 0)
  | succ t ih =>
    by_cases hc : t % n = c
    · rw [lastRef, if_pos hc]
      exact hc
    · rw [lastRef, if_neg hc] at h ⊢
      exact ih h

theorem lt_lastRef {n t c j : ℕ} (hj : j < t) (hc : j % n = c) : j < lastRef n t c := by
  induction t with
  | zero => exact absurd hj (Nat.not_lt_zero j)
  | succ t ih =>
    rw [lastRef]
    split_ifs with ht
    · exact hj
    · refine ih (lt_of_le_of_ne (Nat.le_of_lt_succ hj) fun he => ht ?_)
      rw [← he]
      exact hc

/-- Every chunk was referenced within the last pass. -/
theorem lt_lastRef_add {n t d : ℕ} (hd : d < n) : t < lastRef n t d + n := by
  rcases Nat.lt_or_ge t n with hlt | hge
  · omega
  · obtain ⟨i, hi, heq⟩ := exists_repeated_eq CHUNK_NONE (List.mem_range.2 hd) (t - n)
    rw [List.length_range] at hi
    rw [repeated_range (Nat.zero_lt_of_lt hd)] at heq
    have hlast := lt_lastRef (t := t) (by omega) heq
    omega

/-- The chunk that comes next is the one referenced longest ago. -/
theorem lastRef_next_le {t d : ℕ} (hd : d < n) : lastRef n t (t % n) ≤ lastRef n t d := by
  rcases Nat.eq_zero_or_pos (lastRef n t (t % n)) with h0 | hpos
  · omega
  · have hle := lastRef_le n t (t % n)
    have hrecent := lt_lastRef_add (t := t) hd
    -- its last reference was a whole number of passes ago
    have hdvd : n ∣ t - (lastRef n t (t % n) - 1) :=
      (Nat.modEq_iff_dvd' (by omega)).1 (lastRef_mod hpos)
    have hpass := Nat.le_of_dvd (by omega) hdvd
    omega

theorem lastRef_inj {t c d : ℕ} (hc : 0 < lastRef n t c) (h : lastRef n t c = lastRef n t d) :
    c = d := by
  rw [← lastRef_mod hc, h, lastRef_mod (h ▸ hc)]

/-! ## The invariant -/

variable {cfg : Config n Unit} {t : ℕ} {w : Option (Fin n)} {R D : Finset (Fin n)}
  {s s' : SyncState n Unit} {c : Fin n} {clock : ℕ → ℕ}

/-- After `t` faults, one for each reference so far, with `R` resident and `w` being
fetched. -/
structure LruInv (cfg : Config n Unit) (t : ℕ) (w : Option (Fin n)) (R : Finset (Fin n))
    (s : SyncState n Unit) : Prop where
  state : ∀ c, (s.region.chunks c).state =
    if c ∈ R then .resident else if w = some c then .fetching else .absent
  seq : ∀ c, (s.region.chunks c).lastFaultSeq = lastRef n t c.1
  pin : ∀ c, (s.region.chunks c).pin = 0
  mapped : ∀ c, s.mapped c = true ↔ c ∈ R
  busy : ∀ c, w = some c → c ∉ R
  faults : s.region.faultSeq = t
  resident : s.region.residentBytes = ∑ c ∈ R, cfg.table.len c
  reserved : s.region.reservedBytes = 0
  fits : ∑ c ∈ R, cfg.table.len c ≤ cfg.budgetBytes
  fifo : s.region.pinnedPrefetch = []
  referenced : ∀ c ∈ R, 0 < lastRef n t c.1
  /-- What was referenced after a resident chunk is resident. -/
  closed : ∀ c ∈ R, ∀ d : Fin n, lastRef n t c.1 ≤ lastRef n t d.1 → d ∈ R ∨ w = some d

/-- What a request leaves alone. -/
structure SameRun (s s' : SyncState n Unit) : Prop where
  refTrace : s'.refTrace = s.refTrace
  absentHandled : s'.region.stats.absentHandled = s.region.stats.absentHandled

theorem SameRun.refl (s : SyncState n Unit) : SameRun s s := ⟨rfl, rfl⟩

theorem SameRun.trans {s₁ s₂ s₃ : SyncState n Unit} (h : SameRun s₁ s₂) (h' : SameRun s₂ s₃) :
    SameRun s₁ s₃ := ⟨h'.refTrace.trans h.refTrace, h'.absentHandled.trans h.absentHandled⟩

theorem SyncState.init_lru (cfg : Config n Unit) :
    LruInv cfg 0 none ∅ (SyncState.init n ()) where
  state _ := by simp [SyncState.init, Region.init, Chunk.init]
  seq _ := rfl
  pin _ := rfl
  mapped _ := by simp [SyncState.init]
  busy := by simp
  faults := rfl
  resident := by simp [SyncState.init, Region.init]
  reserved := rfl
  fits := by simp
  fifo := rfl
  referenced := by simp
  closed := by simp

theorem LruInv.evictable_iff (h : LruInv cfg t w R s) (c : Fin n) :
    (s.region.chunks c).Evictable ↔ c ∈ R := by
  rw [Chunk.Evictable, h.pin c, h.state c]
  split_ifs <;> simp_all

theorem LruInv.shmem_eq (h : LruInv cfg t w R s) : s.shmem cfg = ∑ c ∈ R, cfg.table.len c := by
  rw [SyncState.shmem, ← Finset.sum_filter]
  congr 1
  ext c
  simp [h.mapped c]

/-- The bytes of some chunks and of one more, next to each other. -/
theorem ChunkTable.sum_add_len_lt (T : ChunkTable n) (h : T.regionLen < 2 ^ 63)
    (R : Finset (Fin n)) (c : Fin n) : ∑ d ∈ R, T.len d + T.len c < 2 ^ 64 := by
  have hsum : ∑ d ∈ R, T.len d ≤ T.regionLen :=
    T.regionLen_eq ▸ Finset.sum_le_sum_of_subset (Finset.subset_univ R)
  have hone : T.len c ≤ T.regionLen :=
    T.regionLen_eq ▸ Finset.single_le_sum (fun _ _ => Nat.zero_le _) (Finset.mem_univ c)
  omega

/-! ## Reconciliation and eviction -/

theorem LruInv.reconcile (h : LruInv cfg t w R s) (c : Fin n) :
    ∃ s', reconcileSync cfg s = some s' ∧ LruInv cfg t w R s' ∧ SameRun s s' := by
  have hn : 0 < n := Nat.zero_lt_of_lt c.2
  have hthr : cfg.reconcileThreshold = cfg.table.len ⟨0, hn⟩ := dif_pos hn
  have hlt := cfg.table.sum_add_len_lt cfg.truncated R ⟨0, hn⟩
  have hok : reconcileOk cfg s.region (s.shmem cfg) := by
    rw [reconcileOk, h.shmem_eq, hthr, h.resident, h.reserved, Nat.add_zero, wrap64_of_lt hlt,
      wrap64_of_lt (cfg.table.sum_len_lt R), wrap64_of_lt hlt]
    constructor <;> omega
  exact ⟨{ s with region := reconciled s.region }, by rw [reconcileSync, if_pos hok], { h with },
    ⟨rfl, rfl⟩⟩

/-- An eviction of the resident chunk that was referenced longest ago. -/
theorem LruInv.evict (h : LruInv cfg t w R s) {v : Fin n} (hv : v ∈ R)
    (hold : ∀ e ∈ R, lastRef n t v.1 ≤ lastRef n t e.1) :
    ∃ s', evictSync cfg s v = some s' ∧ LruInv cfg t w (R.erase v) s' ∧ SameRun s s' := by
  have hsum := Finset.sum_erase_add R cfg.table.len hv
  have hlt := cfg.table.sum_len_lt R
  set s₁ : SyncState n Unit := { s with region := evictBody cfg s.region v
                                        mapped := Function.update s.mapped v false }
  have hother : ∀ d, d ≠ v → s₁.region.chunks d = s.region.chunks d := fun d hd => by
    simp [s₁, evictBody, Region.modify, hd]
  have hself : s₁.region.chunks v = { s.region.chunks v with state := .absent } := by
    simp [s₁, evictBody, Region.modify]
  have hinv : LruInv cfg t w (R.erase v) s₁ := {
    state := by
      intro d
      by_cases hd : d = v
      · subst hd
        have hwd : w ≠ some d := fun hw => h.busy d hw hv
        simp [hself, hwd]
      · rw [hother d hd, h.state d]
        simp [hd]
    seq := by
      intro d
      by_cases hd : d = v
      · subst hd
        rw [hself]
        exact h.seq d
      · rw [hother d hd]
        exact h.seq d
    pin := by
      intro d
      by_cases hd : d = v
      · subst hd
        rw [hself]
        exact h.pin d
      · rw [hother d hd]
        exact h.pin d
    mapped := by
      intro d
      by_cases hd : d = v
      · subst hd
        simp [s₁]
      · simpa [s₁, hd] using h.mapped d
    busy := fun d hw hd => h.busy d hw (Finset.mem_of_mem_erase hd)
    faults := h.faults
    resident := by
      show sub64 s.region.residentBytes (cfg.table.len v) = _
      rw [h.resident, sub64_of_le (by omega) hlt]
      omega
    reserved := h.reserved
    fits := by
      have hfits := h.fits
      omega
    fifo := h.fifo
    referenced := fun d hd => h.referenced d (Finset.mem_of_mem_erase hd)
    closed := by
      intro x hx d hle
      have hxR := Finset.mem_of_mem_erase hx
      refine (h.closed x hxR d hle).imp_left fun hd => Finset.mem_erase.2 ⟨fun hdv => ?_, hd⟩
      -- the oldest chunk is not younger than another one
      subst hdv
      have heq := le_antisymm hle (hold x hxR)
      exact Finset.ne_of_mem_erase hx (Fin.ext (lastRef_inj (h.referenced x hxR) heq)) }
  obtain ⟨s₂, hs₂, hinv₂, hsame⟩ := hinv.reconcile v
  refine ⟨s₂, ?_, hinv₂, hsame.refTrace, hsame.absentHandled⟩
  rw [evictSync, if_pos ((h.evictable_iff v).2 hv)]
  exact hs₂

/-! ## One fault -/

theorem LruInv.overBudget_iff (h : LruInv cfg t w R s) (c : Fin n) :
    overBudget cfg s.region c ↔ cfg.budgetBytes < ∑ d ∈ R, cfg.table.len d + cfg.table.len c := by
  rw [overBudget, exceeds, h.resident, h.reserved, Nat.add_zero, wrap64_of_lt (cfg.table.sum_len_lt R),
    wrap64_of_lt (cfg.table.sum_add_len_lt cfg.truncated R c)]

section

variable (hpolicy : cfg.policy = some (policyLru n))

include hpolicy in
/-- `lru` finds the resident chunk referenced longest ago. -/
theorem LruInv.selectVictim (h : LruInv cfg t w R s) (hR : R.Nonempty) :
    ∃ v ∈ R, cfg.selectVictim s.region = some v ∧
      ∀ e ∈ R, lastRef n t v.1 ≤ lastRef n t e.1 := by
  have hsel : cfg.selectVictim s.region = lruSelectVictim s.region.chunks := by
    rw [Config.selectVictim, hpolicy]
    rfl
  obtain ⟨x, hx⟩ := hR
  cases hv : lruSelectVictim s.region.chunks with
  | none =>
    have hnot := scanVictim_none
      (fun i => OrderDual.toDual (s.region.chunks i).lastFaultSeq) (fun _ _ => Iff.rfl) hv x
    exact absurd ((h.evictable_iff x).2 hx) hnot
  | some v =>
    obtain ⟨hev, hmin⟩ := lruSelectVictim_some hv
    refine ⟨v, (h.evictable_iff v).1 hev, hsel.trans hv, fun e he => ?_⟩
    rw [← h.seq v, ← h.seq e]
    exact hmin e ((h.evictable_iff e).2 he)

include hpolicy in
/-- The budget loop evicts in the order of the references until the chunk fits. -/
theorem LruInv.ensureLoop (h : LruInv cfg t (some c) R s) (hB : cfg.table.len c ≤ cfg.budgetBytes)
    {fuel : ℕ} (hfuel : R.card < fuel) :
    ∃ D s', ensureBudgetLoop cfg (demandDecision cfg) c fuel s = some ({ s' with region := reserve cfg s'.region c }, true) ∧
      LruInv cfg t (some c) D s' ∧ SameRun s s' ∧ D ⊆ R ∧
      ∑ d ∈ D, cfg.table.len d + cfg.table.len c ≤ cfg.budgetBytes ∧
      (∑ d ∈ R, cfg.table.len d + cfg.table.len c ≤ cfg.budgetBytes → D = R) := by
  induction fuel generalizing R s with
  | zero => exact absurd hfuel (Nat.not_lt_zero _)
  | succ fuel ih =>
    by_cases hover : overBudget cfg s.region c
    · have hbytes := (h.overBudget_iff c).1 hover
      have hne : R.Nonempty := by
        refine Finset.nonempty_iff_ne_empty.2 fun hR => ?_
        rw [hR, Finset.sum_empty] at hbytes
        omega
      obtain ⟨v, hv, hsel, hold⟩ := h.selectVictim hpolicy hne
      obtain ⟨s₁, hs₁, h₁, hsame₁⟩ := h.evict hv hold
      have hcard := Finset.card_pos.2 hne
      obtain ⟨D, s₂, hs₂, h₂, hsame₂, hsub, hroom, -⟩ :=
        ih h₁ (by rw [Finset.card_erase_of_mem hv]; omega)
      refine ⟨D, s₂, ?_, h₂, hsame₁.trans hsame₂, hsub.trans (Finset.erase_subset v R), hroom,
        fun hfit => absurd hbytes (Nat.not_lt.2 hfit)⟩
      simp only [ensureBudgetLoop, demandDecision_of_over hover, hsel, hs₁, Option.bind_some]
      exact hs₂
    · refine ⟨R, s, ?_, h, .refl s, subset_rfl, ?_, fun _ => rfl⟩
      · simp only [ensureBudgetLoop, demandDecision_of_fits hover]
      · exact Nat.le_of_not_lt fun hlt => hover ((h.overBudget_iff c).2 hlt)

include hpolicy in
theorem LruInv.ensure (h : LruInv cfg t (some c) R s) (hB : cfg.table.len c ≤ cfg.budgetBytes) :
    ∃ D s', ensureBudget cfg c s = some ({ s' with region := reserve cfg s'.region c }, true) ∧
      LruInv cfg t (some c) D s' ∧ SameRun s s' ∧ D ⊆ R ∧
      ∑ d ∈ D, cfg.table.len d + cfg.table.len c ≤ cfg.budgetBytes ∧
      (∑ d ∈ R, cfg.table.len d + cfg.table.len c ≤ cfg.budgetBytes → D = R) := by
  have hfuel : R.card < n + 1 := by
    have hle := Finset.card_le_univ R
    rw [Fintype.card_fin] at hle
    omega
  set s₁ : SyncState n Unit := { s with region := countFetch s.region }
  have h₁ : LruInv cfg t (some c) R s₁ := { h with }
  have hsame₁ : SameRun s s₁ := ⟨rfl, rfl⟩
  by_cases hdue : reconcileDue cfg s₁.region
  · obtain ⟨s₂, hs₂, h₂, hsame₂⟩ := h₁.reconcile c
    obtain ⟨D, s₃, hs₃, h₃, hsame₃, hD⟩ := h₂.ensureLoop hpolicy hB hfuel
    refine ⟨D, s₃, ?_, h₃, (hsame₁.trans hsame₂).trans hsame₃, hD⟩
    rw [ensureBudget, budgetCall, if_pos hdue, hs₂]
    exact hs₃
  · obtain ⟨D, s₂, hs₂, h₂, hsame₂, hD⟩ := h₁.ensureLoop hpolicy hB hfuel
    refine ⟨D, s₂, ?_, h₂, hsame₁.trans hsame₂, hD⟩
    rw [ensureBudget, budgetCall, if_neg hdue]
    exact hs₂

include hpolicy in
/-- The fault of the reference that is next: its chunk becomes the youngest. -/
theorem LruInv.start (h : LruInv cfg t none R s) (hc : c ∉ R) (ht : c.1 = t % n) (now : ℕ) :
    LruInv cfg (t + 1) (some c) R { s with region := startAbsent cfg now s.region c } := by
  have hstart : startAbsent cfg now s.region c =
      { s.region.modify c fun k => k.beginFetch now (s.region.faultSeq + 1) with
        faultSeq := s.region.faultSeq + 1 } := by
    have hfault : cfg.policy.bind Policy.onFault = some fun st _ => st := by
      rw [hpolicy]
      rfl
    simp only [startAbsent, hfault]
  -- reference `t` is to `c` and to no other chunk
  have hlast : ∀ d : Fin n, d ≠ c → lastRef n (t + 1) d.1 = lastRef n t d.1 := fun d hd =>
    lastRef_of_ne fun he => hd (Fin.ext (he.trans ht.symm))
  have hne : ∀ d ∈ R, d ≠ c := fun d hd hdc => hc (hdc ▸ hd)
  rw [hstart]
  constructor
  case state =>
    intro d
    by_cases hd : d = c
    · subst hd
      simp [Chunk.beginFetch, hc]
    · simpa [hd, Ne.symm hd] using h.state d
  case seq =>
    intro d
    by_cases hd : d = c
    · subst hd
      -- the fault stamps the chunk with the number of the reference
      rw [ht, lastRef_self]
      simp [Chunk.beginFetch, h.faults]
    · rw [hlast d hd]
      simpa [hd] using h.seq d
  case pin =>
    intro d
    by_cases hd : d = c
    · subst hd
      simpa [Chunk.beginFetch] using h.pin d
    · simpa [hd] using h.pin d
  case mapped => exact h.mapped
  case busy =>
    intro d hd
    cases hd
    exact hc
  case faults => exact congrArg (· + 1) h.faults
  case resident => exact h.resident
  case reserved => exact h.reserved
  case fits => exact h.fits
  case fifo => exact h.fifo
  case referenced =>
    intro d hd
    rw [hlast d (hne d hd)]
    exact h.referenced d hd
  case closed =>
    intro x hx d hle
    by_cases hd : d = c
    · exact Or.inr (congrArg some hd.symm)
    · rw [hlast x (hne x hx), hlast d hd] at hle
      exact (h.closed x hx d hle).imp_right fun hw => by cases hw

/-- The reserved chunk is committed and becomes `RESIDENT`. -/
theorem LruInv.load (hres : cfg.policy.bind Policy.onResident = some fun st _ => st)
    (h : LruInv cfg t (some c) R s) (hlast : ∀ d : Fin n, lastRef n t c.1 ≤ lastRef n t d.1 → d = c)
    (hpos : 0 < lastRef n t c.1)
    (hroom : ∑ d ∈ R, cfg.table.len d + cfg.table.len c ≤ cfg.budgetBytes) :
    LruInv cfg t none (insert c R)
      { s with region := completeAbsent cfg (reserve cfg s.region c) c
               mapped := Function.update s.mapped c true } := by
  have hc : c ∉ R := h.busy c rfl
  have hlt := cfg.table.sum_add_len_lt cfg.truncated R c
  have hlen := cfg.table.sum_add_len_lt cfg.truncated ∅ c
  rw [Finset.sum_empty, Nat.zero_add] at hlen
  have hsum : ∑ d ∈ insert c R, cfg.table.len d = cfg.table.len c + ∑ d ∈ R, cfg.table.len d :=
    Finset.sum_insert hc
  have hpin : ((reserve cfg s.region c).chunks c).pin < 2 ^ 32 := by
    show (s.region.chunks c).pin < 2 ^ 32
    rw [h.pin c]
    exact Nat.two_pow_pos 32
  -- only the chunk itself changes: it is `RESIDENT` now
  have hchunks := completeAbsent_chunks hres hpin
  constructor
  case state =>
    intro d
    show ((completeAbsent cfg (reserve cfg s.region c) c).chunks d).state = _
    rw [hchunks]
    by_cases hd : d = c
    · subst hd
      simp [Chunk.becomeResident]
    · simpa [hd, Ne.symm hd, reserve] using h.state d
  case seq =>
    intro d
    show ((completeAbsent cfg (reserve cfg s.region c) c).chunks d).lastFaultSeq = _
    rw [hchunks]
    by_cases hd : d = c
    · subst hd
      rw [if_pos rfl]
      exact h.seq d
    · rw [if_neg hd]
      exact h.seq d
  case pin =>
    intro d
    show ((completeAbsent cfg (reserve cfg s.region c) c).chunks d).pin = 0
    rw [hchunks]
    by_cases hd : d = c
    · rw [if_pos hd]
      exact h.pin c
    · rw [if_neg hd]
      exact h.pin d
  case mapped =>
    intro d
    show Function.update s.mapped c true d = true ↔ _
    by_cases hd : d = c
    · subst hd
      simp
    · simpa [hd] using h.mapped d
  case busy => simp
  case faults =>
    rw [completeAbsent_eq hres]
    exact h.faults
  case resident =>
    rw [completeAbsent_eq hres]
    show wrap64 (s.region.residentBytes + cfg.table.len c) = _
    rw [h.resident, hsum, wrap64_of_lt hlt, Nat.add_comm]
  case reserved =>
    rw [completeAbsent_eq hres]
    show sub64 (wrap64 (s.region.reservedBytes + cfg.table.len c)) (cfg.table.len c) = _
    rw [h.reserved, Nat.zero_add, wrap64_of_lt hlen, sub64_of_le le_rfl hlen, Nat.sub_self]
  case fits =>
    rw [hsum, Nat.add_comm]
    exact hroom
  case fifo =>
    rw [completeAbsent_eq hres]
    exact h.fifo
  case referenced =>
    intro d hd
    rcases Finset.mem_insert.1 hd with rfl | hd
    · exact hpos
    · exact h.referenced d hd
  case closed =>
    intro x hx d hle
    refine Or.inl (Finset.mem_insert.2 ?_)
    rcases Finset.mem_insert.1 hx with rfl | hx
    · -- nothing was referenced after the chunk that is loaded
      exact Or.inl (hlast d hle)
    · rcases h.closed x hx d hle with hd | hd
      · exact Or.inr hd
      · exact Or.inl (Option.some.inj hd).symm

/-- The policy predicts nothing. -/
theorem noPrefetch_lru (hpolicy : cfg.policy = some (policyLru n)) : cfg.NoPrefetch := by
  refine Or.inr fun predict hpredict st c => ?_
  rw [hpolicy] at hpredict
  cases hpredict
  exact neg_one_lt_zero

include hpolicy in
/-- A fault at the reference that is next. -/
theorem LruInv.handleAbsent (h : LruInv cfg t none R s) (hc : c ∉ R) (ht : c.1 = t % n)
    (hB : cfg.table.len c ≤ cfg.budgetBytes) (now : ℕ) :
    ∃ D s', Residctl.handleAbsent cfg now s c = some s' ∧ LruInv cfg (t + 1) none (insert c D) s' ∧
      s'.refTrace = s.refTrace ∧
      s'.region.stats.absentHandled = s.region.stats.absentHandled + 1 ∧
      (∑ d ∈ R, cfg.table.len d + cfg.table.len c ≤ cfg.budgetBytes → D = R) := by
  have hres : cfg.policy.bind Policy.onResident = some fun st _ => st := by
    rw [hpolicy]
    rfl
  have hfault : cfg.policy.bind Policy.onFault = some fun st _ => st := by
    rw [hpolicy]
    rfl
  obtain ⟨D, s₁, hs₁, h₁, hsame, -, hroom, hkeep⟩ := (h.start hpolicy hc ht now).ensure hpolicy hB
  have hnew : lastRef n (t + 1) c.1 = t + 1 := by rw [ht, lastRef_self]
  have hlast : ∀ d : Fin n, lastRef n (t + 1) c.1 ≤ lastRef n (t + 1) d.1 → d = c := by
    intro d hle
    by_contra hd
    rw [hnew, lastRef_of_ne fun he => hd (Fin.ext (he.trans ht.symm))] at hle
    have hd' := lastRef_le n t d.1
    omega
  refine ⟨D, { s₁ with region := completeAbsent cfg (reserve cfg s₁.region c) c
                       mapped := Function.update s₁.mapped c true }, ?_,
    h₁.load hres hlast (by rw [hnew]; exact Nat.succ_pos t) hroom, hsame.refTrace, ?_, hkeep⟩
  · rw [(noPrefetch_lru hpolicy).handleAbsent, ensureBudgetRetry_of_ok hs₁]
    rfl
  · rw [completeAbsent_eq hres]
    show s₁.region.stats.absentHandled + 1 = _
    rw [hsame.absentHandled]
    simp only [startAbsent, hfault]
    rfl

/-! ## One reference -/

include hpolicy in
/-- `lru` has no access hook and nothing is retained: a signal changes nothing. -/
theorem LruInv.notify (h : LruInv cfg t none R s) (c : Fin n) :
    notifyAccess cfg s.region c = s.region := by
  have hacc : cfg.policy.bind Policy.onAccess = none := by
    rw [hpolicy]
    rfl
  simp [notifyAccess, hacc, prefetchRetainRelease, h.fifo]

include hpolicy in
theorem LruInv.hit (h : LruInv cfg t none R s) (hc : c ∈ R) :
    replayStep cfg clock s c = some { s with refTrace := s.refTrace ++ [c.1] } := by
  have hm : s.mapped c = true := (h.mapped c).2 hc
  rw [replayStep, h.notify hpolicy]
  simp only [if_pos hm, Option.bind_some]

include hpolicy in
theorem LruInv.miss (h : LruInv cfg t none R s) (hc : c ∉ R) (ht : c.1 = t % n)
    (hB : cfg.table.len c ≤ cfg.budgetBytes) :
    ∃ D s', replayStep cfg clock s c = some s' ∧ LruInv cfg (t + 1) none (insert c D) s' ∧
      s'.region.stats.absentHandled = s.region.stats.absentHandled + 1 ∧
      (∑ d ∈ R, cfg.table.len d + cfg.table.len c ≤ cfg.budgetBytes → D = R) := by
  obtain ⟨D, s₁, hs₁, h₁, -, hcount, hkeep⟩ :=
    h.handleAbsent hpolicy hc ht hB (clock s.region.faultSeq)
  have hm : ¬ s.mapped c = true := fun hm => hc ((h.mapped c).1 hm)
  have hm₁ : s₁.mapped c = true := (h₁.mapped c).2 (Finset.mem_insert_self c D)
  have hstate : (s.region.chunks c).state = .absent := by
    rw [h.state c, if_neg hc, if_neg (by simp)]
  have hfault : handleFaultSync cfg (clock s.region.faultSeq) s c = some s₁ := by
    simp only [handleFaultSync, hstate]
    exact hs₁
  refine ⟨D, { s₁ with refTrace := s₁.refTrace ++ [c.1] }, ?_, { h₁ with }, hcount, hkeep⟩
  rw [replayStep, h.notify hpolicy]
  simp only [if_neg hm, hfault, Option.bind_some, if_pos hm₁]

/-! ## Whole runs -/

/-- The chunk that is next is not resident while the budget does not hold all chunks. -/
theorem LruInv.next_notMem (h : LruInv cfg t none R s) (ht : c.1 = t % n)
    (hover : cfg.budgetBytes < ∑ d, cfg.table.len d) : c ∉ R := by
  intro hc
  have hall : R = Finset.univ := by
    refine Finset.eq_univ_of_forall fun d => ?_
    have hle : lastRef n t c.1 ≤ lastRef n t d.1 := ht ▸ lastRef_next_le d.2
    rcases h.closed c hc d hle with hd | hd
    · exact hd
    · cases hd
  have hfits := h.fits
  rw [hall] at hfits
  omega

include hpolicy in
/-- Every reference of a cyclic stretch faults. -/
theorem LruInv.thrash (hB : ∀ c, cfg.table.len c ≤ cfg.budgetBytes)
    (hover : cfg.budgetBytes < ∑ d, cfg.table.len d) (refs : List (Fin n))
    (h : LruInv cfg t none R s) (hrefs : CyclicFrom n t (refs.map Fin.val)) :
    ∃ s', refs.foldlM (replayStep cfg clock) s = some s' ∧
      s'.region.stats.absentHandled = s.region.stats.absentHandled + refs.length := by
  induction refs generalizing t R s with
  | nil => exact ⟨s, rfl, rfl⟩
  | cons c refs ih =>
    have ht : c.1 = t % n := hrefs 0 c.1 rfl
    obtain ⟨D, s₁, hs₁, h₁, hcount, -⟩ := h.miss hpolicy (h.next_notMem ht hover) ht (hB c)
    obtain ⟨s₂, hs₂, hcount₂⟩ := ih h₁ hrefs.tail
    refine ⟨s₂, ?_, ?_⟩
    · rw [List.foldlM_cons, hs₁]
      exact hs₂
    · rw [List.length_cons]
      omega

include hpolicy in
/-- The first pass, when the budget holds all chunks: each chunk comes in and stays. -/
theorem LruInv.fill (hall : ∑ d, cfg.table.len d ≤ cfg.budgetBytes) (refs : List (Fin n))
    (h : LruInv cfg t none R s) (hR : ∀ d, d ∈ R ↔ d.1 < t) (ht : t + refs.length ≤ n)
    (hrefs : CyclicFrom n t (refs.map Fin.val)) :
    ∃ R' s', refs.foldlM (replayStep cfg clock) s = some s' ∧
      LruInv cfg (t + refs.length) none R' s' ∧ (∀ d, d ∈ R' ↔ d.1 < t + refs.length) ∧
      s'.region.stats.absentHandled = s.region.stats.absentHandled + refs.length := by
  induction refs generalizing t R s with
  | nil => exact ⟨R, s, rfl, h, hR, rfl⟩
  | cons c refs ih =>
    rw [List.length_cons] at ht ⊢
    have htn : t % n = t := Nat.mod_eq_of_lt (by omega)
    have hct : c.1 = t % n := hrefs 0 c.1 rfl
    have hc : c ∉ R := fun hc => by
      have hlt := (hR c).1 hc
      omega
    have hroom : ∑ d ∈ R, cfg.table.len d + cfg.table.len c ≤ cfg.budgetBytes := by
      rw [Nat.add_comm, ← Finset.sum_insert hc]
      exact (Finset.sum_le_sum_of_subset (Finset.subset_univ _)).trans hall
    obtain ⟨D, s₁, hs₁, h₁, hcount, hkeep⟩ := h.miss hpolicy hc hct (by omega)
    obtain rfl := hkeep hroom
    have hR₁ : ∀ d, d ∈ insert c D ↔ d.1 < t + 1 := by
      intro d
      rw [Finset.mem_insert, hR, Fin.ext_iff, hct, htn]
      omega
    obtain ⟨R₂, s₂, hs₂, h₂, hR₂, hcount₂⟩ := ih h₁ hR₁ (by omega) hrefs.tail
    have hlen : t + 1 + refs.length = t + (refs.length + 1) := by omega
    rw [hlen] at h₂
    refine ⟨R₂, s₂, ?_, h₂, fun d => (hR₂ d).trans (by rw [hlen]), by omega⟩
    rw [List.foldlM_cons, hs₁]
    exact hs₂

include hpolicy in
/-- With everything resident the pager does not run. -/
theorem LruInv.hits (hR : ∀ d, d ∈ R) (refs : List (Fin n)) (h : LruInv cfg t none R s) :
    ∃ s', refs.foldlM (replayStep cfg clock) s = some s' ∧
      s'.region.stats.absentHandled = s.region.stats.absentHandled := by
  induction refs generalizing s with
  | nil => exact ⟨s, rfl, rfl⟩
  | cons c refs ih =>
    have h₁ : LruInv cfg t none R { s with refTrace := s.refTrace ++ [c.1] } := { h with }
    obtain ⟨s₂, hs₂, hcount⟩ := ih h₁
    refine ⟨s₂, ?_, hcount⟩
    rw [List.foldlM_cons, h.hit hpolicy (hR c)]
    exact hs₂

end

theorem passes_succ (n k : ℕ) : passes n (k + 1) = List.finRange n ++ passes n k := by
  rw [passes, List.range_succ_eq_map, List.flatMap_cons, List.flatMap_map]
  rfl

theorem CyclicFrom.left {t : ℕ} {l l' : List ℕ} (h : CyclicFrom n t (l ++ l')) :
    CyclicFrom n t l := by
  intro i x hx
  refine h i x ?_
  rw [List.getElem?_append_left (List.getElem?_eq_some_iff.1 hx).1]
  exact hx

/-- LRU on a cyclic scan: every reference of the run faults when the budget holds each chunk but
not all of them, and one pass of faults is all when it holds them. -/
theorem replayCyclic_lru (cfg : Config n Unit) (clock : ℕ → ℕ) (nPasses : ℕ)
    (hpasses : 1 ≤ nPasses) (hpolicy : cfg.policy = some (policyLru n)) :
    ((∀ c, cfg.table.len c ≤ cfg.budgetBytes) → cfg.budgetBytes < ∑ c, cfg.table.len c →
      (∃ s, replayCyclic cfg clock nPasses (SyncState.init n ()) = some s ∧
        s.region.stats.absentHandled = nPasses * n) ∧
      ∀ done rest, passes n nPasses = done ++ rest →
        ∃ s, done.foldlM (replayStep cfg clock) (SyncState.init n ()) = some s ∧
          s.region.stats.absentHandled = done.length) ∧
    (∑ c, cfg.table.len c ≤ cfg.budgetBytes →
      ∃ s, replayCyclic cfg clock nPasses (SyncState.init n ()) = some s ∧
        s.region.stats.absentHandled = n) := by
  have hinit := SyncState.init_lru cfg
  have hzero : (SyncState.init n ()).region.stats.absentHandled = 0 := rfl
  have hlength : (passes n nPasses).length = nPasses * n := by
    simpa using congrArg List.length (passes_map_val n nPasses)
  refine ⟨fun hB hover => ?_, fun hall => ?_⟩
  · -- total thrashing, also on every part of the run
    have hrun : ∀ done rest, passes n nPasses = done ++ rest →
        ∃ s, done.foldlM (replayStep cfg clock) (SyncState.init n ()) = some s ∧
          s.region.stats.absentHandled = done.length := by
      intro done rest hcut
      have hcyc := passes_cyclicFrom n nPasses
      rw [hcut, List.map_append] at hcyc
      obtain ⟨s, hs, hcount⟩ := hinit.thrash hpolicy hB hover done hcyc.left
      exact ⟨s, hs, by omega⟩
    obtain ⟨s, hs, hcount⟩ := hrun (passes n nPasses) [] (List.append_nil _).symm
    refine ⟨⟨s, ?_, hcount.trans hlength⟩, hrun⟩
    rw [replayCyclic_eq]
    exact hs
  · -- one pass of faults, then hits
    obtain ⟨k, rfl⟩ := Nat.exists_eq_add_of_le' hpasses
    have hcyc := passes_cyclicFrom n (k + 1)
    rw [passes_succ, List.map_append] at hcyc
    obtain ⟨R, s₁, hs₁, h₁, hR, hcount₁⟩ := hinit.fill hpolicy hall (List.finRange n) (by simp)
      (by rw [List.length_finRange]; omega) hcyc.left
    have hfull : ∀ d, d ∈ R := fun d => (hR d).2 (by
      rw [List.length_finRange]
      omega)
    obtain ⟨s₂, hs₂, hcount₂⟩ := h₁.hits hpolicy hfull (passes n k)
    refine ⟨s₂, ?_, ?_⟩
    · rw [replayCyclic_eq, passes_succ, List.foldlM_append, hs₁]
      exact hs₂
    · rw [List.length_finRange] at hcount₁
      omega

/-- A chunk of one page and one of two, a budget of two pages. -/
def unequalPages : Config 2 Unit where
  table := {
    regionOff := ![0, 4096]
    len := ![4096, 8192]
    regionLen := 12288
    len_pos := by decide
    aligned := by decide
    regionOff_eq := by decide
    regionLen_eq := by decide
    regionLen_lt := by decide }
  registered := by decide
  truncated := by decide
  budgetBytes := 8192
  reconcileInterval := 1
  policy := some (policyLru 2)
  asyncHandler := false
  pool := false
  workers := 0
  prefetchEnabled := false
  prefetchDepth := 1
  prefetchAdmissionAlways := false
  prefetchRetentionPinned := false
  fetchingTimeoutMs := 0
  modelFileSize := 0
  fileByte := fun _ => 0

theorem replayCyclic_lru_unequalPages :
    ∃ s, replayCyclic unequalPages (fun _ => 0) 3 (SyncState.init 2 ()) = some s ∧
      s.region.stats.absentHandled = 3 * 2 :=
  ((replayCyclic_lru unequalPages (fun _ => 0) 3 (by decide) rfl).1 (by decide) (by decide)).1

end Residctl
