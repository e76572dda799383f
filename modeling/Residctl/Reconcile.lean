import Residctl.Content

/-!
# What reconciliation finds

The populated pages of the memfd against `resident_bytes` and `reserved_bytes`. The pages of
a chunk that is counted as resident are all populated, since `UFFDIO_CONTINUE` accepted them
and the punch that frees them gives their bytes back under the same mutex. A fetch populates
only what has been reserved for it.
-/

namespace Residctl

variable {n : ℕ} {σ : Type}

/-! ## Pages and bytes -/

/-- `known_overhead_bytes`, as `region_startup` leaves it. -/
def knownOverheadBytes : ℕ := 0

/-- The bytes of the memfd that are charged when the pages of `A` are populated. -/
def Config.memfdBytes (cfg : Config n σ) (A : ℕ → Bool) : ℕ :=
  RESIDCTL_ALIGN * ((Finset.range (pageOf cfg.table.regionLen)).filter fun q => A q = true).card

theorem PageWithin.lt {lo len q : ℕ} (h : PageWithin lo len q) : q < pageOf (lo + len) := by
  have hhi := h.2
  unfold pageOf
  unfold RESIDCTL_ALIGN at *
  omega

/-- The pages of the chunk. -/
def ChunkTable.pages (T : ChunkTable n) (c : Fin n) : Finset ℕ :=
  Finset.Ico (pageOf (T.regionOff c)) (pageOf (T.regionOff c + T.len c))

namespace Config

variable (cfg : Config n σ)

theorem mem_pages (c : Fin n) (q : ℕ) : q ∈ cfg.table.pages c ↔ cfg.table.HasPage c q := by
  have hoff := cfg.table.aligned c
  have hlen := cfg.table.len_mod cfg.registered c
  unfold ChunkTable.pages ChunkTable.HasPage PageWithin pageOf
  rw [Finset.mem_Ico]
  unfold RESIDCTL_ALIGN at *
  omega

theorem len_eq_card (c : Fin n) :
    cfg.table.len c = RESIDCTL_ALIGN * (cfg.table.pages c).card := by
  have hoff := cfg.table.aligned c
  have hlen := cfg.table.len_mod cfg.registered c
  unfold ChunkTable.pages pageOf
  rw [Nat.card_Ico]
  unfold RESIDCTL_ALIGN at *
  omega

theorem pages_disjoint : (Set.univ : Set (Fin n)).PairwiseDisjoint cfg.table.pages := by
  intro c _ d _ hne
  refine Finset.disjoint_left.2 fun q hc hd => hne ?_
  exact ((cfg.mem_pages c q).1 hc).unique ((cfg.mem_pages d q).1 hd)

/-- The memfd ends with the last chunk. -/
theorem page_lt {c : Fin n} {q : ℕ} (h : cfg.table.HasPage c q) :
    q < pageOf cfg.table.regionLen :=
  h.lt.trans_le (Nat.div_le_div_right (cfg.table.end_le_regionLen c))

end Config

/-! ## Exact accounting -/

section

open Ledger

/-- The counters are those of the chunks: `resident_bytes` has the `counted` ones, with all their
pages, `reserved_bytes` the `fetching` ones, with the pages populated so far. Nothing else is in
`A`, the populated pages. -/
structure Exact (cfg : Config n σ) (r : Region n σ) (counted fetching : Fin n → Prop)
    [DecidablePred counted] [DecidablePred fetching] (A : ℕ → Bool) : Prop where
  exclusive : ∀ c, counted c → ¬ fetching c
  resident : ∀ c, (r.chunks c).state = .resident → counted c
  residentBytes : r.residentBytes = total cfg.table.len counted
  reservedBytes : r.reservedBytes = total cfg.table.len fetching
  filled : ∀ c q, counted c → cfg.table.HasPage c q → A q = true
  within : ∀ q, A q = true → ∃ c, cfg.table.HasPage c q ∧ (counted c ∨ fetching c)

variable {cfg : Config n σ} {r : Region n σ} {counted fetching : Fin n → Prop}
  [DecidablePred counted] [DecidablePred fetching] {A : ℕ → Bool} {v : Fin n}

theorem Exact.total_eq (h : Exact cfg r counted fetching A) :
    total cfg.table.len (fun c => counted c ∨ fetching c) = r.residentBytes + r.reservedBytes := by
  rw [h.residentBytes, h.reservedBytes, total_or h.exclusive]

theorem Exact.small (h : Exact cfg r counted fetching A) :
    r.residentBytes + r.reservedBytes < 2 ^ 63 := by
  rw [← h.total_eq]
  refine (total_le _).trans_lt ?_
  rw [← cfg.table.regionLen_eq]
  exact cfg.truncated

theorem Exact.len_le (h : Exact cfg r counted fetching A) (hv : (r.chunks v).state = .resident) :
    cfg.table.len v ≤ r.residentBytes := by
  rw [h.residentBytes]
  exact le_total (h.resident v hv)

/-- The populated bytes lie between the counters. -/
theorem Exact.memfdBytes_mem (h : Exact cfg r counted fetching A) :
    r.residentBytes ≤ cfg.memfdBytes A ∧
      cfg.memfdBytes A ≤ r.residentBytes + r.reservedBytes := by
  constructor
  · rw [h.residentBytes]
    refine total_le_card cfg.pages_disjoint cfg.len_eq_card fun c hc q hq => ?_
    have hpage := (cfg.mem_pages c q).1 hq
    rw [Finset.mem_filter, Finset.mem_range]
    exact ⟨cfg.page_lt hpage, h.filled c q hc hpage⟩
  · rw [← h.total_eq]
    refine card_le_total cfg.pages_disjoint cfg.len_eq_card fun q hq => ?_
    obtain ⟨c, hpage, hc⟩ := h.within q (Finset.mem_filter.1 hq).2
    exact ⟨c, hc, (cfg.mem_pages c q).2 hpage⟩

end

namespace Pager

open Mutex Function Runs Ledger

/-! ## What a run may populate -/

/-- A step of a fetch populates pages of its own chunk only. -/
def Confined (cfg : Config n σ) (a : Action n) (s : State n σ) : Prop :=
  ∀ t io j i s', a = .exec t io → s.pc t = .go (.job j i) → step cfg a s = some s' →
    ∀ q, s.sh.kernel.alloc q = false → s'.sh.kernel.alloc q = true → cfg.table.HasPage j.target q

/-- The pages populated at an instant within a step: those of the state, and any part of the
pages of a chunk that is being fetched. -/
def State.Populates (cfg : Config n σ) (s : State n σ) (A : ℕ → Bool) : Prop :=
  ∀ q, (∀ c, cfg.table.HasPage c q → ¬ s.Promised c) → A q = s.sh.kernel.alloc q

/-- What can be read is populated, and what is populated is counted. -/
structure Populated (cfg : Config n σ) (s : State n σ) : Prop where
  mapped : ∀ q, s.sh.kernel.mapped q = true → s.sh.kernel.alloc q = true
  within : ∀ q, s.sh.kernel.alloc q = true →
    ∃ c, cfg.table.HasPage c q ∧ (s.sh.life s.role).Occupied c

section

variable {cfg : Config n σ} {s s' : State n σ} {t : Tid} {io : Input n} {sh' : Shared n σ}
  {k k' : Point n} {V V' : View n} {a : Action n} {j : Job n} {c v : Fin n} {q : ℕ}

theorem Kernel.alloc_store {K : Kernel} {lo len : ℕ} {byte : ℕ → UInt8}
    (h : K.alloc q = true) : (K.store lo len byte).alloc q = true := by
  show (if PageTouches lo len q then true else K.alloc q) = true
  split
  · rfl
  · exact h

theorem padKernel_alloc (K : Kernel) (h : K.alloc q = true) :
    (padKernel cfg K c).alloc q = true := by
  unfold padKernel
  split
  · exact Kernel.alloc_store h
  · exact h

theorem padKernel_mapped (K : Kernel) : (padKernel cfg K c).mapped = K.mapped := by
  unfold padKernel
  split <;> rfl

/-- Everything mapped stays populated. -/
theorem Deed.mapped_alloc (h : Deed cfg k k' V V')
    (hV : ∀ q, V.kernel.mapped q = true → V.kernel.alloc q = true)
    (hq : V'.kernel.mapped q = true) : V'.kernel.alloc q = true := by
  cases h with
  | @evict j a v _ hst =>
    have hmapped : (if cfg.table.HasPage v q then false else V.kernel.mapped q) = true := hq
    show (if cfg.table.HasPage v q then false else V.kernel.alloc q) = true
    split at hmapped
    · cases hmapped
    · rename_i hno
      rw [if_neg hno]
      exact hV q hmapped
  | @resolve j _ hok =>
    have hmapped : (if cfg.table.HasPage j.target q then true else V.kernel.mapped q) = true := hq
    show V.kernel.alloc q = true
    split at hmapped
    · rename_i hpage
      exact (hok.2.2 q hpage.lt hpage).1
    · exact hV q hmapped
  | pad =>
    rw [show _ = V.kernel.mapped from padKernel_mapped V.kernel] at hq
    exact padKernel_alloc V.kernel (hV q hq)
  | read _ _ => exact Kernel.alloc_store (hV q hq)
  | tail _ _ => exact Kernel.alloc_store (hV q hq)
  | _ => exact hV q hq

/-- Only a fetch with a reservation populates pages. -/
theorem Deed.alloc (h : Deed cfg k k' V V') (hq : V'.kernel.alloc q = true) :
    V.kernel.alloc q = true ∨ ∃ j i, k = .job j i ∧ (i.role j).Reserves ∧ k.victim = none := by
  cases h with
  | @evict j a v _ hst =>
    have halloc : (if cfg.table.HasPage v q then false else V.kernel.alloc q) = true := hq
    split at halloc
    · cases halloc
    · exact Or.inl halloc
  | pad => exact Or.inr ⟨_, _, rfl, trivial, rfl⟩
  | read _ _ => exact Or.inr ⟨_, _, rfl, trivial, rfl⟩
  | tail _ _ => exact Or.inr ⟨_, _, rfl, trivial, rfl⟩
  | _ => exact Or.inl hq

/-- A punch frees the pages of its chunk. -/
theorem Sound.alloc_victim (h : Sound cfg s) (hpc : s.pc t = .go k)
    (hexec : Pager.exec cfg t io s.sh k = .next sh' k') (hv : k.victim = some v)
    (hq : sh'.kernel.alloc q = true) : ¬ cfg.table.HasPage v q := by
  obtain ⟨j, a, rfl⟩ := Point.victim_eq_some hv
  have hev := h.victim t v (by rw [hpc]; rfl)
  simp only [Pager.exec, execJob, if_pos hev] at hexec
  cases hexec
  intro hpage
  have halloc : (if cfg.table.HasPage v q then false else s.sh.kernel.alloc q) = true := hq
  rw [if_pos hpage] at halloc
  cases halloc

/-! ## The invariant -/

theorem Populated.exec (h : Populated cfg s) (hs : Sound cfg s) (hpc : s.pc t = .go k)
    (hexec : exec cfg t io s.sh k = .next sh' k')
    (hconfined : ∀ j i, k = .job j i → ∀ q, s.sh.kernel.alloc q = false →
      sh'.kernel.alloc q = true → cfg.table.HasPage j.target q) :
    Populated cfg (s.arrive t sh' k') := by
  have hdeed := hs.deed hpc hexec
  have hlife := exec_life hs.life (hs.role_go hpc) hexec
  have hrole : (s.arrive t sh' k').role = _ := role_arrive hs.owned hpc (exec_flow hexec).base
  -- a chunk that is not evicted stays counted
  have hkeep : ∀ c, k.victim ≠ some c → (s.sh.life s.role).Occupied c →
      (sh'.life (s.arrive t sh' k').role).Occupied c := by
    intro c hvic hc
    rw [hrole]
    exact hlife.occupied hs.life hvic hc
  refine ⟨fun q hq => hdeed.mapped_alloc h.mapped hq, fun q hq => ?_⟩
  by_cases hold : s.sh.kernel.alloc q = true
  · obtain ⟨c, hpage, hc⟩ := h.within q hold
    exact ⟨c, hpage, hkeep c (fun hvic => hs.alloc_victim hpc hexec hvic hq hpage) hc⟩
  · obtain ⟨j, i, rfl, hres, hvic⟩ := (hdeed.alloc hq).resolve_left hold
    have hnew : s.sh.kernel.alloc q = false := by simpa using hold
    refine ⟨j.target, hconfined j i rfl q hnew hq, hkeep j.target (by simp [hvic]) (Or.inr ?_)⟩
    show (s.role j.target).Reserves
    rwa [hs.role_job hpc]

/-- A step that touches neither the memory nor a chunk. -/
theorem Populated.of_eq (h : Populated cfg s) (hmapped : s'.sh.kernel.mapped = s.sh.kernel.mapped)
    (halloc : s'.sh.kernel.alloc = s.sh.kernel.alloc) (hregion : s'.sh.region = s.sh.region)
    (hrole : s'.role = s.role) : Populated cfg s' := by
  constructor
  · rw [hmapped, halloc]
    exact h.mapped
  · rw [halloc, hrole, Shared.life, hregion]
    exact h.within

theorem Populated.step (h : Populated cfg s) (hs : Sound cfg s) (hok : Confined cfg a s)
    (hstep : step cfg a s = some s') : Populated cfg s' := by
  cases moves_of_step hstep with
  | acquire hpc hneeds hfree =>
    exact h.of_eq rfl rfl rfl (role_acquire hs.owned hpc hneeds hfree)
  | giveUp hpc =>
    refine h.of_eq rfl rfl rfl (role_arrive_free hs.owned ?_ rfl)
    rw [hpc]
    rfl
  | exec hpc hexec =>
    refine h.exec hs hpc hexec ?_
    rintro j i rfl
    exact hok _ _ j i _ rfl hpc hstep
  | tick _ => exact h.of_eq rfl rfl rfl rfl
  | drop _ => exact h.of_eq rfl rfl rfl rfl
  | requestStop => exact h.of_eq rfl rfl rfl rfl

theorem Reach.populated {p : σ} (h : Reach (pager cfg p) (Confined cfg) s) : Populated cfg s := by
  refine h.invariant ?_ fun _ _ _ hr hok hp hstep => hp.step (Reach.sound hr) hok hstep
  exact ⟨by rintro q ⟨⟩, by rintro q ⟨⟩⟩

/-! ## Every reconciliation -/

/-- A chunk in `resident_bytes` has all its pages. -/
theorem Populated.counted (h : Populated cfg s) (hs : Sound cfg s) (hb : Backed cfg s)
    (hc : (s.sh.life s.role).Counted c) (hpage : cfg.table.HasPage c q) :
    s.sh.kernel.alloc q = true := by
  refine h.mapped q ((hb.mapped q).2 ⟨c, hpage, ?_⟩)
  rcases hc with hres | hcom
  · exact Or.inl hres
  · obtain ⟨t, j, hj, rfl⟩ := (hs.committed_iff c).1 hcom
    refine Or.inr ⟨t, ?_⟩
    rw [hj]
    rfl

theorem Populated.exact (h : Populated cfg s) (hs : Sound cfg s) (hb : Backed cfg s)
    {A : ℕ → Bool} (hA : s.Populates cfg A) :
    Exact cfg s.sh.region (s.sh.life s.role).Counted (fun c => (s.role c).Reserves) A where
  exclusive c hc := hs.life.not_reserves hc
  resident c hc := Or.inl hc
  residentBytes := hs.life.resident
  reservedBytes := hs.life.reserved
  filled c q hc hpage := by
    rw [hA q]
    · exact h.counted hs hb hc hpage
    · rintro d hd hpromised
      obtain rfl := hd.unique hpage
      exact hs.life.not_reserves hc ((hs.promised_iff d).2 hpromised)
  within q hq := by
    by_cases hfetch : ∃ c, cfg.table.HasPage c q ∧ s.Promised c
    · obtain ⟨c, hpage, hpromised⟩ := hfetch
      exact ⟨c, hpage, Or.inr ((hs.promised_iff c).2 hpromised)⟩
    · rw [hA q fun c hpage hpromised => hfetch ⟨c, hpage, hpromised⟩] at hq
      exact h.within q hq

/-- When `memory.stat[shmem]` is the overhead and the populated bytes of the memfd, it lies
between the counters at every instant of a run whose fetches populate their own chunks, so that
no reconciliation aborts. -/
theorem reconcile_never_aborts (cfg : Config n σ) (p : σ)
    (h : Reach (pager cfg p) (Confined cfg) s) {A : ℕ → Bool} (hA : s.Populates cfg A) {shmem : ℕ}
    (hshmem : shmem = knownOverheadBytes + cfg.memfdBytes A) :
    s.sh.region.residentBytes + knownOverheadBytes ≤ shmem ∧
      shmem ≤ s.sh.region.residentBytes + s.sh.region.reservedBytes + knownOverheadBytes ∧
      ∀ t io j a, s.pc t = .go (.job j (.reconcile a)) → io.shmem = shmem →
        exec cfg t io s.sh (.job j (.reconcile a)) ≠ .abort := by
  have hs : Sound cfg s := Reach.sound h
  have hb : Backed cfg s := Reach.backed h
  obtain ⟨hlo, hhi⟩ := ((Reach.populated h).exact hs hb hA).memfdBytes_mem
  have hbytes : shmem = cfg.memfdBytes A := hshmem.trans (Nat.zero_add _)
  rw [← hbytes] at hlo hhi
  refine ⟨hlo, hhi, fun t io j a _ hio => ?_⟩
  have hok : reconcileOk cfg s.sh.region shmem := reconcileOk_of_mem hlo hhi hs.counters_lt
  rw [← hio] at hok
  simp [exec, execJob, hok]

/-! ## Regions that end with the file -/

/-- A store inside a chunk touches pages of that chunk. -/
theorem hasPage_of_touches {lo len : ℕ} (h : PageTouches lo len q)
    (hlo : alignedStart cfg c ≤ lo) (hhi : lo + len ≤ alignedEnd cfg c) :
    cfg.table.HasPage c q := by
  have hoff := cfg.table.aligned c
  have hlen := cfg.table.len_mod cfg.registered c
  rw [alignedStart_eq] at hlo
  rw [alignedEnd_eq] at hhi
  unfold PageTouches at h
  unfold ChunkTable.HasPage PageWithin
  unfold RESIDCTL_ALIGN at *
  omega

theorem Kernel.touches_of_alloc {K : Kernel} {lo len : ℕ} {byte : ℕ → UInt8}
    (hold : K.alloc q = false) (hnew : (K.store lo len byte).alloc q = true) :
    PageTouches lo len q := by
  have hif : (if PageTouches lo len q then true else K.alloc q) = true := hnew
  split at hif
  · assumption
  · rw [hold] at hif
    cases hif

/-- The padding and the reads stay within the chunk. -/
theorem Backed.confined (h : Backed cfg s) (hs : Sound cfg s) (hfile : cfg.FileBacked) :
    Confined cfg a s := by
  rintro t io j i s' rfl hpc hstep q hold hnew
  cases moves_of_step hstep with
  | @exec _ _ _ k sh' k' hpc' hexec =>
    obtain rfl := Pc.go.inj (hpc.symm.trans hpc')
    have hdeed := hs.deed hpc hexec
    have hload := fun hf => h.loading hf t j i (by rw [hpc]; rfl)
    have halloc : sh'.view.kernel.alloc q = true := hnew
    have hzero : s.sh.view.kernel.alloc q = false := hold
    generalize sh'.view = V' at hdeed halloc
    generalize s.sh.view = V at hdeed hzero
    cases hdeed with
    | pad =>
      have hstart := off_lt_fileSize j.target hfile
      have hpad : (padKernel cfg V.kernel j.target).alloc q = true := halloc
      unfold padKernel at hpad
      split at hpad
      · rename_i hclamped
        have hend := hclamped.2
        refine hasPage_of_touches (Kernel.touches_of_alloc hzero hpad) ?_ (by omega)
        rw [alignedStart_eq]
        exact hstart.le
      · rw [hzero] at hpad
        cases hpad
    | @read _ off m _ hlo hsize =>
      have hend : directEnd cfg j.target ≤ alignedEnd cfg j.target :=
        directEnd_le_alignedEnd j.target
      exact hasPage_of_touches (Kernel.touches_of_alloc hzero halloc) (Nat.le_add_right _ _)
        (hlo.trans hend)
    | @tail _ pos m _ hlo hsize =>
      have hend : tailEnd cfg j.target ≤ alignedEnd cfg j.target := tailEnd_le_alignedEnd j.target
      exact hasPage_of_touches (Kernel.touches_of_alloc hzero halloc) (hload hfile).start_le
        (hlo.trans hend)
    | @evict _ a v _ hst =>
      have hif : (if cfg.table.HasPage v q then false else V.kernel.alloc q) = true := halloc
      split at hif
      · cases hif
      · rw [hzero] at hif
        cases hif
    | _ => exact Bool.noConfusion (hzero.symm.trans halloc)

/-- Over a region no longer than the file in whole pages every run qualifies. -/
theorem Reach.confined {p : σ} (hfile : cfg.FileBacked) (h : Reachable (pager cfg p) s) :
    Reach (pager cfg p) (Confined cfg) s := by
  induction h with
  | init => exact Reach.init
  | step hreach _ hstep ih =>
    exact Reach.step ih ((Reach.backed hreach).confined (Reach.sound hreach) hfile) hstep

end

/-- Two chunks of three pages, and the budget for both. -/
def twoTriples : Config 2 Unit := { twoPages with
  table := ChunkTable.uniform 2 12288 (by decide) (by decide) (by decide)
  registered := by decide
  truncated := by decide
  budgetBytes := 24576
  modelFileSize := 24576 }

/-- The thread takes a mutex and executes so many points, once for each of the numbers. -/
def turns (t : Tid) (ks : List ℕ) : List (Action 2) :=
  ks.flatMap fun k => .acquire t :: List.replicate k (.exec t { count := 4096 })

/-- Worker 0 has read one page of chunk 0 when worker 1 reconciles for chunk 1. -/
def halfLoaded : List (Action 2) :=
  [.tick 1, .exec (.client 0) {}, .exec (.client 0) {}, .exec (.client 1) { op := .touch 12288 },
    .exec (.client 1) {}] ++ List.replicate 6 (.exec .handler {}) ++ turns .handler [1, 2, 1, 1] ++
    turns (.worker 0) [1, 1, 5] ++ turns (.worker 1) [1, 1, 1]

theorem halfLoaded_runs :
    (run (pager twoTriples ()) halfLoaded (pager twoTriples ()).init).isSome = true := by
  decide +kernel

def halfway : State 2 Unit :=
  (run (pager twoTriples ()) halfLoaded (pager twoTriples ()).init).get halfLoaded_runs

theorem reconcile_twoTriples : halfway.sh.region.residentBytes = 0 ∧
    halfway.sh.region.reservedBytes = 12288 ∧
    exec twoTriples (.worker 1) { shmem := 4096 } halfway.sh (.job (.demand 1) (.reconcile 0)) ≠
      .abort := by
  have hreach : Reachable (pager twoTriples ()) halfway := reachable_get halfLoaded halfLoaded_runs
  have hpc : halfway.pc (.worker 1) = .go (.job (.demand 1) (.reconcile 0)) := by decide +kernel
  have hbytes : 4096 = knownOverheadBytes + twoTriples.memfdBytes halfway.sh.kernel.alloc := by
    decide +kernel
  have hpass := reconcile_never_aborts twoTriples () (Reach.confined (by decide) hreach)
    (fun _ _ => rfl) hbytes
  exact ⟨by decide +kernel, by decide +kernel, hpass.2.2 _ _ _ _ hpc rfl⟩

end Pager

end Residctl
