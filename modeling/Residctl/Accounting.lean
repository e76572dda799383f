import Residctl.Sound

/-!
# The byte counters

`resident_bytes` and `reserved_bytes` in terms of the chunks and of the program points of
the threads, in every reachable state.
-/

namespace Residctl.Pager

open Mutex Function Runs Ledger

variable {n : ℕ} {σ : Type} {cfg : Config n σ} {s : State n σ} {t : Tid} {k : Point n} {c : Fin n}

/-- After the success of the budget call, before the commit. -/
def Instr.promised : Instr n → Bool
  | unpinJustResident ok => ok
  | pad => true
  | read _ => true
  | tail _ => true
  | resolve => true
  | commit => true
  | _ => false

/-- A budget call for the chunk has succeeded and its commit has not run. -/
def State.Promised (s : State n σ) (c : Fin n) : Prop :=
  ∃ t j i, (s.pc t).point = .job j i ∧ j.target = c ∧ i.promised = true

/-- The chunk's commit has run, its state is not set yet. -/
def State.Committed (s : State n σ) (c : Fin n) : Prop :=
  ∃ t j, (s.pc t).point = .job j .mark ∧ j.target = c

/-- The arithmetic on the byte counters at a point, without overflow. -/
def Point.NoWrap (cfg : Config n σ) (sh : Shared n σ) : Point n → Prop
  | .job _ (.reconcile _) =>
    sh.region.residentBytes + sh.region.reservedBytes + cfg.reconcileThreshold < 2 ^ 64
  | .job j (.fit _) =>
    sh.region.residentBytes + sh.region.reservedBytes + cfg.table.len j.target < 2 ^ 64
  | .job _ (.evict _ v) => cfg.table.len v ≤ sh.region.residentBytes
  | .job j .commit => cfg.table.len j.target ≤ sh.region.reservedBytes ∧
      sh.region.residentBytes + cfg.table.len j.target < 2 ^ 64
  | _ => True

/-! ## Roles and program points -/

theorem Instr.role_reserves (j : Job n) (i : Instr n) : (i.role j).Reserves ↔ i.promised = true := by
  cases i with
  | unpinJustResident ok => cases ok <;> simp [Instr.role, Instr.promised, Role.Reserves]
  | unpinTarget ok => cases ok <;> simp [Instr.role, Instr.promised, Role.Reserves]
  | _ => simp [Instr.role, Instr.promised, Role.Reserves]

theorem Instr.role_commits (j : Job n) (i : Instr n) : (i.role j).Commits ↔ i = .mark := by
  cases i with
  | unpinJustResident ok => cases ok <;> simp [Instr.role, Role.Commits]
  | unpinTarget ok => cases ok <;> simp [Instr.role, Role.Commits]
  | _ => simp [Instr.role, Role.Commits]

theorem Job.jrRole_resident (j : Job n) (i : Instr n) (d : Fin n) :
    j.jrRole i d = .none ∨ j.jrRole i d = .resident i.jrPins := by
  cases j with
  | maybe jr c hne =>
    simp only [Job.jrRole]
    split
    · exact Or.inr rfl
    · exact Or.inl rfl
  | _ => exact Or.inl rfl

/-- Outside of the chunk of a job nothing is promised or committed. -/
theorem Point.role_light {k : Point n} (h : ∀ j i, k = .job j i → j.target ≠ c) :
    ¬ (k.role c).Reserves ∧ ¬ (k.role c).Commits := by
  cases k with
  | job j i =>
    have hne : c ≠ j.target := fun he => h j i rfl he.symm
    simp only [Point.role, if_neg hne]
    rcases j.jrRole_resident i c with hr | hr <;> rw [hr] <;> exact ⟨id, id⟩
  | onFault m d => simp only [Point.role]; split <;> exact ⟨id, id⟩
  | enqueue m d => simp only [Point.role]; split <;> exact ⟨id, id⟩
  | pinPrefetch ts d => simp only [Point.role]; split <;> exact ⟨id, id⟩
  | startPrefetch ts d => simp only [Point.role]; split <;> exact ⟨id, id⟩
  | checkMaybe jr d hne => simp only [Point.role]; split <;> exact ⟨id, id⟩
  | pinJustResident jr d hne =>
    simp only [Point.role]
    split
    · exact ⟨id, id⟩
    · split <;> exact ⟨id, id⟩
  | _ => exact ⟨id, id⟩

theorem Point.role_reserves (k : Point n) (c : Fin n) :
    (k.role c).Reserves ↔ ∃ j i, k = .job j i ∧ j.target = c ∧ i.promised = true := by
  constructor
  · intro hres
    by_contra hnot
    refine (Point.role_light fun j i hk ht => hnot ⟨j, i, hk, ht, ?_⟩).1 hres
    rw [hk, ← ht, Point.role_target] at hres
    exact (i.role_reserves j).1 hres
  · rintro ⟨j, i, rfl, rfl, hi⟩
    rw [Point.role_target]
    exact (i.role_reserves j).2 hi

theorem Point.role_commits (k : Point n) (c : Fin n) :
    (k.role c).Commits ↔ ∃ j, k = .job j .mark ∧ j.target = c := by
  constructor
  · intro hcom
    by_contra hnot
    refine (Point.role_light fun j i hk ht => hnot ⟨j, ?_, ht⟩).2 hcom
    rw [hk, ← ht, Point.role_target] at hcom
    rw [hk, (i.role_commits j).1 hcom]
  · rintro ⟨j, rfl, rfl⟩
    rw [Point.role_target]
    exact (Instr.role_commits j .mark).2 rfl

/-- What the roles of a state say is what some thread's point says. -/
theorem role_iff {P : Role → Prop} (h : Owned Pc.holds s.owner s.pc) (hP : ¬ P .none) :
    P (s.role c) ↔ ∃ t, P ((s.pc t).point.role c) := by
  constructor
  · intro hp
    cases ho : s.owner (.chunk c) with
    | none =>
      rw [State.role, readAt, ho] at hp
      exact absurd hp hP
    | some t =>
      refine ⟨t, ?_⟩
      rwa [role_of_holds h ((h t _).1 ho)] at hp
  · rintro ⟨t, hp⟩
    rwa [role_of_ne h fun hr => hP (hr ▸ hp)]

theorem Sound.promised_iff (h : Sound cfg s) (c : Fin n) :
    (s.role c).Reserves ↔ s.Promised c := by
  rw [role_iff h.owned Role.reserves_none]
  simp only [Point.role_reserves]
  rfl

theorem Sound.committed_iff (h : Sound cfg s) (c : Fin n) :
    (s.role c).Commits ↔ s.Committed c := by
  rw [role_iff h.owned Role.commits_none]
  simp only [Point.role_commits]
  rfl

/-- What is promised or committed is being fetched. -/
theorem Sound.fetching (h : Sound cfg s) (hc : (s.role c).Reserves ∨ (s.role c).Commits) :
    (s.sh.region.chunks c).state = .fetching := by
  have hfits : (s.role c).Fits (s.sh.region.chunks c).state := h.life.fits c
  cases hr : s.role c <;> rw [hr] at hc hfits <;> first
    | exact hfits
    | exact absurd hc (by simp [Role.Reserves, Role.Commits])

/-! ## The counters -/

/-- The counters together stay below the length of the region. -/
theorem Sound.counters_lt (h : Sound cfg s) :
    s.sh.region.residentBytes + s.sh.region.reservedBytes < 2 ^ 63 := by
  have hlen := cfg.table.regionLen_eq
  have hlt := cfg.truncated
  have hsum : s.sh.region.residentBytes + s.sh.region.reservedBytes ≤ ∑ c, cfg.table.len c :=
    h.life.sum_le
  omega

theorem Sound.noWrap (h : Sound cfg s) (hpc : s.pc t = .go k) : k.NoWrap cfg s.sh := by
  have hsmall := h.counters_lt
  cases k with
  | job j i =>
    have hrole := h.role_go hpc j.target (j.target_mem_holds i)
    rw [Point.role_target] at hrole
    cases i with
    | reconcile a =>
      show _ + cfg.reconcileThreshold < 2 ^ 64
      have hthr := cfg.reconcileThreshold_lt
      omega
    | fit a =>
      show s.sh.region.residentBytes + s.sh.region.reservedBytes + cfg.table.len j.target < 2 ^ 64
      have hlen := cfg.len_lt j.target
      omega
    | evict a v =>
      have hv := h.victim t v (by rw [hpc]; rfl)
      show cfg.table.len v ≤ (s.sh.life s.role).resident
      rw [h.life.resident]
      exact le_total (p := (s.sh.life s.role).Counted) (Or.inl hv.1)
    | commit =>
      have hres : (s.role j.target).Reserves := by
        rw [hrole]
        trivial
      have hle : cfg.table.len j.target ≤ s.sh.region.reservedBytes := h.life.len_le_reserved hres
      exact ⟨hle, by omega⟩
    | _ => trivial
  | _ => trivial

open Classical in
/-- Every byte that is resident or promised is counted once, within the budget, and the
arithmetic on the counters is exact. -/
theorem accounting (cfg : Config n σ) (p : σ) (h : Reachable (pager cfg p) s) :
    s.sh.region.residentBytes =
        total cfg.table.len (fun c => (s.sh.region.chunks c).state = .resident) +
        total cfg.table.len (fun c => (s.sh.region.chunks c).state = .fetching ∧ s.Committed c) ∧
      s.sh.region.reservedBytes =
        total cfg.table.len (fun c => (s.sh.region.chunks c).state = .fetching ∧ s.Promised c) ∧
      s.sh.region.residentBytes + s.sh.region.reservedBytes ≤ cfg.budgetBytes ∧
      ∀ t k, s.pc t = .go k → k.NoWrap cfg s.sh := by
  have hs : Sound cfg s := Reach.sound h
  refine ⟨?_, ?_, hs.life.budget, fun t k hpc => hs.noWrap hpc⟩
  · rw [← total_or fun c hres hcom => by rw [hres] at hcom; cases hcom.1]
    refine hs.life.resident.trans (total_congr fun c => ?_)
    have hfetch := fun hcom => hs.fetching (c := c) (Or.inr hcom)
    rw [← hs.committed_iff]
    exact or_congr Iff.rfl ⟨fun hcom => ⟨hfetch hcom, hcom⟩, And.right⟩
  · refine hs.life.reserved.trans (total_congr fun c => ?_)
    have hfetch := fun hres => hs.fetching (c := c) (Or.inl hres)
    rw [← hs.promised_iff]
    exact ⟨fun hres => ⟨hfetch hres, hres⟩, And.right⟩

/-- Two chunks of one page, a budget of one page, two workers. -/
def twoPages : Config 2 Unit where
  table := ChunkTable.uniform 2 4096 page_pos page_aligned (by decide)
  registered := by decide
  truncated := by decide
  budgetBytes := 4096
  reconcileInterval := 1
  policy := none
  asyncHandler := true
  pool := true
  workers := 2
  prefetchEnabled := false
  prefetchDepth := 1
  prefetchAdmissionAlways := false
  prefetchRetentionPinned := false
  fetchingTimeoutMs := 1
  modelFileSize := 8192
  fileByte := fun _ => 7

/-- Client 0 faults on chunk 0; the dispatcher goes once around its loop. -/
def dispatchZero : List (Action 2) :=
  [.tick 1, .exec (.client 0) {}, .exec (.client 0) {}] ++ List.replicate 6 (.exec .handler {}) ++
    [.acquire .handler, .exec .handler {}, .acquire .handler, .exec .handler {}]

/-- Worker 0 takes the job up to the reservation. -/
def reserveZero : List (Action 2) :=
  dispatchZero ++ [.acquire (.worker 0), .exec (.worker 0) {}, .acquire (.worker 0),
    .exec (.worker 0) {}, .acquire (.worker 0), .exec (.worker 0) {}, .exec (.worker 0) {},
    .exec (.worker 0) {}]

theorem reserveZero_runs :
    (run (pager twoPages ()) reserveZero (pager twoPages ()).init).isSome = true := by
  decide +kernel

theorem accounting_twoPages :
    ∃ s : State 2 Unit, s.sh.region.reservedBytes = 4096 ∧
      s.sh.region.residentBytes + s.sh.region.reservedBytes ≤ 4096 :=
  ⟨_, by decide +kernel, (accounting twoPages () (reachable_get reserveZero reserveZero_runs)).2.2.1⟩

end Residctl.Pager
