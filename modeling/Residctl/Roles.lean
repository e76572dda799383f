import Residctl.Flow
import Residctl.Lifecycle

/-!
# The threads play the roles

What a thread at a program point knows of the chunks whose locks it holds
(`Point.role`), and the proof that every step of a thread is a step of the life cycle
(`exec_life`).
-/

namespace Residctl.Pager

open Mutex Function

variable {n : ℕ} {σ : Type}

/-! ## The role of a program point -/

/-- The pins a prefetch takes before it is committed. -/
def Job.pins (j : Job n) : ℕ := if j.speculative then 1 else 0

/-- The role with respect to the job's chunk. -/
def Instr.role (j : Job n) : Instr n → Role
  | ensure _ => .fetching j.pins
  | reconcile _ => .fetching j.pins
  | fit _ => .fetching j.pins
  | evict _ _ => .fetching j.pins
  | sleep _ => .fetching j.pins
  | unpinJustResident ok => if ok then .reserved j.pins else .fetching j.pins
  | pad => .reserved j.pins
  | read _ => .reserved j.pins
  | tail _ => .reserved j.pins
  | resolve => .reserved j.pins
  | commit => .mapped j.pins
  | mark => .committed 1
  | unpinTarget ok => if ok then .resident 1 else .fetching 1
  | abandon => .fetching 0
  | retain => .resident 1
  | predict => .resident 1
  | topNeed => .resident 1
  | topPredict _ _ _ => .resident 1
  | topEnqueue _ _ _ => .resident 1
  | unpin => .resident 1
  | finishPrefetch => .resident 0
  | finish => .resident 0

/-- The pins of the chunk after which `maybe_prefetch` runs. -/
def Instr.jrPins : Instr n → ℕ
  | ensure _ => 2
  | reconcile _ => 2
  | fit _ => 2
  | evict _ _ => 2
  | sleep _ => 2
  | unpinJustResident _ => 2
  | _ => 1

/-- The role with respect to the other chunk of `maybe_prefetch`. -/
def Job.jrRole (i : Instr n) (d : Fin n) : Job n → Role
  | maybe jr _ _ => if d = jr then .resident i.jrPins else .none
  | _ => .none

def Point.role : Point n → Fin n → Role
  | onFault _ c, d => if d = c then .fetching 0 else .none
  | enqueue _ c, d => if d = c then .fetching 0 else .none
  | pinPrefetch _ c, d => if d = c then .absent 0 else .none
  | startPrefetch _ c, d => if d = c then .absent 1 else .none
  | checkMaybe jr _ _, d => if d = jr then .resident 1 else .none
  | pinJustResident jr c _, d =>
    if d = c then .fetching 1 else if d = jr then .resident 1 else .none
  | job j i, d => if d = j.target then i.role j else j.jrRole i d
  | _, _ => .none

theorem Job.jrRole_mem {j : Job n} {i : Instr n} {d : Fin n} (h : j.jrRole i d ≠ .none) :
    .chunk d ∈ j.locks := by
  cases j with
  | maybe jr c hne =>
    have hd : d = jr := by_contra fun hd => h (by simp [Job.jrRole, hd])
    simp [Job.locks, hd]
  | _ => exact absurd rfl h

/-- A thread plays a role only for chunks whose lock it holds on arrival. -/
theorem Point.mem_base_of_role {k : Point n} {d : Fin n} (h : k.role d ≠ .none) :
    .chunk d ∈ k.base := by
  cases k with
  | job j i =>
    apply j.locks_subset_base i
    by_cases hd : d = j.target
    · rw [hd]
      exact j.mem_locks
    · exact Job.jrRole_mem (by simpa [Point.role, hd] using h)
  | onFault m c => by_cases hd : d = c <;> simp_all [Point.role, Point.base]
  | enqueue m c => by_cases hd : d = c <;> simp_all [Point.role, Point.base]
  | pinPrefetch ts c => by_cases hd : d = c <;> simp_all [Point.role, Point.base]
  | startPrefetch ts c => by_cases hd : d = c <;> simp_all [Point.role, Point.base]
  | checkMaybe jr c hne => by_cases hd : d = jr <;> simp_all [Point.role, Point.base]
  | pinJustResident jr c hne =>
    by_cases hd : d = c
    · simp [Point.base, hd]
    · by_cases hj : d = jr <;> simp_all [Point.role, Point.base]
  | _ => exact absurd rfl h

/-! ## Roles after a step -/

/-- The roles after a step from `k` to `k'`, when they were `ρ` before. -/
def overlay (k k' : Point n) (ρ : Fin n → Role) (d : Fin n) : Role :=
  if .chunk d ∈ k.holds then k'.role d else ρ d

section

variable {k k' : Point n} {ρ : Fin n → Role} {c : Fin n}

/-- A step that changes one role. -/
theorem overlay_update (hρ : ∀ d, .chunk d ∈ k.holds → ρ d = k.role d) (hc : .chunk c ∈ k.holds)
    (h : ∀ d, d ≠ c → k'.role d = k.role d) : overlay k k' ρ = update ρ c (k'.role c) := by
  funext d
  by_cases hd : d = c
  · subst hd
    rw [update_self, overlay, if_pos hc]
  · rw [update_of_ne hd, overlay]
    split
    · rename_i hmem
      rw [h d hd, hρ d hmem]
    · rfl

/-- A step that changes no role. -/
theorem overlay_same (hρ : ∀ d, .chunk d ∈ k.holds → ρ d = k.role d)
    (h : ∀ d, k'.role d = k.role d) : overlay k k' ρ = ρ := by
  funext d
  rw [overlay]
  split
  · rename_i hmem
    rw [h d, hρ d hmem]
  · rfl

end

/-! ## The life of a region under the operations on it -/

def Shared.life (sh : Shared n σ) (ρ : Fin n → Role) : Life n := sh.region.life ρ

section

variable {r : Region n σ} {ρ : Fin n → Role} {c : Fin n}

/-- One chunk record and one role change. -/
theorem life_modify (r : Region n σ) (c : Fin n) (f : Chunk → Chunk) (ρ : Fin n → Role)
    (ro : Role) : (r.modify c f).life (update ρ c ro) =
      (r.life ρ).set c (f (r.chunks c)).state (f (r.chunks c)).pin ro := by
  have hstate : (fun d => ((r.modify c f).chunks d).state) =
      update (fun d => (r.chunks d).state) c (f (r.chunks c)).state := by
    funext d
    by_cases hd : d = c
    · subst hd
      simp
    · simp [hd]
  have hpin : (fun d => ((r.modify c f).chunks d).pin) =
      update (fun d => (r.chunks d).pin) c (f (r.chunks c)).pin := by
    funext d
    by_cases hd : d = c
    · subst hd
      simp
    · simp [hd]
  simp only [Region.life, Life.set, hstate, hpin]
  rfl

/-- Only a role changes. -/
theorem life_update (r : Region n σ) (c : Fin n) (ρ : Fin n → Role) (ro : Role) :
    r.life (update ρ c ro) = (r.life ρ).set c ((r.life ρ).state c) ((r.life ρ).pin c) ro := by
  simp [Region.life, Life.set]

/-- A change of a chunk record that the life cycle does not see. -/
theorem life_modify_same (r : Region n σ) (c : Fin n) (f : Chunk → Chunk) (ρ : Fin n → Role)
    (hst : (f (r.chunks c)).state = (r.chunks c).state)
    (hpin : (f (r.chunks c)).pin = (r.chunks c).pin) : (r.modify c f).life ρ = r.life ρ := by
  have h := life_modify r c f ρ (ρ c)
  rw [update_eq_self, hst, hpin] at h
  rw [h]
  simp [Region.life, Life.set]

end

@[simp] theorem Shared.life_setRegion (sh : Shared n σ) (r : Region n σ) (ρ : Fin n → Role) :
    (sh.setRegion r).life ρ = r.life ρ := rfl

@[simp] theorem Shared.life_setKernel (sh : Shared n σ) (k : Kernel) (ρ : Fin n → Role) :
    (sh.setKernel k).life ρ = sh.life ρ := rfl

@[simp] theorem Shared.life_stat (sh : Shared n σ) (f : Stats → Stats) (ρ : Fin n → Role) :
    (sh.stat f).life ρ = sh.life ρ := rfl

@[simp] theorem Shared.life_hook (sh : Shared n σ) (f : Option (σ → Fin n → σ)) (c : Fin n)
    (ρ : Fin n → Role) : (sh.hook f c).life ρ = sh.life ρ := by
  cases f <;> rfl

theorem Shared.life_beginFetch (sh : Shared n σ) (now : ℕ) (c : Fin n) (ρ : Fin n → Role)
    (ro : Role) : (sh.beginFetch now c).life (update ρ c ro) =
      (sh.life ρ).set c .fetching ((sh.life ρ).pin c) ro :=
  life_modify sh.region c (fun k => k.beginFetch now (sh.region.faultSeq + 1)) ρ ro

theorem Shared.life_abandonFetch (cfg : Config n σ) (sh : Shared n σ) (c : Fin n)
    (ρ : Fin n → Role) (ro : Role) : (sh.abandonFetch cfg c).life (update ρ c ro) =
      (sh.life ρ).set c .absent ((sh.life ρ).pin c) ro :=
  life_modify sh.region c Chunk.abandonFetch ρ ro

@[simp] theorem Shared.life_countFailed (sh : Shared n σ) (j : Job n) (ρ : Fin n → Role) :
    (countFailed sh j).life ρ = sh.life ρ := by
  cases j with
  | prefetch c =>
    exact life_modify_same sh.region c
      (fun k => { k with declineUntilNs := sh.clock + 100 * 1000 * 1000 }) ρ rfl rfl
  | _ => rfl

/-! ## Steps of the machine are steps of the life cycle -/

section

variable {cfg : Config n σ} {t : Tid} {io : Input n} {sh sh' : Shared n σ} {k k' : Point n}
  {ρ : Fin n → Role} {c v : Fin n}

/-- The life cycle invariant of this configuration. -/
abbrev Alive (cfg : Config n σ) (s : Life n) : Prop :=
  s.Inv cfg.table.len cfg.budgetBytes cfg.pinnedPrefetchCap

abbrev LifeStep (cfg : Config n σ) (vic : Option (Fin n)) (s s' : Life n) : Prop :=
  Life.Step cfg.table.len cfg.budgetBytes cfg.pinnedPrefetchCap vic s s'

theorem one_le_cap (cfg : Config n σ) : 1 ≤ cfg.pinnedPrefetchCap := by
  unfold Config.pinnedPrefetchCap
  split <;> omega

theorem life_pinChunk {r : Region n σ} (h : Alive cfg (r.life ρ)) (ro : Role) :
    (pinChunk r c).life (update ρ c ro) =
      (r.life ρ).set c ((r.life ρ).state c) ((r.life ρ).pin c + 1) ro := by
  have hle : (r.chunks c).pin ≤ 3 := h.pin_le c
  have hpin : (r.chunks c).incPin.pin = (r.chunks c).pin + 1 := by
    show ((r.chunks c).pin + 1) % 2 ^ 32 = _
    omega
  rw [pinChunk, life_modify, hpin]
  rfl

theorem life_unpinChunk {r : Region n σ} (h : Alive cfg (r.life ρ)) (ro : Role)
    (hpos : 0 < (r.life ρ).pin c) : (unpinChunk r c).life (update ρ c ro) =
      (r.life ρ).set c ((r.life ρ).state c) ((r.life ρ).pin c - 1) ro := by
  have hle : (r.chunks c).pin ≤ 3 := h.pin_le c
  have hpos' : 0 < (r.chunks c).pin := hpos
  have hpin : (r.chunks c).decPin.pin = (r.chunks c).pin - 1 := by
    show ((r.chunks c).pin + 2 ^ 32 - 1) % 2 ^ 32 = _
    omega
  rw [unpinChunk, life_modify, hpin]
  rfl

/-- A retained chunk is pinned. -/
theorem Alive.pin_pos {s : Life n} (h : Alive cfg s) (hv : v ∈ s.fifo) : 0 < s.pin v := by
  have hcount := List.count_pos_iff.2 hv
  have hpin := h.pin v
  omega

/-- `prefetch_retain_release` of a retained chunk. -/
theorem life_release {r : Region n σ} (h : Alive cfg (r.life ρ)) (hv : v ∈ r.pinnedPrefetch) :
    (prefetchRetainRelease r v).life ρ =
      { (r.life ρ).set v ((r.life ρ).state v) ((r.life ρ).pin v - 1) ((r.life ρ).role v) with
        fifo := (r.life ρ).fifo.erase v } := by
  have hun := life_unpinChunk (ρ := ρ) (c := v) h (ρ v) (h.pin_pos hv)
  rw [update_eq_self] at hun
  rw [prefetchRetainRelease, if_pos hv]
  exact congrArg (fun s : Life n => { s with fifo := r.pinnedPrefetch.erase v }) hun

/-- `prefetch_retain_on_resident` before the role changes. -/
theorem life_append {r : Region n σ} (h : Alive cfg (r.life ρ)) (c : Fin n) :
    (prefetchRetainOnResident cfg r c).life ρ =
      { (r.life ρ).dropOldest cfg.pinnedPrefetchCap with
        fifo := ((r.life ρ).dropOldest cfg.pinnedPrefetchCap).fifo ++ [c] } := by
  have hfifo : (r.life ρ).fifo = r.pinnedPrefetch := rfl
  unfold prefetchRetainOnResident Life.dropOldest
  rw [hfifo]
  cases hq : r.pinnedPrefetch with
  | nil => simp [Region.life, hq]
  | cons oldest rest =>
    have hun := life_unpinChunk (ρ := ρ) (c := oldest) h (ρ oldest)
      (h.pin_pos (by rw [hfifo, hq]; exact List.mem_cons_self))
    rw [update_eq_self] at hun
    simp only
    split
    · exact congrArg (fun s : Life n => { s with fifo := rest ++ [c] }) hun
    · simp [Region.life, hq]

theorem life_retain {r : Region n σ} (h : Alive cfg (r.life ρ)) (hc : ρ c = .resident 1) :
    (prefetchRetainOnResident cfg r c).life (update ρ c (.resident 0)) =
      { ((r.life ρ).dropOldest cfg.pinnedPrefetchCap).set c ((r.life ρ).state c)
          ((r.life ρ).pin c) (.resident 0) with
        fifo := ((r.life ρ).dropOldest cfg.pinnedPrefetchCap).fifo ++ [c] } := by
  have hnot : c ∉ (r.life ρ).fifo := h.notMem_fifo (by show 0 < (ρ c).pins; rw [hc]; exact Nat.one_pos)
  rw [life_update, life_append h]
  have hst := congrFun (Life.dropOldest_state (r.life ρ) cfg.pinnedPrefetchCap) c
  have hpin := Life.dropOldest_pin (r.life ρ) cfg.pinnedPrefetchCap hnot
  simp only [hst, hpin]
  rfl

/-! ### Within a job -/

variable {j : Job n} {i i' : Instr n} {a : ℕ} {ok : Bool}

theorem Job.jrRole_congr (h : i'.jrPins = i.jrPins) (d : Fin n) : j.jrRole i' d = j.jrRole i d := by
  cases j <;> simp [Job.jrRole, h]

theorem Point.role_target (j : Job n) (i : Instr n) : (Point.job j i).role j.target = i.role j :=
  if_pos rfl

theorem overlay_job (hρ : ∀ d, .chunk d ∈ (Point.job j i).holds → ρ d = (Point.job j i).role d)
    (hjr : ∀ d, j.jrRole i' d = j.jrRole i d) :
    overlay (.job j i) (.job j i') ρ = update ρ j.target (i'.role j) := by
  rw [overlay_update hρ (j.target_mem_holds i), Point.role_target]
  intro d hd
  simp only [Point.role, if_neg hd, hjr]

theorem overlay_job_same
    (hρ : ∀ d, .chunk d ∈ (Point.job j i).holds → ρ d = (Point.job j i).role d)
    (hjr : ∀ d, j.jrRole i' d = j.jrRole i d) (hrole : i'.role j = i.role j) :
    overlay (.job j i) (.job j i') ρ = ρ := by
  refine overlay_same hρ fun d => ?_
  by_cases hd : d = j.target
  · subst hd
    rw [Point.role_target, Point.role_target, hrole]
  · simp only [Point.role, if_neg hd, hjr]

/-- Leaving the job forgets its chunk. -/
theorem overlay_after (hρ : ∀ d, .chunk d ∈ (Point.job j i).holds → ρ d = (Point.job j i).role d)
    (hjr : i.jrPins = 1) : overlay (.job j i) j.after ρ = update ρ j.target .none := by
  have hself : j.after.role j.target = .none := by
    cases j with
    | maybe jr c hne => simp [Job.after, Point.role, Job.target, Job.jrRole, hne]
    | _ => rfl
  rw [overlay_update hρ (j.target_mem_holds i), hself]
  intro d hd
  cases j with
  | maybe jr c hne =>
    have hdc : d ≠ c := hd
    simp only [Job.after, Point.role, Job.target, if_neg hdc, Job.jrRole, hjr]
    rfl
  | _ =>
    simp only [Point.role, if_neg hd]
    rfl

theorem ensured_role (cfg : Config n σ) (a : ℕ) (ok : Bool) (j : Job n) :
    (ensured cfg a ok j).role j = if ok then .reserved j.pins else .fetching j.pins := by
  cases j <;> cases ok <;> simp only [ensured, if_true, if_false, Bool.false_eq_true]
  all_goals first | rfl | (split <;> rfl)

theorem ensured_jrRole (cfg : Config n σ) (a : ℕ) (ok : Bool) (j : Job n) (d : Fin n) :
    j.jrRole (ensured cfg a ok j) d = j.jrRole (.fit a) d := by
  cases j <;> rfl

theorem marked_role (cfg : Config n σ) (j : Job n) :
    (marked cfg j).role j = .resident 1 ∧ (marked cfg j).jrPins = 1 := by
  unfold marked speculate
  cases j <;> simp only [Job.speculative, if_true, if_false, Bool.false_eq_true]
  all_goals repeat' split
  all_goals exact ⟨rfl, rfl⟩

theorem topNext_role (need r : ℕ) (cursor : Fin n) (j : Job n) :
    (topNext need r cursor).role j = .resident 1 ∧ (topNext need r cursor).jrPins = 1 := by
  unfold topNext
  split <;> exact ⟨rfl, rfl⟩

/-- Steps of a job that only move on. -/
theorem stay_job {sh' : Shared n σ} (hlife : ∀ ρ, sh'.life ρ = sh.life ρ)
    (hρ : ∀ d, .chunk d ∈ (Point.job j i).holds → ρ d = (Point.job j i).role d)
    (hjr : ∀ d, j.jrRole i' d = j.jrRole i d) (hrole : i'.role j = i.role j) :
    LifeStep cfg none (sh.life ρ) (sh'.life (overlay (.job j i) (.job j i') ρ)) := by
  rw [overlay_job_same hρ hjr hrole, hlife]
  exact Life.Step.stay _

/-- A job lets go of a chunk that is `RESIDENT`. -/
theorem leave_job {sh' : Shared n σ} (hlife : ∀ ρ, sh'.life ρ = sh.life ρ)
    (hρ : ∀ d, .chunk d ∈ (Point.job j i).holds → ρ d = (Point.job j i).role d)
    (hjr : i.jrPins = 1) (hrole : i.role j = .resident 0) :
    LifeStep cfg none (sh.life ρ) (sh'.life (overlay (.job j i) j.after ρ)) := by
  have hc : (sh.life ρ).role j.target = .resident 0 := by
    rw [← hrole, ← Point.role_target j i]
    exact hρ _ (j.target_mem_holds i)
  rw [overlay_after hρ hjr, hlife, Shared.life, Shared.life, life_update]
  apply Life.Step.look
  · show ((sh.life ρ).role j.target).Light
    rw [hc]
    exact ⟨rfl, id, id⟩
  · exact ⟨rfl, id, id⟩
  · trivial

/-- The budget loop reserves only what fits. -/
theorem fits_of_not_overBudget (h : Alive cfg (sh.life ρ)) {p : ℕ} (hc : ρ c = .fetching p)
    (hover : ¬ overBudget cfg sh.region c) :
    (sh.life ρ).resident + (sh.life ρ).reserved + cfg.table.len c ≤ cfg.budgetBytes ∧
      sh.region.reservedBytes + cfg.table.len c < 2 ^ 64 := by
  have hfits : (ρ c).Fits ((sh.life ρ).state c) := h.fits c
  rw [hc] at hfits
  have hst : (sh.life ρ).state c = .fetching := hfits
  have hnot : ¬ (sh.life ρ).Counted c := by
    intro hcounted
    rcases hcounted with hres | hcom
    · rw [hst] at hres
      cases hres
    · have hcom' : (ρ c).Commits := hcom
      rw [hc] at hcom'
      exact hcom'
  have hres : ¬ ((sh.life ρ).role c).Reserves := by
    show ¬ (ρ c).Reserves
    rw [hc]
    exact id
  have hsum := h.sum_add_le hnot hres
  rw [← cfg.table.regionLen_eq] at hsum
  have hlt := cfg.table.regionLen_lt
  have hsum' : sh.region.residentBytes + sh.region.reservedBytes + cfg.table.len c < 2 ^ 64 :=
    hsum.trans_lt hlt
  rw [overBudget, exceeds, wrap64_of_lt (v := sh.region.residentBytes + sh.region.reservedBytes) (by omega),
    wrap64_of_lt hsum'] at hover
  exact ⟨Nat.le_of_not_lt hover, by omega⟩

theorem life_reserve {r : Region n σ} {ro : Role}
    (hlt : r.reservedBytes + cfg.table.len c < 2 ^ 64) :
    (reserve cfg r c).life (update ρ c ro) =
      { (r.life ρ).set c ((r.life ρ).state c) ((r.life ρ).pin c) ro with
        reserved := (r.life ρ).reserved + cfg.table.len c } := by
  rw [life_update]
  simp [Region.life, Life.set, reserve, wrap64_of_lt hlt]

theorem life_evictBody {r : Region n σ} (h : Alive cfg (r.life ρ))
    (hv : (r.life ρ).state v = .resident) : (evictBody cfg r v).life (update ρ v .none) =
      { (r.life ρ).set v .absent ((r.life ρ).pin v) .none with
        resident := (r.life ρ).resident - cfg.table.len v } := by
  have hle : cfg.table.len v ≤ (r.life ρ).resident := by
    rw [h.resident]
    exact Ledger.le_total (p := (r.life ρ).Counted) (Or.inl hv)
  have hsum := h.sum_le
  rw [← cfg.table.regionLen_eq] at hsum
  have hlt := cfg.table.regionLen_lt
  have hsub : sub64 r.residentBytes (cfg.table.len v) = r.residentBytes - cfg.table.len v :=
    sub64_of_le hle (show (r.life ρ).resident < 2 ^ 64 by omega)
  have hlife : (evictBody cfg r v).life (update ρ v .none) =
      { (r.modify v fun k => { k with state := .absent }).life (update ρ v .none) with
        resident := sub64 r.residentBytes (cfg.table.len v) } := rfl
  rw [hlife, life_modify, hsub]
  rfl

/-- The reservation of a mapped chunk is part of `reserved_bytes`. -/
theorem Alive.len_le_reserved {s : Life n} (h : Alive cfg s) (hc : (s.role c).Reserves) :
    cfg.table.len c ≤ s.reserved := by
  rw [h.reserved]
  exact Ledger.le_total (p := fun d => (s.role d).Reserves) hc

theorem life_commitReserved {r : Region n σ} {ro : Role} (h : Alive cfg (r.life ρ))
    (hc : (ρ c).Reserves) : (commitReserved cfg r c).life (update ρ c ro) =
      { (r.life ρ).set c ((r.life ρ).state c) ((r.life ρ).pin c) ro with
        reserved := (r.life ρ).reserved - cfg.table.len c
        resident := (r.life ρ).resident + cfg.table.len c } := by
  have hle : cfg.table.len c ≤ r.reservedBytes := h.len_le_reserved hc
  have hsum := h.sum_le
  rw [← cfg.table.regionLen_eq] at hsum
  have hlt := cfg.table.regionLen_lt
  have hsum' : r.residentBytes + r.reservedBytes < 2 ^ 64 := hsum.trans_lt hlt
  rw [life_update]
  simp only [Region.life, Life.set, commitReserved, sub64_of_le hle (by omega),
    wrap64_of_lt (v := r.residentBytes + cfg.table.len c) (by omega)]

theorem life_commitReservedAndPin {r : Region n σ} {ro : Role} (h : Alive cfg (r.life ρ))
    (hc : (ρ c).Reserves) : (commitReservedAndPin cfg r c).life (update ρ c ro) =
      { (r.life ρ).set c ((r.life ρ).state c) ((r.life ρ).pin c + 1) ro with
        reserved := (r.life ρ).reserved - cfg.table.len c
        resident := (r.life ρ).resident + cfg.table.len c } := by
  have hcom : (commitReserved cfg r c).life (update ρ c (ρ c)) = _ := life_commitReserved h hc
  rw [update_eq_self] at hcom
  have hle : (r.chunks c).pin ≤ 3 := h.pin_le c
  have hpin : ((commitReserved cfg r c).chunks c).incPin.pin = (r.chunks c).pin + 1 := by
    show ((r.chunks c).pin + 1) % 2 ^ 32 = _
    omega
  rw [commitReservedAndPin, life_modify, hpin, hcom]
  simp [Life.set, Region.life, commitReserved, Chunk.incPin]

/-- A step that takes the pin of a chunk the thread has pinned. -/
theorem unpin_life {r : Region n σ} (h : Alive cfg (r.life ρ)) {p : ℕ} (ro : Role)
    (hp : (ρ c).pins = p + 1) (hro : ro = (ρ c).withPins p) :
    LifeStep cfg none (r.life ρ) ((unpinChunk r c).life (update ρ c ro)) := by
  have hrole : (r.life ρ).role c = ρ c := rfl
  have hpos : 0 < ((r.life ρ).role c).pins := by
    rw [hrole, hp]
    exact Nat.succ_pos p
  have hpin : 0 < (r.life ρ).pin c := lt_of_lt_of_le hpos (h.pins_le_pin c)
  have hstep : LifeStep cfg none (r.life ρ) _ := .pinDown (r.life ρ) c hpos
  rw [life_unpinChunk h ro hpin, hro]
  rw [hrole, hp, Nat.add_sub_cancel] at hstep
  exact hstep

/-- Nobody plays a role for an evictable chunk, except that its holder may be about to
release it. -/
theorem role_of_evictable (h : Alive cfg (sh.life ρ)) (hv : (sh.region.chunks v).Evictable) :
    ρ v = .none ∨ ρ v = .resident 0 := by
  have hfits : (ρ v).Fits (sh.region.chunks v).state := h.fits v
  have hpins : (ρ v).pins ≤ (sh.region.chunks v).pin := h.pins_le_pin v
  rw [hv.1] at hfits
  rw [hv.2] at hpins
  cases hrole : ρ v with
  | none => exact Or.inl rfl
  | resident p =>
    rw [hrole] at hpins
    obtain rfl : p = 0 := Nat.le_zero.1 hpins
    exact Or.inr rfl
  | _ =>
    rw [hrole] at hfits
    cases hfits

/-- The evicting thread plays no role for its victim. -/
theorem evict_role (h : Alive cfg (sh.life ρ))
    (hρ : ∀ d, .chunk d ∈ (Point.job j (.evict a v)).holds → ρ d = (Point.job j (.evict a v)).role d)
    (hv : (sh.region.chunks v).Evictable) : ρ v = .none := by
  have hmem : .chunk v ∈ (Point.job j (.evict a v)).holds := by simp [Point.holds, Point.needs]
  refine (role_of_evictable h hv).resolve_right fun hres => ?_
  rw [hρ v hmem] at hres
  by_cases hvt : v = j.target
  · rw [hvt, Point.role_target] at hres
    cases hres
  · simp only [Point.role, if_neg hvt] at hres
    cases j with
    | maybe jr c hne =>
      simp only [Job.jrRole, Instr.jrPins] at hres
      split at hres <;> cases hres
    | _ => cases hres

theorem Shared.life_markResident (cfg : Config n σ) (sh : Shared n σ) (j : Job n)
    (ρ : Fin n → Role) : (markResident cfg sh j).life ρ =
      (sh.region.modify j.target Chunk.becomeResident).life ρ := by
  unfold markResident
  split <;> simp

/-- The steps of a fetch. -/
theorem JobBranch.life (h : Alive cfg (sh.life ρ))
    (hρ : ∀ d, .chunk d ∈ (Point.job j i).holds → ρ d = (Point.job j i).role d)
    (hbranch : JobBranch cfg io sh j i sh' k') :
    LifeStep cfg (Point.job j i).victim (sh.life ρ) (sh'.life (overlay (.job j i) k' ρ)) := by
  have hc : ρ j.target = i.role j := by
    rw [hρ _ (j.target_mem_holds i), Point.role_target]
  have hjr : ∀ {i' : Instr n}, i'.jrPins = i.jrPins → ∀ d, j.jrRole i' d = j.jrRole i d :=
    fun hpins d => Job.jrRole_congr hpins d
  cases hbranch with
  | due _ | notDue _ | reconcile _ | choose _ | sleep | read _ _ | direct _ | tail _ _ | loaded _
  | predictNone _ | topStop | topPredict _ _ => exact stay_job (fun _ => rfl) hρ (hjr rfl) rfl
  | @reserve _ a hdecide =>
    obtain ⟨hfit, hlt⟩ := fits_of_not_overBudget h hc (decision_reserve hdecide)
    have hov : overlay (.job j (.fit a)) (.job j (ensured cfg a true j)) ρ =
        update ρ j.target (.reserved j.pins) := by
      rw [overlay_job hρ (ensured_jrRole cfg a true j), ensured_role, if_pos rfl]
    rw [hov, Shared.life_setRegion, life_reserve hlt]
    exact Life.Step.reserve _ _ _ hc hfit
  | @breakPin _ a v hdecide =>
    -- the coldest retained chunk loses its pin before its eviction
    have hv := (decision_breakPin hdecide).2
    have hsame : overlay (.job j (.fit a)) (.job j (.evict a v)) ρ = ρ :=
      overlay_job_same hρ (hjr rfl) rfl
    have hlife : (sh.setRegion (Residctl.breakPin sh.region v)).life ρ =
        (prefetchRetainRelease sh.region v).life ρ := rfl
    rw [hsame, hlife, life_release h hv]
    exact Life.Step.release _ _ hv
  | infeasible _ | decline _ =>
    exact stay_job (fun _ => rfl) hρ (ensured_jrRole cfg _ false j)
      ((ensured_role cfg _ false j).trans rfl)
  | @evict _ a v hev =>
    have hov : overlay (.job j (.evict a v)) (.job j (.reconcile a)) ρ = ρ :=
      overlay_job_same hρ (hjr rfl) rfl
    -- the victim is in no role: its lock is the job's
    have hnone := evict_role h hρ hev
    have hlife : (evictChunk cfg sh v).life ρ =
        (evictBody cfg sh.region v).life (update ρ v .none) := by
      rw [← hnone, update_eq_self]
      rfl
    rw [hov, hlife, life_evictBody h hev.1]
    exact Life.Step.evict _ _ hev.1 hev.2 hnone
  | @unpinJustResident jr c hne ok =>
    -- only the pin of the just resident chunk changes
    have hmem : .chunk jr ∈ (Point.job (.maybe jr c hne) (.unpinJustResident ok)).holds := by
      simp [Point.holds, Point.base, Job.locks]
    have hjr' : ρ jr = .resident 2 := by
      rw [hρ jr hmem]
      simp [Point.role, Job.target, Job.jrRole, hne.symm, Instr.jrPins]
    have hov : overlay (.job (.maybe jr c hne) (.unpinJustResident ok))
        (.job (.maybe jr c hne) (if ok then .pad else .unpinTarget false)) ρ =
        update ρ jr (.resident 1) := by
      rw [overlay_update hρ hmem]
      · congr 1
        cases ok <;> simp [Point.role, Job.target, Job.jrRole, hne.symm, Instr.jrPins]
      · intro d hd
        cases ok <;> simp [Point.role, Job.target, Job.jrRole, hd, Instr.role, Job.pins,
          Job.speculative]
    rw [hov]
    exact unpin_life h (.resident 1) (by rw [hjr']; rfl) (by rw [hjr']; rfl)
  | pad =>
    refine stay_job (fun ρ => ?_) hρ (hjr rfl) rfl
    unfold padTail
    split <;> rfl
  | resolve _ =>
    have hov : overlay (.job j .resolve) (.job j .commit) ρ =
        update ρ j.target (.mapped j.pins) := overlay_job hρ (hjr rfl)
    rw [hov, Shared.life_setKernel, Shared.life, Shared.life, life_update]
    exact Life.Step.map _ _ _ hc
  | commit =>
    have hov : overlay (.job j .commit) (.job j .mark) ρ = update ρ j.target (.committed 1) :=
      overlay_job hρ (hjr rfl)
    rw [hov, Shared.life_setRegion]
    have hres : (ρ j.target).Reserves := by
      rw [hc]
      trivial
    split
    · -- a prefetch has its pin since it started, a demand fetch takes it now
      rename_i hspec
      have hpins : j.pins = 1 := if_pos hspec
      rw [life_commitReserved h hres]
      have hstep : LifeStep cfg none (sh.life ρ) _ :=
        .commit (sh.life ρ) j.target 1 0 (hpins ▸ hc) (by omega)
      exact hstep
    · rename_i hspec
      have hpins : j.pins = 0 := if_neg hspec
      rw [life_commitReservedAndPin h hres]
      have hstep : LifeStep cfg none (sh.life ρ) _ :=
        .commit (sh.life ρ) j.target 0 1 (hpins ▸ hc) (by omega)
      exact hstep
  | mark =>
    rw [overlay_job hρ (hjr (marked_role cfg j).2), (marked_role cfg j).1,
      Shared.life_markResident, life_modify]
    exact Life.Step.mark _ _ _ hc
  | @unpinTarget _ ok =>
    -- the pin goes from a resident chunk, or from one still fetching
    cases ok with
    | true =>
      have hov : overlay (.job j (.unpinTarget true)) (.job j .finishPrefetch) ρ =
          update ρ j.target (.resident 0) := overlay_job hρ (hjr rfl)
      rw [if_pos rfl, hov]
      exact unpin_life h (.resident 0) (by rw [hc]; rfl) (by rw [hc]; rfl)
    | false =>
      have hov : overlay (.job j (.unpinTarget false)) (.job j .abandon) ρ =
          update ρ j.target (.fetching 0) := overlay_job hρ (hjr rfl)
      rw [if_neg Bool.false_ne_true, hov]
      exact unpin_life h (.fetching 0) (by rw [hc]; rfl) (by rw [hc]; rfl)
  | abandon =>
    rw [overlay_after hρ rfl, Shared.life_countFailed, Shared.life_abandonFetch]
    have hfits := h.fits j.target
    have hrole : (sh.life ρ).role j.target = .fetching 0 := hc
    rw [hrole] at hfits
    refine Life.Step.abandon _ _ hfits ?_
    rw [hrole]
    exact ⟨rfl, id, id⟩
  | retain =>
    have hov : overlay (.job j .retain) (.job j .finishPrefetch) ρ =
        update ρ j.target (.resident 0) := overlay_job hρ (hjr rfl)
    rw [hov, Shared.life_setRegion, life_retain h hc]
    exact Life.Step.retain _ _ hc
  | finishPrefetch _ => exact leave_job (fun ρ => Shared.life_hook _ _ _ ρ) hρ rfl rfl
  | @predict jr c hne _ =>
    -- the roles stay, only the job is left aside
    have hov : overlay (.job (.handle jr) .predict) (.checkMaybe jr c hne) ρ = ρ :=
      overlay_same hρ fun d => by by_cases hd : d = jr <;>
        simp [Point.role, Job.target, Job.jrRole, Instr.role, hd]
    rw [hov]
    exact Life.Step.stay _
  | topNeed =>
    exact stay_job (fun _ => rfl) hρ (hjr (topNext_role _ _ _ j).2) (topNext_role _ _ _ j).1
  | topEnqueue =>
    refine stay_job (fun ρ => ?_) hρ (hjr (topNext_role _ _ _ j).2) (topNext_role _ _ _ j).1
    unfold Pager.topEnqueue
    split <;> rfl
  | unpin =>
    have hov : overlay (.job j .unpin) (.job j .finish) ρ = update ρ j.target (.resident 0) :=
      overlay_job hρ (hjr rfl)
    rw [hov]
    exact unpin_life h (.resident 0) (by rw [hc]; rfl) (by rw [hc]; rfl)
  | finish _ => exact leave_job (fun _ => rfl) hρ rfl rfl

/-! ### Outside the jobs -/

/-- A step that changes nothing the life cycle sees. -/
theorem stay_life (hlife : ∀ ρ, sh'.life ρ = sh.life ρ)
    (hρ : ∀ d, .chunk d ∈ k.holds → ρ d = k.role d) (hrole : ∀ d, k'.role d = k.role d) :
    LifeStep cfg none (sh.life ρ) (sh'.life (overlay k k' ρ)) := by
  rw [overlay_same hρ hrole, hlife]
  exact Life.Step.stay _

/-- A thread looks at the state of a chunk, or drops its lock. -/
theorem look_life (hlife : ∀ ρ, sh'.life ρ = sh.life ρ)
    (hρ : ∀ d, .chunk d ∈ k.holds → ρ d = k.role d) (hc : .chunk c ∈ k.holds)
    (hrest : ∀ d, d ≠ c → k'.role d = k.role d) (hold : (k.role c).Light)
    (hnew : (k'.role c).Light) (hfits : (k'.role c).Fits (sh.region.chunks c).state) :
    LifeStep cfg none (sh.life ρ) (sh'.life (overlay k k' ρ)) := by
  rw [overlay_update hρ hc hrest, hlife, Shared.life, Shared.life, life_update]
  apply Life.Step.look
  · show (ρ c).Light
    rw [hρ c hc]
    exact hold
  · exact hnew
  · exact hfits

theorem afterFault_role (cfg : Config n σ) (m : Msg) (c d : Fin n) :
    (afterFault cfg m c).role d = if d = c then .fetching 0 else .none := by
  unfold afterFault
  split
  · rfl
  · by_cases hd : d = c <;> simp [Point.role, Job.target, Job.jrRole, Instr.role, hd, Job.pins,
      Job.speculative]

theorem Role.light_none : Role.none.Light := ⟨rfl, id, id⟩

theorem Role.light_fetching : (Role.fetching 0).Light := ⟨rfl, id, id⟩

/-- A fault on an absent chunk starts a fetch. -/
theorem fault_life {m : Msg} (hρ : ∀ d, .chunk d ∈ (Point.switch m c).holds → ρ d = .none)
    (hst : (sh.region.chunks c).state = .absent)
    (hrole : ∀ d, k'.role d = if d = c then .fetching 0 else .none) :
    LifeStep cfg none (sh.life ρ)
      ((sh.beginFetch sh.clock c).life (overlay (.switch m c) k' ρ)) := by
  have hmem : .chunk c ∈ (Point.switch m c).holds := by simp [Point.holds, Point.needs]
  have hov : overlay (.switch m c) k' ρ = update ρ c (.fetching 0) := by
    rw [overlay_update hρ hmem, hrole, if_pos rfl]
    intro d hd
    rw [hrole, if_neg hd]
    rfl
  have hpins : ((sh.life ρ).role c).pins + 0 ≤ 2 := by
    show (ρ c).pins + 0 ≤ 2
    rw [hρ c hmem]
    exact Nat.zero_le 2
  have hstep : LifeStep cfg none (sh.life ρ) _ := .begin (sh.life ρ) c 0 hst hpins
  have hzero : ((sh.life ρ).role c).pins = 0 := congrArg Role.pins (hρ c hmem)
  rw [hzero] at hstep
  rw [hov, Shared.life_beginFetch]
  exact hstep

/-- The watchdog gives up a fetch in which nobody plays a role. -/
theorem reclaim_life {now : ℕ} (hρ : ρ c = .none) (hstuck : Stuck cfg sh now c) :
    LifeStep cfg none (sh.life ρ) (((sh.abandonFetch cfg c).stat fun s =>
      { s with fetchingTimeout := s.fetchingTimeout + 1 }).life ρ) := by
  have hlife := sh.life_abandonFetch cfg c ρ .none
  rw [← hρ, update_eq_self, hρ] at hlife
  rw [Shared.life_stat, hlife]
  apply Life.Step.abandon
  · exact hstuck.1
  · show (ρ c).Light
    rw [hρ]
    exact Role.light_none

theorem begin_life {p : ℕ} (hst : (sh.region.chunks c).state = .absent) (hc : (ρ c).pins = p)
    (q : ℕ) (hq : p + q ≤ 2) : LifeStep cfg none (sh.life ρ)
      ((sh.life ρ).set c .fetching ((sh.life ρ).pin c + q) (.fetching (p + q))) := by
  subst hc
  exact Life.Step.begin _ _ q hst hq

theorem pinUp_life {ro : Role} (hc : ρ c = ro) (hne : ro ≠ .none) (hp : ro.pins + 1 ≤ 2)
    (hres : (sh.region.chunks c).state ≠ .resident ∨ 0 < ro.pins) : LifeStep cfg none (sh.life ρ)
      ((sh.life ρ).set c ((sh.life ρ).state c) ((sh.life ρ).pin c + 1)
        (ro.withPins (ro.pins + 1))) := by
  subst hc
  exact Life.Step.pinUp _ _ hne hp hres

theorem afterAccess_role (cfg : Config n σ) (c d : Fin n) : (afterAccess cfg c).role d = .none := by
  unfold afterAccess
  split <;> rfl

/-- Every step of a thread is a step of the life cycle. -/
theorem exec_life (h : Alive cfg (sh.life ρ)) (hρ : ∀ d, .chunk d ∈ k.holds → ρ d = k.role d)
    (hexec : exec cfg t io sh k = .next sh' k') :
    LifeStep cfg k.victim (sh.life ρ) (sh'.life (overlay k k' ρ)) := by
  cases exec_branch hexec with
  | job hbranch => exact hbranch.life h hρ
  | @reclaim now c hstuck =>
    have hov : overlay (.tryReclaim now c) (.watch now (c.1 + 1)) ρ = ρ :=
      overlay_same hρ fun _ => rfl
    rw [hov]
    exact reclaim_life (hρ c (by simp [Point.holds, Point.needs])) hstuck
  | begin hst _ => exact fault_life hρ hst fun _ => rfl
  | beginSilently hst _ => exact fault_life hρ hst fun d => afterFault_role cfg _ _ d
  | onFault => exact stay_life (Shared.life_hook _ _ _) hρ fun d => afterFault_role cfg _ _ d
  | @enqueue m c _ =>
    refine look_life (fun _ => rfl) hρ (c := c) (by simp [Point.holds, Point.base]) ?_ ?_
      Role.light_none trivial
    · intro d hd
      simp [Point.role, hd]
    · simp only [Point.role, if_true]
      exact Role.light_fetching
  | @startDemand c hst =>
    have hself : (Point.job (.demand c) (.ensure 0)).role c = .fetching 0 := Point.role_target _ _
    refine look_life (fun _ => rfl) hρ (c := c) (by simp [Point.holds, Point.needs]) ?_
      Role.light_none ?_ ?_
    · intro d hd
      simp [Point.role, Job.target, Job.jrRole, hd]
    · rw [hself]
      exact Role.light_fetching
    · rw [hself]
      exact hst
  | @wanted c hst =>
    refine look_life (fun _ => rfl) hρ (c := c) (by simp [Point.holds, Point.needs]) ?_
      Role.light_none ?_ ?_
    · intro d hd
      simp [Point.role, hd]
    · simp only [Point.role, if_true]
      exact ⟨rfl, id, id⟩
    · simp only [Point.role, if_true]
      exact hst
  | @pinPrefetch ts c =>
    have hmem : .chunk c ∈ (Point.pinPrefetch ts c).holds := by simp [Point.holds, Point.base]
    have hc : ρ c = .absent 0 := (hρ c hmem).trans (if_pos rfl)
    have hov : overlay (.pinPrefetch ts c) (.startPrefetch ts c) ρ = update ρ c (.absent 1) := by
      rw [overlay_update hρ hmem]
      · simp [Point.role]
      · intro d hd
        simp [Point.role, hd]
    rw [hov, Shared.life_setRegion, life_pinChunk h]
    have hst : (sh.region.chunks c).state = .absent := (congrArg (Role.Fits · _) hc).mp (h.fits c)
    have hres : (sh.region.chunks c).state ≠ .resident := by simp [hst]
    have hstep : LifeStep cfg none (sh.life ρ) _ := pinUp_life hc (by simp) (by simp) (Or.inl hres)
    exact hstep
  | @startPrefetch ts c =>
    have hmem : .chunk c ∈ (Point.startPrefetch ts c).holds := by simp [Point.holds, Point.base]
    have hc : ρ c = .absent 1 := (hρ c hmem).trans (if_pos rfl)
    have hov : overlay (.startPrefetch ts c) (.job (.prefetch c) (.ensure 0)) ρ =
        update ρ c (.fetching 1) := by
      rw [overlay_update hρ hmem, show (Point.job (.prefetch c) (.ensure 0)).role c = .fetching 1
        from Point.role_target _ _]
      intro d hd
      simp [Point.role, Job.target, Job.jrRole, hd]
    rw [hov, Shared.life_beginFetch]
    have hst : (sh.region.chunks c).state = .absent := (congrArg (Role.Fits · _) hc).mp (h.fits c)
    exact begin_life hst (congrArg Role.pins hc) 0 (by simp)
  | @startMaybe jr c hne hst =>
    have hmem : .chunk c ∈ (Point.checkMaybe jr c hne).holds := by simp [Point.holds, Point.needs]
    have hc : ρ c = .none := (hρ c hmem).trans (if_neg hne)
    have hov : overlay (.checkMaybe jr c hne) (.pinJustResident jr c hne) ρ =
        update ρ c (.fetching 1) := by
      rw [overlay_update hρ hmem]
      · simp [Point.role]
      · intro d hd
        simp [Point.role, hd]
    have hpin := life_pinChunk (c := c) (r := sh.region) h (ρ c)
    rw [update_eq_self] at hpin
    have hstate : ((pinChunk sh.region c).life ρ).pin c = (sh.life ρ).pin c + 1 := by
      rw [hpin]
      exact Life.set_pin_self _ _ _ _ _
    rw [hov, Shared.life_beginFetch, Shared.life_setRegion, hstate, hpin]
    have hbegin : LifeStep cfg none (sh.life ρ) _ :=
      begin_life hst (congrArg Role.pins hc) 1 (by simp)
    have hvic : (Point.checkMaybe jr c hne).victim = none := rfl
    rw [hvic]
    simpa [Life.set, Shared.life, Region.life] using hbegin
  | @leaveMaybe jr c hne _ =>
    exact stay_life (fun _ => rfl) hρ fun d => by
      by_cases hd : d = jr <;> simp [Point.role, Job.target, Job.jrRole, Instr.role, hd]
  | @pinJustResident jr c hne =>
    have hmem : .chunk jr ∈ (Point.pinJustResident jr c hne).holds := by
      simp [Point.holds, Point.base]
    have hjr : ρ jr = .resident 1 := (hρ jr hmem).trans (by simp [Point.role, hne.symm])
    have hov : overlay (.pinJustResident jr c hne) (.job (.maybe jr c hne) (.ensure 0)) ρ =
        update ρ jr (.resident 2) := by
      rw [overlay_update hρ hmem]
      · simp [Point.role, Job.target, Job.jrRole, Instr.jrPins, hne.symm]
      · intro d hd
        by_cases hdc : d = c <;> simp [Point.role, Job.target, Job.jrRole, Instr.role, Job.pins,
          Job.speculative, hd, hdc]
    rw [hov, Shared.life_setRegion, life_pinChunk h]
    have hstep : LifeStep cfg none (sh.life ρ) _ :=
      pinUp_life hjr (by simp) (by simp) (Or.inr (by simp))
    exact hstep
  | @release c =>
    have hov : overlay (.release c) .idle ρ = ρ := overlay_same hρ fun _ => rfl
    rw [hov]
    by_cases hc : c ∈ sh.region.pinnedPrefetch
    · rw [Shared.life_setRegion, life_release h hc]
      exact Life.Step.release _ _ hc
    · rw [Shared.life_setRegion, prefetchRetainRelease, if_neg hc]
      exact Life.Step.stay _
  | notifySilently _ _ => exact stay_life (fun _ => rfl) hρ fun d => afterAccess_role cfg _ d
  | onAccess => exact stay_life (Shared.life_hook _ _ _) hρ fun d => afterAccess_role cfg _ d
  | _ => exact stay_life (fun _ => rfl) hρ fun _ => rfl

end

end Residctl.Pager
