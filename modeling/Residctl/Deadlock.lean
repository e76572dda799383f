import Residctl.Accounting

/-!
# No deadlock

Chunk mutexes are taken before and after `budget_lock`: a fetch holds its chunk and takes
the budget, an eviction holds the budget and takes its victim. What keeps the two apart is
the life cycle: a victim is `RESIDENT` and not pinned, and nobody who waits for a mutex
holds such a chunk. `Point.rank` orders the points where a thread waits. (The queues are lists;
`Reach.unringed` says which runs of the machine with rings that covers.)
-/

namespace Residctl.Pager

open Mutex Function Runs

variable {n : ℕ} {σ : Type} {cfg : Config n σ} {s : State n σ} {t t' : Tid} {k k' : Point n}
  {c v : Fin n}

/-- Where a thread waits: for its first chunk, for the target of `maybe_prefetch`, for the
budget, for the pool, for a victim. -/
def Point.rank : Point n → ℕ
  | .checkMaybe _ _ _ => 1
  | .job _ (.evict _ _) => 4
  | k =>
    match k.needs with
    | some .budget => 2
    | some .pool => 3
    | _ => 0

def Pc.rank (p : Pc n) : ℕ := p.point.rank

theorem Point.pool_notMem_base (k : Point n) : .pool ∉ k.base := by
  cases k with
  | job j i =>
    rw [Point.base_job]
    cases j <;> split <;> simp [Job.locks]
  | _ => simp [Point.base]

/-- A thread that holds the budget and waits is about to evict. -/
theorem Point.evict_of_budget_mem_base (hneeds : k.needs.isSome = true) (hb : .budget ∈ k.base) :
    ∃ j a v, k = .job j (.evict a v) := by
  cases k with
  | job j i =>
    rw [Point.base_job] at hb
    cases i with
    | evict a v => exact ⟨j, a, v, rfl⟩
    | reconcile a => simp [Point.needs] at hneeds
    | fit a => simp [Point.needs] at hneeds
    | _ => cases j <;> simp [Instr.inBudget, Job.locks] at hb
  | _ => simp [Point.base] at hb

/-- Who holds a chunk and waits, waits at a rank of its own. -/
theorem Point.rank_of_mem_base (hneeds : k.needs.isSome = true) (hc : .chunk c ∈ k.base) :
    (∃ jr d h, k = .checkMaybe jr d h) ∨ 2 ≤ k.rank := by
  cases k with
  | checkMaybe jr d h => exact Or.inl ⟨jr, d, h, rfl⟩
  | job j i =>
    right
    cases i with
    | unpinTarget ok =>
      cases j with
      | maybe jr d h => simp [Point.needs] at hneeds
      | _ => exact le_refl 2
    | _ => first
      | exact Nat.le_of_ble_eq_true rfl
      | exact absurd hneeds (by simp [Point.needs])
  | onFault m d => exact Or.inr (le_refl 2)
  | enqueue m d => exact Or.inr (Nat.le_succ 2)
  | pinPrefetch ts d => exact Or.inr (le_refl 2)
  | startPrefetch ts d => simp [Point.needs] at hneeds
  | pinJustResident jr d h => simp [Point.needs] at hneeds
  | _ => simp [Point.base] at hc

/-- A thread plays a role for every chunk that it holds on arrival; only at the end of a
fetch has it no business left with it. -/
theorem Point.role_of_mem_base (hc : .chunk c ∈ k.base) : k.role c ≠ .none ∧
    (k.role c = .resident 0 →
      ∃ j i, k = .job j i ∧ j.target = c ∧ (i = .finish ∨ i = .finishPrefetch)) := by
  cases k with
  | job j i =>
    have hmem : .chunk c ∈ j.locks := by
      rw [Point.base_job] at hc
      split at hc
      · simpa using hc
      · exact hc
    by_cases ht : c = j.target
    · subst ht
      rw [Point.role_target]
      cases i with
      | unpinTarget ok => cases ok <;> simp [Instr.role]
      | unpinJustResident ok => cases ok <;> simp [Instr.role]
      | finish => exact ⟨by rintro ⟨⟩, fun _ => ⟨j, _, rfl, rfl, Or.inl rfl⟩⟩
      | finishPrefetch => exact ⟨by rintro ⟨⟩, fun _ => ⟨j, _, rfl, rfl, Or.inr rfl⟩⟩
      | _ => simp [Instr.role]
    · -- the chunk that has just become resident
      simp only [Point.role, if_neg ht]
      cases j with
      | maybe jr d h =>
        have hjr : c = jr := by simpa [Job.locks, show ¬ c = d from ht] using hmem
        subst hjr
        cases i <;> simp [Job.jrRole, Instr.jrPins]
      | _ => simp [Job.locks, ht] at hmem
  | onFault m d => simp_all [Point.base, Point.role]
  | enqueue m d => simp_all [Point.base, Point.role]
  | pinPrefetch ts d => simp_all [Point.base, Point.role]
  | startPrefetch ts d => simp_all [Point.base, Point.role]
  | checkMaybe jr d h => simp_all [Point.base, Point.role]
  | pinJustResident jr d h =>
    by_cases hd : c = d
    · simp [Point.role, hd]
    · by_cases hjr : c = jr <;> simp_all [Point.base, Point.role]
  | _ => simp [Point.base] at hc

/-- Who holds a chunk and waits has business with it. -/
theorem Point.busy_of_mem_base (hneeds : k.needs.isSome = true) (hc : .chunk c ∈ k.base) :
    k.role c ≠ .none ∧ k.role c ≠ .resident 0 := by
  obtain ⟨hne, hidle⟩ := Point.role_of_mem_base hc
  refine ⟨hne, fun hres => ?_⟩
  obtain ⟨j, i, rfl, -, rfl | rfl⟩ := hidle hres
  · cases hneeds
  · cases hneeds

theorem Pc.waits_isSome {p : Pc n} (h : p.waits.isSome = true) :
    ∃ k, p = .acq k ∧ k.needs.isSome = true := by
  cases p with
  | acq k => exact ⟨k, rfl, h⟩
  | go k => cases h

/-- The holder of a victim that somebody waits for does not wait itself. -/
theorem Sound.victim_holder (h : Sound cfg s) (hv : (s.pc t).point.victim = some v)
    (howner : s.owner (.chunk v) = some t') : ∃ k', s.pc t' = .go k' ∧
      (k'.role v = .none ∨ k'.role v = .resident 0) := by
  have hmem : .chunk v ∈ (s.pc t').holds := (h.owned t' _).1 howner
  have hrole := role_of_evictable h.life (h.victim t v hv)
  rw [role_of_holds h.owned hmem] at hrole
  cases hpc : s.pc t' with
  | acq k' =>
    rw [hpc] at hmem hrole
    by_cases hneeds : k'.needs.isSome = true
    · have hbusy := Point.busy_of_mem_base hneeds hmem
      exact absurd hrole (not_or.2 hbusy)
    · -- a thread waits only where a mutex is needed
      exact absurd (h.waiting t' k' hpc) hneeds
  | go k' =>
    rw [hpc] at hrole
    exact ⟨k', rfl, hrole⟩

theorem Sound.not_waits_of_victim (h : Sound cfg s) (hv : (s.pc t).point.victim = some v)
    (howner : s.owner (.chunk v) = some t') : ¬ (s.pc t').waits.isSome = true := by
  obtain ⟨k', hpc, -⟩ := h.victim_holder hv howner
  rw [hpc]
  exact Bool.false_ne_true

theorem Point.rank_of_needs_budget (h : k.needs = some .budget) : k.rank = 2 := by
  cases k with
  | job j i =>
    cases i with
    | evict a v => cases h
    | _ => simp only [Point.rank, h]
  | checkMaybe jr d hne => cases h
  | _ => simp only [Point.rank, h]

theorem Point.rank_of_needs_chunk (h : k.needs = some (.chunk c)) :
    k.rank = 0 ∨ (∃ jr d hne, k = .checkMaybe jr d hne) ∨ k.victim = some c := by
  cases k with
  | job j i =>
    cases i with
    | evict a v =>
      obtain rfl : v = c := Lock.chunk.inj (Option.some.inj h)
      exact Or.inr (Or.inr rfl)
    | _ => exact Or.inl (by simp only [Point.rank, h])
  | checkMaybe jr d hne => exact Or.inr (Or.inl ⟨jr, d, hne, rfl⟩)
  | _ => exact Or.inl (by simp only [Point.rank, h])

/-- Along the waits-for relation the ranks rise. -/
theorem Sound.rank_lt (h : Sound cfg s) (hwait : WaitsFor Pc.waits s.owner s.pc t t')
    (hwaits : (s.pc t').waits.isSome = true) : (s.pc t).rank < (s.pc t').rank := by
  obtain ⟨l, hl, howner⟩ := hwait
  obtain ⟨k, hpc, -⟩ := Pc.waits_isSome (p := s.pc t) (by rw [hl]; rfl)
  obtain ⟨k', hpc', hneeds'⟩ := Pc.waits_isSome hwaits
  have hneeds : k.needs = some l := by
    rw [hpc] at hl
    exact hl
  have hmem : l ∈ k'.base := by
    have hmem := (h.owned t' l).1 howner
    rwa [hpc'] at hmem
  rw [hpc, hpc']
  show k.rank < k'.rank
  cases l with
  | pool => exact absurd hmem k'.pool_notMem_base
  | budget =>
    obtain ⟨j, a, v, rfl⟩ := Point.evict_of_budget_mem_base hneeds' hmem
    have hk : k.rank = 2 := Point.rank_of_needs_budget hneeds
    rw [hk]
    exact (by decide : 2 < 4)
  | chunk d =>
    rcases Point.rank_of_mem_base hneeds' hmem with ⟨jr, e, hne, rfl⟩ | hle
    · -- only the handler is there, and it does not wait for itself
      have hother : ∀ jr' e' hne', k ≠ .checkMaybe jr' e' hne' := by
        rintro jr' e' hne' rfl
        have ht : t = .handler := h.eq_handler (by rw [hpc]; rfl)
        have ht' : t' = .handler := h.eq_handler (by rw [hpc']; rfl)
        rw [ht, ← ht', hpc'] at hpc
        cases hpc
        have hed : e = d := Lock.chunk.inj (Option.some.inj hneeds)
        have hjd : .chunk d = Lock.chunk jr := List.mem_singleton.1 hmem
        exact hne (hed.trans (Lock.chunk.inj hjd))
      rcases Point.rank_of_needs_chunk hneeds with hzero | ⟨jr', e', hne', hk⟩ | hvic
      · rw [hzero]
        exact Nat.zero_lt_one
      · exact absurd hk (hother jr' e' hne')
      · exact absurd hwaits (h.not_waits_of_victim (by rw [hpc]; exact hvic) howner)
    · rcases Point.rank_of_needs_chunk hneeds with hzero | ⟨jr', e', hne', rfl⟩ | hvic
      · rw [hzero]
        exact lt_of_lt_of_le Nat.zero_lt_two hle
      · exact hle
      · exact absurd hwaits (h.not_waits_of_victim (by rw [hpc]; exact hvic) howner)

/-! ## The holder of a victim lets go -/

/-- Who holds a chunk and has no business with it has just taken it or is about to leave. -/
theorem Point.idle_holder (hmem : .chunk c ∈ k.holds)
    (hrole : k.role c = .none ∨ k.role c = .resident 0) : k.needs = some (.chunk c) ∨
      ∃ j i, k = .job j i ∧ j.target = c ∧ (i = .finish ∨ i = .finishPrefetch) := by
  rcases List.mem_append.1 hmem with hn | hb
  · exact Or.inl (Option.mem_toList.1 hn)
  · obtain ⟨hne, hidle⟩ := Point.role_of_mem_base hb
    exact Or.inr (hidle (hrole.resolve_left hne))

theorem Job.target_notMem_after (j : Job n) : .chunk j.target ∉ j.after.base := by
  cases j with
  | maybe jr c hne => simp [Job.after, Point.base, Job.locks, Job.target, hne]
  | _ => simp [Job.after, Point.base]

/-- One step of the holder of an evictable chunk releases it. -/
theorem exec_releases {io : Input n} {sh sh' : Shared n σ} (hv : (sh.region.chunks v).Evictable)
    (hmem : .chunk v ∈ k.holds) (hrole : k.role v = .none ∨ k.role v = .resident 0)
    (hvic : k.victim ≠ some v) (hexec : exec cfg t io sh k = .next sh' k') :
    .chunk v ∉ k'.base := by
  have hres : (sh.region.chunks v).state = .resident := hv.1
  rcases Point.idle_holder hmem hrole with hneeds | ⟨j, i, rfl, rfl, hi⟩
  · cases exec_branch hexec with
    | reclaim _ | spare _ | present _ | coming _ | unwanted _ => rintro ⟨⟩
    | begin hst _ | beginSilently hst _ | startDemand hst | wanted hst | startMaybe hst =>
      -- the chunk it has just taken is `RESIDENT`
      obtain rfl := Lock.chunk.inj (Option.some.inj hneeds)
      cases hres.symm.trans hst
    | @leaveMaybe jr c hne _ =>
      obtain rfl : c = v := Lock.chunk.inj (Option.some.inj hneeds)
      simp [Point.base, Job.locks, Job.target, hne]
    | @job j _ _ _ hbranch =>
      cases hbranch with
      | evict _ =>
        obtain rfl := Lock.chunk.inj (Option.some.inj hneeds)
        exact absurd rfl hvic
      | unpinTarget => cases j <;> cases hneeds
      | _ => cases hneeds
    | _ => cases hneeds
  · cases exec_branch hexec with
    | job hbranch =>
      rw [hbranch.eq_after (by rcases hi with rfl | rfl <;> rfl)]
      exact j.target_notMem_after

/-- No reachable state has a cycle of threads that wait for each other's mutexes. While a
thread waits in `evict_chunk` for its victim, the holder of the victim waits for nothing,
and its next step, which does not take the budget, releases the victim. -/
theorem deadlock_free (cfg : Config n σ) (p : σ) (h : Reachable (pager cfg p) s) :
    (∀ t, ¬ Relation.TransGen (WaitsFor Pc.waits s.owner s.pc) t t) ∧
      ∀ t j a v t', s.pc t = .acq (.job j (.evict a v)) → s.owner (.chunk v) = some t' →
        ∃ k', s.pc t' = .go k' ∧ k'.needs ≠ some .budget ∧
          ∀ io sh' k'', exec cfg t' io s.sh k' = .next sh' k'' → .chunk v ∉ k''.base := by
  have hs : Sound cfg s := Reach.sound h
  refine ⟨no_cycle Pc.rank fun t t' hwait hwaits => hs.rank_lt hwait hwaits, ?_⟩
  intro t j a v t' hpc howner
  have hv : (s.pc t).point.victim = some v := by
    rw [hpc]
    rfl
  obtain ⟨k', hpc', hrole⟩ := hs.victim_holder hv howner
  have hmem : .chunk v ∈ k'.holds := by
    have hmem := (hs.owned t' _).1 howner
    rwa [hpc'] at hmem
  refine ⟨k', hpc', ?_, fun io sh' k'' hexec => ?_⟩
  · rcases Point.idle_holder hmem hrole with hneeds | ⟨j', i, rfl, -, rfl | rfl⟩
    · rw [hneeds]
      simp
    · rintro ⟨⟩
    · rintro ⟨⟩
  · refine exec_releases (hs.victim t v hv) hmem hrole (fun hvic => ?_) hexec
    -- two threads never evict at the same time
    have htt : t' = t := hs.victim_unique (by rw [hpc']; exact hvic) hv
    rw [htt, hpc] at hpc'
    cases hpc'

theorem deadlock_free_twoPages : ∃ s : State 2 Unit, s.sh.region.reservedBytes = 4096 ∧
    ∀ t, ¬ Relation.TransGen (WaitsFor Pc.waits s.owner s.pc) t t :=
  ⟨_, by decide +kernel, (deadlock_free twoPages () (reachable_get reserveZero reserveZero_runs)).1⟩

end Residctl.Pager
