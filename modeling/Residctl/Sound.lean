import Residctl.Roles

/-!
# What holds in every reachable state

`Sound` collects what every interleaving keeps: the mutexes are owned by the threads
whose points say so, every thread runs its own code, the chunks and the counters satisfy
the invariant of the life cycle for the roles of the threads (`State.role`), and a chunk
about to be evicted stays evictable.
-/

namespace Residctl.Pager

open Mutex Function Runs

variable {n : ℕ} {σ : Type} {cfg : Config n σ} {s s' : State n σ} {a : Action n} {t : Tid}
  {io : Input n} {sh sh' : Shared n σ} {k k' : Point n} {c d : Fin n}

/-! ## The roles in a state -/

/-- The role of a thread for the chunk of a mutex; `budget` and `pool` give none. -/
def Pc.lockRole (p : Pc n) : Lock n → Role
  | .chunk d => p.point.role d
  | _ => .none

/-- What the owner of a chunk's mutex knows of it. -/
def State.role (s : State n σ) (d : Fin n) : Role :=
  readAt Pc.lockRole .none s.owner s.pc (.chunk d)

theorem Pc.lockRole_of_notMem (p : Pc n) (l : Lock n) (h : l ∉ p.holds) : p.lockRole l = .none := by
  cases l with
  | chunk d => exact by_contra fun hr => h (p.base_subset_holds (Point.mem_base_of_role hr))
  | _ => rfl

theorem role_of_holds (h : Owned Pc.holds s.owner s.pc) (hd : .chunk d ∈ (s.pc t).holds) :
    s.role d = (s.pc t).point.role d := readAt_of_holds h hd

/-- A thread that plays a role is the owner of the chunk. -/
theorem role_of_ne (h : Owned Pc.holds s.owner s.pc) (hd : (s.pc t).point.role d ≠ .none) :
    s.role d = (s.pc t).point.role d :=
  readAt_of_ne h Pc.lockRole_of_notMem hd

theorem owned_arrive (h : Owned Pc.holds s.owner s.pc) (hbase : k.base ⊆ (s.pc t).holds) :
    Owned Pc.holds (s.arrive t sh k).owner (s.arrive t sh k).pc := by
  refine h.move fun l hl => Or.inr ((h t l).2 (hbase ?_))
  rwa [enter_holds] at hl

theorem role_arrive (h : Owned Pc.holds s.owner s.pc) (hpc : s.pc t = .go k)
    (hbase : k'.base ⊆ k.holds) : (s.arrive t sh k').role = overlay k k' s.role := by
  funext d
  have hmove := readAt_move h Pc.lockRole_of_notMem t (enter k') (.chunk d)
  rw [enter_holds, hpc] at hmove
  refine hmove.trans ?_
  have hiff : .chunk d ∈ k'.base ∨ .chunk d ∈ (Pc.go k).holds ↔ .chunk d ∈ k.holds :=
    ⟨fun hor => hor.elim (fun hb => hbase hb) id, Or.inr⟩
  simp only [Pc.lockRole, enter_point, overlay, hiff]
  rfl

/-- A thread without mutexes plays no role. -/
theorem role_arrive_free (h : Owned Pc.holds s.owner s.pc) (hpc : (s.pc t).holds = [])
    (hbase : k.base = []) : (s.arrive t sh k).role = s.role := by
  funext d
  have hmove := readAt_move h Pc.lockRole_of_notMem t (enter k) (.chunk d)
  rw [enter_holds, hpc, hbase] at hmove
  exact hmove.trans (if_neg (by simp))

/-- Taking a mutex changes no role. -/
theorem role_acquire (h : Owned Pc.holds s.owner s.pc) (hpc : s.pc t = .acq k) {l : Lock n}
    (hneeds : k.needs = some l) (hfree : s.owner l = none) :
    State.role { s with owner := moveOwner Pc.holds s.owner t (.go k), pc := update s.pc t (.go k) } =
      s.role := by
  funext d
  have hmove := readAt_move h Pc.lockRole_of_notMem t (Pc.go k) (.chunk d)
  refine hmove.trans ?_
  rw [hpc]
  split
  · rename_i hmem
    show k.role d = s.role d
    have hmem' : .chunk d ∈ k.needs.toList ∨ .chunk d ∈ k.base :=
      hmem.elim (fun hd => List.mem_append.1 hd) Or.inr
    have hbase : .chunk d ∈ k.base → .chunk d ∈ (s.pc t).holds := fun hb => by rw [hpc]; exact hb
    rcases hmem' with hn | hb
    · -- the mutex was free, and so nobody played a role
      have hl : l = .chunk d := by simpa [hneeds, eq_comm] using hn
      have hnone : s.role d = .none := by rw [State.role, readAt, ← hl, hfree]
      have hnot : .chunk d ∉ k.base := by
        intro hb
        have howner := (h t _).2 (hbase hb)
        rw [← hl, hfree] at howner
        cases howner
      rw [hnone]
      exact by_contra fun hr => hnot (Point.mem_base_of_role hr)
    · rw [role_of_holds h (hbase hb), hpc]
      rfl
  · rfl

theorem owned_acquire (h : Owned Pc.holds s.owner s.pc) (hpc : s.pc t = .acq k) {l : Lock n}
    (hneeds : k.needs = some l) (hfree : s.owner l = none) :
    Owned Pc.holds (moveOwner Pc.holds s.owner t (.go k)) (update s.pc t (.go k)) := by
  refine h.move fun l' hl' => ?_
  rcases List.mem_append.1 (show l' ∈ k.needs.toList ++ k.base from hl') with hn | hb
  · left
    have hll : l = l' := by simpa [hneeds, eq_comm] using hn
    rw [← hll, hfree]
  · right
    apply (h t l').2
    rw [hpc]
    exact hb

/-! ## The invariant -/

/-- Who holds what, who runs where, the life cycle of every chunk, and that a victim stays evictable
until it is evicted. -/
structure Sound (cfg : Config n σ) (s : State n σ) : Prop where
  owned : Owned Pc.holds s.owner s.pc
  waiting : ∀ t k, s.pc t = .acq k → k.needs.isSome = true
  kind : ∀ t, (s.pc t).point.kind = t.kind
  inline : ∀ t, (s.pc t).point.inline = true → cfg.asyncHandler = false
  life : Alive cfg (s.sh.life s.role)
  victim : ∀ t v, (s.pc t).point.victim = some v → (s.sh.region.chunks v).Evictable

/-- The roles are those of the point where a thread executes. -/
theorem Sound.role_go (h : Sound cfg s) (hpc : s.pc t = .go k) (d : Fin n)
    (hd : .chunk d ∈ k.holds) : s.role d = k.role d := by
  have hrole := role_of_holds h.owned (t := t) (d := d) (by rw [hpc]; exact hd)
  rwa [hpc] at hrole

/-- The job's thread plays the role of its instruction. -/
theorem Sound.role_job (h : Sound cfg s) {j : Job n} {i : Instr n} (hpc : s.pc t = .go (.job j i)) :
    s.role j.target = i.role j := by
  rw [h.role_go hpc _ (j.target_mem_holds i), Point.role_target]

theorem Sound.fits (h : Sound cfg s) (d : Fin n) :
    (s.role d).Fits (s.sh.region.chunks d).state := h.life.fits d

/-- The asynchronous handler fetches nothing itself. -/
theorem Sound.not_inline (h : Sound cfg s) (hasync : cfg.asyncHandler = true) (t : Tid) :
    (s.pc t).point.inline = false := by
  rw [← Bool.not_eq_true]
  intro hin
  rw [h.inline t hin] at hasync
  cases hasync

theorem Sound.eq_handler (h : Sound cfg s) (hk : (s.pc t).point.kind = .handler) : t = .handler := by
  have hkind := (h.kind t).symm.trans hk
  cases t with
  | handler => rfl
  | _ => cases hkind

theorem Sound.eq_worker (h : Sound cfg s) (hk : (s.pc t).point.kind = .worker) :
    ∃ w, t = .worker w := by
  have hkind := (h.kind t).symm.trans hk
  cases t with
  | worker w => exact ⟨w, rfl⟩
  | _ => cases hkind

theorem forall_arrive {P : Tid → Point n → Prop} (h : ∀ t, P t (s.pc t).point) (hk : P t k) (t' : Tid) :
    P t' ((s.arrive t sh k).pc t').point := by
  by_cases ht : t' = t
  · subst ht
    simpa [State.arrive] using hk
  · simpa [State.arrive, ht] using h t'

/-- What holds of every point holds of the one a thread is at. -/
theorem forall_go {P : Tid → Point n → Prop} (h : ∀ t, P t (s.pc t).point) (hpc : s.pc t = .go k) :
    P t k := by
  have hpoint := h t
  rwa [hpc] at hpoint

theorem point_arrive_of_ne {u : Tid} (hu : u ≠ t) :
    ((s.arrive t sh k).pc u).point = (s.pc u).point := by
  simp [State.arrive, hu]

theorem point_arrive_self : ((s.arrive t sh k).pc t).point = k := by simp [State.arrive]

theorem acquire_point (hpc : s.pc t = .acq k) (t' : Tid) :
    (update s.pc t (.go k) t').point = (s.pc t').point := by
  by_cases ht : t' = t
  · subst ht
    rw [update_self, hpc]
    rfl
  · rw [update_of_ne ht]

theorem forall_acquire {P : Tid → Point n → Prop} (h : ∀ t, P t (s.pc t).point) (hpc : s.pc t = .acq k)
    (t' : Tid) : P t' (update s.pc t (.go k) t').point := by
  rw [acquire_point hpc]
  exact h t'

theorem enter_waiting (h : enter k = .acq k') : k'.needs.isSome = true := by
  unfold enter at h
  split at h
  · cases h
    assumption
  · cases h

theorem waiting_update (h : ∀ t k, s.pc t = .acq k → k.needs.isSome = true) {q : Pc n}
    (hq : ∀ k, q = .acq k → k.needs.isSome = true) (t' : Tid) (k' : Point n)
    (hpc : update s.pc t q t' = .acq k') : k'.needs.isSome = true := by
  by_cases ht : t' = t
  · subst ht
    rw [update_self] at hpc
    exact hq k' hpc
  · rw [update_of_ne ht] at hpc
    exact h t' k' hpc

/-- Two threads never evict at the same time. -/
theorem Sound.victim_unique (h : Sound cfg s) {t' : Tid} {u v : Fin n}
    (ht : (s.pc t).point.victim = some u) (ht' : (s.pc t').point.victim = some v) : t = t' :=
  h.owned.unique ((s.pc t).base_subset_holds (Point.budget_mem_base_of_victim ht))
    ((s.pc t').base_subset_holds (Point.budget_mem_base_of_victim ht'))

/-- A retained chunk has no pin but the retention pin. -/
theorem release_evictable {r : Region n σ} {ρ : Fin n → Role} (h : Alive cfg (r.life ρ))
    (hv : c ∈ r.pinnedPrefetch) : ((prefetchRetainRelease r c).chunks c).Evictable := by
  have hrel := life_release h hv
  obtain ⟨hst, hpins⟩ := h.retained c hv
  have hpin : (r.chunks c).pin = 1 := by
    have hcount : r.pinnedPrefetch.count c = 1 := List.count_eq_one_of_mem h.nodup hv
    have heq := h.pin c
    rw [hpins] at heq
    exact heq.trans (by rw [Nat.add_zero]; exact hcount)
  have hstate := congrArg (fun s : Life n => s.state c) hrel
  have hnew := congrArg (fun s : Life n => s.pin c) hrel
  simp only [Life.set_state_self, Life.set_pin_self] at hstate hnew
  refine ⟨hstate.trans hst, hnew.trans ?_⟩
  show (r.chunks c).pin - 1 = 0
  rw [hpin]

/-- The chunk that a budget loop chooses is evictable. -/
theorem JobBranch.evictable {ρ : Fin n → Role} {j : Job n} {a : ℕ} {v : Fin n}
    (hbranch : JobBranch cfg io sh j (.fit a) sh' k') (h : Alive cfg (sh.life ρ))
    (hv : k'.victim = some v) : (sh'.region.chunks v).Evictable := by
  have hplain : ∀ ok, (Point.job j (ensured cfg a ok j)).victim ≠ some v := by
    intro ok hvic
    have hmem := Point.budget_mem_base_of_victim hvic
    rw [Point.base_job, (ensured_plain cfg a ok j).1] at hmem
    cases j <;> simp [Job.locks] at hmem
  cases hbranch with
  | reserve _ => exact absurd hv (hplain true)
  | infeasible _ | decline _ => exact absurd hv (hplain false)
  | @choose _ _ u hdecide =>
    obtain rfl : u = v := Option.some.inj hv
    exact Config.selectVictim_evictable (decision_evict hdecide)
  | @breakPin _ _ u hdecide =>
    obtain rfl : u = v := Option.some.inj hv
    exact release_evictable (r := sh.region) h (decision_breakPin hdecide).2

theorem Sound.exec (h : Sound cfg s) (hpc : s.pc t = .go k)
    (hexec : exec cfg t io s.sh k = .next sh' k') : Sound cfg (s.arrive t sh' k') := by
  have hflow := exec_flow hexec
  have hlife := exec_life h.life (h.role_go hpc) hexec
  have hrole : (s.arrive t sh' k').role = _ := role_arrive h.owned hpc hflow.base
  have hkind := h.kind t
  have hinline := h.inline t
  rw [hpc] at hkind hinline
  refine ⟨?_, waiting_update h.waiting fun _ => enter_waiting, ?_, ?_, ?_, ?_⟩
  · apply owned_arrive h.owned
    rw [hpc]
    exact hflow.base
  · exact forall_arrive (P := fun t k => k.kind = t.kind) h.kind (hflow.kind.trans hkind)
  · refine forall_arrive (P := fun _ k => k.inline = true → cfg.asyncHandler = false) h.inline ?_
    exact fun hk => (hflow.inline hk).elim hinline id
  · show Alive cfg (sh'.life (s.arrive t sh' k').role)
    rw [hrole]
    exact h.life.step (one_le_cap cfg) hlife
  · intro t' v hv
    by_cases ht : t' = t
    · subst ht
      have hvk : k'.victim = some v := by simpa [State.arrive] using hv
      obtain ⟨j, a, rfl⟩ := hflow.victim v hvk
      cases exec_branch hexec with
      | job hbranch => exact hbranch.evictable h.life hvk
    · have hold : (s.pc t').point.victim = some v := by simpa [State.arrive, ht] using hv
      -- nobody else evicts
      have hnone : k.victim = none := by
        cases hk : k.victim with
        | none => rfl
        | some u => exact absurd (h.victim_unique hold (by rw [hpc]; exact hk)) ht
      rw [hnone] at hlife
      exact hlife.evictable h.life (h.victim t' v hold)

theorem Sound.step (h : Sound cfg s) (hstep : step cfg a s = some s') : Sound cfg s' := by
  cases moves_of_step hstep with
  | @acquire _ t k l hpc hneeds hfree =>
    refine ⟨owned_acquire h.owned hpc hneeds hfree, waiting_update h.waiting nofun, ?_, ?_, ?_, ?_⟩
    · exact forall_acquire (P := fun t k => k.kind = t.kind) h.kind hpc
    · exact forall_acquire (P := fun _ k => k.inline = true → cfg.asyncHandler = false) h.inline hpc
    · show Alive cfg (s.sh.life (State.role _))
      rw [role_acquire h.owned hpc hneeds hfree]
      exact h.life
    · exact fun t' => forall_acquire
        (P := fun _ k => ∀ v, k.victim = some v → (s.sh.region.chunks v).Evictable) h.victim hpc t'
  | @giveUp _ now c hpc =>
    have hholds : (s.pc .handler).holds = [] := by
      rw [hpc]
      rfl
    refine ⟨?_, waiting_update h.waiting fun _ => enter_waiting, ?_, ?_, ?_, ?_⟩
    · exact owned_arrive h.owned (List.nil_subset _)
    · exact forall_arrive (P := fun t k => k.kind = t.kind) h.kind rfl
    · exact forall_arrive (P := fun _ k => k.inline = true → cfg.asyncHandler = false) h.inline nofun
    · show Alive cfg (s.sh.life (State.role _))
      rw [role_arrive_free h.owned hholds rfl]
      exact h.life
    · exact forall_arrive
        (P := fun _ k => ∀ v, k.victim = some v → (s.sh.region.chunks v).Evictable) h.victim nofun
  | exec hpc hexec => exact h.exec hpc hexec
  | tick _ => exact ⟨h.owned, h.waiting, h.kind, h.inline, h.life, h.victim⟩
  | drop _ => exact ⟨h.owned, h.waiting, h.kind, h.inline, h.life, h.victim⟩
  | requestStop => exact ⟨h.owned, h.waiting, h.kind, h.inline, h.life, h.victim⟩

/-! ## Every run -/

/-- At first every thread is at the head of its loop, or does not run. -/
theorem init_point {P : Point n → Prop} (htop : P .top) (hpick : P .pick) (hretired : P .retired)
    (hidle : P .idle) (cfg : Config n σ) (p : σ) (t : Tid) : P ((pager cfg p).init.pc t).point := by
  rw [show ((pager cfg p).init.pc t).point = startPoint cfg t from enter_point _]
  cases t with
  | handler => exact htop
  | worker i =>
    simp only [startPoint]
    split
    · exact hpick
    · exact hretired
  | client i => exact hidle

theorem startPoint_kind (cfg : Config n σ) (t : Tid) : (startPoint cfg t).kind = t.kind := by
  cases t with
  | worker i =>
    simp only [startPoint]
    split <;> rfl
  | _ => rfl

theorem Sound.init (cfg : Config n σ) (p : σ) : Sound cfg (pager cfg p).init := by
  have hholds : ∀ t, ((pager cfg p).init.pc t).holds = [] := by
    intro t
    show (enter (startPoint cfg t)).holds = []
    rw [enter_holds, ← enter_point (startPoint cfg t)]
    exact init_point (P := fun k => k.base = []) rfl rfl rfl rfl cfg p t
  refine ⟨?_, fun t k hpc => enter_waiting hpc, ?_, ?_, ?_, ?_⟩
  · intro t l
    rw [hholds]
    exact ⟨nofun, nofun⟩
  · intro t
    rw [show ((pager cfg p).init.pc t).point = startPoint cfg t from enter_point _]
    exact startPoint_kind cfg t
  · intro t hin
    rw [init_point (P := fun k => k.inline = false) rfl rfl rfl rfl cfg p t] at hin
    cases hin
  · exact Life.Inv.init (fun _ => rfl) (fun _ => rfl) rfl rfl rfl fun _ => rfl
  · intro t v hv
    rw [init_point (P := fun k => k.victim = none) rfl rfl rfl rfl cfg p t] at hv
    cases hv

theorem Reach.sound {ok : Action n → State n σ → Prop} {p : σ} (h : Reach (pager cfg p) ok s) :
    Sound cfg s :=
  h.invariant (Sound.init cfg p) fun _ _ _ _ _ hs hstep => hs.step hstep

/-- What the points of every thread have in common, whatever the shared state is. -/
theorem forall_point_step {P : Point n → Prop} (hwatch : ∀ now i, P (.watch now i))
    (hexec : ∀ {t io sh sh' k k'}, P k → exec cfg t io sh k = .next sh' k' → P k')
    (hold : ∀ t, P (s.pc t).point) (hstep : step cfg a s = some s') : ∀ t, P (s'.pc t).point := by
  cases moves_of_step hstep with
  | acquire hpc hneeds hfree => exact forall_acquire (P := fun _ k => P k) hold hpc
  | giveUp hpc => exact forall_arrive (P := fun _ k => P k) hold (hwatch _ _)
  | @exec _ t io k sh k' hpc hexec' =>
    have hk : P k := forall_go (P := fun _ k => P k) hold hpc
    exact forall_arrive (P := fun _ k => P k) hold (hexec hk hexec')
  | tick _ => exact hold
  | drop _ => exact hold
  | requestStop => exact hold

theorem Reach.forall_point {P : Point n → Prop} {ok : Action n → State n σ → Prop} {p : σ}
    (hinit : ∀ t, P ((pager cfg p).init.pc t).point) (hwatch : ∀ now i, P (.watch now i))
    (hexec : ∀ {t io sh sh' k k'}, P k → exec cfg t io sh k = .next sh' k' → P k')
    (h : Reach (pager cfg p) ok s) : ∀ t, P (s.pc t).point :=
  h.invariant (I := fun s => ∀ t, P (s.pc t).point) hinit fun _ _ _ _ _ hold hstep =>
    forall_point_step hwatch hexec hold hstep

end Residctl.Pager
