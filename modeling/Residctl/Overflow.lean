import Residctl.Rings

/-!
# Runs that move the head of the demand ring

When the budget is smaller than any chunk, every demand job fails: the worker takes it from the
ring, calls `ensure_budget` 201 times and wakes the faulting thread, which faults again. A
round like this moves the head by one slot, so it gets to every slot of the ring
(`Reaches.rounds`), and from there jobs can be enqueued (`Reaches.dispatch`).

`Reaches` describes a state of a run by what these steps depend on.
-/

namespace Residctl.Pager

open Mutex Function Runs

variable {n : ℕ} {σ : Type} {cfg : Config n σ} {p : σ} {hn : 0 < n} {P : Tid → Pc n} {t u : Tid}
  {q : Pc n} {k : Point n} {sh sh' : Shared n σ} {c : Fin n} {m : Msg} {U : List Msg}

/-! ## States in outline -/

/-- The step pushes no entry out of range and is not a reclaim by the watchdog. -/
def Orderly (a : Action n) (x : State n σ × Rings n) : Prop :=
  (∀ kind, InRange kind a x) ∧
    ∀ io now c, a = .exec .handler io → x.1.pc .handler ≠ .go (.tryReclaim now c)

/-- What the steps of a round depend on. -/
structure Outline (n : ℕ) where
  demand : RingBuffer (Fin n)
  state : Fin n → ChunkState
  uffd : List Msg
  waiting : ℕ → Option ℕ

/-- The shared state has the outline; nothing is resident, promised or mapped. -/
structure Outline.Of (v : Outline n) (sh : Shared n σ) : Prop where
  running : sh.stop = false
  clock : sh.clock = 0
  state : ∀ c, (sh.region.chunks c).state = v.state c
  resident : sh.region.residentBytes = 0
  reserved : sh.region.reservedBytes = 0
  mapped : ∀ page, sh.kernel.mapped page = false
  uffd : sh.kernel.uffd = v.uffd
  waiting : sh.kernel.waiting = v.waiting

/-- An orderly run reaches a state of outline `v`, with thread `t` at `q` and the others as in `P`. -/
def Reaches (cfg : Config n σ) (p : σ) (hn : 0 < n) (P : Tid → Pc n) (t : Tid) (q : Pc n)
    (v : Outline n) : Prop :=
  ∃ x, Reach (ringed cfg p hn) Orderly x ∧ x.1.pc = update P t q ∧ x.2.demand = v.demand ∧
    v.Of x.1.sh

variable {v v' : Outline n}

/-- Look at another thread. -/
theorem Reaches.rebase (h : Reaches cfg p hn P t q v) (u : Tid) :
    Reaches cfg p hn (update P t q) u (update P t q u) v := by
  obtain ⟨x, hreach, hpc, hrest⟩ := h
  refine ⟨x, hreach, ?_, hrest⟩
  rw [hpc, update_eq_self]

theorem Reaches.turn (h : Reaches cfg p hn P t (P t) v) (u : Tid) :
    Reaches cfg p hn P u (P u) v := by
  have hbase := h.rebase u
  rwa [update_eq_self] at hbase

theorem Reaches.settle (h : Reaches cfg p hn P t q v) :
    Reaches cfg p hn (update P t q) t (update P t q t) v := h.rebase t

/-- A mutex that nobody holds is taken. -/
theorem Reaches.acquire (h : Reaches cfg p hn P t (.acq k) v) (hidle : ∀ u, (P u).holds = [])
    {l : Lock n} (hneeds : k.needs = some l) (hbase : l ∉ k.base) :
    Reaches cfg p hn P t (.go k) v := by
  obtain ⟨x, hreach, hpc, hdemand, hof⟩ := h
  have hpt : x.1.pc t = .acq k := by rw [hpc, update_self]
  have hfree : x.1.owner l = none := by
    cases howner : x.1.owner l with
    | none => rfl
    | some u =>
      have hholds := ((Reach.ringed hreach).sound.owned u l).1 howner
      by_cases hu : u = t
      · subst hu
        rw [hpt] at hholds
        exact absurd hholds hbase
      · rw [hpc, update_of_ne hu, hidle u] at hholds
        cases hholds
  have hstep : (ringed cfg p hn).step (.acquire t) x = some (State.load cfg { x.1 with
      owner := moveOwner Pc.holds x.1.owner t (.go k), pc := update x.1.pc t (.go k) } x.2, x.2) := by
    simp [ringed, step, hpt, hneeds, hfree, Rings.step]
  have hok : Orderly (.acquire t) x := by
    constructor
    · intro kind
      trivial
    · rintro io now c ⟨⟩
  refine ⟨_, Reach.step hreach hok hstep, ?_, hdemand, ?_⟩
  · show update x.1.pc t (.go k) = _
    rw [hpc, update_idem]
  · exact ⟨hof.running, hof.clock, hof.state, hof.resident, hof.reserved, hof.mapped, hof.uffd,
      hof.waiting⟩

/-- A thread executes at a point. -/
theorem Reaches.exec (h : Reaches cfg p hn P t (.go k) v) (io : Input n)
    (hpush : ∀ (kind : JobKind) (sh : Shared n σ), k.Pushes sh kind →
      kind = .demand ∧ v.demand.head + v.demand.len < 2 ^ 32)
    (hreclaim : ∀ now c, k ≠ .tryReclaim now c)
    (hring : ∀ r : Rings n, r.demand = v.demand → r.demandAt k = v'.demand)
    (hexec : ∀ sh : Shared n σ, v.Of sh → sh.demandQueue = v.demand.entries (2 ^ 32) (queueCap n) →
      ∃ sh', Pager.exec cfg t io sh k = .next sh' q.point ∧ v'.Of sh') (henter : enter q.point = q) :
    Reaches cfg p hn P t q v' := by
  obtain ⟨x, hreach, hpc, hdemand, hof⟩ := h
  have hpt : x.1.pc t = .go k := by rw [hpc, update_self]
  obtain ⟨sh', hnext, hof'⟩ := hexec x.1.sh hof (by rw [(Reach.ringed hreach).demandQueue, hdemand])
  have hok : Orderly (.exec t io) x := by
    constructor
    · intro kind k₁ hpc₁ hpush₁
      obtain rfl := Pc.go.inj (hpt.symm.trans hpc₁)
      obtain ⟨rfl, hword⟩ := hpush kind x.1.sh hpush₁
      show x.2.demand.head + x.2.demand.len < 2 ^ 32
      rwa [hdemand]
    · intro io₁ now c ha
      obtain ⟨rfl, -⟩ := Action.exec.inj ha
      rw [hpt]
      exact fun heq => hreclaim now c (Pc.go.inj heq)
  refine ⟨_, Reach.step hreach hok (ringed_exec hpt hnext), ?_, ?_, ?_⟩
  · show update x.1.pc t (enter q.point) = _
    rw [hpc, update_idem, henter]
  · show (x.2.step cfg (.exec t io) x.1).demand = v'.demand
    rw [x.2.step_exec hpt]
    exact hring x.2 hdemand
  · exact ⟨hof'.running, hof'.clock, hof'.state, hof'.resident, hof'.reserved, hof'.mapped, hof'.uffd,
      hof'.waiting⟩

/-- The code at the point writes no ring and is not the reclaim of the watchdog. -/
def Point.plain : Point n → Bool
  | .enqueue _ _ => false
  | .tryReclaim _ _ => false
  | .pick => false
  | .job _ (.topEnqueue _ _ _) => false
  | _ => true

theorem Reaches.exec_plain (h : Reaches cfg p hn P t (.go k) v) (hplain : k.plain = true) (io : Input n)
    (hexec : ∀ sh : Shared n σ, v.Of sh →
      ∃ sh', Pager.exec cfg t io sh k = .next sh' q.point ∧ v'.Of sh') (henter : enter q.point = q)
    (hdemand : v'.demand = v.demand) : Reaches cfg p hn P t q v' := by
  refine h.exec io ?_ ?_ ?_ (fun sh hof _ => hexec sh hof) henter
  · intro kind sh hpush
    unfold Point.Pushes at hpush
    split at hpush
    · cases hplain
    · cases hplain
    · cases hpush
  · rintro now c rfl
    cases hplain
  · intro r hr
    rw [hdemand, ← hr]
    unfold Rings.demandAt
    split
    · cases hplain
    · cases hplain
    · rfl

/-! ## A workload thread faults -/

theorem Reaches.aim {i a : ℕ} (h : Reaches cfg p hn P (.client i) (.go .idle) v)
    (ha : a < cfg.table.regionLen) : Reaches cfg p hn P (.client i) (.go (.touch a)) v := by
  refine h.exec_plain rfl { op := .touch a } (fun sh hof => ⟨sh, ?_, hof⟩) rfl rfl
  simp [Pager.exec, ha, Pc.point]

theorem Reaches.fault {i a : ℕ} (h : Reaches cfg p hn P (.client i) (.go (.touch a)) v)
    (hidle : v.waiting i = none) : Reaches cfg p hn P (.client i) (.go (.touch a))
      { v with uffd := v.uffd ++ [⟨alignDown a, i⟩], waiting := update v.waiting i (some a) } := by
  refine h.exec_plain rfl {} (fun sh hof => ⟨sh.setKernel (sh.kernel.fault i a), ?_, ?_⟩) rfl rfl
  · simp [Pager.exec, Pager.touch, hof.waiting, hidle, hof.mapped, Pc.point]
  · refine ⟨hof.running, hof.clock, hof.state, hof.resident, hof.reserved, hof.mapped, ?_, ?_⟩
    · exact congrArg (· ++ [_]) hof.uffd
    · exact congrArg (update · i (some a)) hof.waiting

/-! ## The dispatcher -/

/-- A pass of the watchdog over chunks that are not fetched. -/
theorem Reaches.watched (h : Reaches cfg p hn P .handler (.go .top) v)
    (hasync : cfg.asyncHandler = true) (hstate : ∀ c, v.state c ≠ .fetching) :
    Reaches cfg p hn P .handler (.go .drain) v := by
  have hpass : ∀ i ≤ n, Reaches cfg p hn P .handler (.go (.watch 0 i)) v := by
    intro i
    induction i with
    | zero =>
      intro _
      refine h.exec_plain rfl {} (fun sh hof => ⟨sh, ?_, hof⟩) rfl rfl
      simp [Pager.exec, hof.running, hof.clock, hasync, Pc.point]
    | succ i ih =>
      intro hi
      refine (ih (Nat.le_of_succ_le hi)).exec_plain rfl {} (fun sh hof => ⟨sh, ?_, hof⟩) rfl rfl
      have hstuck : ¬ Stuck cfg sh 0 ⟨i, hi⟩ := by
        rintro ⟨hst, -⟩
        rw [hof.state] at hst
        exact hstate _ hst
      simp [Pager.exec, show i < n from hi, hstuck, Pc.point]
  have hpoll : Reaches cfg p hn P .handler (.go .poll) v := by
    refine (hpass n le_rfl).exec_plain rfl {} (fun sh hof => ⟨sh, ?_, hof⟩) rfl rfl
    simp [Pager.exec, Pc.point]
  refine hpoll.exec_plain rfl {} (fun sh hof => ⟨sh, ?_, hof⟩) rfl rfl
  simp [Pager.exec, Pc.point]

/-- A message for an `ABSENT` chunk, up to the pool's mutex. -/
theorem Reaches.dispatch (h : Reaches cfg p hn P .handler (.go .drain) v)
    (hidle : ∀ u, (P u).holds = []) (hasync : cfg.asyncHandler = true) (hpolicy : cfg.policy = none)
    (huffd : v.uffd = m :: U) (hc : pagerLookup cfg.table m.addr = some c)
    (hst : v.state c = .absent) : Reaches cfg p hn P .handler (.go (.enqueue m c))
      { v with uffd := U, state := update v.state c .fetching } := by
  have hswitch : Reaches cfg p hn P .handler (.acq (.switch m c)) { v with uffd := U } := by
    refine h.exec_plain rfl {}
      (fun sh hof => ⟨sh.setKernel { sh.kernel with uffd := U }, ?_, ?_⟩) rfl rfl
    · simp [Pager.exec, hof.uffd, huffd, hc, Pc.point]
    · exact ⟨hof.running, hof.clock, hof.state, hof.resident, hof.reserved, hof.mapped, rfl,
        hof.waiting⟩
  have hlocked := hswitch.acquire hidle rfl (by simp [Point.base])
  have henqueue : Reaches cfg p hn P .handler (.acq (.enqueue m c))
      { v with uffd := U, state := update v.state c .fetching } := by
    refine hlocked.exec_plain rfl {} (fun sh hof => ⟨sh.beginFetch sh.clock c, ?_, ?_⟩) rfl rfl
    · simp [Pager.exec, handleFault, hof.state, hst, hpolicy, afterFault, hasync, Pc.point]
    · refine ⟨hof.running, hof.clock, fun d => ?_, hof.resident, hof.reserved, hof.mapped, hof.uffd,
        hof.waiting⟩
      show ((sh.region.modify c fun k => k.beginFetch _ _).chunks d).state = update v.state c _ d
      by_cases hd : d = c
      · subst hd
        rw [Region.modify_chunks_self, update_self]
        rfl
      · rw [Region.modify_chunks_of_ne _ hd, update_of_ne hd]
        exact hof.state d
  exact henqueue.acquire hidle rfl (by simp [Point.base])

theorem Reaches.enqueue (h : Reaches cfg p hn P .handler (.go (.enqueue m c)) v)
    (hroom : v.demand.len < queueCap n) (hword : v.demand.head + v.demand.len < 2 ^ 32) :
    Reaches cfg p hn P .handler (.go .drain)
      { v with demand := v.demand.wordPush (2 ^ 32) (queueCap n) c } := by
  refine h.exec {} (fun _ _ hkind => ⟨hkind, hword⟩) (by rintro _ _ ⟨⟩) (fun r hr => ?_)
    (fun sh hof hqueue => ?_) rfl
  · rw [Rings.demandAt, hr]
  · refine ⟨{ sh with demandQueue := sh.demandQueue ++ [c] }, ?_, ?_⟩
    · have hlen : ¬ queueCap n ≤ sh.demandQueue.length := by
        rw [hqueue, RingBuffer.length_entries]
        exact Nat.not_le_of_lt hroom
      simp [Pager.exec, hlen, Pc.point]
    · exact ⟨hof.running, hof.clock, hof.state, hof.resident, hof.reserved, hof.mapped, hof.uffd,
        hof.waiting⟩

/-! ## A worker gives up -/

/-- No chunk fits into the budget. -/
structure Starved (cfg : Config n σ) : Prop where
  async : cfg.asyncHandler = true
  policy : cfg.policy = none
  reconciles : cfg.reconcileInterval ≤ 1
  unpinned : cfg.prefetchRetentionPinned = false
  short : ∀ c, cfg.budgetBytes < cfg.table.len c

theorem Starved.decision (h : Starved cfg) {sh : Shared n σ} (hof : v.Of sh)
    (hstate : ∀ c, v.state c ≠ .resident) (c : Fin n) :
    demandDecision cfg sh.region c = .infeasible := by
  have hlen : cfg.table.len c < 2 ^ 64 :=
    (Nat.le_add_left _ _).trans_lt ((cfg.table.end_le_regionLen c).trans_lt cfg.table.regionLen_lt)
  have hover : overBudget cfg sh.region c := by
    show wrap64 (wrap64 (sh.region.residentBytes + sh.region.reservedBytes) + cfg.table.len c) > _
    rw [hof.resident, hof.reserved, show wrap64 (0 + 0) = 0 from rfl, Nat.zero_add, wrap64_of_lt hlen]
    exact h.short c
  have hvictim : cfg.selectVictim sh.region = none := by
    rw [Config.selectVictim, h.policy]
    rcases hv : defaultSelectVictim sh.region.chunks with _ | w
    · rfl
    · have hres := (defaultSelectVictim_evictable hv).1
      rw [hof.state] at hres
      exact absurd hres (hstate w)
  rw [demandDecision_of_over hover, hvictim, h.unpinned]
  rfl

/-- One call of `ensure_budget`, which fails. -/
theorem Reaches.attempt (hcfg : Starved cfg) {b : ℕ}
    (h : Reaches cfg p hn P t (.acq (.job (.demand c) (.ensure b))) v) (hidle : ∀ u, (P u).holds = [])
    (hstate : ∀ c, v.state c ≠ .resident) :
    Reaches cfg p hn P t (.go (.job (.demand c) (if b < 200 then .sleep b else .abandon))) v := by
  have hlocked := h.acquire hidle rfl (by simp [Point.base, Job.locks])
  have hreconcile : Reaches cfg p hn P t (.go (.job (.demand c) (.reconcile b))) v := by
    refine hlocked.exec_plain rfl {}
      (fun sh hof => ⟨sh.setRegion (countFetch sh.region), ?_, ?_⟩) rfl rfl
    · have hdue : reconcileDue cfg (countFetch sh.region) := Or.inl hcfg.reconciles
      simp [Pager.exec, execJob, Shared.setRegion, hdue, Pc.point]
    · exact ⟨hof.running, hof.clock, hof.state, hof.resident, hof.reserved, hof.mapped, hof.uffd,
        hof.waiting⟩
  have hfit : Reaches cfg p hn P t (.go (.job (.demand c) (.fit b))) v := by
    refine hreconcile.exec_plain rfl {}
      (fun sh hof => ⟨sh.setRegion (reconciled sh.region), ?_, ?_⟩) rfl rfl
    · have hcheck : reconcileOk cfg sh.region 0 := by
        constructor <;> simp [hof.resident, hof.reserved]
      simp [Pager.exec, execJob, hcheck, Pc.point]
    · exact ⟨hof.running, hof.clock, hof.state, hof.resident, hof.reserved, hof.mapped, hof.uffd,
        hof.waiting⟩
  refine hfit.exec_plain rfl {}
    (fun sh hof => ⟨sh.setRegion (countInfeasible sh.region), ?_, ?_⟩) ?_ rfl
  · have hdecide := hcfg.decision hof hstate c
    simp [Pager.exec, execJob, budgetLoop, Job.speculative, Job.target, hdecide, ensured, Pc.point]
  · exact ⟨hof.running, hof.clock, hof.state, hof.resident, hof.reserved, hof.mapped, hof.uffd,
      hof.waiting⟩
  · split
    · rfl
    · rfl

/-- After 201 calls the worker gives up. -/
theorem Reaches.attempts (hcfg : Starved cfg)
    (h : Reaches cfg p hn P t (.acq (.job (.demand c) (.ensure 0))) v)
    (hidle : ∀ u, (P u).holds = []) (hstate : ∀ c, v.state c ≠ .resident) :
    Reaches cfg p hn P t (.go (.job (.demand c) .abandon)) v := by
  have hcall : ∀ b ≤ 200, Reaches cfg p hn P t (.acq (.job (.demand c) (.ensure b))) v := by
    intro b
    induction b with
    | zero => exact fun _ => h
    | succ b ih =>
      intro hb
      have hsleep := (ih (Nat.le_of_succ_le hb)).attempt hcfg hidle hstate
      rw [if_pos (show b < 200 from hb)] at hsleep
      exact hsleep.exec_plain rfl {} (fun sh hof => ⟨sh, rfl, hof⟩) rfl rfl
  have hlast := (hcall 200 le_rfl).attempt hcfg hidle hstate
  rwa [if_neg (lt_irrefl 200)] at hlast

/-- A worker takes the only job, fails, and wakes the threads that wait. -/
theorem Reaches.serve (hcfg : Starved cfg) (h : Reaches cfg p hn P t (.acq .pick) v)
    (hidle : ∀ u, (P u).holds = []) (hqueue : v.demand.entries (2 ^ 32) (queueCap n) = [c])
    (hst : v.state c = .fetching) (hstate : ∀ c, v.state c ≠ .resident)
    (hwaiting : ∀ i a, v.waiting i = some a → cfg.table.Covers c a) :
    Reaches cfg p hn P t (.acq .pick) { v with
      demand := v.demand.wordPop (2 ^ 32) (queueCap n)
      state := update v.state c .absent
      waiting := fun _ => none } := by
  have hlen : v.demand.len > 0 := by
    rw [← v.demand.length_entries (2 ^ 32) (queueCap n), hqueue]
    exact Nat.one_pos
  have hpick := h.acquire hidle rfl List.not_mem_nil
  have hcheck : Reaches cfg p hn P t (.acq (.checkDemand c))
      { v with demand := v.demand.wordPop (2 ^ 32) (queueCap n) } := by
    refine hpick.exec {} (fun _ _ => False.elim) (by rintro _ _ ⟨⟩) (fun r hr => ?_)
      (fun sh hof hsh => ⟨{ sh with demandQueue := [] }, ?_, ?_⟩) rfl
    · rw [Rings.demandAt, hr, if_pos hlen]
    · rw [hqueue] at hsh
      simp [Pager.exec, workerMain, hsh, Pc.point]
    · exact ⟨hof.running, hof.clock, hof.state, hof.resident, hof.reserved, hof.mapped, hof.uffd,
        hof.waiting⟩
  have hlocked := hcheck.acquire hidle rfl List.not_mem_nil
  have hensure : Reaches cfg p hn P t (.acq (.job (.demand c) (.ensure 0)))
      { v with demand := v.demand.wordPop (2 ^ 32) (queueCap n) } := by
    refine hlocked.exec_plain rfl {} (fun sh hof => ⟨sh, ?_, hof⟩) rfl rfl
    simp [Pager.exec, hof.state, hst, Pc.point]
  refine (hensure.attempts hcfg hidle hstate).exec_plain rfl {}
    (fun sh hof => ⟨sh.abandonFetch cfg c, rfl, ?_⟩) rfl rfl
  refine ⟨hof.running, hof.clock, fun d => ?_, hof.resident, hof.reserved, hof.mapped, hof.uffd, ?_⟩
  · show ((sh.region.modify c Chunk.abandonFetch).chunks d).state = update v.state c _ d
    by_cases hd : d = c
    · subst hd
      rw [Region.modify_chunks_self, update_self]
      rfl
    · rw [Region.modify_chunks_of_ne _ hd, update_of_ne hd]
      exact hof.state d
  · funext i
    show (sh.kernel.wake (cfg.table.regionOff c) (cfg.table.len c)).waiting i = none
    cases hi : (sh.kernel.wake (cfg.table.regionOff c) (cfg.table.len c)).waiting i with
    | none => rfl
    | some a =>
      obtain ⟨hwait, hout⟩ := Kernel.wake_waiting hi
      rw [hof.waiting] at hwait
      exact absurd (hwaiting i a hwait) hout

/-! ## Rounds -/

/-- The first `m` workload threads are about to touch a chunk each. -/
def poised (cfg : Config n σ) (chunk : ℕ → Fin n) (m : ℕ) : Tid → Pc n
  | .client i => if i < m then .go (.touch (cfg.table.regionOff (chunk i))) else .go .idle
  | t => enter (startPoint cfg t)

/-- The first outline, and the one in which thread 0 waits for chunk `c`. -/
def Outline.start (ring : RingBuffer (Fin n)) : Outline n := ⟨ring, fun _ => .absent, [], fun _ => none⟩

def Outline.blocked (cfg : Config n σ) (c : Fin n) (ring : RingBuffer (Fin n)) : Outline n where
  demand := ring
  state := fun _ => .absent
  uffd := [⟨cfg.table.regionOff c, 0⟩]
  waiting := update (fun _ => none) 0 (some (cfg.table.regionOff c))

section

variable (T : ChunkTable n) (c : Fin n)

theorem covers_regionOff : T.Covers c (T.regionOff c) :=
  ⟨le_rfl, Nat.lt_add_of_pos_right (T.len_pos c)⟩

theorem regionOff_lt : T.regionOff c < T.regionLen :=
  (covers_regionOff T c).2.trans_le (T.end_le_regionLen c)

theorem alignDown_regionOff : alignDown (T.regionOff c) = T.regionOff c :=
  Nat.div_mul_cancel (Nat.dvd_of_mod_eq_zero (T.aligned c))

end

theorem poised_client (cfg : Config n σ) (chunk : ℕ → Fin n) {m i : ℕ} (hi : i < m) :
    update (poised cfg chunk m) .handler (.go .drain) (.client i) =
      .go (.touch (cfg.table.regionOff (chunk i))) := by
  rw [update_of_ne (by simp)]
  exact if_pos hi

theorem poised_holds (cfg : Config n σ) (chunk : ℕ → Fin n) (m : ℕ) (u : Tid) :
    (update (poised cfg chunk m) .handler (.go .drain) u).holds = [] := by
  by_cases hu : u = .handler
  · subst hu
    rw [update_self]
    rfl
  · rw [update_of_ne hu]
    cases u with
    | handler => exact absurd rfl hu
    | worker i =>
      show (enter (startPoint cfg (.worker i))).holds = []
      rw [enter_holds, startPoint]
      split <;> rfl
    | client i =>
      show (if i < m then _ else _ : Pc n).holds = []
      split <;> rfl

theorem Reaches.start (cfg : Config n σ) (p : σ) (hn : 0 < n) (chunk : ℕ → Fin n) :
    Reaches cfg p hn (poised cfg chunk 0) .handler (.go .top) (.start (Rings.init hn).demand) := by
  refine ⟨(ringed cfg p hn).init, Reach.init, ?_, rfl, ⟨rfl, rfl, fun _ => rfl, rfl, rfl, fun _ => rfl, rfl, rfl⟩⟩
  funext u
  cases u with
  | client i =>
    rw [update_of_ne (by simp)]
    show Pc.go Point.idle = if i < 0 then .go (.touch (cfg.table.regionOff (chunk i))) else .go .idle
    rw [if_neg (Nat.not_lt_zero i)]
  | handler => rfl
  | worker i => rfl

theorem Reaches.poise (cfg : Config n σ) (p : σ) (hn : 0 < n) (chunk : ℕ → Fin n) (m : ℕ) :
    Reaches cfg p hn (poised cfg chunk m) .handler (.go .top) (.start (Rings.init hn).demand) := by
  induction m with
  | zero => exact Reaches.start cfg p hn chunk
  | succ m ih =>
    have hidle := Reaches.turn ih (.client m)
    rw [show poised cfg chunk m (.client m) = .go .idle from if_neg (lt_irrefl m)] at hidle
    have htouch := (hidle.aim (regionOff_lt cfg.table (chunk m))).rebase .handler
    have hsame : update (poised cfg chunk m) (.client m)
        (.go (.touch (cfg.table.regionOff (chunk m)))) = poised cfg chunk (m + 1) := by
      funext u
      by_cases hu : u = .client m
      · subst hu
        rw [update_self]
        exact (if_pos (Nat.lt_succ_self m)).symm
      · rw [update_of_ne hu]
        cases u with
        | client i =>
          have hi : i < m + 1 ↔ i < m := by
            have hne : i ≠ m := fun he => hu (by rw [he])
            omega
          exact (if_congr hi rfl rfl).symm
        | _ => rfl
    rw [hsame] at htouch
    exact htouch

/-- The dispatcher waits for messages, thread 0 faults on its chunk. -/
theorem Reaches.blocked (hcfg : Starved cfg) (p : σ) (hn : 0 < n) (chunk : ℕ → Fin n) {m : ℕ}
    (hm : 0 < m) : Reaches cfg p hn (update (poised cfg chunk m) .handler (.go .drain)) .handler
      (.go .drain) (.blocked cfg (chunk 0) (Rings.init hn).demand) := by
  have hdrain := (Reaches.poise cfg p hn chunk m).watched hcfg.async (by rintro c ⟨⟩)
  have hclient := hdrain.settle.turn (.client 0)
  rw [poised_client cfg chunk hm] at hclient
  have hfault := hclient.fault rfl
  rw [alignDown_regionOff, ← poised_client cfg chunk hm] at hfault
  have hback := hfault.turn .handler
  rwa [update_self] at hback

theorem entries_wordPush {M cap : ℕ} {ring : RingBuffer (Fin n)} (hlen : ring.len = 0) (c : Fin n) :
    (ring.wordPush M cap c).entries M cap = [c] := by
  simp [RingBuffer.entries, RingBuffer.wordPush, RingBuffer.wordPos, hlen]

/-- A round: the job of the chunk is enqueued, taken and given up, and the thread faults again. -/
theorem Reaches.round (hcfg : Starved cfg) (hP : ∀ u, (P u).holds = [])
    (hhandler : P .handler = .go .drain) (hworker : P (.worker 0) = .acq .pick)
    (hclient : P (.client 0) = .go (.touch (cfg.table.regionOff c))) {ring : RingBuffer (Fin n)}
    (h : Reaches cfg p hn P .handler (.go .drain) (.blocked cfg c ring)) (hlen : ring.len = 0)
    (hhead : ring.head < queueCap n) : ∃ ring', ring'.len = 0 ∧
      ring'.head = (ring.head + 1) % queueCap n ∧
      Reaches cfg p hn P .handler (.go .drain) (.blocked cfg c ring') := by
  have hcap := queueCap_lt n
  have hmsg := h.dispatch hP hcfg.async hcfg.policy rfl
    (pagerLookup_of_covers cfg.table (covers_regionOff cfg.table c)) rfl
  have hqueued := hmsg.enqueue (by show ring.len < _; omega) (by show ring.head + ring.len < _; omega)
  rw [← hhandler] at hqueued
  have hpick := hqueued.turn (.worker 0)
  rw [hworker] at hpick
  have hserved := hpick.serve (c := c) hcfg hP (entries_wordPush hlen c) (update_self _ _ _) ?_ ?_
  · rw [← hworker] at hserved
    have htouch := hserved.turn (.client 0)
    rw [hclient] at htouch
    have hfault := htouch.fault rfl
    rw [← hclient, alignDown_regionOff] at hfault
    have hback := hfault.turn .handler
    rw [hhandler] at hback
    have habsent : update (update (fun _ : Fin n => ChunkState.absent) c .fetching) c .absent =
        fun _ => .absent := by
      rw [update_idem]
      exact update_eq_self c fun _ : Fin n => ChunkState.absent
    refine ⟨(ring.wordPush (2 ^ 32) (queueCap n) c).wordPop (2 ^ 32) (queueCap n), ?_, ?_, ?_⟩
    · show ring.len + 1 - 1 = 0
      rw [hlen]
    · show (ring.head + 1) % 2 ^ 32 % queueCap n = _
      rw [Nat.mod_eq_of_lt (a := ring.head + 1) (by omega)]
    · rw [Outline.blocked, ← habsent]
      exact hback
  · intro d
    show update (fun _ => ChunkState.absent) c .fetching d ≠ .resident
    rw [update_apply]
    split <;> rintro ⟨⟩
  · intro i a ha
    have ha' : update (fun _ => none) 0 (some (cfg.table.regionOff c)) i = some a := ha
    rw [update_apply] at ha'
    split at ha'
    · obtain rfl := Option.some.inj ha'
      exact covers_regionOff cfg.table c
    · cases ha'

theorem Reaches.rounds (hcfg : Starved cfg) (hP : ∀ u, (P u).holds = [])
    (hhandler : P .handler = .go .drain) (hworker : P (.worker 0) = .acq .pick)
    (hclient : P (.client 0) = .go (.touch (cfg.table.regionOff c))) {slot : ℕ → Fin n}
    (h : Reaches cfg p hn P .handler (.go .drain) (.blocked cfg c ⟨slot, 0, 0⟩)) {r : ℕ}
    (hr : r < queueCap n) : ∃ ring : RingBuffer (Fin n), ring.len = 0 ∧ ring.head = r ∧
      Reaches cfg p hn P .handler (.go .drain) (.blocked cfg c ring) := by
  induction r with
  | zero => exact ⟨_, rfl, rfl, h⟩
  | succ r ih =>
    obtain ⟨ring, hlen, rfl, hreach⟩ := ih (Nat.lt_of_succ_lt hr)
    obtain ⟨ring', hlen', hhead, hreach'⟩ :=
      hreach.round hcfg hP hhandler hworker hclient hlen (Nat.lt_of_succ_lt hr)
    exact ⟨ring', hlen', hhead.trans (Nat.mod_eq_of_lt hr), hreach'⟩

/-- Three threads wait, and the ring has wrapped to its first slot: the third push is at
`head + len = 2 ^ 32`. -/
theorem Reaches.third (hcfg : Starved cfg) (p : σ) (hn : 0 < n) (hcap : queueCap n = UINT32_MAX)
    (chunk : ℕ → Fin n) (h₁ : chunk 1 ≠ chunk 0) (h₂ : chunk 2 ≠ chunk 0) (h₂₁ : chunk 2 ≠ chunk 1) :
    ∃ m v, Reaches cfg p hn (update (poised cfg chunk 3) .handler (.go .drain)) .handler
        (.go (.enqueue m (chunk 2))) v ∧
      v.demand.Holds (2 ^ 32) (queueCap n) [chunk 0, chunk 1] ∧ v.demand.head = UINT32_MAX - 1 := by
  have hP := poised_holds cfg chunk 3
  have hpool : hasPool cfg = true := by
    rw [hasPool, hcfg.async, Bool.true_or]
  have hworker : update (poised cfg chunk 3) .handler (.go .drain) (.worker 0) = .acq .pick := by
    have hpos : 0 < nWorkers cfg := by
      unfold nWorkers
      split <;> omega
    rw [update_of_ne (by simp)]
    show enter (startPoint cfg (.worker 0)) = _
    rw [startPoint, if_pos ⟨hpool, hpos⟩]
    rfl
  obtain ⟨ring, hlen, hhead, hround⟩ := (Reaches.blocked hcfg p hn chunk (m := 3) (by decide)).rounds
    hcfg hP (update_self _ _ _) hworker (poised_client cfg chunk (by decide)) (r := UINT32_MAX - 1)
    (by rw [hcap]; decide)
  have hfault : ∀ {i v}, i < 3 → v.waiting i = none →
      Reaches cfg p hn (update (poised cfg chunk 3) .handler (.go .drain)) .handler (.go .drain) v →
      Reaches cfg p hn (update (poised cfg chunk 3) .handler (.go .drain)) .handler (.go .drain)
        { v with uffd := v.uffd ++ [⟨cfg.table.regionOff (chunk i), i⟩]
                 waiting := update v.waiting i (some (cfg.table.regionOff (chunk i))) } := by
    intro i v hi hidle h
    have htouch := h.settle.turn (.client i)
    rw [update_idem, poised_client cfg chunk hi] at htouch
    have hmsg := htouch.fault hidle
    rw [alignDown_regionOff, ← poised_client cfg chunk hi] at hmsg
    have hback := hmsg.turn .handler
    rwa [update_self] at hback
  have hall := hfault (i := 2) (by decide) rfl (hfault (i := 1) (by decide) rfl hround)
  have hlookup : ∀ i, pagerLookup cfg.table (cfg.table.regionOff (chunk i)) = some (chunk i) :=
    fun i => pagerLookup_of_covers cfg.table (covers_regionOff cfg.table (chunk i))
  have hempty : ring.Holds (2 ^ 32) (queueCap n) [] :=
    RingBuffer.Holds.of_len_eq_zero hlen (by rw [hcap, hhead]; decide) (queueCap_lt n).le
  have hzero : ring.head + ring.len < 2 ^ 32 := by
    rw [hhead, hlen]
    decide
  have hqueued₀ := (hall.dispatch hP hcfg.async hcfg.policy rfl (hlookup 0) rfl).enqueue
    (by rw [hcap]; show ring.len < _; rw [hlen]; decide) hzero
  have hholds₀ := hempty.push (by rw [hcap, hlen]; decide) hzero (chunk 0)
  have hone : ring.head + (ring.len + 1) < 2 ^ 32 := by
    rw [hhead, hlen]
    decide
  have hqueued₁ := (hqueued₀.dispatch hP hcfg.async hcfg.policy rfl (hlookup 1)
    (update_of_ne h₁ _ _)).enqueue
    (by rw [hcap]; show ring.len + 1 < _; rw [hlen]; decide) hone
  have hholds₁ := hholds₀.push (by rw [hcap]; show ring.len + 1 < _; rw [hlen]; decide) hone (chunk 1)
  have hqueued₂ := hqueued₁.dispatch hP hcfg.async hcfg.policy rfl (hlookup 2)
    ((update_of_ne h₂₁ _ _).trans (update_of_ne h₂ _ _))
  exact ⟨_, _, hqueued₂, hholds₁, hhead⟩

theorem pages_lt {n : ℕ} (hn : n < 2 ^ 32) : n * 4096 < 2 ^ 63 := by omega

/-- Chunks of one page and a budget of a quarter of a page. -/
def starved (n : ℕ) (hn : n < 2 ^ 32) : Config n Unit where
  table := ChunkTable.uniform n 4096 page_pos page_aligned ((pages_lt hn).trans (by decide))
  registered := Nat.mul_mod_left n 4096
  truncated := pages_lt hn
  budgetBytes := 1024
  reconcileInterval := 1
  policy := none
  asyncHandler := true
  pool := true
  workers := 1
  prefetchEnabled := false
  prefetchDepth := 1
  prefetchAdmissionAlways := false
  prefetchRetentionPinned := false
  fetchingTimeoutMs := 30000
  modelFileSize := n * 4096
  fileByte := fun _ => 7

theorem starved_starved (n : ℕ) (hn : n < 2 ^ 32) : Starved (starved n hn) :=
  ⟨rfl, rfl, le_rfl, rfl, fun _ => show 1024 < 4096 by decide⟩

end Residctl.Pager
