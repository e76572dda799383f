import Residctl.Counters
import Residctl.Drain
import Residctl.Deadlock
import Residctl.Faults
import Residctl.Lib.Ranking

/-!
# Shutting down

`residctl_llama_teardown` sets `*stop` and joins the pager's thread; `pager_run` leaves its loop,
stops the pool and joins the workers, who first empty both queues. Once no workload thread
faults any more this comes to an end: `Point.cost` bounds the steps that a thread has before
it, `Shared.backlog` those that the messages, the queues and the chunks that can be evicted
stand for, and every step that gets a thread on lowers the sum. The queues are lists, as in all
runs in which no index of a ring wraps (`Reach.unringed`, `Reach.inRange`).
-/

namespace Residctl.Pager

open Mutex Function Runs

variable {n : ℕ} {σ : Type}

/-! ## What is left to do -/

/-- What `fetch_chunk` reads. -/
def fetchBytes (cfg : Config n σ) (c : Fin n) : ℕ :=
  tailEnd cfg c - directEnd cfg c + (directEnd cfg c - alignedStart cfg c)

def allBytes (cfg : Config n σ) : ℕ := ∑ c, fetchBytes cfg c

/-- A request of the prefetch queue. The budget of a demand fetch is tried 200 times. -/
def prefetchCost (cfg : Config n σ) : ℕ := allBytes cfg + 1021

/-- Rounds of `prefetch_pool_top_up`, with the requests that they enqueue. -/
def topUpCost (cfg : Config n σ) (rounds : ℕ) : ℕ := rounds * (prefetchCost cfg + 2)

/-- What follows the mark of a demand fetch. -/
def speculateCost (cfg : Config n σ) : ℕ :=
  allBytes cfg + 1021 + topUpCost cfg cfg.prefetchDepth

def demandCost (cfg : Config n σ) : ℕ := allBytes cfg + 1016 + speculateCost cfg

/-- A message of the userfaultfd, whether the handler fetches or a worker does. -/
def faultCost (cfg : Config n σ) : ℕ := demandCost cfg + 5

def Job.markCost (cfg : Config n σ) (j : Job n) : ℕ :=
  if j.speculative then 2 else speculateCost cfg

/-- From an instruction to the end of the job. -/
def Instr.cost (cfg : Config n σ) (j : Job n) : Instr n → ℕ
  | ensure a => j.markCost cfg + allBytes cfg + 14 + 5 * (200 - a)
  | reconcile a => j.markCost cfg + allBytes cfg + 13 + 5 * (200 - a)
  | fit a => j.markCost cfg + allBytes cfg + 12 + 5 * (200 - a)
  | evict a _ => j.markCost cfg + allBytes cfg + 11 + 5 * (200 - a)
  | sleep a => j.markCost cfg + allBytes cfg + 15 + 5 * (200 - (a + 1))
  | unpinJustResident _ => j.markCost cfg + allBytes cfg + 10
  | pad => j.markCost cfg + allBytes cfg + 9
  | read off => j.markCost cfg + 8 + (tailEnd cfg j.target - directEnd cfg j.target) +
      (directEnd cfg j.target - (alignedStart cfg j.target + off))
  | tail pos => j.markCost cfg + 7 + (tailEnd cfg j.target - pos)
  | resolve => j.markCost cfg + 6
  | commit => j.markCost cfg + 5
  | mark => j.markCost cfg + 4
  | predict => allBytes cfg + 1021
  | topNeed => 3 + topUpCost cfg cfg.prefetchDepth
  | topPredict need i _ => prefetchCost cfg + 4 + topUpCost cfg (need - (i + 1))
  | topEnqueue need i _ => prefetchCost cfg + 3 + topUpCost cfg (need - (i + 1))
  | unpinTarget _ => 2
  | retain => 2
  | unpin => 2
  | abandon => 1
  | finishPrefetch => 1
  | finish => 1

/-- What the thread still does after the job, without taking another message or request. -/
def Job.restCost : Job n → ℕ
  | handle _ => 4
  | demand _ => 1
  | prefetch _ => 2
  | maybe _ _ _ => 6

/-- The steps that a thread at the point has before it when `*stop` is set. -/
def Point.cost (cfg : Config n σ) : Point n → ℕ
  | top => 3
  | watch _ i => 6 + 2 * (n - i)
  | tryReclaim _ c => 7 + 2 * (n - (c.1 + 1))
  | poll => 5
  | drain => 4
  | switch _ _ => faultCost cfg + 2
  | onFault _ _ => faultCost cfg + 1
  | enqueue _ _ => faultCost cfg
  | stopPool => 2
  | join => 1
  | exited => 0
  | checkDemand _ => demandCost cfg
  | checkPrefetch _ => prefetchCost cfg
  | pinPrefetch _ _ => allBytes cfg + 1020
  | startPrefetch _ _ => allBytes cfg + 1019
  | checkMaybe _ _ _ => allBytes cfg + 1024
  | pinJustResident _ _ _ => allBytes cfg + 1023
  | job j i => j.restCost + i.cost cfg j
  | pick => 1
  | prefetchDone _ => 2
  | retired => 0
  | idle => 0
  | touch _ => 0
  | onAccess _ => 2
  | release _ => 1

def View.residents (V : View n) : ℕ := (Finset.univ.filter V.Resident).card

/-- The steps that the shared state stands for: an eviction for every `RESIDENT` chunk, and the
fetches of the messages and requests. -/
def Shared.backlog (cfg : Config n σ) (sh : Shared n σ) : ℕ :=
  3 * sh.view.residents + (faultCost cfg + 2) * sh.view.kernel.uffd.length +
    demandCost cfg * sh.pool.demandQueue.length + prefetchCost cfg * sh.pool.pfQueue.length

section

variable {cfg : Config n σ} {t : Tid} {io : Input n} {sh sh' : Shared n σ} {k k' : Point n}
  {j : Job n} {i : Instr n} {V : View n} {c v : Fin n}

theorem fetchBytes_le (cfg : Config n σ) (c : Fin n) : fetchBytes cfg c ≤ allBytes cfg :=
  Finset.single_le_sum (f := fetchBytes cfg) (fun _ _ => Nat.zero_le _) (Finset.mem_univ c)

theorem topUpCost_succ (cfg : Config n σ) (m : ℕ) :
    topUpCost cfg (m + 1) = topUpCost cfg m + (prefetchCost cfg + 2) :=
  Nat.succ_mul m _

theorem topUpCost_le (cfg : Config n σ) {m m' : ℕ} (h : m ≤ m') :
    topUpCost cfg m ≤ topUpCost cfg m' :=
  Nat.mul_le_mul_right _ h

/-! ## The chunks that are `RESIDENT` -/

theorem residents_setPhase_le (V : View n) (c : Fin n) (st : ChunkState) (since : ℕ) :
    (V.setPhase c st since).residents ≤ V.residents + 1 := by
  refine (Finset.card_le_card fun d hd => ?_).trans (Finset.card_insert_le c _)
  rw [Finset.mem_insert, Finset.mem_filter]
  by_cases hdc : d = c
  · exact Or.inl hdc
  · refine Or.inr ⟨Finset.mem_univ d, ?_⟩
    exact (V.resident_setPhase_of_ne hdc st since).1 (Finset.mem_filter.1 hd).2

/-- A chunk that changes to another state than `RESIDENT` is all that may leave. -/
theorem residents_subset (V : View n) (c : Fin n) {st : ChunkState} (hst : st ≠ .resident)
    (since : ℕ) : (Finset.univ.filter (V.setPhase c st since).Resident) ⊆
      (Finset.univ.filter V.Resident).erase c := by
  intro d hd
  have hd := (Finset.mem_filter.1 hd).2
  have hdc : d ≠ c := by
    rintro rfl
    exact hst ((V.resident_setPhase_self d st since).1 hd)
  refine Finset.mem_erase.2 ⟨hdc, Finset.mem_filter.2 ⟨Finset.mem_univ d, ?_⟩⟩
  exact (V.resident_setPhase_of_ne hdc st since).1 hd

theorem residents_drop (V : View n) {st : ChunkState} (hst : st ≠ .resident) (since : ℕ) :
    (V.setPhase c st since).residents ≤ V.residents :=
  Finset.card_le_card ((residents_subset V c hst since).trans (Finset.erase_subset _ _))

theorem residents_evict (hv : V.Resident v) {st : ChunkState} (hst : st ≠ .resident) (since : ℕ) :
    (V.setPhase v st since).residents < V.residents := by
  have hmem : v ∈ Finset.univ.filter V.Resident := Finset.mem_filter.2 ⟨Finset.mem_univ v, hv⟩
  exact (Finset.card_le_card (residents_subset V v hst since)).trans_lt
    (Finset.card_erase_lt_of_mem hmem)

/-- A step that leaves the messages and the queues alone. -/
theorem backlog_change {r r' : ℕ} (hres : sh'.view.residents + r ≤ sh.view.residents + r')
    (huffd : sh'.view.kernel.uffd = sh.view.kernel.uffd) (hpool : sh'.pool = sh.pool) :
    sh'.backlog cfg + 3 * r ≤ sh.backlog cfg + 3 * r' := by
  simp only [Shared.backlog, huffd, hpool]
  omega

theorem backlog_le (hres : sh'.view.residents ≤ sh.view.residents)
    (huffd : sh'.view.kernel.uffd = sh.view.kernel.uffd) (hpool : sh'.pool = sh.pool) :
    sh'.backlog cfg ≤ sh.backlog cfg :=
  have hres' : sh'.view.residents + 0 ≤ sh.view.residents + 0 := hres
  backlog_change hres' huffd hpool

theorem backlog_of_view (hview : sh'.view = sh.view) (hpool : sh'.pool = sh.pool) :
    sh'.backlog cfg ≤ sh.backlog cfg :=
  backlog_le (by rw [hview]) (by rw [hview]) hpool

/-! ## Every step of a job gets on -/

/-- A step to another point lowers the sum of the point's steps and the backlog. A thread stays
where it is when `pread` is interrupted, or when a worker has nothing to do. -/
def Spends (cfg : Config n σ) (k k' : Point n) (sh sh' : Shared n σ) : Prop :=
  k' = k ∧ (k.needs = none ∨ k = .pick) ∧ sh'.backlog cfg ≤ sh.backlog cfg ∨
    k'.cost cfg + sh'.backlog cfg < k.cost cfg + sh.backlog cfg

theorem ensured_cost (cfg : Config n σ) (a : ℕ) (ok : Bool) (j : Job n) :
    (ensured cfg a ok j).cost cfg j < (Instr.fit a).cost cfg j := by
  have hpad : Instr.pad.cost cfg j < (Instr.fit a).cost cfg j := by
    simp only [Instr.cost]
    omega
  have hfail : Instr.abandon.cost cfg j < (Instr.fit a).cost cfg j := by
    simp only [Instr.cost]
    omega
  -- one attempt less is left
  have hsleep : a < 200 → (Instr.sleep a).cost cfg j < (Instr.fit a).cost cfg j := by
    intro ha
    simp only [Instr.cost]
    omega
  cases j with
  | handle c =>
    cases ok with
    | true => exact hpad
    | false =>
      simp only [ensured, Bool.false_eq_true, if_false]
      split
      · exact hsleep (And.right ‹_›)
      · exact hfail
  | demand c =>
    cases ok with
    | true => exact hpad
    | false =>
      simp only [ensured, Bool.false_eq_true, if_false]
      split
      · exact hsleep ‹_›
      · exact hfail
  | prefetch c =>
    cases ok with
    | true => exact hpad
    | false =>
      simp only [ensured, Bool.false_eq_true, if_false, Instr.cost]
      omega
  | maybe jr c hne =>
    simp only [ensured, Instr.cost]
    omega

theorem marked_cost (cfg : Config n σ) (j : Job n) :
    (marked cfg j).cost cfg j ≤ j.markCost cfg := by
  have hunpin : Instr.unpin.cost cfg j ≤ speculateCost cfg := by
    simp only [Instr.cost, speculateCost]
    omega
  have htop : Instr.topNeed.cost cfg j ≤ speculateCost cfg := by
    simp only [Instr.cost, speculateCost]
    omega
  have hpredict : Instr.predict.cost cfg j ≤ speculateCost cfg := Nat.le_add_right _ _
  unfold marked Job.markCost
  split
  · split <;> exact le_refl 2
  · unfold speculate
    repeat' split
    all_goals first | exact hunpin | exact htop | exact hpredict

theorem topNext_cost (cfg : Config n σ) (j : Job n) (need i : ℕ) (cursor : Fin n) :
    (topNext need i cursor).cost cfg j ≤ 2 + topUpCost cfg (need - i) := by
  unfold topNext
  split
  · rename_i hlt
    have hsucc : need - i = need - (i + 1) + 1 := by omega
    rw [hsucc, topUpCost_succ]
    simp only [Instr.cost]
    omega
  · exact Nat.le_add_right 2 _

theorem after_cost (cfg : Config n σ) (j : Job n) : j.after.cost cfg = j.restCost := by
  cases j <;> rfl

theorem backlog_topEnqueue (cfg : Config n σ) (sh : Shared n σ) (c : Fin n) :
    (topEnqueue sh c).backlog cfg ≤ sh.backlog cfg + prefetchCost cfg := by
  unfold topEnqueue
  split
  · show 3 * sh.view.residents + _ * sh.view.kernel.uffd.length + _ * sh.pool.demandQueue.length +
      prefetchCost cfg * (sh.pool.pfQueue ++ [c]).length ≤ _
    rw [List.length_append, List.length_singleton, Nat.mul_succ, ← Nat.add_assoc]
    rfl
  · exact Nat.le_add_right _ _

/-- An eviction pays for its own steps. -/
theorem backlog_evictChunk (cfg : Config n σ) (hv : sh.view.Resident v) :
    (evictChunk cfg sh v).backlog cfg + 3 * 1 ≤ sh.backlog cfg + 3 * 0 := by
  have hview := view_evictChunk cfg sh v
  refine backlog_change ?_ (by rw [hview]; rfl) rfl
  rw [hview]
  exact residents_evict hv (by simp) (sh.view.phase v).2

theorem backlog_abandonFetch (cfg : Config n σ) (sh : Shared n σ) (c : Fin n) :
    (sh.abandonFetch cfg c).backlog cfg ≤ sh.backlog cfg := by
  have hview := view_abandonFetch cfg sh c
  refine backlog_le ?_ (by rw [hview]; rfl) rfl
  rw [hview]
  exact residents_drop sh.view (by simp) 0

theorem backlog_beginFetch (cfg : Config n σ) (sh : Shared n σ) (now : ℕ) (c : Fin n) :
    (sh.beginFetch now c).backlog cfg ≤ sh.backlog cfg := by
  have hview := view_beginFetch sh now c
  refine backlog_le ?_ (by rw [hview]; rfl) rfl
  rw [hview]
  exact residents_drop sh.view (by simp) now

theorem backlog_markResident (cfg : Config n σ) (sh : Shared n σ) (j : Job n) :
    (markResident cfg sh j).backlog cfg + 3 * 0 ≤ sh.backlog cfg + 3 * 1 := by
  have hview := view_markResident cfg sh j
  refine backlog_change ?_ (by rw [hview]; rfl) (pool_markResident cfg sh j)
  rw [hview]
  exact residents_setPhase_le sh.view j.target .resident 0

theorem cost_job (cfg : Config n σ) (j : Job n) (i : Instr n) :
    (Point.job j i).cost cfg = j.restCost + i.cost cfg j := rfl

theorem JobBranch.spends (h : JobBranch cfg io sh j i sh' k') :
    Spends cfg (.job j i) k' sh sh' := by
  have hgo : ∀ i', i'.cost cfg j < i.cost cfg j → sh'.backlog cfg ≤ sh.backlog cfg →
      (Point.job j i').cost cfg + sh'.backlog cfg < (Point.job j i).cost cfg + sh.backlog cfg := by
    intro i' hcost hback
    rw [cost_job, cost_job]
    omega
  have hafter : 0 < i.cost cfg j → sh'.backlog cfg ≤ sh.backlog cfg →
      j.after.cost cfg + sh'.backlog cfg < (Point.job j i).cost cfg + sh.backlog cfg := by
    intro hcost hback
    rw [cost_job, after_cost]
    omega
  cases h with
  | due _ | notDue _ | reconcile _ =>
    exact Or.inr (hgo _ (by simp only [Instr.cost]; omega) (backlog_of_view rfl rfl))
  | choose _ | sleep | direct _ | loaded _ | topStop =>
    exact Or.inr (hgo _ (by simp only [Instr.cost]; omega) le_rfl)
  | reserve _ => exact Or.inr (hgo _ (ensured_cost cfg _ true j) (backlog_of_view rfl rfl))
  | infeasible _ | decline _ =>
    exact Or.inr (hgo _ (ensured_cost cfg _ false j) (backlog_of_view rfl rfl))
  | breakPin _ =>
    refine Or.inr (hgo _ (by simp only [Instr.cost]; omega) ?_)
    exact backlog_of_view (view_of_phase (phase_release _ _)) rfl
  | evict hev =>
    have hback := backlog_evictChunk cfg (show sh.view.Resident _ from hev.1)
    right
    rw [cost_job, cost_job]
    simp only [Instr.cost]
    omega
  | @unpinJustResident jr c hne ok =>
    refine Or.inr (hgo _ ?_ (backlog_of_view (view_of_phase (phase_unpinChunk _ _)) rfl))
    cases ok <;> simp only [if_true, if_false, Bool.false_eq_true, Instr.cost] <;> omega
  | pad =>
    have hbytes := fetchBytes_le cfg j.target
    refine Or.inr (hgo _ ?_ ?_)
    · unfold fetchBytes at hbytes
      simp only [Instr.cost]
      omega
    · unfold padTail
      split
      · exact (backlog_le le_rfl rfl rfl)
      · exact le_rfl
  | @read _ off m hlt hread =>
    have hm := (pread_le hread).1
    rcases Nat.eq_zero_or_pos m with rfl | hpos
    · exact Or.inl ⟨rfl, Or.inl rfl, backlog_le le_rfl rfl rfl⟩
    · refine Or.inr (hgo _ ?_ (backlog_le le_rfl rfl rfl))
      simp only [Instr.cost]
      omega
  | @tail _ pos m hlt hread =>
    have hm := (pread_le hread).1
    rcases Nat.eq_zero_or_pos m with rfl | hpos
    · exact Or.inl ⟨rfl, Or.inl rfl, backlog_le le_rfl rfl rfl⟩
    · refine Or.inr (hgo _ ?_ (backlog_le le_rfl rfl rfl))
      simp only [Instr.cost]
      omega
  | resolve _ =>
    exact Or.inr (hgo _ (by simp only [Instr.cost]; omega) (backlog_le le_rfl rfl rfl))
  | commit =>
    refine Or.inr (hgo _ (by simp only [Instr.cost]; omega) ?_)
    refine backlog_of_view (view_of_phase ?_) rfl
    split
    · exact phase_commit _ _ _
    · exact phase_commitAndPin _ _ _
  | mark =>
    have hcost := marked_cost cfg j
    have hback := backlog_markResident cfg sh j
    have hmark : Instr.mark.cost cfg j = j.markCost cfg + 4 := rfl
    right
    rw [cost_job, cost_job]
    omega
  | @unpinTarget _ ok =>
    refine Or.inr (hgo _ ?_ (backlog_of_view (view_of_phase (phase_unpinChunk _ _)) rfl))
    cases ok <;> exact Nat.lt_succ_self 1
  | retain =>
    refine Or.inr (hgo _ (Nat.lt_succ_self 1) ?_)
    exact backlog_of_view (view_of_phase (phase_retain _ _ _)) rfl
  | unpin =>
    refine Or.inr (hgo _ (Nat.lt_succ_self 1) ?_)
    exact backlog_of_view (view_of_phase (phase_unpinChunk _ _)) rfl
  | abandon =>
    refine Or.inr (hafter Nat.one_pos ?_)
    exact (backlog_of_view (view_countFailed _ j) (pool_countFailed _ j)).trans
      (backlog_abandonFetch cfg sh j.target)
  | finishPrefetch _ =>
    exact Or.inr (hafter Nat.one_pos (backlog_of_view (view_hook _ _ _) (pool_hook _ _ _)))
  | finish _ => exact Or.inr (hafter Nat.one_pos (backlog_of_view rfl rfl))
  | predictNone _ => exact Or.inr (hgo _ (by simp only [Instr.cost]; omega) le_rfl)
  | predict _ =>
    right
    simp only [Point.cost, Instr.cost, Job.restCost]
    omega
  | topNeed =>
    have hneed : (if sh.pfOutstanding < cfg.prefetchDepth then cfg.prefetchDepth - sh.pfOutstanding
        else 0) ≤ cfg.prefetchDepth := by split <;> omega
    have hle := topUpCost_le cfg hneed
    refine Or.inr (hgo _ ((topNext_cost cfg j _ 0 j.target).trans_lt ?_) le_rfl)
    rw [Nat.sub_zero, show Instr.topNeed.cost cfg j = 3 + topUpCost cfg cfg.prefetchDepth from rfl]
    omega
  | topPredict _ _ => exact Or.inr (hgo _ (by simp only [Instr.cost]; omega) le_rfl)
  | @topEnqueue _ need r c =>
    have hcost := topNext_cost cfg j need (r + 1) c
    have hback := backlog_topEnqueue cfg sh c
    have htop : (Instr.topEnqueue need r c).cost cfg j =
      prefetchCost cfg + 3 + topUpCost cfg (need - (r + 1)) := rfl
    right
    rw [cost_job, cost_job]
    omega

/-! ## Every step gets on -/

theorem afterFault_cost (cfg : Config n σ) (m : Msg) (c : Fin n) :
    (afterFault cfg m c).cost cfg ≤ faultCost cfg := by
  unfold afterFault
  split
  · exact le_rfl
  · simp only [cost_job, Job.restCost, Instr.cost, Job.markCost, Job.speculative, faultCost,
      demandCost, Bool.false_eq_true, if_false]
    omega

theorem afterAccess_cost (cfg : Config n σ) (c : Fin n) : (afterAccess cfg c).cost cfg ≤ 1 := by
  unfold afterAccess
  split
  · exact le_rfl
  · exact Nat.zero_le 1

theorem backlog_demandQueue (cfg : Config n σ) (sh : Shared n σ) (q : List (Fin n)) :
    Shared.backlog cfg { sh with demandQueue := q } + demandCost cfg * sh.demandQueue.length =
      sh.backlog cfg + demandCost cfg * q.length := by
  show 3 * sh.view.residents + _ * sh.view.kernel.uffd.length + demandCost cfg * q.length +
    prefetchCost cfg * sh.pool.pfQueue.length + demandCost cfg * sh.pool.demandQueue.length = _
  simp only [Shared.backlog]
  omega

theorem backlog_pfQueue (cfg : Config n σ) (sh : Shared n σ) (q : List (Fin n)) :
    Shared.backlog cfg { sh with pfQueue := q } + prefetchCost cfg * sh.pfQueue.length =
      sh.backlog cfg + prefetchCost cfg * q.length := by
  show 3 * sh.view.residents + _ * sh.view.kernel.uffd.length +
    demandCost cfg * sh.pool.demandQueue.length + prefetchCost cfg * q.length +
    prefetchCost cfg * sh.pool.pfQueue.length = _
  simp only [Shared.backlog]
  omega

theorem backlog_uffd (cfg : Config n σ) (sh : Shared n σ) (q : List Msg) :
    (sh.setKernel { sh.kernel with uffd := q }).backlog cfg +
        (faultCost cfg + 2) * sh.kernel.uffd.length =
      sh.backlog cfg + (faultCost cfg + 2) * q.length := by
  show 3 * sh.view.residents + (faultCost cfg + 2) * q.length +
    demandCost cfg * sh.pool.demandQueue.length + prefetchCost cfg * sh.pool.pfQueue.length +
    (faultCost cfg + 2) * sh.view.kernel.uffd.length = _
  simp only [Shared.backlog]
  omega

theorem exec_spends (hstop : sh.stop = true) (hidle : k ≠ .idle) (htouch : ∀ a, k ≠ .touch a)
    (hexec : exec cfg t io sh k = .next sh' k') : Spends cfg k k' sh sh' := by
  have hgo : k'.cost cfg < k.cost cfg → sh'.backlog cfg ≤ sh.backlog cfg → Spends cfg k k' sh sh' :=
    fun hcost hback => Or.inr (Nat.add_lt_add_of_lt_of_le hcost hback)
  cases exec_branch hexec with
  | job h => exact h.spends
  | watchdog hrun _ | wait hrun _ => cases hstop.symm.trans hrun
  | stopPool _ _ | exit _ _ | watched _ | ready _ | timeout _ | empty _ | leaveMaybe _ | joined _
  | startDemand _ | wanted _ | unwanted _ =>
    refine hgo ?_ le_rfl
    simp only [Point.cost, Job.restCost, Instr.cost, Job.markCost, Job.speculative, demandCost,
      prefetchCost, Bool.false_eq_true, if_false]
    omega
  | @stuck _ c _ | @notStuck _ c _ | @spare _ c _ =>
    have hc := c.2
    refine hgo ?_ le_rfl
    simp only [Point.cost]
    omega
  | @reclaim now c _ =>
    refine hgo ?_ ((backlog_of_view (view_stat _ _) rfl).trans (backlog_abandonFetch cfg sh c))
    simp only [Point.cost]
    omega
  | @take m c rest huffd _ =>
    have hback := backlog_uffd cfg sh rest
    rw [huffd, List.length_cons, Nat.mul_succ] at hback
    right
    show faultCost cfg + 2 + _ < 4 + _
    omega
  | present _ | coming _ =>
    refine hgo ?_ (backlog_le le_rfl rfl rfl)
    simp only [Point.cost, faultCost]
    omega
  | @begin m c _ _ => exact hgo (Nat.lt_succ_self _) (backlog_beginFetch cfg sh _ c)
  | @beginSilently m c _ _ =>
    have hcost := afterFault_cost cfg m c
    exact hgo (Nat.lt_add_right 1 (Nat.lt_succ_of_le hcost)) (backlog_beginFetch cfg sh _ c)
  | @onFault m c =>
    have hcost := afterFault_cost cfg m c
    exact hgo (Nat.lt_succ_of_le hcost) (backlog_of_view (view_hook _ _ _) (pool_hook _ _ _))
  | @enqueue m c _ =>
    have hback := backlog_demandQueue cfg sh (sh.demandQueue ++ [c])
    rw [List.length_append, List.length_singleton, Nat.mul_succ] at hback
    right
    simp only [Point.cost, faultCost]
    omega
  | broadcast => exact hgo (Nat.lt_succ_self 1) le_rfl
  | pinPrefetch =>
    exact hgo (Nat.lt_succ_self _) (backlog_of_view (view_of_phase (phase_pinChunk _ _)) rfl)
  | @startPrefetch ts c =>
    refine hgo ?_ (backlog_beginFetch cfg sh ts c)
    simp only [Point.cost, Job.restCost, Instr.cost, Job.markCost, Job.speculative, if_true]
    omega
  | @startMaybe jr c hne _ =>
    refine hgo (Nat.lt_succ_self _) ((backlog_beginFetch cfg _ sh.clock c).trans ?_)
    exact backlog_of_view (view_of_phase (phase_pinChunk _ _)) rfl
  | pinJustResident =>
    refine hgo ?_ (backlog_of_view (view_of_phase (phase_pinChunk _ _)) rfl)
    simp only [Point.cost, Job.restCost, Instr.cost, Job.markCost, Job.speculative, if_true]
    omega
  | @takeDemand c rest hqueue =>
    have hback := backlog_demandQueue cfg sh rest
    rw [hqueue, List.length_cons, Nat.mul_succ] at hback
    right
    simp only [Point.cost]
    omega
  | @takePrefetch c rest _ hqueue =>
    have hback := backlog_pfQueue cfg sh rest
    rw [hqueue, List.length_cons, Nat.mul_succ] at hback
    right
    simp only [Point.cost]
    omega
  | retire _ _ _ => exact hgo Nat.one_pos le_rfl
  | idle _ _ _ => exact Or.inl ⟨rfl, Or.inr rfl, le_rfl⟩
  | prefetchDone => exact hgo (Nat.lt_succ_self 1) le_rfl
  | aim _ _ | notify _ _ | notifySilently _ _ => exact absurd rfl hidle
  | load _ _ _ | fault _ _ _ => exact absurd rfl (htouch _)
  | @onAccess c =>
    have hcost := afterAccess_cost cfg c
    exact hgo (Nat.lt_succ_of_le hcost) (backlog_of_view (view_hook _ _ _) (pool_hook _ _ _))
  | release => exact hgo Nat.one_pos (backlog_of_view (view_of_phase (phase_release _ _)) rfl)

/-! ## What the shutdown leaves alone -/

theorem stop_hook (sh : Shared n σ) (f : Option (σ → Fin n → σ)) (c : Fin n) :
    (sh.hook f c).stop = sh.stop := by
  cases f <;> rfl

theorem JobBranch.stop (h : JobBranch cfg io sh j i sh' k') : sh'.stop = sh.stop := by
  cases h with
  | pad =>
    unfold padTail
    split <;> rfl
  | mark =>
    unfold markResident
    split
    · rfl
    · exact stop_hook _ _ _
  | abandon => cases j <;> rfl
  | finishPrefetch _ => exact stop_hook _ _ _
  | topEnqueue =>
    unfold Pager.topEnqueue
    split <;> rfl
  | _ => rfl

theorem exec_stop (hexec : exec cfg t io sh k = .next sh' k') : sh'.stop = sh.stop := by
  cases exec_branch hexec with
  | job h => exact h.stop
  | onFault | onAccess => exact stop_hook _ _ _
  | _ => rfl

/-! ## Instructions and pools -/

/-- Which job an instruction belongs to, and what needs a pool. -/
def Instr.Fitting (cfg : Config n σ) (j : Job n) : Instr n → Prop
  | unpinJustResident _ => ∃ jr c hne, j = .maybe jr c hne
  | predict => ∃ jr, j = .handle jr
  | topNeed => hasPool cfg = true
  | topPredict _ _ _ => hasPool cfg = true
  | topEnqueue _ _ _ => hasPool cfg = true
  | _ => True

def Point.Fitting (cfg : Config n σ) : Point n → Prop
  | enqueue _ _ => hasPool cfg = true
  | stopPool => hasPool cfg = true
  | join => hasPool cfg = true
  | job j i => i.Fitting cfg j
  | _ => True

theorem ensured_fitting (cfg : Config n σ) (a : ℕ) (ok : Bool) (j : Job n) :
    (ensured cfg a ok j).Fitting cfg j := by
  cases j with
  | maybe jr c hne => exact ⟨jr, c, hne, rfl⟩
  | _ =>
    cases ok <;> simp only [ensured, if_true, if_false, Bool.false_eq_true]
    all_goals first | trivial | (split <;> trivial)

theorem marked_fitting (cfg : Config n σ) (j : Job n) : (marked cfg j).Fitting cfg j := by
  unfold marked speculate
  cases j with
  | handle c =>
    simp only [Job.speculative, Bool.false_eq_true, if_false]
    split
    · split
      · exact ⟨c, rfl⟩
      · split
        · assumption
        · trivial
    · trivial
  | demand c =>
    simp only [Job.speculative, Bool.false_eq_true, if_false]
    split
    · rename_i h
      exact h.2.2
    · trivial
  | _ =>
    simp only [Job.speculative, if_true]
    split <;> trivial

theorem topNext_fitting (hpool : hasPool cfg = true) (need r : ℕ) (cursor : Fin n) :
    (topNext need r cursor).Fitting cfg j := by
  unfold topNext
  split
  · exact hpool
  · trivial

theorem JobBranch.fitting (h : JobBranch cfg io sh j i sh' k') (hi : i.Fitting cfg j) :
    k'.Fitting cfg := by
  cases h with
  | reserve _ => exact ensured_fitting cfg _ true j
  | infeasible _ | decline _ => exact ensured_fitting cfg _ false j
  | @unpinJustResident _ _ _ ok | @unpinTarget _ ok => cases ok <;> trivial
  | mark => exact marked_fitting cfg j
  | abandon | finishPrefetch _ | finish _ => cases j <;> trivial
  | topNeed | topEnqueue => exact topNext_fitting hi _ _ _
  | topPredict _ _ => exact hi
  | _ => trivial

theorem afterFault_fitting (cfg : Config n σ) (m : Msg) (c : Fin n) :
    (afterFault cfg m c).Fitting cfg := by
  unfold afterFault
  split
  · rename_i hasync
    show hasPool cfg = true
    rw [hasPool, hasync, Bool.true_or]
  · trivial

theorem exec_fitting (hk : k.Fitting cfg) (hexec : exec cfg t io sh k = .next sh' k') :
    k'.Fitting cfg := by
  cases exec_branch hexec with
  | job h => exact h.fitting hk
  | stopPool _ hpool => exact hpool
  | broadcast => exact hk
  | beginSilently _ _ | onFault => exact afterFault_fitting cfg _ _
  | notifySilently _ _ | onAccess =>
    unfold afterAccess
    split <;> trivial
  | _ => trivial

theorem Reach.fitting {ok : Action n → State n σ → Prop} {p : σ} {s : State n σ}
    (h : Reach (pager cfg p) ok s) : ∀ t, (s.pc t).point.Fitting cfg :=
  Reach.forall_point
    (fun t => init_point (P := Point.Fitting cfg) trivial trivial trivial trivial cfg p t)
    (fun _ _ => trivial) (fun hk hexec => exec_fitting hk hexec) h

/-! ## Whoever can run does -/

/-- The thread has something to do at the point, apart from the accesses of the workload. -/
def Point.Awake (sh : Shared n σ) : Point n → Prop
  | exited => False
  | retired => False
  | idle => False
  | touch _ => False
  | join => sh.workersLeft = 0
  | _ => True

/-- Who holds a mutex is awake. -/
theorem Pc.awake_of_holds {q : Pc n} {l : Lock n} (hl : l ∈ q.holds) : q.point.Awake sh := by
  cases q with
  | acq k => cases k <;> trivial
  | go k => cases k <;> trivial

theorem workerMain_moves (hstop : sh.poolStop = true) :
    ∃ sh' k', workerMain sh = .next sh' k' ∧ k' ≠ .pick := by
  unfold workerMain
  split
  · exact ⟨_, _, rfl, by rintro ⟨⟩⟩
  · exact ⟨_, _, rfl, by rintro ⟨⟩⟩
  · rw [if_pos hstop]
    exact ⟨_, _, rfl, by rintro ⟨⟩⟩

theorem execJob_ne_blocked (hi : i.Fitting cfg j) : execJob cfg io sh j i ≠ .blocked := by
  intro hexec
  cases i with
  | unpinJustResident ok =>
    rcases hi with ⟨jr, c, hne, rfl⟩
    cases hexec
  | predict =>
    rcases hi with ⟨jr, rfl⟩
    simp only [execJob, maybePrefetch] at hexec
    repeat' split at hexec
    all_goals cases hexec
  | fit a =>
    simp only [execJob, budgetLoop] at hexec
    split at hexec <;> cases hexec
  | topPredict need r cursor =>
    simp only [execJob, topPredict] at hexec
    repeat' split at hexec
    all_goals cases hexec
  | _ =>
    simp only [execJob] at hexec
    repeat' split at hexec
    all_goals cases hexec

theorem exec_ne_blocked (hk : k.Fitting cfg) (hawake : k.Awake sh) :
    exec cfg t io sh k ≠ .blocked := by
  intro hexec
  cases k with
  | job j i => exact execJob_ne_blocked hk hexec
  | exited | retired | idle | touch _ => exact hawake
  | join =>
    simp only [exec] at hexec
    rw [if_pos (show sh.workersLeft = 0 from hawake)] at hexec
    cases hexec
  | switch m c =>
    simp only [exec, handleFault] at hexec
    split at hexec <;> cases hexec
  | pick =>
    simp only [exec, workerMain] at hexec
    repeat' split at hexec
    all_goals cases hexec
  | _ =>
    simp only [exec] at hexec
    repeat' split at hexec
    all_goals cases hexec

/-- The end of the file does not depend on how much is read. -/
theorem pread_none {pos want : ℕ} (hread : pread cfg io pos want = none) (io' : Input n) :
    pread cfg io' pos want = none := by
  unfold pread at hread ⊢
  split at hread
  · cases hread
  · rename_i hend
    exact if_neg hend

/-- `abort` does not depend on what `pread` and `poll` return. -/
theorem exec_abort (hok : reconcileOk cfg sh.region io.shmem) (hawake : k.Awake sh)
    (hexec : exec cfg t io sh k = .abort) (io' : Input n) : exec cfg t io' sh k = .abort := by
  cases k with
  | idle => exact hawake.elim
  | job j i =>
    cases i with
    | reconcile a =>
      simp only [exec, execJob, if_pos hok] at hexec
      cases hexec
    | read off =>
      simp only [exec, execJob] at hexec ⊢
      split at hexec
      · rename_i hlt
        split at hexec
        · cases hexec
        · rename_i hend
          rw [if_pos hlt, pread_none hend io']
      · cases hexec
    | tail pos =>
      simp only [exec, execJob] at hexec ⊢
      split at hexec
      · rename_i hlt
        split at hexec
        · cases hexec
        · rename_i hend
          rw [if_pos hlt, pread_none hend io']
      · cases hexec
    | _ => exact hexec
  | _ => first | exact hexec | cases hexec

theorem pread_pos {pos want : ℕ} (hwant : 0 < want) (hread : pread cfg io pos want = some 0) :
    io.count = 0 := by
  unfold pread at hread
  split at hread
  · have hmin := Option.some.inj hread
    omega
  · cases hread

theorem topNext_eq (need r : ℕ) (cursor : Fin n) :
    topNext need r cursor = .topPredict need r cursor ∨ topNext need r cursor = .unpin := by
  unfold topNext
  split
  · exact Or.inl rfl
  · exact Or.inr rfl

/-- A job stays where it is when `pread` is interrupted. -/
theorem JobBranch.stays (h : JobBranch cfg io sh j i sh' k') (heq : k' = .job j i) :
    io.count = 0 := by
  cases h with
  | @reserve _ a _ =>
    have hplain := (ensured_plain cfg a true j).1
    rw [(Point.job.inj heq).2] at hplain
    cases hplain
  | @infeasible _ a _ | @decline _ a _ =>
    have hplain := (ensured_plain cfg a false j).1
    rw [(Point.job.inj heq).2] at hplain
    cases hplain
  | @unpinJustResident _ _ _ ok | @unpinTarget _ ok => cases ok <;> cases heq
  | @read _ off m hlt hread =>
    have hm : m = 0 := by simpa using heq
    rw [hm] at hread
    exact pread_pos (by omega) hread
  | @tail _ pos m hlt hread =>
    have hm : m = 0 := by simpa using heq
    rw [hm] at hread
    exact pread_pos (by omega) hread
  | mark =>
    have hplain := (marked_plain cfg j).2
    rw [(Point.job.inj heq).2] at hplain
    cases hplain
  | abandon | finishPrefetch _ | finish _ => cases j <;> cases heq
  | topNeed | topEnqueue =>
    rcases topNext_eq _ _ _ with hnext | hnext <;> rw [hnext] at heq <;> cases heq
  | _ => cases heq

/-- A thread that executes without an interrupted `pread` stays where it is only when the
queues are empty. -/
theorem exec_stays (hawake : k.Awake sh) (hcount : io.count ≠ 0)
    (hexec : exec cfg t io sh k = .next sh' k') (heq : k' = k) :
    k = .pick ∧ sh.poolStop = false := by
  cases exec_branch hexec with
  | job h => exact absurd (h.stays heq) hcount
  | idle _ _ hstop => exact ⟨rfl, hstop⟩
  | aim _ _ | notify _ _ | notifySilently _ _ | load _ _ _ | fault _ _ _ => exact hawake.elim
  | beginSilently _ _ | onFault =>
    unfold afterFault at heq
    split at heq <;> cases heq
  | onAccess =>
    unfold afterAccess at heq
    split at heq <;> cases heq
  | notStuck _ => exact absurd heq (by simp)
  | _ => cases heq

end

/-! ## The machine -/

section

variable {cfg : Config n σ} {s s' : State n σ} {a : Action n} {t : Tid} {k : Point n} {p : σ}
  {C : Finset Tid} {sh : Shared n σ}

/-- No workload thread begins an access or touches memory. -/
def NoAccess (a : Action n) (s : State n σ) : Prop :=
  ∀ i io, a = .exec (.client i) io →
    (s.pc (.client i)).point ≠ .idle ∧ ∀ b, (s.pc (.client i)).point ≠ .touch b

/-- A thread comes to another point, or past a mutex; a worker without a job goes round. -/
def GetsOn (a : Action n) (s s' : State n σ) : Prop :=
  (∃ t, (s'.pc t).point ≠ (s.pc t).point) ∨ ∃ t, a = .acquire t ∧ (s.pc t).point ≠ .pick

/-- A thread that waits has its mutex still to take. -/
def Pc.cost (cfg : Config n σ) : Pc n → ℕ
  | acq k => 2 * k.cost cfg + if k = .pick then 0 else 1
  | go k => 2 * k.cost cfg

/-- The steps that the threads `C` have before them. -/
def State.toDo (cfg : Config n σ) (C : Finset Tid) (s : State n σ) : ℕ :=
  ∑ t ∈ C, (s.pc t).cost cfg + 2 * s.sh.backlog cfg

/-- `*stop` is set, and outside of `C` nobody does anything. -/
structure Stopping (cfg : Config n σ) (p : σ) (C : Finset Tid) (s : State n σ) : Prop where
  reach : Reachable (pager cfg p) s
  stop : s.sh.stop = true
  rest : ∀ t ∉ C, (s.pc t).point = .retired ∨ (s.pc t).point = .idle

theorem Pc.cost_acq (cfg : Config n σ) (k : Point n) :
    (acq k).cost cfg = 2 * k.cost cfg + if k = .pick then 0 else 1 := rfl

theorem Pc.cost_go (cfg : Config n σ) (k : Point n) : (go k).cost cfg = 2 * k.cost cfg := rfl

theorem Pc.cost_enter_le (cfg : Config n σ) (k : Point n) :
    (enter k).cost cfg ≤ 2 * k.cost cfg + 1 := by
  unfold enter
  split
  · show 2 * k.cost cfg + (if k = .pick then 0 else 1) ≤ _
    split <;> omega
  · exact Nat.le_succ _

theorem Pc.cost_enter (h : k.needs = none ∨ k = .pick) : (enter k).cost cfg = 2 * k.cost cfg := by
  rcases h with hneeds | rfl
  · rw [enter, hneeds]
    rfl
  · rfl

/-- One thread moves. -/
theorem sum_cost_update (cfg : Config n σ) (ht : t ∈ C) (q : Pc n) :
    ∑ u ∈ C, (update s.pc t q u).cost cfg + (s.pc t).cost cfg =
      ∑ u ∈ C, (s.pc u).cost cfg + q.cost cfg := by
  have hrest : ∑ u ∈ C.erase t, (update s.pc t q u).cost cfg =
      ∑ u ∈ C.erase t, (s.pc u).cost cfg :=
    Finset.sum_congr rfl fun u hu => by rw [update_of_ne (Finset.ne_of_mem_erase hu)]
  have hupdate := Finset.add_sum_erase C (fun u => (update s.pc t q u).cost cfg) ht
  have hsum := Finset.add_sum_erase C (fun u => (s.pc u).cost cfg) ht
  simp only [update_self] at hupdate
  omega

theorem Stopping.mem (h : Stopping cfg p C s) (hretired : (s.pc t).point ≠ .retired)
    (hidle : (s.pc t).point ≠ .idle) : t ∈ C :=
  by_contra fun ht => (h.rest t ht).elim hretired hidle

/-- Who executes is not a workload thread at an access. -/
theorem Stopping.not_access (h : Stopping cfg p C s) {io : Input n} (hok : NoAccess (.exec t io) s)
    (hpc : s.pc t = .go k) : k ≠ .idle ∧ ∀ b, k ≠ .touch b := by
  have hkind := (Reach.sound h.reach).kind t
  rw [hpc] at hkind
  cases t with
  | client i =>
    have hclient := hok i io rfl
    rwa [hpc] at hclient
  | _ =>
    constructor
    · rintro rfl
      cases hkind
    · rintro b rfl
      cases hkind

theorem Stopping.mem_exec (h : Stopping cfg p C s) {io : Input n} (hok : NoAccess (.exec t io) s)
    (hpc : s.pc t = .go k) {k' : Point n} (hexec : exec cfg t io s.sh k = .next sh k') : t ∈ C := by
  have hidle := (h.not_access hok hpc).1
  apply h.mem
  · rw [hpc]
    rintro rfl
    cases hexec
  · rwa [hpc]

theorem Stopping.keep (h : Stopping cfg p C s) (hok : NoAccess a s)
    (hstep : step cfg a s = some s') : Stopping cfg p C s' := by
  refine ⟨Reach.step h.reach trivial hstep, ?_, ?_⟩
  · cases moves_of_step hstep with
    | exec _ hexec => exact (exec_stop hexec).trans h.stop
    | requestStop => rfl
    | _ => exact h.stop
  · cases moves_of_step hstep with
    | @acquire _ t k l hpc _ _ =>
      intro u hu
      show (update s.pc t (.go k) u).point = _ ∨ (update s.pc t (.go k) u).point = _
      rw [acquire_point hpc]
      exact h.rest u hu
    | giveUp hpc =>
      intro u hu
      have hmem : Tid.handler ∈ C := h.mem (by rw [hpc]; rintro ⟨⟩) (by rw [hpc]; rintro ⟨⟩)
      have hne : u ≠ .handler := fun he => hu (he ▸ hmem)
      rw [point_arrive_of_ne hne]
      exact h.rest u hu
    | exec hpc hexec =>
      intro u hu
      have hmem := h.mem_exec hok hpc hexec
      have hne : u ≠ _ := fun he => hu (he ▸ hmem)
      rw [point_arrive_of_ne hne]
      exact h.rest u hu
    | _ => exact h.rest

/-- No step adds to what is left to do, and one that gets a thread on takes something away. -/
theorem Stopping.spends (h : Stopping cfg p C s) (hok : NoAccess a s)
    (hstep : step cfg a s = some s') :
    s'.toDo cfg C ≤ s.toDo cfg C ∧ (GetsOn a s s' → s'.toDo cfg C < s.toDo cfg C) := by
  have hsame : (∀ t, (s'.pc t).point = (s.pc t).point) → (∀ t, a ≠ .acquire t) →
      ¬ GetsOn a s s' := by
    rintro hpoint hact (⟨t, ht⟩ | ⟨t, ht, -⟩)
    · exact ht (hpoint t)
    · exact hact t ht
  cases moves_of_step hstep with
  | @acquire _ t k l hpc hneeds _ =>
    have hmem : t ∈ C := by
      apply h.mem <;> rw [hpc] <;> rintro hk <;> rw [show k = _ from hk] at hneeds <;> cases hneeds
    have hsum := sum_cost_update cfg (s := s) hmem (.go k)
    rw [hpc, Pc.cost_acq, Pc.cost_go] at hsum
    simp only [State.toDo]
    constructor
    · omega
    · rintro (⟨u, hu⟩ | ⟨u, hact, hu⟩)
      · exact absurd (acquire_point hpc u) hu
      · obtain rfl : t = u := Action.acquire.inj hact
        rw [hpc] at hu
        rw [if_neg (show ¬ k = .pick from hu)] at hsum
        omega
  | @giveUp _ now c hpc =>
    have hmem : Tid.handler ∈ C := h.mem (by rw [hpc]; rintro ⟨⟩) (by rw [hpc]; rintro ⟨⟩)
    have hsum := sum_cost_update cfg (s := s) hmem (enter (.watch now (c.1 + 1)))
    have hlt : s.toDo cfg C > (s.arrive .handler s.sh (.watch now (c.1 + 1))).toDo cfg C := by
      rw [hpc, Pc.cost_acq, Pc.cost_enter (Or.inl rfl)] at hsum
      have hbefore : (Point.tryReclaim now c).cost cfg = 7 + 2 * (n - (c.1 + 1)) := rfl
      have hafter : (Point.watch now (c.1 + 1) : Point n).cost cfg = 6 + 2 * (n - (c.1 + 1)) := rfl
      simp only [State.toDo, State.arrive]
      omega
    exact ⟨hlt.le, fun _ => hlt⟩
  | @exec _ t io k sh k' hpc hexec =>
    have hmem := h.mem_exec hok hpc hexec
    rcases h.not_access hok hpc with ⟨hidle, htouch⟩
    have hsum := sum_cost_update cfg (s := s) hmem (enter k')
    rw [hpc, Pc.cost_go] at hsum
    rcases exec_spends h.stop hidle htouch hexec with ⟨rfl, hstay, hback⟩ | hlt
    · rw [Pc.cost_enter hstay] at hsum
      refine ⟨?_, fun hgets => absurd hgets (hsame (fun u => ?_) (by rintro _ ⟨⟩))⟩
      · simp only [State.toDo, State.arrive]
        omega
      · by_cases hu : u = t
        · rw [hu, point_arrive_self, hpc]
          rfl
        · exact point_arrive_of_ne hu
    · have hle := Pc.cost_enter_le cfg k'
      have hless : s.toDo cfg C > (s.arrive t sh k').toDo cfg C := by
        simp only [State.toDo, State.arrive]
        omega
      exact ⟨hless.le, fun _ => hless⟩
  | tick _ => exact ⟨le_rfl, fun hgets => absurd hgets (hsame (fun _ => rfl) (by rintro _ ⟨⟩))⟩
  | @drop _ m _ =>
    refine ⟨?_, fun hgets => absurd hgets (hsame (fun _ => rfl) (by rintro _ ⟨⟩))⟩
    have hback := backlog_uffd cfg s.sh (s.sh.kernel.uffd.erase m)
    have hle := Nat.mul_le_mul_left (faultCost cfg + 2)
      (List.length_erase_le (a := m) (l := s.sh.kernel.uffd))
    have hless : Shared.backlog cfg (s.sh.setKernel
        { s.sh.kernel with uffd := s.sh.kernel.uffd.erase m }) ≤ s.sh.backlog cfg := by omega
    exact Nat.add_le_add_left (Nat.mul_le_mul_left 2 hless) _
  | requestStop =>
    exact ⟨le_rfl, fun hgets => absurd hgets (hsame (fun _ => rfl) (by rintro _ ⟨⟩))⟩

theorem Stopping.ranking (cfg : Config n σ) (p : σ) (C : Finset Tid) :
    Ranking (pager cfg p) NoAccess GetsOn (Stopping cfg p C) (State.toDo cfg C) where
  keep _ _ _ h hok hstep := h.keep hok hstep
  rest _ _ _ h hok hstep := (h.spends hok hstep).1
  work _ _ _ h hok hstep := (h.spends hok hstep).2

/-- Only finitely many threads have ever done anything. -/
theorem Reach.active (h : Reachable (pager cfg p) s) :
    ∃ C : Finset Tid, ∀ t ∉ C, (s.pc t).point = .retired ∨ (s.pc t).point = .idle := by
  refine h.invariant (I := fun s => ∃ C : Finset Tid, ∀ t ∉ C, (s.pc t).point = .retired ∨
    (s.pc t).point = .idle) ?_ fun a s s' _ _ ⟨C, hC⟩ hstep => ?_
  · refine ⟨insert .handler ((Finset.range (nWorkers cfg)).image .worker), fun t ht => ?_⟩
    rw [show ((pager cfg p).init.pc t).point = startPoint cfg t from enter_point _]
    rw [Finset.mem_insert, Finset.mem_image, not_or] at ht
    cases t with
    | handler => exact absurd rfl ht.1
    | worker i =>
      refine Or.inl (if_neg fun hi => ht.2 ⟨i, Finset.mem_range.2 hi.2, rfl⟩)
    | client i => exact Or.inr rfl
  · obtain ⟨t, -, hother, -⟩ := pool_step hstep
    refine ⟨insert t C, fun u hu => ?_⟩
    rw [Finset.mem_insert, not_or] at hu
    rw [hother u hu.1]
    exact hC u hu.2

end

/-! ## When everybody has returned -/

section

variable {cfg : Config n σ} {s s' : State n σ} {a : Action n} {t : Tid} {k : Point n} {p : σ}
  {C : Finset Tid}

/-- Without a pool nothing is enqueued. -/
theorem Reach.unqueued (hpool : hasPool cfg = false) (h : Reachable (pager cfg p) s) :
    ∀ q, s.sh.pool.queue q = [] := by
  refine h.invariant (I := fun s => ∀ q, s.sh.pool.queue q = []) (fun q => by cases q <;> rfl)
    fun a s s' hreach _ hold hstep => ?_
  rcases pool_step hstep with ⟨t, hdeed, -, -⟩
  have hfit := Reach.fitting hreach t
  have hdemand : s.sh.pool.demandQueue = [] := hold .demand
  have hprefetch : s.sh.pool.pfQueue = [] := hold .prefetch
  generalize (s.pc t).point = k at hdeed hfit
  generalize (s'.pc t).point = k' at hdeed
  generalize s.sh.pool = V at hdeed hold hdemand hprefetch
  generalize s'.sh.pool = V' at hdeed
  cases hdeed with
  | enqueueDemand _ => cases hpool.symm.trans hfit
  | enqueuePrefetch _ _ => cases hpool.symm.trans hfit
  | takeDemand hqueue => cases hqueue.symm.trans hdemand
  | takePrefetch _ hqueue => cases hqueue.symm.trans hprefetch
  | _ =>
    intro q
    cases q with
    | demand => exact hdemand
    | prefetch => exact hprefetch

/-- The pager's thread and the workers have returned, and nothing is left over. -/
structure Ended (cfg : Config n σ) (s : State n σ) : Prop where
  exited : (s.pc .handler).point = .exited
  retired : ∀ i, (s.pc (.worker i)).point = .retired
  empty : ∀ q, s.sh.pool.queue q = []
  /-- no fetch has been left half done -/
  settled : ∀ c, (s.sh.region.chunks c).state ≠ .fetching
  reserved : s.sh.region.reservedBytes = 0

theorem Point.not_owns (hk : k.kind = .client) (c : Fin n) : ¬ k.Owns c := by
  cases k with
  | job j i => cases j <;> cases hk
  | idle | touch _ | onAccess _ | release _ => exact List.not_mem_nil
  | _ => cases hk

theorem Reach.ended (h : Reachable (pager cfg p) s) (hexit : (s.pc .handler).point = .exited) :
    Ended cfg s := by
  have hs := Reach.sound h
  have hempty : ∀ q, s.sh.pool.queue q = [] := by
    cases hpool : hasPool cfg with
    | true => exact (Reach.exited hpool h hexit).1
    | false => exact Reach.unqueued hpool h
  have hretired : ∀ i, (s.pc (.worker i)).point = .retired := by
    intro i
    cases hpool : hasPool cfg with
    | true =>
      -- the workers that are left are counted, and there is none
      have hd := Reach.drains hpool h
      have hleft := hd.left
      rw [hd.joined (by show Point.stage _ = _; rw [hexit]; rfl), eq_comm, Finset.card_eq_zero,
        Finset.filter_eq_empty_iff] at hleft
      rcases Reach.hired h i with hi | hret
      · exact not_not.1 (hleft (Finset.mem_range.2 hi))
      · exact hret
    | false => rw [Reach.retired hpool h i]; rfl
  have hsettled : ∀ c, (s.sh.region.chunks c).state ≠ .fetching := by
    intro c hfetch
    rcases (Reach.served h).charged c hfetch with hmem | ⟨t, howns⟩
    · rw [show s.sh.demandQueue = [] from hempty .demand] at hmem
      cases hmem
    · cases t with
      | handler =>
        rw [hexit] at howns
        exact List.not_mem_nil howns
      | worker i =>
        rw [hretired i] at howns
        exact List.not_mem_nil howns
      | client i => exact Point.not_owns (hs.kind (.client i)) c howns
  refine ⟨hexit, hretired, hempty, hsettled, ?_⟩
  refine hs.life.reserved.trans (Ledger.total_eq_zero fun c hres => ?_)
  exact hsettled c (hs.fetching (Or.inl hres))

/-! ## Until then somebody gets on -/

/-- Whatever the kernel returns, the thread's next step is `abort`. -/
def State.Aborts (cfg : Config n σ) (s : State n σ) : Prop :=
  ∃ t k, s.pc t = .go k ∧ ∀ io, exec cfg t io s.sh k = .abort

theorem Point.rank_le (k : Point n) : k.rank ≤ 4 := by
  unfold Point.rank
  split
  · omega
  · omega
  · split <;> omega

/-- Somebody whom the thread waits for, or the thread itself, is not blocked. -/
theorem Sound.unblocked (h : Sound cfg s) (t : Tid) :
    ∃ t', Relation.ReflTransGen (WaitsFor Pc.waits s.owner s.pc) t t' ∧
      ∀ l, (s.pc t').waits = some l → s.owner l = none :=
  exists_unblocked Pc.rank (fun q => q.point.rank_le) (fun _ _ => h.rank_lt) t

theorem Point.awake_of_worker (hk : k.kind = .worker) (hne : k ≠ .retired) (sh : Shared n σ) :
    k.Awake sh := by
  cases k with
  | retired => exact absurd rfl hne
  | exited | idle | touch _ | join => cases hk
  | _ => trivial

/-- The pager's thread has something to do, or it waits for a worker that has. -/
theorem Stopping.start (h : Stopping cfg p C s) (hrun : (s.pc .handler).point ≠ .exited) :
    ∃ t, (s.pc t).point.Awake s.sh ∧ ((s.pc t).point.kind = .worker → s.sh.poolStop = true) := by
  have hs := Reach.sound h.reach
  by_cases hjoin : (s.pc .handler).point = .join ∧ s.sh.workersLeft ≠ 0
  · have hfit := Reach.fitting h.reach .handler
    rw [hjoin.1] at hfit
    have hd := Reach.drains hfit h.reach
    have hleft : ((Finset.range (nWorkers cfg)).filter fun i =>
        (s.pc (.worker i)).point ≠ .retired).card ≠ 0 := fun hzero => hjoin.2 (hd.left.trans hzero)
    rcases Finset.card_ne_zero.1 hleft with ⟨i, hi⟩
    refine ⟨.worker i, Point.awake_of_worker (hs.kind _) (Finset.mem_filter.1 hi).2 _, fun _ => ?_⟩
    refine hd.stop.2 ?_
    show Point.stage _ ≠ _
    rw [hjoin.1]
    rintro ⟨⟩
  · refine ⟨.handler, ?_, fun hk => ?_⟩
    · have hkind := hs.kind .handler
      generalize (s.pc .handler).point = k at hjoin hrun hkind
      cases k with
      | exited => exact absurd rfl hrun
      | retired | idle | touch _ => cases hkind
      | join => exact not_not.1 fun hne => hjoin ⟨rfl, hne⟩
      | _ => trivial
    · cases (hs.kind .handler).symm.trans hk

theorem step_acquire (cfg : Config n σ) (hpc : s.pc t = .acq k) {l : Lock n}
    (hneeds : k.needs = some l) (hfree : s.owner l = none) :
    step cfg (.acquire t) s = some { s with
      owner := moveOwner Pc.holds s.owner t (.go k), pc := update s.pc t (.go k) } := by
  simp only [step, hpc, hneeds, hfree, if_true]

theorem step_exec {io : Input n} {sh : Shared n σ} {k' : Point n} (hpc : s.pc t = .go k)
    (hexec : exec cfg t io s.sh k = .next sh k') :
    step cfg (.exec t io) s = some (s.arrive t sh k') := by
  simp only [step, hpc, hexec]

theorem noAccess_acquire (t : Tid) (s : State n σ) : NoAccess (.acquire t) s := by
  rintro i io ⟨⟩

theorem noAccess_exec {sh : Shared n σ} {io : Input n} (hpc : s.pc t = .go k)
    (hawake : k.Awake sh) : NoAccess (.exec t io) s := by
  intro i io' hact
  rcases Action.exec.inj hact with ⟨rfl, -⟩
  rw [hpc]
  constructor
  · rintro (rfl : k = .idle)
    exact hawake
  · rintro b (rfl : k = .touch b)
    exact hawake

/-- A thread that is not blocked executes, unless it aborts. -/
theorem Stopping.executes (h : Stopping cfg p C s) (hpc : s.pc t = .go k)
    (hawake : k.Awake s.sh) : s.Aborts cfg ∨ ∃ io s', NoAccess (.exec t io) s ∧
      step cfg (.exec t io) s = some s' ∧
      ((s'.pc t).point = k → k = .pick ∧ s.sh.poolStop = false ∧ s' = s.arrive t s.sh .pick) := by
  have hs := Reach.sound h.reach
  have hfit := Reach.fitting h.reach t
  rw [hpc] at hfit
  let io : Input n := { shmem := s.sh.region.residentBytes, count := 1 }
  have hok : reconcileOk cfg s.sh.region io.shmem :=
    reconcileOk_of_mem (le_refl _) (Nat.le_add_right _ _) hs.counters_lt
  cases hexec : exec cfg t io s.sh k with
  | abort => exact Or.inl ⟨t, k, hpc, exec_abort hok hawake hexec⟩
  | blocked => exact absurd hexec (exec_ne_blocked hfit hawake)
  | next sh' k' =>
    refine Or.inr ⟨io, s.arrive t sh' k', noAccess_exec hpc hawake, step_exec hpc hexec,
      fun hstay => ?_⟩
    rw [point_arrive_self] at hstay
    rcases exec_stays hawake Nat.one_ne_zero hexec hstay with ⟨hk, hstop⟩
    refine ⟨hk, hstop, ?_⟩
    subst hstay hk
    cases exec_branch hexec
    rfl

/-- A worker takes the mutex of the pool, and then a job or its leave. -/
theorem picks (cfg : Config n σ) (p : σ) (hpc : s.pc t = .acq .pick)
    (hfree : s.owner .pool = none) (hstop : s.sh.poolStop = true) :
    ∃ k s', Work (pager cfg p) NoAccess GetsOn s (k + 1) s' := by
  rcases workerMain_moves hstop with ⟨sh', k', hexec, hne⟩
  obtain ⟨l, -, hrun⟩ : ∃ l, 0 ≤ l ∧ Work (pager cfg p) NoAccess GetsOn s l _ :=
    Work.refl.step (noAccess_acquire t s) (step_acquire cfg hpc rfl hfree)
  have hgo : update s.pc t (.go .pick) t = .go .pick := update_self _ _ _
  have hawake : (Point.pick : Point n).Awake s.sh := trivial
  have hexec' : exec cfg t {} s.sh .pick = .next sh' k' := hexec
  refine ⟨l, _, hrun.work (noAccess_exec hgo hawake) (step_exec hgo hexec') ?_⟩
  refine Or.inl ⟨t, ?_⟩
  rw [point_arrive_self]
  show k' ≠ (update s.pc t (.go .pick) t).point
  rw [hgo]
  exact hne

/-- A worker without a job gives the mutex of the pool back to somebody who waits for it. -/
theorem idles (cfg : Config n σ) (p : σ) {u : Tid} (hok : NoAccess a s)
    (hstep : step cfg a s = some (s.arrive t s.sh .pick)) (howner : s.owner .pool = some t)
    (hpc : s.pc u = .acq k) (hneeds : k.needs = some .pool) (hne : u ≠ t)
    (hk : k ≠ .pick) :
    ∃ k s', Work (pager cfg p) NoAccess GetsOn s (k + 1) s' := by
  obtain ⟨l, -, hrun⟩ : ∃ l, 0 ≤ l ∧ Work (pager cfg p) NoAccess GetsOn s l _ :=
    Work.refl.step hok hstep
  have hpc' : (s.arrive t s.sh .pick).pc u = .acq k := (update_of_ne hne _ _).trans hpc
  have hfree : (s.arrive t s.sh .pick).owner .pool = none := by
    show moveOwner Pc.holds s.owner t (enter .pick) .pool = none
    rw [moveOwner, enter_holds, if_neg (by rintro ⟨⟩), if_pos howner]
  refine ⟨l, _, hrun.work (noAccess_acquire u _) (step_acquire cfg hpc' hneeds hfree) ?_⟩
  refine Or.inr ⟨u, rfl, ?_⟩
  rw [hpc']
  exact hk

theorem Stopping.progress (h : Stopping cfg p C s) : (Ended cfg s ∨ s.Aborts cfg) ∨
    ∃ k s', Work (pager cfg p) NoAccess GetsOn s (k + 1) s' := by
  by_cases hexit : (s.pc .handler).point = .exited
  · exact Or.inl (Or.inl (Reach.ended h.reach hexit))
  have hs := Reach.sound h.reach
  rcases h.start hexit with ⟨t₀, hawake, hworker⟩
  rcases hs.unblocked t₀ with ⟨t, hpath, hfree⟩
  -- whoever is waited for holds a mutex
  have hheld : ∀ u, Relation.ReflTransGen (WaitsFor Pc.waits s.owner s.pc) t₀ u → u = t₀ ∨
      ∃ l, l ∈ (s.pc u).holds := by
    intro u hu
    rcases hu.cases_tail with heq | ⟨v, -, l, -, howner⟩
    · exact Or.inl heq
    · exact Or.inr ⟨l, (hs.owned u l).1 howner⟩
  -- so a worker that waits for a job is where the path starts, and the pool is being stopped
  have hpick : ∀ u, Relation.ReflTransGen (WaitsFor Pc.waits s.owner s.pc) t₀ u →
      s.pc u = .acq .pick → s.sh.poolStop = true := by
    intro u hu hpc
    rcases hheld u hu with rfl | ⟨l, hl⟩
    · exact hworker (by rw [hpc]; rfl)
    · rw [hpc] at hl
      cases hl
  have hawake' : (s.pc t).point.Awake s.sh := by
    rcases hheld t hpath with rfl | ⟨l, hl⟩
    · exact hawake
    · exact Pc.awake_of_holds hl
  cases hpc : s.pc t with
  | acq k =>
    rcases Option.isSome_iff_exists.1 (hs.waiting t k hpc) with ⟨l, hneeds⟩
    have hl : s.owner l = none := hfree l (by rw [hpc]; exact hneeds)
    right
    by_cases hk : k = .pick
    · subst hk
      obtain rfl : .pool = l := Option.some.inj hneeds
      exact picks cfg p hpc hl (hpick t hpath hpc)
    · refine ⟨0, _, Work.refl.work (noAccess_acquire t s) (step_acquire cfg hpc hneeds hl) ?_⟩
      refine Or.inr ⟨t, rfl, ?_⟩
      rw [hpc]
      exact hk
  | go k =>
    rw [hpc] at hawake'
    rcases h.executes hpc hawake' with habort | ⟨io, s₁, hok, hstep, hstay⟩
    · exact Or.inl (Or.inr habort)
    right
    by_cases hmoves : (s₁.pc t).point = k
    · -- a worker without a job, and somebody waits for the mutex of the pool
      rcases hstay hmoves with ⟨rfl, hstop, rfl⟩
      rcases hpath.cases_tail with heq | ⟨u, hu, l, hwaits, howner⟩
      · rw [hworker (by rw [← heq, hpc]; rfl)] at hstop
        cases hstop
      · obtain ⟨k', hpc', -⟩ := Pc.waits_isSome (p := s.pc u) (by rw [hwaits]; rfl)
        have hmem := (hs.owned t l).1 howner
        rw [hpc] at hmem
        obtain rfl : l = .pool := List.mem_singleton.1 hmem
        rw [hpc'] at hwaits
        refine idles cfg p hok hstep howner hpc' hwaits ?_ ?_
        · rintro rfl
          cases hpc.symm.trans hpc'
        · rintro rfl
          rw [hpick u hu hpc'] at hstop
          cases hstop
    · refine ⟨0, s₁, Work.refl.work hok hstep (Or.inl ⟨t, ?_⟩)⟩
      rwa [hpc]

/-- Once `*stop` is set and the workload no longer faults, a run of any order of steps gets on
finitely often, and wherever it has got it can still be continued until the pager's thread and
all workers have returned with nothing left over, or a thread aborts. -/
theorem shutdown_ends (cfg : Config n σ) (p : σ) (h : Reachable (pager cfg p) s)
    (hstop : s.sh.stop = true) :
    (∃ bound, ∀ k s', Work (pager cfg p) NoAccess GetsOn s k s' → k ≤ bound) ∧
      ∀ k s', Work (pager cfg p) NoAccess GetsOn s k s' → ∃ l s'',
        Work (pager cfg p) NoAccess GetsOn s' l s'' ∧ (Ended cfg s'' ∨ s''.Aborts cfg) := by
  rcases Reach.active h with ⟨C, hrest⟩
  have hstopping : Stopping cfg p C s := ⟨h, hstop, hrest⟩
  have hrank := Stopping.ranking cfg p C
  constructor
  · refine ⟨s.toDo cfg C, fun k s' hrun => ?_⟩
    exact (Nat.le_add_right _ _).trans (hrank.bounded hstopping hrun)
  · intro k s' hrun
    have hreach : Stopping cfg p C s' := hrun.invariant hrank.keep hstopping
    exact hrank.reaches (fun s hs => hs.progress) hreach

end

/-- `*stop` is set when the demand fetch of chunk 0 is queued. -/
def stopZero : List (Action 2) := dispatchZero ++ [.requestStop]

theorem stopZero_runs :
    (run (pager twoPages ()) stopZero (pager twoPages ()).init).isSome = true := by
  decide +kernel

theorem shutdown_ends_twoPages : ∃ s : State 2 Unit, s.sh.demandQueue = [0] ∧
    (∃ bound, ∀ k s', Work (pager twoPages ()) NoAccess GetsOn s k s' → k ≤ bound) ∧
    ∃ l s', Work (pager twoPages ()) NoAccess GetsOn s l s' ∧
      (Ended twoPages s' ∨ s'.Aborts twoPages) := by
  have hends := shutdown_ends twoPages () (reachable_get stopZero stopZero_runs) (by decide +kernel)
  exact ⟨_, by decide +kernel, hends.1, hends.2 0 _ Work.refl⟩

end Residctl.Pager
