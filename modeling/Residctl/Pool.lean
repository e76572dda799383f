import Residctl.Sound

/-!
# The fetch pool

What a step does to the two queues of `prefetch_pool.c` and to the counters beside them
(`PoolDeed`), whatever thread takes it and whatever happens to the chunks. From this:
`pf_tracked` marks the chunks that are queued for a prefetch or that a worker is
prefetching, and `pf_outstanding` counts them (`Tracks`).
-/

namespace Residctl.Pager

open Mutex Function Runs

variable {n : ℕ} {σ : Type} {cfg : Config n σ} {s s' : State n σ} {a : Action n} {t : Tid}
  {io : Input n} {sh sh' : Shared n σ} {k k' : Point n} {c : Fin n}

/-! ## The pool's part of the state -/

/-- The queue that a job goes through. -/
inductive JobKind
  | demand
  | prefetch
deriving DecidableEq, Repr

structure Pool (n : ℕ) where
  demandQueue : List (Fin n)
  pfQueue : List (Fin n)
  pfTracked : Fin n → Bool
  pfOutstanding : ℕ
  stop : Bool
  workersLeft : ℕ

def Shared.pool (sh : Shared n σ) : Pool n where
  demandQueue := sh.demandQueue
  pfQueue := sh.pfQueue
  pfTracked := sh.pfTracked
  pfOutstanding := sh.pfOutstanding
  stop := sh.poolStop
  workersLeft := sh.workersLeft

def Pool.queue (V : Pool n) : JobKind → List (Fin n)
  | .demand => V.demandQueue
  | .prefetch => V.pfQueue

@[simp] theorem pool_setRegion (sh : Shared n σ) (r : Region n σ) : (sh.setRegion r).pool = sh.pool := rfl

@[simp] theorem pool_setKernel (sh : Shared n σ) (k : Kernel) : (sh.setKernel k).pool = sh.pool := rfl

@[simp] theorem pool_stat (sh : Shared n σ) (f : Stats → Stats) : (sh.stat f).pool = sh.pool := rfl

@[simp] theorem pool_hook (sh : Shared n σ) (f : Option (σ → Fin n → σ)) (c : Fin n) :
    (sh.hook f c).pool = sh.pool := by
  cases f <;> rfl

@[simp] theorem pool_padTail (cfg : Config n σ) (sh : Shared n σ) (c : Fin n) :
    (padTail cfg sh c).pool = sh.pool := by
  unfold padTail
  split <;> rfl

@[simp] theorem pool_countFailed (sh : Shared n σ) (j : Job n) : (countFailed sh j).pool = sh.pool := by
  cases j <;> rfl

/-! ## What a point is to the pool -/

/-- The job of a pool worker. -/
def Job.request : Job n → Option (JobKind × Fin n)
  | demand c => some (.demand, c)
  | prefetch c => some (.prefetch, c)
  | _ => none

/-- The job that a worker has dequeued and not finished. -/
def Point.working : Point n → Option (JobKind × Fin n)
  | checkDemand c => some (.demand, c)
  | checkPrefetch c => some (.prefetch, c)
  | pinPrefetch _ c => some (.prefetch, c)
  | startPrefetch _ c => some (.prefetch, c)
  | job j _ => j.request
  | prefetchDone c => some (.prefetch, c)
  | _ => none

/-- How many requests the loop of `prefetch_pool_top_up` may still enqueue: in this round and
the rounds after it. -/
def Instr.room : Instr n → ℕ
  | topPredict need i _ => need - (i + 1) + 1
  | topEnqueue need i _ => need - (i + 1) + 1
  | _ => 0

def Point.room : Point n → ℕ
  | job _ i => i.room
  | _ => 0

/-- `prefetch_pool_stop` has set the flag, has returned. -/
inductive Stage
  | running
  | joining
  | stopped
deriving DecidableEq, Repr

def Point.stage : Point n → Stage
  | join => .joining
  | exited => .stopped
  | _ => .running

/-- A step that the pool does not notice. -/
structure Aloof (cfg : Config n σ) (k k' : Point n) : Prop where
  working : k'.working = k.working
  room : k'.room ≤ k.room
  retired : k' = .retired ↔ k = .retired
  stage : k'.stage = k.stage ∨ hasPool cfg = false

/-- What a step from one point to another does to the pool. -/
inductive PoolDeed (cfg : Config n σ) : Point n → Point n → Pool n → Pool n → Prop
  | aloof {k k' V} (h : Aloof cfg k k') : PoolDeed cfg k k' V V
  | enqueueDemand {m c V} (hroom : V.demandQueue.length < queueCap n) :
      PoolDeed cfg (.enqueue m c) .drain V { V with demandQueue := V.demandQueue ++ [c] }
  | measure {j V} : PoolDeed cfg (.job j .topNeed) (.job j (topNext
      (if V.pfOutstanding < cfg.prefetchDepth then cfg.prefetchDepth - V.pfOutstanding else 0) 0
      j.target)) V V
  | enqueuePrefetch {j need i c V} (hnew : V.pfTracked c = false)
      (hroom : V.pfQueue.length < queueCap n) :
      PoolDeed cfg (.job j (.topEnqueue need i c)) (.job j (topNext need (i + 1) c)) V
        { V with pfTracked := update V.pfTracked c true, pfQueue := V.pfQueue ++ [c]
                 pfOutstanding := V.pfOutstanding + 1 }
  | takeDemand {c rest V} (hqueue : V.demandQueue = c :: rest) :
      PoolDeed cfg .pick (.checkDemand c) V { V with demandQueue := rest }
  | takePrefetch {c rest V} (hdemand : V.demandQueue = []) (hqueue : V.pfQueue = c :: rest) :
      PoolDeed cfg .pick (.checkPrefetch c) V { V with pfQueue := rest }
  | retire {V} (hdemand : V.demandQueue = []) (hprefetch : V.pfQueue = []) (hstop : V.stop = true) :
      PoolDeed cfg .pick .retired V { V with workersLeft := V.workersLeft - 1 }
  | demandDone {c i V} : PoolDeed cfg (.job (.demand c) i) .pick V V
  | prefetchDone {c V} : PoolDeed cfg (.prefetchDone c) .pick V
      { V with pfOutstanding := (V.pfOutstanding + 2 ^ 32 - 1) % 2 ^ 32
               pfTracked := update V.pfTracked c false }
  | stopPool {V} : PoolDeed cfg .stopPool .join V { V with stop := true }
  | joined {V} (hleft : V.workersLeft = 0) : PoolDeed cfg .join .exited V V

/-! ## The deed of a step -/

theorem Aloof.refl (cfg : Config n σ) (k : Point n) : Aloof cfg k k :=
  ⟨rfl, le_rfl, Iff.rfl, Or.inl rfl⟩

/-- Within a job. -/
theorem Aloof.inside {j : Job n} {i i' : Instr n} (h : i'.room ≤ i.room) :
    Aloof cfg (.job j i) (.job j i') :=
  ⟨rfl, h, ⟨by simp, by simp⟩, Or.inl rfl⟩

theorem topNext_room (need i : ℕ) (cursor : Fin n) : (topNext need i cursor).room = need - i := by
  unfold topNext
  split
  · show need - (i + 1) + 1 = need - i
    omega
  · show 0 = need - i
    omega

theorem ensured_room (cfg : Config n σ) (b : ℕ) (ok : Bool) (j : Job n) :
    (ensured cfg b ok j).room = 0 := by
  cases j <;> cases ok <;> simp only [ensured, if_true, if_false, Bool.false_eq_true]
  all_goals first | rfl | (split <;> rfl)

theorem marked_room (cfg : Config n σ) (j : Job n) : (marked cfg j).room = 0 := by
  unfold marked speculate
  cases j <;> simp only [Job.speculative, if_true, if_false, Bool.false_eq_true]
  all_goals repeat' split
  all_goals rfl

/-- The end of a job. -/
theorem after_deed (j : Job n) (i : Instr n) (V : Pool n) : PoolDeed cfg (.job j i) j.after V V := by
  cases j with
  | demand c => exact .demandDone
  | _ => exact .aloof ⟨rfl, Nat.zero_le _, ⟨by rintro ⟨⟩, by simp⟩, Or.inl rfl⟩

theorem afterFault_aloof (hk : k.working = none) (hret : k ≠ .retired) (hstage : k.stage = .running)
    (m : Msg) (c : Fin n) : Aloof cfg k (afterFault cfg m c) := by
  unfold afterFault
  split
  · exact ⟨hk.symm, Nat.zero_le _, ⟨by simp, fun h => absurd h hret⟩, Or.inl hstage.symm⟩
  · exact ⟨hk.symm, Nat.zero_le _, ⟨by simp, fun h => absurd h hret⟩, Or.inl hstage.symm⟩

theorem afterAccess_aloof (hk : k.working = none) (hret : k ≠ .retired) (hstage : k.stage = .running)
    (c : Fin n) : Aloof cfg k (afterAccess cfg c) := by
  unfold afterAccess
  split
  · exact ⟨hk.symm, Nat.zero_le _, ⟨by simp, fun h => absurd h hret⟩, Or.inl hstage.symm⟩
  · exact ⟨hk.symm, Nat.zero_le _, ⟨by simp, fun h => absurd h hret⟩, Or.inl hstage.symm⟩

theorem topEnqueue_pool (cfg : Config n σ) (sh : Shared n σ) (j : Job n) (need i : ℕ) (c : Fin n) :
    PoolDeed cfg (.job j (.topEnqueue need i c)) (.job j (topNext need (i + 1) c)) sh.pool
      (topEnqueue sh c).pool := by
  unfold topEnqueue
  split
  · rename_i h
    exact .enqueuePrefetch h.1 h.2.2.2
  · refine .aloof (.inside ?_)
    rw [topNext_room]
    exact Nat.le_succ _

@[simp] theorem pool_markResident (cfg : Config n σ) (sh : Shared n σ) (j : Job n) :
    (markResident cfg sh j).pool = sh.pool := by
  unfold markResident
  split
  · rfl
  · exact pool_hook _ _ _

theorem JobBranch.pool {j : Job n} {i : Instr n} (h : JobBranch cfg io sh j i sh' k') :
    PoolDeed cfg (.job j i) k' sh.pool sh'.pool := by
  cases h with
  | reserve _ => exact .aloof (.inside (ensured_room cfg _ true j).le)
  | infeasible _ | decline _ => exact .aloof (.inside (ensured_room cfg _ false j).le)
  | @unpinJustResident jr c hne ok | @unpinTarget _ ok =>
    exact .aloof (.inside (by cases ok <;> exact le_rfl))
  | pad =>
    rw [pool_padTail]
    exact .aloof (.inside le_rfl)
  | mark =>
    rw [pool_markResident]
    exact .aloof (.inside (marked_room cfg j).le)
  | abandon =>
    rw [pool_countFailed]
    exact after_deed j .abandon sh.pool
  | finishPrefetch _ =>
    rw [pool_hook]
    exact after_deed j .finishPrefetch sh.pool
  | predict _ => exact .aloof ⟨rfl, le_rfl, ⟨by simp, by simp⟩, Or.inl rfl⟩
  | topNeed => exact .measure (V := sh.pool)
  | topStop => exact .aloof (.inside (Nat.zero_le _))
  | topEnqueue => exact topEnqueue_pool cfg sh j _ _ _
  | finish _ => exact after_deed j .finish sh.pool
  | _ => exact .aloof (.inside le_rfl)

theorem exec_pool (hexec : exec cfg t io sh k = .next sh' k') :
    PoolDeed cfg k k' sh.pool sh'.pool := by
  cases exec_branch hexec with
  | job h => exact h.pool
  | exit _ hpool => exact .aloof ⟨rfl, le_rfl, ⟨by simp, by simp⟩, Or.inr hpool⟩
  | beginSilently _ _ => exact .aloof (afterFault_aloof rfl (by simp) rfl _ _)
  | onFault =>
    rw [pool_hook]
    exact .aloof (afterFault_aloof rfl (by simp) rfl _ _)
  | enqueue hroom => exact .enqueueDemand hroom
  | broadcast => exact .stopPool
  | joined hleft => exact .joined hleft
  | takeDemand hqueue => exact .takeDemand hqueue
  | takePrefetch hdemand hqueue => exact .takePrefetch hdemand hqueue
  | retire hdemand hprefetch hstop => exact .retire hdemand hprefetch hstop
  | prefetchDone => exact .prefetchDone (V := sh.pool)
  | notifySilently _ _ => exact .aloof (afterAccess_aloof rfl (by simp) rfl _)
  | onAccess =>
    rw [pool_hook]
    exact .aloof (afterAccess_aloof rfl (by simp) rfl _)
  | _ => exact .aloof ⟨rfl, le_rfl, ⟨by simp, by simp⟩, Or.inl rfl⟩

/-- The jobs that the threads work on. -/
def State.working (s : State n σ) (t : Tid) : Option (JobKind × Fin n) := (s.pc t).point.working

theorem points_update (hother : ∀ u, u ≠ t → (s'.pc u).point = (s.pc u).point) :
    (fun u => (s'.pc u).point) = update (fun u => (s.pc u).point) t (s'.pc t).point := by
  funext u
  by_cases hu : u = t
  · subst hu
    rw [update_self]
  · rw [update_of_ne hu]
    exact hother u hu

theorem working_update (hother : ∀ u, u ≠ t → (s'.pc u).point = (s.pc u).point) :
    s'.working = update s.working t (s'.pc t).point.working := by
  funext u
  by_cases hu : u = t
  · subst hu
    rw [update_self]
    rfl
  · rw [update_of_ne hu]
    exact congrArg Point.working (hother u hu)

/-- One thread does something to the pool in a step, and only by executing. -/
theorem pool_step (hstep : step cfg a s = some s') :
    ∃ t, PoolDeed cfg (s.pc t).point (s'.pc t).point s.sh.pool s'.sh.pool ∧
      (∀ u, u ≠ t → (s'.pc u).point = (s.pc u).point) ∧
      ((∃ io, a = .exec t io) ∨ (∀ u io, a ≠ .exec u io) ∧
        Aloof cfg (s.pc t).point (s'.pc t).point ∧ s'.sh.pool = s.sh.pool) := by
  cases moves_of_step hstep with
  | @acquire _ t k l hpc hneeds hfree =>
    have hsame := acquire_point hpc
    have haloof : Aloof cfg (s.pc t).point (update s.pc t (.go k) t).point := by
      rw [hsame t]
      exact Aloof.refl cfg _
    exact ⟨t, .aloof haloof, fun u _ => hsame u, Or.inr ⟨by simp, haloof, rfl⟩⟩
  | @giveUp _ now c hpc =>
    have haloof : Aloof cfg (s.pc .handler).point
        ((s.arrive .handler s.sh (.watch now (c.1 + 1))).pc .handler).point := by
      rw [hpc, point_arrive_self]
      exact ⟨rfl, le_rfl, ⟨by simp, by rintro ⟨⟩⟩, Or.inl rfl⟩
    exact ⟨.handler, .aloof haloof, fun u hu => point_arrive_of_ne hu, Or.inr ⟨by simp, haloof, rfl⟩⟩
  | @exec _ t io k sh k' hpc hexec =>
    refine ⟨t, ?_, fun u hu => point_arrive_of_ne hu, Or.inl ⟨io, rfl⟩⟩
    rw [point_arrive_self, hpc]
    exact exec_pool hexec
  | tick _ =>
    have haloof := Aloof.refl cfg (s.pc .handler).point
    exact ⟨.handler, .aloof haloof, fun _ _ => rfl, Or.inr ⟨by simp, haloof, rfl⟩⟩
  | drop _ =>
    have haloof := Aloof.refl cfg (s.pc .handler).point
    exact ⟨.handler, .aloof haloof, fun _ _ => rfl, Or.inr ⟨by simp, haloof, rfl⟩⟩
  | requestStop =>
    have haloof := Aloof.refl cfg (s.pc .handler).point
    exact ⟨.handler, .aloof haloof, fun _ _ => rfl, Or.inr ⟨by simp, haloof, rfl⟩⟩

/-- Only the workers that were created run. -/
theorem Reach.hired {ok : Action n → State n σ → Prop} {p : σ} (h : Reach (pager cfg p) ok s)
    (i : ℕ) : i < nWorkers cfg ∨ (s.pc (.worker i)).point = .retired := by
  refine h.invariant (I := fun s => i < nWorkers cfg ∨ (s.pc (.worker i)).point = .retired) ?_
    fun a s s' _ _ hi hstep => ?_
  · rw [show ((pager cfg p).init.pc (.worker i)).point = startPoint cfg (.worker i) from enter_point _]
    by_cases hlt : i < nWorkers cfg
    · exact Or.inl hlt
    · exact Or.inr (if_neg fun hboth => hlt hboth.2)
  · refine hi.imp id fun hret => ?_
    obtain ⟨t, hdeed, hother, -⟩ := pool_step hstep
    by_cases ht : Tid.worker i = t
    · subst ht
      rw [hret] at hdeed
      generalize (s'.pc (.worker i)).point = k' at hdeed ⊢
      generalize s.sh.pool = V at hdeed
      generalize s'.sh.pool = V' at hdeed
      cases hdeed with
      | aloof hal => exact hal.retired.2 rfl
    · rw [hother _ ht]
      exact hret

/-! ## The dedup bitmap and the counter -/

/-- `W` are the jobs that the threads work on. -/
structure Tracks (W : Tid → Option (JobKind × Fin n)) (V : Pool n) : Prop where
  nodup : V.pfQueue.Nodup
  tracked : ∀ c, V.pfTracked c = true ↔ c ∈ V.pfQueue ∨ ∃ t, W t = some (.prefetch, c)
  unique : ∀ t u c, W t = some (.prefetch, c) → W u = some (.prefetch, c) → t = u
  apart : ∀ t c, W t = some (.prefetch, c) → c ∉ V.pfQueue
  outstanding : V.pfOutstanding = (Finset.univ.filter fun c => V.pfTracked c = true).card

section

variable {W W' : Tid → Option (JobKind × Fin n)} {V V' : Pool n}

theorem card_tracked_le (f : Fin n → Bool) : (Finset.univ.filter fun d => f d = true).card ≤ n :=
  (Finset.card_le_univ _).trans (Fintype.card_fin n).le

theorem card_track {f : Fin n → Bool} (hc : f c = false) :
    (Finset.univ.filter fun d => update f c true d = true).card =
      (Finset.univ.filter fun d => f d = true).card + 1 := by
  have hset : (Finset.univ.filter fun d => update f c true d = true) =
      insert c (Finset.univ.filter fun d => f d = true) := by
    ext d
    by_cases hd : d = c <;> simp [hd]
  rw [hset, Finset.card_insert_of_notMem (by simp [hc])]

theorem card_untrack {f : Fin n → Bool} (hc : f c = true) :
    (Finset.univ.filter fun d => update f c false d = true).card + 1 =
      (Finset.univ.filter fun d => f d = true).card := by
  rw [← card_track (f := update f c false) (c := c) (update_self c false f), update_idem, ← hc,
    update_eq_self]

theorem Tracks.congr (h : Tracks W V)
    (hW : ∀ t c, W' t = some (.prefetch, c) ↔ W t = some (.prefetch, c))
    (hqueue : V'.pfQueue = V.pfQueue) (htracked : V'.pfTracked = V.pfTracked)
    (hout : V'.pfOutstanding = V.pfOutstanding) : Tracks W' V' where
  nodup := hqueue ▸ h.nodup
  tracked c := by
    rw [htracked, hqueue, h.tracked c]
    simp only [hW]
  unique t u c ht hu := h.unique t u c ((hW t c).1 ht) ((hW u c).1 hu)
  apart t c ht := hqueue ▸ h.apart t c ((hW t c).1 ht)
  outstanding := by rw [hout, htracked, h.outstanding]

/-- Nobody has a chunk that is not tracked. -/
theorem Tracks.untracked (h : Tracks W V) (hc : V.pfTracked c = false) :
    c ∉ V.pfQueue ∧ ∀ t, W t ≠ some (.prefetch, c) := by
  have hnot := mt (h.tracked c).2 (by rw [hc]; exact Bool.false_ne_true)
  exact ⟨fun hm => hnot (Or.inl hm), fun t ht => hnot (Or.inr ⟨t, ht⟩)⟩

theorem Tracks.enqueue (h : Tracks W V) (hnew : V.pfTracked c = false) :
    Tracks W { V with pfTracked := update V.pfTracked c true, pfQueue := V.pfQueue ++ [c]
                      pfOutstanding := V.pfOutstanding + 1 } := by
  obtain ⟨hqueue, hwork⟩ := h.untracked hnew
  refine ⟨?_, fun d => ?_, h.unique, fun t d ht hd => ?_, ?_⟩
  · refine List.nodup_append.2 ⟨h.nodup, List.nodup_singleton c, fun x hx y hy hxy => hqueue ?_⟩
    rw [List.mem_singleton] at hy
    exact hy ▸ hxy ▸ hx
  · show update V.pfTracked c true d = true ↔ d ∈ V.pfQueue ++ [c] ∨ _
    by_cases hd : d = c
    · subst hd
      simp
    · rw [update_of_ne hd, h.tracked d]
      simp [hd]
  · rcases List.mem_append.1 hd with hd | hd
    · exact h.apart t d ht hd
    · rw [List.mem_singleton] at hd
      exact hwork t (hd ▸ ht)
  · show V.pfOutstanding + 1 = _
    rw [card_track hnew, h.outstanding]

/-- A worker takes the oldest request. -/
theorem Tracks.take (h : Tracks W V) {rest : List (Fin n)} (hqueue : V.pfQueue = c :: rest)
    (ht : W t = none) : Tracks (update W t (some (.prefetch, c))) { V with pfQueue := rest } := by
  have hnodup := h.nodup
  rw [hqueue] at hnodup
  obtain ⟨hnot, hrest⟩ := List.nodup_cons.1 hnodup
  have hfree : ∀ u, W u ≠ some (.prefetch, c) := fun u hu =>
    h.apart u c hu (by rw [hqueue]; exact List.mem_cons_self)
  have hwork : ∀ u d, update W t (some (.prefetch, c)) u = some (.prefetch, d) ↔
      u = t ∧ d = c ∨ W u = some (.prefetch, d) := by
    intro u d
    by_cases hu : u = t
    · subst hu
      simp [ht, eq_comm]
    · simp [hu]
  refine ⟨hrest, fun d => ?_, fun u v d hu hv => ?_, fun u d hu hd => ?_, h.outstanding⟩
  · show V.pfTracked d = true ↔ d ∈ rest ∨ _
    rw [h.tracked d, hqueue, List.mem_cons]
    simp only [hwork]
    constructor
    · rintro ((rfl | hd) | ⟨u, hu⟩)
      · exact Or.inr ⟨t, Or.inl ⟨rfl, rfl⟩⟩
      · exact Or.inl hd
      · exact Or.inr ⟨u, Or.inr hu⟩
    · rintro (hd | ⟨u, ⟨-, rfl⟩ | hu⟩)
      · exact Or.inl (Or.inr hd)
      · exact Or.inl (Or.inl rfl)
      · exact Or.inr ⟨u, hu⟩
  · rcases (hwork u d).1 hu with ⟨rfl, rfl⟩ | hold
    · rcases (hwork v d).1 hv with ⟨rfl, -⟩ | hv
      · rfl
      · exact absurd hv (hfree v)
    · rcases (hwork v d).1 hv with ⟨-, rfl⟩ | hv
      · exact absurd hold (hfree u)
      · exact h.unique u v d hold hv
  · rcases (hwork u d).1 hu with ⟨-, rfl⟩ | hu
    · exact hnot hd
    · exact h.apart u d hu (by rw [hqueue]; exact List.mem_cons_of_mem c hd)

/-- A worker's chunk is counted. -/
theorem Tracks.outstanding_pos (h : Tracks W V) (ht : W t = some (.prefetch, c)) :
    0 < V.pfOutstanding := by
  rw [h.outstanding]
  exact Finset.card_pos.2 ⟨c, by simp [(h.tracked c).2 (Or.inr ⟨t, ht⟩)]⟩

/-- A worker has finished its request. -/
theorem Tracks.done (h : Tracks W V) (hn : n < 2 ^ 32) (ht : W t = some (.prefetch, c)) :
    Tracks (update W t none)
      { V with pfOutstanding := (V.pfOutstanding + 2 ^ 32 - 1) % 2 ^ 32
               pfTracked := update V.pfTracked c false } := by
  have hc : V.pfTracked c = true := (h.tracked c).2 (Or.inr ⟨t, ht⟩)
  have hwork : ∀ u d, update W t none u = some (.prefetch, d) ↔ u ≠ t ∧ W u = some (.prefetch, d) := by
    intro u d
    by_cases hu : u = t
    · subst hu
      simp
    · simp [hu]
  refine ⟨h.nodup, fun d => ?_, fun u v d hu hv => ?_, fun u d hu => ?_, ?_⟩
  · show update V.pfTracked c false d = true ↔ d ∈ V.pfQueue ∨ _
    simp only [hwork]
    by_cases hd : d = c
    · subst hd
      rw [update_self]
      have hqueue : d ∉ V.pfQueue := h.apart t d ht
      constructor
      · simp
      · rintro (hm | ⟨u, hut, hu⟩)
        · exact absurd hm hqueue
        · exact absurd (h.unique u t d hu ht) hut
    · rw [update_of_ne hd, h.tracked d]
      refine or_congr Iff.rfl ⟨fun ⟨u, hu⟩ => ⟨u, ?_, hu⟩, fun ⟨u, _, hu⟩ => ⟨u, hu⟩⟩
      rintro rfl
      exact hd (Prod.ext_iff.1 (Option.some.inj (hu.symm.trans ht))).2
  · exact h.unique u v d ((hwork u d).1 hu).2 ((hwork v d).1 hv).2
  · exact h.apart u d ((hwork u d).1 hu).2
  · show (V.pfOutstanding + 2 ^ 32 - 1) % 2 ^ 32 =
      (Finset.univ.filter fun d => update V.pfTracked c false d = true).card
    have hcard := card_untrack hc
    have hle := card_tracked_le V.pfTracked
    have hout := h.outstanding
    omega

theorem Tracks.deed (h : Tracks W V) (hn : n < 2 ^ 32) (hdeed : PoolDeed cfg k k' V V')
    (ht : W t = k.working) : Tracks (update W t k'.working) V' := by
  -- a step that leaves the worker's job alone
  have hsame : k'.working = k.working → update W t k'.working = W := by
    intro hw
    rw [hw, ← ht, update_eq_self]
  -- a step to or from a demand job
  have hplain : ∀ w : Option (JobKind × Fin n), (∀ d, w ≠ some (.prefetch, d)) →
      (∀ d, W t ≠ some (.prefetch, d)) →
      ∀ u d, update W t w u = some (.prefetch, d) ↔ W u = some (.prefetch, d) := by
    intro w hw hold u d
    by_cases hu : u = t
    · subst hu
      rw [update_self]
      exact ⟨fun hd => absurd hd (hw d), fun hd => absurd hd (hold d)⟩
    · rw [update_of_ne hu]
  cases hdeed with
  | aloof hal =>
    rw [hsame hal.working]
    exact h
  | enqueueDemand hroom => exact (hsame rfl).symm ▸ h.congr (fun _ _ => Iff.rfl) rfl rfl rfl
  | @measure j V =>
    rw [hsame rfl]
    exact h
  | @enqueuePrefetch j need i c V hnew hroom =>
    rw [hsame rfl]
    exact h.enqueue hnew
  | takeDemand hqueue =>
    refine h.congr (hplain _ (by rintro _ ⟨⟩) fun d hd => ?_) rfl rfl rfl
    cases ht.symm.trans hd
  | takePrefetch hdemand hqueue => exact h.take hqueue ht
  | retire hdemand hprefetch hstop =>
    exact (hsame rfl).symm ▸ h.congr (fun _ _ => Iff.rfl) rfl rfl rfl
  | demandDone =>
    refine h.congr (hplain _ (by rintro _ ⟨⟩) fun d hd => ?_) rfl rfl rfl
    cases ht.symm.trans hd
  | prefetchDone => exact h.done hn ht
  | stopPool => exact (hsame rfl).symm ▸ h.congr (fun _ _ => Iff.rfl) rfl rfl rfl
  | joined hleft => exact (hsame rfl).symm ▸ h

end

/-! ## Every run -/

theorem Tracks.step (h : Tracks s.working s.sh.pool) (hn : n < 2 ^ 32)
    (hstep : Pager.step cfg a s = some s') : Tracks s'.working s'.sh.pool := by
  obtain ⟨t, hdeed, hother, -⟩ := pool_step hstep
  rw [working_update hother]
  exact h.deed hn hdeed rfl

theorem working_init (cfg : Config n σ) (p : σ) (t : Tid) : (pager cfg p).init.working t = none :=
  init_point (P := fun k => k.working = none) rfl rfl rfl rfl cfg p t

theorem Tracks.init (cfg : Config n σ) (p : σ) :
    Tracks (pager cfg p).init.working (pager cfg p).init.sh.pool := by
  have hnone : ∀ t c, (pager cfg p).init.working t ≠ some (.prefetch, c) := by
    intro t c ht
    rw [working_init] at ht
    cases ht
  refine ⟨List.nodup_nil, fun c => ⟨by rintro ⟨⟩, ?_⟩, fun t _ c ht => absurd ht (hnone t c),
    fun t c ht => absurd ht (hnone t c), ?_⟩
  · rintro (hc | ⟨t, ht⟩)
    · cases hc
    · exact absurd ht (hnone t c)
  · exact (Finset.card_eq_zero.2 (Finset.filter_false_of_mem fun _ _ => (by rintro ⟨⟩))).symm

theorem Reach.tracks {ok : Action n → State n σ → Prop} {p : σ} (hn : n < 2 ^ 32)
    (h : Reach (pager cfg p) ok s) : Tracks s.working s.sh.pool :=
  h.invariant (I := fun s => Tracks s.working s.sh.pool) (Tracks.init cfg p)
    fun _ _ _ _ _ ht hstep => ht.step hn hstep

end Residctl.Pager
