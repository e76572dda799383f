import Residctl.Overflow
import Residctl.Pins
import Residctl.Lib.Jobs

/-!
# The jobs of the fetch pool

The machine with a log of the jobs that are enqueued, dequeued and executed. Every job is
dequeued by one worker, in the order of its queue, and executed by it; and when
`prefetch_pool_stop` returns nothing is left over (`Drains`): a worker returns only when
both queues are empty, and the job that enqueues more is run by a worker that has not
returned.

The rings lose no job while `head + len` is a word whenever one is pushed. With `2 ^ 32 - 2`
chunks there is a run in which it is not, and a job is written over another one.
-/

namespace Residctl.Pager

open Mutex Function Runs Jobs

variable {n : ℕ} {σ : Type} {cfg : Config n σ} {s s' : State n σ} {a : Action n} {t : Tid}
  {io : Input n} {k k' : Point n} {c : Fin n} {V V' : Pool n}

/-! ## The log -/

abbrev PoolEvent (n : ℕ) := Event JobKind Tid (Fin n)

/-- The request that the code at a point may put into a queue. -/
def Point.offers : Point n → Option (JobKind × Fin n)
  | enqueue _ c => some (.demand, c)
  | job _ (.topEnqueue _ _ c) => some (.prefetch, c)
  | _ => none

/-- A request is in its queue now. -/
def noteQueue (k : Point n) (V V' : Pool n) : List (PoolEvent n) :=
  match k.offers with
  | some (q, c) => if (V.queue q).length < (V'.queue q).length then [.enqueued q c] else []
  | none => []

/-- A worker has taken or finished a job. -/
def noteWork (t : Tid) (k k' : Point n) : List (PoolEvent n) :=
  match k.working, k'.working with
  | none, some (q, c) => [.dequeued q t c]
  | some (q, c), none => [.executed q t c]
  | _, _ => []

def poolNote (a : Action n) (s s' : State n σ) : List (PoolEvent n) :=
  match a with
  | .exec t _ => noteQueue (s.pc t).point s.sh.pool s'.sh.pool ++
      noteWork t (s.pc t).point (s'.pc t).point
  | _ => []

theorem noteQueue_same (k : Point n) (h : V'.queue = V.queue) : noteQueue k V V' = [] := by
  unfold noteQueue
  split
  · rw [h, if_neg (lt_irrefl _)]
  · rfl

theorem noteQueue_grows {q : JobKind} (hoffers : k.offers = some (q, c))
    (h : (V.queue q).length < (V'.queue q).length) : noteQueue k V V' = [.enqueued q c] := by
  unfold noteQueue
  rw [hoffers]
  exact if_pos h

theorem noteWork_same (t : Tid) (h : k'.working = k.working) : noteWork t k k' = [] := by
  unfold noteWork
  rw [h]
  cases k.working <;> rfl

theorem logged_quiet (t : Tid) (hqueue : V'.queue = V.queue) (hwork : k'.working = k.working) :
    Jobs.Step t k.working V.queue k'.working V'.queue
      (noteQueue k V V' ++ noteWork t k k') := by
  rw [noteQueue_same k hqueue, noteWork_same t hwork, hqueue, hwork]
  exact Jobs.Step.quiet

theorem logged_put (t : Tid) {q : JobKind} (hoffers : k.offers = some (q, c)) (hqueue : V'.queue = update V.queue q (V.queue q ++ [c]))
    (hwork : k'.working = k.working) :
    Jobs.Step t k.working V.queue k'.working V'.queue
      (noteQueue k V V' ++ noteWork t k k') := by
  have hnote : noteQueue k V V' = [.enqueued q c] := noteQueue_grows hoffers (by simp [hqueue])
  rw [hnote, noteWork_same t hwork, hqueue, hwork]
  exact Jobs.Step.put q c

/-- Every deed is logged. -/
theorem PoolDeed.logged (hdeed : PoolDeed cfg k k' V V') (t : Tid) :
    Jobs.Step t k.working V.queue k'.working V'.queue
      (noteQueue k V V' ++ noteWork t k k') := by
  cases hdeed with
  | aloof hal => exact logged_quiet t rfl hal.working
  | enqueueDemand hroom =>
    exact logged_put t rfl (by funext q; cases q <;> rfl) rfl
  | measure => exact logged_quiet t rfl rfl
  | enqueuePrefetch hnew hroom =>
    exact logged_put t rfl (by funext q; cases q <;> rfl) rfl
  | @takeDemand c rest V hqueue =>
    rw [show Pool.queue { V with demandQueue := rest } = update V.queue .demand rest by
      funext q; cases q <;> rfl]
    exact Jobs.Step.take JobKind.demand c rest hqueue
  | @takePrefetch c rest V hdemand hqueue =>
    rw [show Pool.queue { V with pfQueue := rest } = update V.queue .prefetch rest by
      funext q; cases q <;> rfl]
    exact Jobs.Step.take JobKind.prefetch c rest hqueue
  | retire hdemand hprefetch hstop => exact logged_quiet t (by funext q; cases q <;> rfl) rfl
  | @demandDone c i V =>
    rw [show noteQueue (.job (.demand c) i) V V = [] from noteQueue_same _ rfl]
    exact Jobs.Step.finish JobKind.demand c
  | @prefetchDone c V =>
    rw [show Pool.queue { V with
        pfOutstanding := (V.pfOutstanding + 2 ^ 32 - 1) % 2 ^ 32
        pfTracked := update V.pfTracked c false } = V.queue by funext q; cases q <;> rfl]
    exact Jobs.Step.finish JobKind.prefetch c
  | stopPool => exact logged_quiet t (by funext q; cases q <;> rfl) rfl
  | joined hleft => exact logged_quiet t rfl rfl

/-- The log, the queues and the workers' jobs agree. -/
abbrev Logged (s : State n σ) (h : List (PoolEvent n)) : Prop :=
  Jobs.Inv s.working s.sh.pool.queue h

theorem Logged.step {h : List (PoolEvent n)} (hlog : Logged s h)
    (hstep : Pager.step cfg a s = some s') : Logged s' (h ++ poolNote a s s') := by
  obtain ⟨t, hdeed, hother, ⟨io, rfl⟩ | ⟨hnot, haloof, hpool⟩⟩ := pool_step hstep
  · unfold Logged
    rw [working_update hother]
    exact Jobs.Inv.step hlog (hdeed.logged t)
  · have hnote : poolNote a s s' = [] := by
      cases a with
      | exec t io => exact absurd rfl (hnot t io)
      | _ => rfl
    unfold Logged
    rw [working_update hother, haloof.working, hpool, hnote, List.append_nil]
    rw [show update s.working t (s.pc t).point.working = s.working from update_eq_self _ _]
    exact hlog

/-! ## Shutting down -/

/-- Every worker of the pool has returned. -/
def AllRetired (cfg : Config n σ) (P : Tid → Point n) : Prop :=
  ∀ i < nWorkers cfg, P (.worker i) = .retired

/-- How far the pool's threads, at the points `P`, have shut down. -/
structure Drains (cfg : Config n σ) (P : Tid → Point n) (V : Pool n) : Prop where
  stop : V.stop = true ↔ (P .handler).stage ≠ .running
  retired : ∀ i < nWorkers cfg, P (.worker i) = .retired → V.stop = true
  left : V.workersLeft =
    ((Finset.range (nWorkers cfg)).filter fun i => P (.worker i) ≠ .retired).card
  empty : AllRetired cfg P → V.demandQueue = [] ∧ V.pfQueue = []
  joined : (P .handler).stage = .stopped → V.workersLeft = 0

theorem nWorkers_pos (cfg : Config n σ) : 0 < nWorkers cfg := by
  unfold nWorkers
  split
  · assumption
  · exact Nat.one_pos

section

variable {P : Tid → Point n}

/-- A thread that can still enqueue has not returned, or has not stopped the pool. -/
theorem Drains.busy (hhired : ∀ i, i < nWorkers cfg ∨ P (.worker i) = .retired)
    (hstop : V.stop = true ↔ (P .handler).stage ≠ .running)
    (hretired : ∀ i < nWorkers cfg, P (.worker i) = .retired → V.stop = true)
    (hkind : t.kind ≠ .client) (ht : P t ≠ .retired) (hstage : (P t).stage = .running) :
    ¬ AllRetired cfg P := by
  intro hall
  cases t with
  | handler =>
    have hpool := nWorkers_pos cfg
    exact hstop.1 (hretired 0 hpool (hall 0 hpool)) hstage
  | worker i => exact ht (hall i ((hhired i).resolve_right ht))
  | client i => exact hkind rfl

theorem filter_retired_congr {P' : Tid → Point n}
    (h : ∀ i, P' (.worker i) = .retired ↔ P (.worker i) = .retired) :
    ((Finset.range (nWorkers cfg)).filter fun i => P' (.worker i) ≠ .retired) =
      (Finset.range (nWorkers cfg)).filter fun i => P (.worker i) ≠ .retired :=
  Finset.filter_congr fun i _ => not_congr (h i)

/-- A step that neither stops the pool nor ends a worker. -/
theorem Drains.move (h : Drains cfg P V)
    (hhired : ∀ i, i < nWorkers cfg ∨ P (.worker i) = .retired) (hk : P t = k)
    (hret : k' = .retired ↔ k = .retired) (hstage : k'.stage = .running ↔ k.stage = .running)
    (hstopped : k'.stage = .stopped → k.stage = .stopped ∨ V.workersLeft = 0)
    (hstop : V'.stop = V.stop) (hleft : V'.workersLeft = V.workersLeft)
    (hqueue : (V.demandQueue = [] ∧ V.pfQueue = [] → V'.demandQueue = [] ∧ V'.pfQueue = []) ∨
      t.kind ≠ .client ∧ k' ≠ .retired ∧ k'.stage = .running) : Drains cfg (update P t k') V' := by
  subst hk
  have hretired : ∀ u, update P t k' u = .retired ↔ P u = .retired := by
    intro u
    by_cases hu : u = t
    · subst hu
      rw [update_self]
      exact hret
    · rw [update_of_ne hu]
  have hrun : (update P t k' .handler).stage ≠ .running ↔ (P .handler).stage ≠ .running := by
    by_cases hu : Tid.handler = t
    · subst hu
      rw [update_self]
      exact not_congr hstage
    · rw [update_of_ne hu]
  have hhired' : ∀ i, i < nWorkers cfg ∨ update P t k' (.worker i) = .retired :=
    fun i => (hhired i).imp id (hretired _).2
  have hstop' : V'.stop = true ↔ (update P t k' .handler).stage ≠ .running := by
    rw [hstop, hrun]
    exact h.stop
  have hretired' : ∀ i < nWorkers cfg, update P t k' (.worker i) = .retired → V'.stop = true := by
    intro i hi hr
    rw [hstop]
    exact h.retired i hi ((hretired _).1 hr)
  refine ⟨hstop', hretired', ?_, fun hall => ?_, fun hs => ?_⟩
  · rw [hleft, h.left, filter_retired_congr fun i => hretired (.worker i)]
  · rcases hqueue with hqueue | ⟨hkind, hk', hst⟩
    · exact hqueue (h.empty fun i hi => (hretired _).1 (hall i hi))
    · -- whoever enqueues is still there, so not all have returned
      refine absurd hall (Drains.busy (t := t) hhired' hstop' hretired' hkind ?_ ?_)
      · rwa [update_self]
      · rwa [update_self]
  · rw [hleft]
    by_cases hu : Tid.handler = t
    · subst hu
      rw [update_self] at hs
      exact (hstopped hs).elim h.joined id
    · rw [update_of_ne hu] at hs
      exact h.joined hs

/-- A worker returns. -/
theorem Drains.retire (h : Drains cfg P V) {w : ℕ} (hw : w < nWorkers cfg) (ht : P (.worker w) = .pick)
    (hdemand : V.demandQueue = []) (hprefetch : V.pfQueue = []) (hstop : V.stop = true) :
    Drains cfg (update P (.worker w) .retired) { V with workersLeft := V.workersLeft - 1 } := by
  have hhandler : update P (.worker w) .retired .handler = P .handler := by simp
  refine ⟨?_, fun _ _ _ => hstop, ?_, fun _ => ⟨hdemand, hprefetch⟩, fun hs => ?_⟩
  · rw [hhandler]
    exact h.stop
  · have hset : ((Finset.range (nWorkers cfg)).filter fun i =>
        update P (.worker w) .retired (.worker i) ≠ .retired) =
        ((Finset.range (nWorkers cfg)).filter fun i => P (.worker i) ≠ .retired).erase w := by
      ext i
      by_cases hi : i = w
      · subst hi
        simp
      · have hne : Tid.worker i ≠ .worker w := fun he => hi (Tid.worker.inj he)
        simp [hi, hne]
    rw [hset, Finset.card_erase_of_mem]
    · exact congrArg (· - 1) h.left
    · simp [hw, ht]
  · rw [hhandler] at hs
    show V.workersLeft - 1 = 0
    rw [h.joined hs]

/-- The handler sets the flag. -/
theorem Drains.stopPool (h : Drains cfg P V) :
    Drains cfg (update P .handler .join) { V with stop := true } := by
  have hworker : ∀ i, update P .handler .join (.worker i) = P (.worker i) := by simp
  refine ⟨⟨fun _ => ?_, fun _ => rfl⟩, fun _ _ _ => rfl, ?_, fun hall => ?_, fun hs => ?_⟩
  · rw [update_self]
    rintro ⟨⟩
  · rw [filter_retired_congr (P := P) fun i => by rw [hworker]]
    exact h.left
  · exact h.empty fun i hi => (hworker i).symm.trans (hall i hi)
  · rw [update_self] at hs
    cases hs

theorem Drains.deed (h : Drains cfg P V) (hpool : hasPool cfg = true)
    (hhired : ∀ i, i < nWorkers cfg ∨ P (.worker i) = .retired)
    (hkind : (P t).kind = t.kind) (hdeed : PoolDeed cfg (P t) k' V V') :
    Drains cfg (update P t k') V' := by
  generalize hk : P t = k at hdeed
  rw [hk] at hkind
  cases hdeed with
  | aloof hal =>
    have hstage : k'.stage = k.stage :=
      hal.stage.resolve_right (by rw [hpool]; exact Bool.noConfusion)
    exact h.move hhired hk hal.retired (by rw [hstage]) (fun hs => Or.inl (hstage.symm.trans hs)) rfl rfl
      (Or.inl id)
  | enqueueDemand hroom =>
    refine h.move hhired hk ⟨by simp, by simp⟩ Iff.rfl (by rintro ⟨⟩) rfl rfl
      (Or.inr ⟨?_, by simp, rfl⟩)
    -- only the dispatcher enqueues a demand fetch, and it is no client
    rw [← hkind]
    rintro ⟨⟩
  | measure =>
    exact h.move hhired hk ⟨by simp, by simp⟩ Iff.rfl (by rintro ⟨⟩) rfl rfl (Or.inl id)
  | @enqueuePrefetch j need i c V hnew hroom =>
    refine h.move hhired hk ⟨by simp, by simp⟩ Iff.rfl (by rintro ⟨⟩) rfl rfl
      (Or.inr ⟨?_, by simp, rfl⟩)
    rw [← hkind]
    show j.kind ≠ .client
    cases j <;> rintro ⟨⟩
  | takeDemand hqueue =>
    refine h.move hhired hk ⟨by simp, by simp⟩ Iff.rfl (by rintro ⟨⟩) rfl rfl (Or.inl ?_)
    -- a queue that a job is taken from was not drained
    rintro ⟨hnil, -⟩
    cases hqueue.symm.trans hnil
  | takePrefetch hdemand hqueue =>
    refine h.move hhired hk ⟨by simp, by simp⟩ Iff.rfl (by rintro ⟨⟩) rfl rfl (Or.inl ?_)
    rintro ⟨-, hnil⟩
    cases hqueue.symm.trans hnil
  | retire hdemand hprefetch hstop =>
    -- only workers return, and only the handler stops the pool
    cases t with
    | worker w =>
      have hw : w < nWorkers cfg := (hhired w).resolve_right (by rw [hk]; simp)
      exact h.retire hw hk hdemand hprefetch hstop
    | _ => cases hkind
  | demandDone =>
    exact h.move hhired hk ⟨by simp, by simp⟩ Iff.rfl (by rintro ⟨⟩) rfl rfl (Or.inl id)
  | prefetchDone =>
    exact h.move hhired hk ⟨by simp, by simp⟩ Iff.rfl (by rintro ⟨⟩) rfl rfl (Or.inl id)
  | stopPool =>
    cases t with
    | handler => exact h.stopPool
    | _ => cases hkind
  | joined hleft =>
    exact h.move hhired hk ⟨by simp, by rintro ⟨⟩⟩ ⟨by rintro ⟨⟩, by rintro ⟨⟩⟩
      (fun _ => Or.inr hleft) rfl rfl (Or.inl id)

end

/-! ## Every run -/

theorem Drains.init (hpool : hasPool cfg = true) (p : σ) :
    Drains cfg (fun t => ((pager cfg p).init.pc t).point) (pager cfg p).init.sh.pool := by
  have hpoint : ∀ t, ((pager cfg p).init.pc t).point = startPoint cfg t := fun t => enter_point _
  have hworker : ∀ i, startPoint cfg (.worker i) = if i < nWorkers cfg then .pick else .retired := by
    intro i
    simp only [startPoint, hpool, true_and]
  simp only [hpoint]
  refine ⟨⟨by rintro ⟨⟩, fun h => absurd rfl h⟩, fun i hi hr => ?_, ?_, fun _ => ⟨rfl, rfl⟩, by rintro ⟨⟩⟩
  · rw [hworker, if_pos hi] at hr
    cases hr
  · rw [Finset.filter_true_of_mem]
    · show (if hasPool cfg then nWorkers cfg else 0) = _
      rw [if_pos hpool, Finset.card_range]
    · intro i hi
      rw [hworker, if_pos (Finset.mem_range.1 hi)]
      simp

theorem Reach.drains {ok : Action n → State n σ → Prop} {p : σ} (hpool : hasPool cfg = true)
    (h : Reach (pager cfg p) ok s) : Drains cfg (fun t => (s.pc t).point) s.sh.pool := by
  refine h.invariant (I := fun s => Drains cfg (fun t => (s.pc t).point) s.sh.pool)
    (Drains.init hpool p) fun a s s' hreach _ hd hstep => ?_
  obtain ⟨t, hdeed, hother, -⟩ := pool_step hstep
  show Drains cfg (fun u => (s'.pc u).point) s'.sh.pool
  rw [points_update hother]
  exact hd.deed hpool (Reach.hired hreach) ((Reach.sound hreach).kind t) hdeed

theorem Reach.logged {p : σ} {h : List (PoolEvent n)}
    (hreach : Reachable ((pager cfg p).recorded poolNote) (s, h)) : Logged s h := by
  refine Reachable.recorded_invariant (I := Logged) ?_ (fun _ _ _ _ _ hlog hs => hlog.step hs) hreach
  exact Jobs.Inv.init (working_init cfg p) fun q => by cases q <;> rfl

theorem Point.working_kind {x : JobKind × Fin n} (h : k.working = some x) : k.kind = .worker := by
  cases k with
  | job j i => cases j <;> first | rfl | cases h
  | _ => first | rfl | cases h

/-- Only workers dequeue. -/
theorem poolNote_dequeued {q : JobKind} (h : Event.dequeued q t c ∈ poolNote a s s') :
    s'.working t = some (q, c) := by
  cases a with
  | exec u io =>
    rcases List.mem_append.1 h with h | h
    · unfold noteQueue at h
      split at h
      · split at h
        · cases List.mem_singleton.1 h
        · cases h
      · cases h
    · unfold noteWork at h
      split at h
      · rename_i hwork
        cases List.mem_singleton.1 h
        exact hwork
      · cases List.mem_singleton.1 h
      · cases h
  | _ => cases h

theorem Reach.dequeued_worker {p : σ} {h : List (PoolEvent n)}
    (hreach : Reachable ((pager cfg p).recorded poolNote) (s, h)) :
    ∀ q t c, Event.dequeued q t c ∈ h → ∃ i, t = .worker i := by
  refine Reachable.recorded_invariant (I := fun (_ : State n σ) (h : List (PoolEvent n)) =>
    ∀ q t c, Event.dequeued q t c ∈ h → ∃ i, t = .worker i)
    (fun _ _ _ hmem => absurd hmem List.not_mem_nil) (fun a s s' h hr hold hs => ?_) hreach
  intro q t c hmem
  rcases List.mem_append.1 hmem with hmem | hmem
  · exact hold q t c hmem
  · have hsound : Sound cfg s' := (Reach.sound hr).step hs
    exact hsound.eq_worker (Point.working_kind (poolNote_dequeued hmem))

/-- When `prefetch_pool_stop` has returned, both queues are empty and nobody works. -/
theorem Reach.exited {ok : Action n → State n σ → Prop} {p : σ} (hpool : hasPool cfg = true)
    (h : Reach (pager cfg p) ok s) (hexit : (s.pc .handler).point = .exited) :
    (∀ q, s.sh.pool.queue q = []) ∧ ∀ t, s.working t = none := by
  have hd := Reach.drains hpool h
  have hs := Reach.sound h
  have hleft := hd.left
  rw [hd.joined (by show Point.stage _ = _; rw [hexit]; rfl), eq_comm, Finset.card_eq_zero,
    Finset.filter_eq_empty_iff] at hleft
  have hall : AllRetired cfg fun t => (s.pc t).point := by
    intro i hi
    exact not_not.1 (hleft (Finset.mem_range.2 hi))
  refine ⟨fun q => ?_, fun t => ?_⟩
  · cases q with
    | demand => exact (hd.empty hall).1
    | prefetch => exact (hd.empty hall).2
  · cases hw : s.working t with
    | none => rfl
    | some x =>
      -- a thread that works is a worker, and all workers have returned
      obtain ⟨i, rfl⟩ := hs.eq_worker (Point.working_kind hw)
      have hret : (s.pc (.worker i)).point = .retired := (Reach.hired h i).elim (hall i) id
      rw [State.working, hret] at hw
      cases hw

/-! ## The law -/

variable {x x' : State n σ × Rings n}

/-- The machine with the rings and the log of its jobs. -/
def logging (cfg : Config n σ) (p : σ) (hn : 0 < n) :
    Machine ((State n σ × Rings n) × List (PoolEvent n)) (Action n) :=
  (ringed cfg p hn).recorded fun a x x' => poolNote a x.1 x'.1

/-- In range the log is one of the machine with lists. -/
theorem Reach.unlogging {p : σ} {hn : 0 < n} {h : List (PoolEvent n)}
    (hreach : Reach (logging cfg p hn) (fun a y => ∀ kind, InRange kind a y.1) (x, h)) :
    Reachable ((pager cfg p).recorded poolNote) (x.1, h) := by
  have hstep : ∀ a x x', Reach (Pager.ringed cfg p hn) (fun a x => ∀ kind, InRange kind a x) x →
      (∀ kind, InRange kind a x) → (Pager.ringed cfg p hn).step a x = some x' →
      True ∧ (pager cfg p).step a x.1 = some x'.1 := by
    intro a x x' hr hok hstep
    have hguard : Reach (Pager.ringed cfg p hn) (fun a x => True ∧ ∀ kind, InRange kind a x) x :=
      hr.mono fun _ _ h => ⟨trivial, h⟩
    exact unringed_step (fun _ _ => True) hguard ⟨trivial, hok⟩ hstep
  exact Reach.map_recorded (f := Prod.fst) (fun _ _ => True) rfl hstep (fun _ _ _ => rfl) hreach

theorem Reach.logging_inRange {p : σ} {hn : 0 < n} (hsmall : n < 2 ^ 31)
    {y : (State n σ × Rings n) × List (PoolEvent n)} (h : Reachable (logging cfg p hn) y) :
    Reach (logging cfg p hn) (fun a y => ∀ kind, InRange kind a y.1) y := by
  induction h with
  | init => exact Reach.init
  | step _ _ hstep ih =>
    have hr : Reach (Pager.ringed cfg p hn) (fun a x => ∀ kind, InRange kind a x) _ :=
      Reach.of_recorded ih
    have hguard : Reach (Pager.ringed cfg p hn) (fun a x => True ∧ ∀ kind, InRange kind a x) _ :=
      hr.mono fun _ _ h => ⟨trivial, h⟩
    exact Reach.step ih (inRange_step hsmall hguard (recorded_step hstep).1)
      hstep

/-- The bookkeeping of the pool in state `x`, with the log `h`. -/
structure Bookkeeping (cfg : Config n σ) (x : State n σ × Rings n) (h : List (PoolEvent n)) :
    Prop where
  tracked : ∀ c, x.1.sh.pfTracked c = true ↔
    x.1.sh.pfQueue.count c = 1 ∨ ∃! i, x.1.working (.worker i) = some (.prefetch, c)
  apart : ∀ c i, x.1.working (.worker i) = some (.prefetch, c) → c ∉ x.1.sh.pfQueue
  outstanding : x.1.sh.pfOutstanding = (Finset.univ.filter fun c => x.1.sh.pfTracked c = true).card
  noUnderflow : ∀ t c, x.1.pc t = .go (.prefetchDone c) → 0 < x.1.sh.pfOutstanding
  distinct : x.1.sh.pfQueue.Nodup
  /-- the queues are what the code reads from the rings -/
  ring : ∀ q, x.1.sh.pool.queue q = (x.2.queue q).entries (2 ^ 32) (queueCap n)
  /-- the prefetch ring never has more entries than there are chunks -/
  room : x.2.prefetch.len ≤ n
  /-- a job that has left its queue was dequeued by one worker, in the queue's order, and the
  others are in the ring -/
  fifo : ∀ q, enqueued q h = (dequeued q h).map Prod.snd ++ x.1.sh.pool.queue q
  worker : ∀ q, ∀ e ∈ dequeued q h, ∃ i, e.1 = .worker i
  /-- a worker has executed what it dequeued, but for the job in its hands -/
  worked : ∀ q t, (dequeued q h).filter (fun e => e.1 = t) =
    (executed q h).filter (fun e => e.1 = t) ++ inHand q t (x.1.working t)
  drained : hasPool cfg = true → (x.1.pc .handler).point = .exited → ∀ q, x.1.sh.pool.queue q = [] ∧
    enqueued q h = (dequeued q h).map Prod.snd ∧ (executed q h).Perm (dequeued q h)

/-- While the index of every entry that is pushed is a word, `pf_tracked` and `pf_outstanding`
describe the queued and running prefetches, the rings lose nothing, every job is dequeued by one
worker, and the pool has executed them all when it is stopped. -/
theorem pool_bookkeeping (cfg : Config n σ) (p : σ) (hn : 0 < n) (hword : n < 2 ^ 32)
    {h : List (PoolEvent n)}
    (hreach : Reach (logging cfg p hn) (fun a y => ∀ kind, InRange kind a y.1) (x, h)) :
    Bookkeeping cfg x h := by
  have hlists := Reach.unlogging hreach
  have hr : Reachable (pager cfg p) x.1 := Reachable.of_recorded hlists
  have hs := Reach.sound hr
  have ht := Reach.tracks hword hr
  have hlog := Reach.logged hlists
  have hrings : Reach (ringed cfg p hn) (fun a x => ∀ kind, InRange kind a x) (x, h).1 :=
    Reach.of_recorded hreach
  have hringed : Ringed cfg x.1 x.2 := Reach.ringed hrings
  have hlen : x.1.sh.pfQueue.length ≤ n := ht.nodup.length_le_card.trans (Fintype.card_fin n).le
  refine ⟨fun c => ?_, fun c i => ht.apart _ c, ht.outstanding, fun t c hpc => ?_, ht.nodup,
    hringed.queue, (hringed.length .prefetch).le.trans hlen, hlog.fifo, fun q e he => ?_, hlog.worked,
    fun hpool hexit q => ?_⟩
  · refine (ht.tracked c).trans (or_congr ?_ ?_)
    · constructor
      · exact List.count_eq_one_of_mem ht.nodup
      · exact fun hcount => List.count_pos_iff.1 (hcount ▸ Nat.one_pos)
    · constructor
      · rintro ⟨t, hw⟩
        obtain ⟨i, rfl⟩ := hs.eq_worker (Point.working_kind hw)
        exact ⟨i, hw, fun j hj => Tid.worker.inj (ht.unique _ _ c hj hw)⟩
      · rintro ⟨i, hw, -⟩
        exact ⟨.worker i, hw⟩
  · refine ht.outstanding_pos (t := t) (c := c) ?_
    rw [State.working, hpc]
    rfl
  · exact Reach.dequeued_worker hlists q e.1 e.2 (mem_dequeued.1 he)
  · obtain ⟨hempty, hidle⟩ := Reach.exited hpool hr hexit
    have hfifo := hlog.fifo q
    rw [hempty q, List.append_nil] at hfifo
    exact ⟨hempty q, hfifo, hlog.drained hidle q⟩

/-- With `UINT32_MAX` slots and the head at the last one, the third entry of the ring is written over
the second. -/
theorem entries_wordPush_third {α : Type} {r : RingBuffer α} (hhead : r.head = UINT32_MAX - 1)
    (hlen : r.len = 2) (a : α) : (r.wordPush (2 ^ 32) UINT32_MAX a).entries (2 ^ 32) UINT32_MAX =
      [r.slot (UINT32_MAX - 1), a, a] := by
  simp [RingBuffer.entries, RingBuffer.wordPush, RingBuffer.wordPos, hhead, hlen, UINT32_MAX,
    List.range_succ]

/-- The dispatcher enqueues a job, whatever the ring makes of it. -/
theorem enqueue_logged (p : σ) (hn : 0 < n) {m : Msg} (hpc : x.1.pc .handler = .go (.enqueue m c))
    (hroom : x.1.sh.demandQueue.length < queueCap n) (hlen : x.2.demand.len = x.1.sh.demandQueue.length) :
    ∃ x', (ringed cfg p hn).step (.exec .handler {}) x = some x' ∧
      x'.1.sh.pool.queue .demand =
        (x.2.demand.wordPush (2 ^ 32) (queueCap n) c).entries (2 ^ 32) (queueCap n) ∧
      poolNote (.exec .handler {}) x.1 x'.1 = [.enqueued .demand c] := by
  have hexec : exec cfg .handler {} x.1.sh (.enqueue m c) = .next { x.1.sh with
      demandQueue := x.1.sh.demandQueue ++ [c] } .drain := if_neg (not_le_of_gt hroom)
  have hrings : x.2.step cfg (.exec .handler {}) x.1 = _ := x.2.step_exec hpc
  refine ⟨_, ringed_exec hpc hexec, ?_, ?_⟩
  · rw [hrings]
    rfl
  · have hgrows : x.1.sh.demandQueue.length <
        ((x.2.demand.wordPush (2 ^ 32) (queueCap n) c).entries (2 ^ 32) (queueCap n)).length := by
      rw [RingBuffer.length_entries]
      show _ < x.2.demand.len + 1
      omega
    have hpoint : ((x.1.arrive .handler { x.1.sh with
        demandQueue := x.1.sh.demandQueue ++ [c] } .drain).pc .handler).point = .drain := by
      simp [State.arrive]
    rw [poolNote, hrings, hpc]
    refine congrArg₂ (· ++ ·) (noteQueue_grows rfl ?_) (noteWork_same .handler ?_)
    · exact hgrows
    · exact (congrArg Point.working hpoint).trans rfl

/-- Thread `i` touches chunk `i`. -/
def firstThree (i : ℕ) : Fin (UINT32_MAX - 1) := ⟨min i 2, (min_le_right i 2).trans_lt (by decide)⟩

theorem pool_bookkeeping_fails : ∃ x h,
    Reachable (logging (starved (UINT32_MAX - 1) (by decide)) () (by decide)) (x, h) ∧
      ¬ Bookkeeping (starved (UINT32_MAX - 1) (by decide)) x h := by
  obtain ⟨m, v, ⟨x, hreach, hpc, hdemand, -⟩, hholds, hhead⟩ :=
    Reaches.third (starved_starved (UINT32_MAX - 1) (by decide)) () (by decide) rfl firstThree
      (by decide) (by decide) (by decide)
  rw [← hdemand] at hholds hhead
  have hgo := congrFun hpc .handler
  rw [update_self] at hgo
  obtain ⟨h, hlog⟩ := Reach.exists_recorded (fun a x x' => poolNote a x.1 x'.1)
    (hreach.mono fun a x hok => hok.1)
  have hqueue : x.1.sh.demandQueue = [firstThree 0, firstThree 1] :=
    (Reach.ringed hreach).demandQueue.trans hholds.entries
  have hfifo := (Reach.logged (Reach.unlogging hlog)).fifo .demand
  rw [show x.1.sh.pool.queue .demand = _ from hqueue] at hfifo
  obtain ⟨x', hstep, hqueue', hnote⟩ := enqueue_logged () (by decide) hgo
    (by rw [hqueue]; decide) (by rw [hqueue]; exact hholds.length)
  refine ⟨x', _, Reach.step hlog.reachable trivial (step_recorded hstep h), fun hlaw => ?_⟩
  -- job 1 has been overwritten
  have hlost := hlaw.fifo .demand
  rw [hnote, hqueue', enqueued_put, dequeued_put, hfifo, if_pos rfl,
    show queueCap (UINT32_MAX - 1) = UINT32_MAX from rfl, entries_wordPush_third hhead hholds.length, List.append_assoc] at hlost
  have hentries := List.append_cancel_left hlost
  exact absurd (List.cons.inj (List.cons.inj hentries).2).1 (by decide)

/-- The pool is stopped before worker 0 has fetched chunk 0 and enqueued the prefetch of
chunk 1, which worker 1 takes; then both return. -/
def drainAll : List (Action 4) :=
  faultZero ++ [.requestStop, .exec .handler {}, .exec .handler {}, .acquire .handler,
    .exec .handler {}] ++ retainOne.drop faultZero.length ++ [.acquire (.worker 0),
    .exec (.worker 0) {}, .exec (.worker 0) {}, .acquire (.worker 0), .exec (.worker 0) {},
    .exec (.worker 1) {}, .acquire (.worker 1), .exec (.worker 1) {}, .acquire (.worker 1),
    .exec (.worker 1) {}, .exec .handler {}]

theorem drainAll_runs : (run (logging fourAhead fourAheadCycle (by decide)) drainAll
    (logging fourAhead fourAheadCycle (by decide)).init).isSome = true := by
  decide +kernel

theorem pool_bookkeeping_fourAhead : ∃ (s : State 4 LoDeclared) (h : List (PoolEvent 4)),
    (s.pc .handler).point = .exited ∧ enqueued .prefetch h = [1] ∧
      (executed .prefetch h).Perm (dequeued .prefetch h) := by
  have hexit : (((run (logging fourAhead fourAheadCycle (by decide)) drainAll
    (logging fourAhead fourAheadCycle (by decide)).init).get drainAll_runs).1.1.pc .handler).point =
      .exited := by decide +kernel
  have hb := pool_bookkeeping fourAhead fourAheadCycle (by decide) (by decide)
    (Reach.logging_inRange (by decide) (reachable_get drainAll drainAll_runs))
  exact ⟨_, _, hexit, by decide +kernel, (hb.drained rfl hexit .prefetch).2.2⟩

end Residctl.Pager
