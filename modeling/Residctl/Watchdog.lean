import Residctl.Demand

/-!
# The watchdog

`pager_fetching_watchdog` takes a chunk for orphaned when it has been `FETCHING` for long and
its lock is free. A job that waits in the demand queue looks the same. The reclaims are
harmless exactly as long as no job waits for the timeout when a pass starts (`Timely`):
then there are none. The demand queue is in its ring, as in `SingleFetch`.
-/

namespace Residctl.Pager

open Mutex Function Runs

variable {n : ℕ} {σ : Type} {cfg : Config n σ} {s s' : State n σ} {a : Action n} {t : Tid}
  {io : Input n} {sh' : Shared n σ} {k k' : Point n} {c d : Fin n}

/-- The chunk's demand job waits for a worker or for the chunk's lock. -/
def State.Pending (s : State n σ) (c : Fin n) : Prop :=
  c ∈ s.sh.demandQueue ∨ ∃ t, (s.pc t).point = .checkDemand c

/-- When the dispatcher starts a pass of the watchdog, no chunk whose job is pending has
reached the timeout. -/
def Timely (cfg : Config n σ) (a : Action n) (s : State n σ) : Prop :=
  match a, s.pc .handler with
  | .exec .handler _, .go .top => ∀ c, s.Pending c → ¬ Stuck cfg s.sh s.sh.clock c
  | _, _ => True

/-- The time of the current pass of the watchdog. -/
def Point.watchTime : Point n → Option ℕ
  | .watch now _ => some now
  | .tryReclaim now _ => some now
  | _ => none

/-- During a pass no pending job is old. -/
def Young (cfg : Config n σ) (s : State n σ) : Prop :=
  ∀ now, (s.pc .handler).point.watchTime = some now → ∀ c, s.Pending c → ¬ Stuck cfg s.sh now c

/-- A `FETCHING` chunk whose lock the watchdog gets has a pending job. -/
theorem pending_of_reclaim (hs : Sound cfg s) (hserved : Served cfg s) {now : ℕ}
    (hpc : s.pc .handler = .go (.tryReclaim now c))
    (hst : (s.sh.region.chunks c).state = .fetching) : s.Pending c := by
  refine (hserved.charged c hst).imp id fun ⟨t, hown⟩ => ⟨t, ?_⟩
  refine hown.picked_or.resolve_right fun hbase => ?_
  have hholds : .chunk c ∈ (s.pc .handler).holds := by
    rw [hpc]
    exact Point.needs_mem_holds rfl
  obtain rfl : t = .handler := hs.owned.unique ((s.pc t).base_subset_holds hbase) hholds
  rw [hpc] at hbase
  cases hbase

theorem Young.no_reclaim (h : Young cfg s) (hs : Sound cfg s) (hserved : Served cfg s) {now : ℕ}
    (hpc : s.pc .handler = .go (.tryReclaim now c)) : ¬ Stuck cfg s.sh now c := fun hstuck =>
  h now (by rw [hpc]; rfl) c (pending_of_reclaim hs hserved hpc hstuck.1) hstuck

theorem Point.watchTime_kind {now : ℕ} (h : k.watchTime = some now) :
    k.kind = .handler ∧ ∀ c, ¬ k.Owns c := by
  cases k with
  | watch now' r => exact ⟨rfl, by rintro _ ⟨⟩⟩
  | tryReclaim now' d => exact ⟨rfl, by rintro _ ⟨⟩⟩
  | _ => cases h

/-- A thread that lets go of a chunk does not start a pass. -/
theorem leaves_not_watch (hexec : exec cfg t io s.sh k = .next sh' k') (hleave : k.Leaves c) :
    k'.watchTime = none := by
  cases exec_branch hexec with
  | enqueue _ => rfl
  | @job j i _ _ h =>
    rw [h.eq_after hleave.1]
    cases j <;> rfl
  | _ => cases hleave

/-- A pass starts at the top of the loop and changes nothing while it reclaims nothing. -/
theorem watch_exec {now : ℕ} (hexec : exec cfg t io s.sh k = .next sh' k')
    (hnow : k'.watchTime = some now) (hno : ∀ now d, k = .tryReclaim now d → ¬ Stuck cfg s.sh now d) :
    sh' = s.sh ∧ (k.watchTime = some now ∨ k = .top ∧ now = s.sh.clock) := by
  have hnone : ∀ c, ¬ k.Owns c := by
    intro c hown
    rcases (exec_flow hexec).keep c hown with hown' | hleave
    · exact (Point.watchTime_kind hnow).2 c hown'
    · rw [leaves_not_watch hexec hleave] at hnow
      cases hnow
  cases exec_branch hexec with
  | watchdog _ _ => exact ⟨rfl, Or.inr ⟨rfl, (Option.some.inj hnow).symm⟩⟩
  | stuck _ | notStuck _ | spare _ => exact ⟨rfl, Or.inl hnow⟩
  | reclaim hstuck => exact absurd hstuck (hno _ _ rfl)
  | @beginSilently m c _ _ | @onFault m c =>
    unfold afterFault at hnow
    split at hnow <;> cases hnow
  | @notifySilently c _ _ | @onAccess c =>
    unfold afterAccess at hnow
    split at hnow <;> cases hnow
  | @job j i _ _ h => exact absurd (Point.owns_target j i) (hnone j.target)
  | _ => cases hnow

/-- Jobs become pending through the dispatcher only. -/
theorem pending_arrive (hs : Sound cfg s) (hpc : s.pc t = .go k)
    (hexec : exec cfg t io s.sh k = .next sh' k') (hc : (s.arrive t sh' k').Pending c) :
    s.Pending c ∨ ∃ m, k = .enqueue m c := by
  have hpoint : (∃ u, ((s.arrive t sh' k').pc u).point = .checkDemand c) →
      k' = .checkDemand c ∨ ∃ u, (s.pc u).point = .checkDemand c := by
    rintro ⟨u, hu⟩
    by_cases hut : u = t
    · subst hut
      exact Or.inl (by simpa [State.arrive] using hu)
    · exact Or.inr ⟨u, by simpa [State.arrive, hut] using hu⟩
  have hmem : (s.arrive t sh' k').sh.demandQueue = sh'.demandQueue := rfl
  rw [State.Pending, hmem] at hc
  rcases queue_exec hs hpc hexec with ⟨hqueue, hdemand⟩ | ⟨m, c₀, rfl, rfl, hqueue, hphase⟩ |
    ⟨c₀, rfl, rfl, hqueue, hphase⟩
  · rw [hqueue] at hc
    exact Or.inl (hc.imp id fun hp => (hpoint hp).resolve_left (hdemand c))
  · rw [hqueue, List.mem_append, List.mem_singleton] at hc
    rcases hc with (hold | rfl) | hp
    · exact Or.inl (Or.inl hold)
    · exact Or.inr ⟨m, rfl⟩
    · exact Or.inl (Or.inr ((hpoint hp).resolve_left (by simp)))
  · left
    rcases hc with hold | hp
    · exact Or.inl (by rw [hqueue]; exact List.mem_cons_of_mem _ hold)
    · rcases hpoint hp with heq | hold
      · obtain rfl : c₀ = c := Point.checkDemand.inj heq
        exact Or.inl (by rw [hqueue]; exact List.mem_cons_self)
      · exact Or.inr hold

theorem stuck_of_phase {sh : Shared n σ} {now : ℕ} (h : sh'.view.phase c = sh.view.phase c)
    (hstuck : Stuck cfg sh' now c) : Stuck cfg sh now c := by
  have hst : (sh'.region.chunks c).state = (sh.region.chunks c).state := congrArg Prod.fst h
  have hsince : (sh'.region.chunks c).fetchingSinceNs = (sh.region.chunks c).fetchingSinceNs :=
    congrArg Prod.snd h
  rw [Stuck, hst, hsince] at hstuck
  exact hstuck

theorem Tokens.fetching (h : Tokens s) (hc : s.Pending c) :
    (s.sh.region.chunks c).state = .fetching := by
  rcases hc with hc | ⟨t, hp⟩
  · exact (h.queued c hc).1
  · exact (h.picked t c hp).1

/-- Nobody fetches a chunk whose job is pending. -/
theorem Tokens.not_job (h : Tokens s) (hc : s.Pending c) {j : Job n} {i : Instr n}
    (hpt : (s.pc t).point = .job j i) : c ≠ j.target := by
  rintro rfl
  have hown : (s.pc t).point.Owns j.target := by
    rw [hpt]
    exact Point.owns_target j i
  rcases hc with hc | ⟨u, hp⟩
  · exact (h.queued j.target hc).2 t hown
  · obtain rfl := (h.picked u j.target hp).2 t hown
    rw [hpt] at hp
    cases hp

theorem Young.exec (h : Young cfg s) (ht : Tokens s) (hs : Sound cfg s) (hserved : Served cfg s)
    (hpc : s.pc t = .go k) (hexec : Pager.exec cfg t io s.sh k = .next sh' k')
    (htime : k = .top → ∀ c, s.Pending c → ¬ Stuck cfg s.sh s.sh.clock c) :
    Young cfg (s.arrive t sh' k') := by
  have hno : ∀ now d, k = .tryReclaim now d → ¬ Stuck cfg s.sh now d := by
    rintro now d rfl
    obtain rfl : t = .handler := hs.eq_handler (by rw [hpc]; rfl)
    exact h.no_reclaim hs hserved hpc
  intro now hnow c hc
  by_cases hth : t = .handler
  · -- the pass goes on, or starts
    subst hth
    obtain ⟨rfl, hk⟩ := watch_exec hexec (by simpa [State.arrive] using hnow) hno
    have hpend : s.Pending c := by
      refine (pending_arrive hs hpc hexec hc).resolve_right ?_
      rintro ⟨m, rfl⟩
      rcases hk with hk | ⟨hk, -⟩ <;> cases hk
    rcases hk with hk | ⟨rfl, rfl⟩
    · exact h now (by rw [hpc]; exact hk) c hpend
    · exact htime rfl c hpend
  · -- the others leave pending jobs and their time stamps alone
    have hold : (s.pc .handler).point.watchTime = some now := by
      simpa [State.arrive, Ne.symm hth] using hnow
    have hpend : s.Pending c := by
      refine (pending_arrive hs hpc hexec hc).resolve_right ?_
      rintro ⟨m, rfl⟩
      exact hth (hs.eq_handler (by rw [hpc]; rfl))
    rcases phase_exec hs hpc hexec hno (ht.fetching hpend) with hphase | ⟨j, i, rfl, hj⟩
    · exact fun hstuck => h now hold c hpend (stuck_of_phase hphase hstuck)
    · exact absurd hj (ht.not_job hpend (by rw [hpc]; rfl))

/-- A step that changes neither the chunks nor the queue nor what the points say about jobs. -/
theorem Young.congr (h : Young cfg s) (hchunks : s'.sh.region.chunks = s.sh.region.chunks)
    (hqueue : s'.sh.demandQueue = s.sh.demandQueue)
    (hdemand : ∀ t c, (s'.pc t).point = .checkDemand c → (s.pc t).point = .checkDemand c)
    (hwatch : ∀ now, (s'.pc .handler).point.watchTime = some now →
      (s.pc .handler).point.watchTime = some now) : Young cfg s' := by
  intro now hnow c hc
  have hpend : s.Pending c := by
    rw [State.Pending, hqueue] at hc
    exact hc.imp id fun ⟨t, hp⟩ => ⟨t, hdemand t c hp⟩
  have hold := h now (hwatch now hnow) c hpend
  rw [Stuck] at hold ⊢
  rwa [hchunks]

theorem Young.step (h : Young cfg s) (ht : Tokens s) (hs : Sound cfg s) (hserved : Served cfg s)
    (hok : Timely cfg a s) (hstep : step cfg a s = some s') : Young cfg s' := by
  cases moves_of_step hstep with
  | acquire hpc hneeds hfree =>
    refine h.congr rfl rfl (fun t' c hp => ?_) fun now hnow => ?_
    · rwa [← acquire_point hpc t']
    · rwa [← acquire_point hpc .handler]
  | @giveUp _ now c hpc =>
    refine h.congr rfl rfl (fun t' c' hp => ?_) fun now' hnow => ?_
    · by_cases ht' : t' = .handler
      · subst ht'
        simp [State.arrive] at hp
      · simpa [State.arrive, ht'] using hp
    · have hsame : (Point.watch (n := n) now (c.1 + 1)).watchTime = some now' := by
        simpa only [State.arrive, update_self, enter_point] using hnow
      rw [hpc]
      exact hsame
  | @exec _ t io k sh k' hpc hexec =>
    refine h.exec ht hs hserved hpc hexec ?_
    rintro rfl
    obtain rfl : t = .handler := hs.eq_handler (by rw [hpc]; rfl)
    simpa [Timely, hpc] using hok
  | tick _ => exact h.congr rfl rfl (fun _ _ => id) fun _ => id
  | drop _ => exact h.congr rfl rfl (fun _ _ => id) fun _ => id
  | requestStop => exact h.congr rfl rfl (fun _ _ => id) fun _ => id

theorem Young.noReclaim (h : Young cfg s) (hs : Sound cfg s) (hserved : Served cfg s)
    (a : Action n) : NoReclaim cfg a s := by
  unfold NoReclaim
  split
  · rename_i io now c hpc
    exact h.no_reclaim hs hserved hpc
  · trivial

/-- What a timely run keeps up. -/
structure Watched (cfg : Config n σ) (s : State n σ) : Prop where
  backed : Backed cfg s
  served : Served cfg s
  tokens : Tokens s
  young : Young cfg s

theorem Watched.init (cfg : Config n σ) (p : σ) : Watched cfg (pager cfg p).init where
  backed := Backed.init cfg p
  served := Served.init cfg p
  tokens := Tokens.init cfg p
  young := by rintro now ⟨⟩

theorem Watched.step (h : Watched cfg s) (hs : Sound cfg s) (hok : Timely cfg a s)
    (hstep : Pager.step cfg a s = some s') : Watched cfg s' where
  backed := h.backed.step hs hstep
  served := h.served.step h.backed hs hstep
  tokens := h.tokens.step hs (h.young.noReclaim hs h.served a) hstep
  young := h.young.step h.tokens hs h.served hok hstep

theorem Watched.requeue (h : Watched cfg s) (l : List (Fin n)) :
    Watched cfg (s.requeue s.sh.demandQueue l) where
  backed := ⟨h.backed.mapped, h.backed.bytes, h.backed.loading⟩
  served := ⟨h.served.charged, h.served.unmapped, h.served.lookup, h.served.awaits⟩
  tokens := h.tokens.requeue l
  young := h.young

/-- In a timely run the watchdog reclaims nothing. -/
theorem Reach.watched {p : σ} {hn : 0 < n} {x : State n σ × Rings n}
    (h : Reach (Pager.ringed cfg p hn) (fun a x => Timely cfg a x.1 ∧ InRange .demand a x) x) :
    Watched cfg x.1 :=
  Reach.demand_invariant (Watched.init cfg p) (fun _ _ _ hs hok hw hstep => hw.step hs hok hstep)
    (fun _ l hw => hw.requeue l) h

/-! ## The law -/

/-- A demand job of the chunk is queued, or a worker has dequeued it and not resolved it. -/
def State.Unresolved (s : State n σ) (c : Fin n) : Prop :=
  c ∈ s.sh.demandQueue ∨ ∃ t, (s.pc t).point = .checkDemand c ∨ ∃ i, (s.pc t).point = .job (.demand c) i

/-- What the watchdog owes to the demand jobs. -/
structure WatchdogSound (cfg : Config n σ) (s : State n σ) : Prop where
  /-- it reclaims orphaned chunks only -/
  reclaims : ∀ now c, s.pc .handler = .go (.tryReclaim now c) → Stuck cfg s.sh now c →
    ¬ s.Unresolved c
  /-- a worker finds the chunk of its job `FETCHING` -/
  dequeued : ∀ t c, (s.pc t).point = .checkDemand c → (s.sh.region.chunks c).state = .fetching
  nodup : s.sh.demandQueue.Nodup
  /-- the aborts of `do_one_demand` and of `prefetch_pool_enqueue_demand` are out of reach -/
  noAbort : ∀ t io k, s.pc t = .go k → (∃ c, k = .checkDemand c ∨ ∃ m, k = .enqueue m c) →
    exec cfg t io s.sh k ≠ .abort

/-- If no pending job has reached the timeout whenever a pass of the watchdog starts, the
watchdog is sound, as long as the capacity of the demand ring and the index of its entries are
words. -/
theorem watchdog_sound (cfg : Config n σ) (p : σ) (hn : 0 < n) (hcap : n < UINT32_MAX)
    {x : State n σ × Rings n}
    (h : Reach (ringed cfg p hn) (fun a x => Timely cfg a x.1 ∧ InRange .demand a x) x) :
    WatchdogSound cfg x.1 := by
  have hs : Sound cfg x.1 := (Reach.ringed h).sound
  have hw := Reach.watched h
  refine ⟨fun now c hpc hstuck => ?_, fun t c hp => (hw.tokens.picked t c hp).1, hw.tokens.nodup,
    fun t io k hpc hk => hw.tokens.noAbort hcap hpc hk⟩
  exact absurd hstuck (hw.young.no_reclaim hs hw.served hpc)

/-- While chunk 0 waits for a worker its fetch reaches the timeout; the watchdog gets its lock. -/
def reclaimZero : List (Action 2) :=
  dispatchZero ++ [.tick 1000000, .exec .handler {}, .exec .handler {}, .exec .handler {},
    .acquire .handler]

theorem reclaimZero_runs : (run (ringed twoPages () (by decide)) reclaimZero
    (ringed twoPages () (by decide)).init).isSome = true := by
  decide +kernel

theorem watchdog_unsound : ∃ x, Reachable (ringed twoPages () (by decide)) x ∧
    ¬ WatchdogSound twoPages x.1 :=
  ⟨_, reachable_get reclaimZero reclaimZero_runs, fun h =>
    h.reclaims 1000001 0 (by decide +kernel) (by decide +kernel) (Or.inl (by decide +kernel))⟩

/-- A step that does not start a pass of the watchdog. -/
def WithinPass (a : Action n) (s : State n σ) : Prop :=
  match a, s.pc .handler with
  | .exec .handler _, .go .top => False
  | _, _ => True

instance (a : Action n) (s : State n σ) : Decidable (WithinPass a s) := by
  unfold WithinPass
  induction a using Action.casesOn with
  | exec t io =>
    induction t using Tid.casesOn with
    | handler =>
      induction s.pc .handler using Pc.casesOn with
      | go k => induction k using Point.casesOn <;> dsimp only <;> infer_instance
      | _ => dsimp only; infer_instance
    | _ => dsimp only; infer_instance
  | _ => dsimp only; infer_instance

theorem WithinPass.timely (h : WithinPass a s) : Timely cfg a s := by
  unfold WithinPass at h
  unfold Timely
  split
  · simp_all
  · trivial

/-- Nothing is pending at first. -/
theorem timely_init (cfg : Config n σ) (p : σ) (a : Action n) :
    Timely cfg a (pager cfg p).init := by
  unfold Timely
  split
  · rintro c (hc | ⟨t, hp⟩)
    · cases hc
    · have haside := init_aside cfg p t
      rw [hp] at haside
      exact absurd rfl (haside.1 c)
  · trivial

/-- The dispatcher starts its first pass. -/
theorem firstPass_runs : ((ringed twoPages () (by decide)).step (.exec .handler {})
    (ringed twoPages () (by decide)).init).isSome = true := by
  decide +kernel

/-- Worker 0 dequeues the job of chunk 0 within the first pass. -/
def pickZero : List (Action 2) :=
  [.tick 1, .exec (.client 0) {}, .exec (.client 0) {}] ++ List.replicate 5 (.exec .handler {}) ++
    [.acquire .handler, .exec .handler {}, .acquire .handler, .exec .handler {},
      .acquire (.worker 0), .exec (.worker 0) {}]

theorem pickZero_runs : (runIf (ringed twoPages () (by decide)) (fun a x => WithinPass a x.1) pickZero
    (((ringed twoPages () (by decide)).step (.exec .handler {})
      (ringed twoPages () (by decide)).init).get firstPass_runs)).isSome = true := by
  decide +kernel

theorem watchdog_sound_twoPages : ∃ s : State 2 Unit,
    (s.pc (.worker 0)).point = .checkDemand 0 ∧ WatchdogSound twoPages s := by
  have hpass : Reach (ringed twoPages () (by decide)) (fun a x => Timely twoPages a x.1)
      (((ringed twoPages () (by decide)).step (.exec .handler {})
        (ringed twoPages () (by decide)).init).get firstPass_runs) :=
    Reach.step Reach.init (timely_init twoPages () _) (Option.some_get firstPass_runs).symm
  have hpick := Reach.runIf (fun _ _ => WithinPass.timely) hpass (Option.some_get pickZero_runs).symm
  exact ⟨_, by decide +kernel, watchdog_sound twoPages () (by decide) (by decide)
    ((Reach.inRange (by decide) hpick).mono fun _ _ h => ⟨h.1, h.2 .demand⟩)⟩

end Residctl.Pager
