import Residctl.Faults
import Residctl.Overflow

/-!
# One fetch at a time

As long as the watchdog reclaims nothing, the demand queue holds distinct `FETCHING`
chunks that nobody else is in charge of (`Tokens`), and a chunk is fetched by one thread
at most. That takes a ring that loses no job: with `UINT32_MAX` chunks `demand_cap` is 0, and
the first job aborts.
-/

namespace Residctl.Pager

open Mutex Function Runs

variable {n : ℕ} {σ : Type} {cfg : Config n σ} {s s' : State n σ} {a : Action n} {t : Tid}
  {io : Input n} {sh' : Shared n σ} {k k' : Point n} {c d : Fin n}

/-! ## The jobs of the demand queue -/

/-- The step is not a reclaim by the watchdog. -/
def NoReclaim (cfg : Config n σ) (a : Action n) (s : State n σ) : Prop :=
  match a, s.pc .handler with
  | .exec .handler _, .go (.tryReclaim now c) => ¬ Stuck cfg s.sh now c
  | _, _ => True

instance (cfg : Config n σ) (a : Action n) (s : State n σ) : Decidable (NoReclaim cfg a s) := by
  unfold NoReclaim
  induction a using Action.casesOn with
  | exec t io =>
    induction t using Tid.casesOn with
    | handler =>
      induction s.pc .handler using Pc.casesOn with
      | go k => induction k using Point.casesOn <;> dsimp only <;> infer_instance
      | _ => dsimp only; infer_instance
    | _ => dsimp only; infer_instance
  | _ => dsimp only; infer_instance

/-- A chunk has one demand job at most, and it is `FETCHING` until a worker takes its lock. -/
structure Tokens (s : State n σ) : Prop where
  nodup : s.sh.demandQueue.Nodup
  queued : ∀ c ∈ s.sh.demandQueue,
    (s.sh.region.chunks c).state = .fetching ∧ ∀ t, ¬ (s.pc t).point.Owns c
  picked : ∀ t c, (s.pc t).point = .checkDemand c →
    (s.sh.region.chunks c).state = .fetching ∧ ∀ t', (s.pc t').point.Owns c → t' = t

theorem Point.Owns.picked_or (h : k.Owns c) : k = .checkDemand c ∨ .chunk c ∈ k.base := by
  cases k with
  | checkDemand d => exact Or.inl (congrArg _ (show c = d from h).symm)
  | _ => exact Or.inr h

/-- Nobody comes into charge of a `FETCHING` chunk except by its job. -/
theorem owns_of_owns (hexec : exec cfg t io s.sh k = .next sh' k')
    (hst : (s.sh.region.chunks c).state = .fetching) (hk' : k'.Owns c) : k.Owns c ∨ k = .pick := by
  have hflow := exec_flow hexec
  rcases hk'.picked_or with hdemand | hbase
  · exact Or.inr (hflow.demand c hdemand)
  left
  rcases List.mem_append.1 (hflow.base hbase) with hneeds | hold
  · -- the step takes the lock of a chunk that is being fetched, and turns away
    cases exec_branch hexec with
    | startDemand _ => simpa [Point.needs, Point.Owns] using hneeds
    | reclaim _ | spare _ | present _ | coming _ | unwanted _ => cases hbase
    | @begin _ d hst' _ | @beginSilently _ d hst' _ | @wanted d hst' | @startMaybe _ d _ hst' =>
      obtain rfl : c = d := by simpa [Point.needs] using hneeds
      cases hst.symm.trans hst'
    | @leaveMaybe jr d hne _ =>
      obtain rfl : c = d := by simpa [Point.needs] using hneeds
      exact Or.elim (List.mem_cons.1 hbase) (fun he => absurd (Lock.chunk.inj he) hne) (by simp)
    | @job j _ _ _ hbranch =>
      cases hbranch with
      | @evict _ _ v hev =>
        obtain rfl : c = v := by simpa [Point.needs] using hneeds
        cases hst.symm.trans hev.1
      | unpinTarget => cases j <;> simp [Point.needs] at hneeds
      | _ => simp [Point.needs] at hneeds
    | _ => simp [Point.needs] at hneeds
  · exact Point.owns_of_mem_base hold

/-- A step that leaves the queue alone. -/
theorem Tokens.move (h : Tokens s) (hpc : s.pc t = .go k) (hqueue : sh'.demandQueue = s.sh.demandQueue)
    (hkeep : ∀ c, (s.sh.region.chunks c).state = .fetching →
      (sh'.region.chunks c).state = .fetching ∨ k.Owns c)
    (howns : ∀ c, (s.sh.region.chunks c).state = .fetching → k'.Owns c → k.Owns c)
    (hdemand : ∀ c, k' ≠ .checkDemand c) : Tokens (s.arrive t sh' k') := by
  have hback : ∀ t' c, (s.sh.region.chunks c).state = .fetching →
      ((s.arrive t sh' k').pc t').point.Owns c → (s.pc t').point.Owns c := by
    intro t' c hst hown
    by_cases ht : t' = t
    · subst ht
      rw [hpc]
      exact howns c hst (by simpa [State.arrive] using hown)
    · simpa [State.arrive, ht] using hown
  refine ⟨?_, fun c hc => ?_, fun t' c hp => ?_⟩
  · show sh'.demandQueue.Nodup
    rw [hqueue]
    exact h.nodup
  · have hc' : c ∈ s.sh.demandQueue := hqueue ▸ hc
    obtain ⟨hst, hnot⟩ := h.queued c hc'
    refine ⟨(hkeep c hst).resolve_right fun hk => hnot t ?_, fun t' hown => hnot t' (hback t' c hst hown)⟩
    rw [hpc]
    exact hk
  · have ht : t' ≠ t := by
      rintro rfl
      exact hdemand c (by simpa [State.arrive] using hp)
    have hp' : (s.pc t').point = .checkDemand c := by simpa [State.arrive, ht] using hp
    obtain ⟨hst, huniq⟩ := h.picked t' c hp'
    refine ⟨(hkeep c hst).resolve_right fun hk => ht (huniq t ?_).symm,
      fun u hown => huniq u (hback u c hst hown)⟩
    rw [hpc]
    exact hk

theorem Point.owns_target (j : Job n) (i : Instr n) : (Point.job j i).Owns j.target :=
  (j.owns_iff i j.target).2 j.mem_locks

/-- Only the fetch itself and a reclaim change the record of a `FETCHING` chunk. -/
theorem phase_exec (hs : Sound cfg s) (hpc : s.pc t = .go k)
    (hexec : exec cfg t io s.sh k = .next sh' k')
    (hno : ∀ now d, k = .tryReclaim now d → ¬ Stuck cfg s.sh now d)
    (hst : (s.sh.region.chunks c).state = .fetching) :
    sh'.view.phase c = s.sh.view.phase c ∨ ∃ j i, k = .job j i ∧ c = j.target := by
  have hdeed := hs.deed hpc hexec
  have hold : (s.sh.view.phase c).1 = .fetching := hst
  have hstuck : ∀ now d, k = .tryReclaim now d → ¬ ((s.sh.view.phase d).1 = .fetching ∧
      (s.sh.view.phase d).2 ≠ 0 ∧ sub64 now (s.sh.view.phase d).2 ≥ timeoutNs cfg) := hno
  generalize s.sh.view = V at hdeed hold hstuck
  generalize sh'.view = V' at hdeed
  have hset : ∀ d st since, d ≠ c → (V.setPhase d st since).phase c = V.phase c :=
    fun d st since hne => update_of_ne hne.symm _ _
  cases hdeed with
  | @begin _ _ d now _ hd hk hk' hload hleave =>
    refine Or.inl (hset d _ _ ?_)
    rintro rfl
    cases hd.symm.trans hold
  | reclaim hd hsince hage => exact absurd ⟨hd, hsince, hage⟩ (hstuck _ _ rfl)
  | @abandon j _ =>
    by_cases hcd : j.target = c
    · exact Or.inr ⟨j, _, rfl, hcd.symm⟩
    · exact Or.inl (hset j.target _ _ hcd)
  | @evict j b v _ hv =>
    refine Or.inl (hset v _ _ ?_)
    rintro rfl
    cases hv.symm.trans hold
  | @mark j _ =>
    by_cases hcd : j.target = c
    · exact Or.inr ⟨j, _, rfl, hcd.symm⟩
    · exact Or.inl (hset j.target _ _ hcd)
  | _ => exact Or.inl rfl

/-- What a step does to the demand queue. -/
theorem queue_exec (hs : Sound cfg s) (hpc : s.pc t = .go k)
    (hexec : exec cfg t io s.sh k = .next sh' k') :
    sh'.demandQueue = s.sh.demandQueue ∧ (∀ c, k' ≠ .checkDemand c) ∨
      (∃ m c, k = .enqueue m c ∧ k' = .drain ∧ sh'.demandQueue = s.sh.demandQueue ++ [c] ∧
        sh'.view.phase = s.sh.view.phase) ∨
      ∃ c, k = .pick ∧ k' = .checkDemand c ∧ s.sh.demandQueue = c :: sh'.demandQueue ∧
        sh'.view.phase = s.sh.view.phase := by
  have hflow := exec_flow hexec
  have hdeed := hs.deed hpc hexec
  show sh'.view.queue = s.sh.view.queue ∧ _ ∨
    (∃ m c, k = .enqueue m c ∧ k' = .drain ∧ sh'.view.queue = s.sh.view.queue ++ [c] ∧ _) ∨
    ∃ c, k = .pick ∧ k' = .checkDemand c ∧ s.sh.view.queue = c :: sh'.view.queue ∧ _
  generalize s.sh.view = V at hdeed
  generalize sh'.view = V' at hdeed
  cases hdeed with
  | @enqueue m c _ hlen => exact Or.inr (Or.inl ⟨m, c, rfl, rfl, rfl, rfl⟩)
  | @pick c rest _ hqueue => exact Or.inr (Or.inr ⟨c, rfl, rfl, hqueue, rfl⟩)
  | quiet hk =>
    refine Or.inl ⟨rfl, fun c hk' => ?_⟩
    rw [hflow.demand c hk'] at hk
    cases hk
  | @begin _ _ d now _ hd hk hk' hload hleave =>
    refine Or.inl ⟨rfl, fun c hkc => ?_⟩
    rw [hkc] at hk'
    cases hk'
  | turn hk' hload => exact Or.inl ⟨rfl, fun c hkc => hk' c (by rw [hkc]; rfl)⟩
  | @abandon j _ => exact Or.inl ⟨rfl, fun c => by cases j <;> rintro ⟨⟩⟩
  | _ => exact Or.inl ⟨rfl, by simp⟩

theorem owns_arrive_of_ne {t' : Tid} (ht : t' ≠ t) :
    ((s.arrive t sh' k').pc t').point.Owns c ↔ (s.pc t').point.Owns c := by
  simp [State.arrive, ht]

theorem owns_arrive_self : ((s.arrive t sh' k').pc t).point.Owns c ↔ k'.Owns c := by
  simp [State.arrive]

/-- The dispatcher queues the chunk it has made `FETCHING`. -/
theorem Tokens.enqueue (h : Tokens s) (hs : Sound cfg s) {m : Msg} {c₀ : Fin n}
    (hpc : s.pc t = .go (.enqueue m c₀)) (hqueue : sh'.demandQueue = s.sh.demandQueue ++ [c₀])
    (hstate : ∀ c, (sh'.region.chunks c).state = (s.sh.region.chunks c).state) :
    Tokens (s.arrive t sh' .drain) := by
  have hmem : .chunk c₀ ∈ (Point.enqueue m c₀).base := List.mem_cons_self
  have hst : (s.sh.region.chunks c₀).state = .fetching := by
    have hfits := hs.fits c₀
    rw [hs.role_go hpc c₀ (Point.base_subset_holds _ hmem)] at hfits
    simpa [Point.role] using hfits
  have hown : (s.pc t).point.Owns c₀ := by
    rw [hpc]
    exact hmem
  -- nobody else is in charge of it
  have hother : ∀ t', (s.pc t').point.Owns c₀ → t' = t := by
    intro t' hown'
    rcases hown'.picked_or with hp | hbase
    · exact ((h.picked t' c₀ hp).2 t hown).symm
    · exact hs.owned.unique ((s.pc t').base_subset_holds hbase)
        (by rw [hpc]; exact Point.base_subset_holds _ hmem)
  have hback : ∀ t' c, ((s.arrive t sh' .drain).pc t').point.Owns c → t' ≠ t ∧ (s.pc t').point.Owns c := by
    intro t' c hown'
    by_cases ht : t' = t
    · subst ht
      cases owns_arrive_self.1 hown'
    · exact ⟨ht, (owns_arrive_of_ne ht).1 hown'⟩
  have hnot : c₀ ∉ s.sh.demandQueue := fun hc => (h.queued c₀ hc).2 t hown
  refine ⟨?_, fun c hc => ?_, fun t' c hp => ?_⟩
  · show sh'.demandQueue.Nodup
    rw [hqueue, List.nodup_append]
    refine ⟨h.nodup, List.nodup_singleton c₀, fun x hx y hy hxy => hnot ?_⟩
    rw [List.mem_singleton] at hy
    exact hy ▸ hxy ▸ hx
  · rw [show (s.arrive t sh' .drain).sh.demandQueue = s.sh.demandQueue ++ [c₀] from hqueue,
      List.mem_append, List.mem_singleton] at hc
    rcases hc with hc | rfl
    · obtain ⟨hc₁, hc₂⟩ := h.queued c hc
      exact ⟨(hstate c).trans hc₁, fun t' hown' => hc₂ t' (hback t' c hown').2⟩
    · exact ⟨(hstate c).trans hst, fun t' hown' => (hback t' c hown').1 (hother t' (hback t' c hown').2)⟩
  · have ht : t' ≠ t := by
      rintro rfl
      simp [State.arrive] at hp
    have hp' : (s.pc t').point = .checkDemand c := by simpa [State.arrive, ht] using hp
    obtain ⟨hc₁, hc₂⟩ := h.picked t' c hp'
    exact ⟨(hstate c).trans hc₁, fun u hown' => hc₂ u (hback u c hown').2⟩

/-- A worker takes the oldest job. -/
theorem Tokens.pick (h : Tokens s) {c₀ : Fin n} (hpc : s.pc t = .go .pick)
    (hqueue : s.sh.demandQueue = c₀ :: sh'.demandQueue)
    (hstate : ∀ c, (sh'.region.chunks c).state = (s.sh.region.chunks c).state) :
    Tokens (s.arrive t sh' (.checkDemand c₀)) := by
  have hnodup := h.nodup
  rw [hqueue] at hnodup
  obtain ⟨hnot, hrest⟩ := List.nodup_cons.1 hnodup
  have hhead := h.queued c₀ (by rw [hqueue]; exact List.mem_cons_self)
  have hback : ∀ t' c, ((s.arrive t sh' (.checkDemand c₀)).pc t').point.Owns c →
      t' = t ∧ c = c₀ ∨ t' ≠ t ∧ (s.pc t').point.Owns c := by
    intro t' c hown
    by_cases ht : t' = t
    · subst ht
      exact Or.inl ⟨rfl, owns_arrive_self.1 hown⟩
    · exact Or.inr ⟨ht, (owns_arrive_of_ne ht).1 hown⟩
  refine ⟨hrest, fun c hc => ?_, fun t' c hp => ?_⟩
  · obtain ⟨hc₁, hc₂⟩ := h.queued c (by rw [hqueue]; exact List.mem_cons_of_mem _ hc)
    refine ⟨(hstate c).trans hc₁, fun t' hown => ?_⟩
    rcases hback t' c hown with ⟨-, rfl⟩ | ⟨-, hold⟩
    · exact hnot hc
    · exact hc₂ t' hold
  · by_cases ht : t' = t
    · subst ht
      obtain rfl : c₀ = c := by simpa [State.arrive] using hp
      refine ⟨(hstate c₀).trans hhead.1, fun u hown => ?_⟩
      rcases hback u c₀ hown with ⟨hu, -⟩ | ⟨-, hold⟩
      · exact hu
      · exact absurd hold (hhead.2 u)
    · have hp' : (s.pc t').point = .checkDemand c := by simpa [State.arrive, ht] using hp
      obtain ⟨hc₁, hc₂⟩ := h.picked t' c hp'
      refine ⟨(hstate c).trans hc₁, fun u hown => ?_⟩
      rcases hback u c hown with ⟨-, rfl⟩ | ⟨-, hold⟩
      · exact absurd (show (s.pc t').point.Owns c by rw [hp']; rfl) (hhead.2 t')
      · exact hc₂ u hold

theorem Tokens.exec (h : Tokens s) (hs : Sound cfg s) (hpc : s.pc t = .go k)
    (hexec : Pager.exec cfg t io s.sh k = .next sh' k')
    (hno : ∀ now d, k = .tryReclaim now d → ¬ Stuck cfg s.sh now d) :
    Tokens (s.arrive t sh' k') := by
  have hstate : sh'.view.phase = s.sh.view.phase →
      ∀ c, (sh'.region.chunks c).state = (s.sh.region.chunks c).state := by
    intro hphase c
    exact congrArg Prod.fst (congrFun hphase c)
  rcases queue_exec hs hpc hexec with ⟨hqueue, hdemand⟩ | ⟨m, c₀, rfl, rfl, hqueue, hphase⟩ |
    ⟨c₀, rfl, rfl, hqueue, hphase⟩
  · refine h.move hpc hqueue (fun c hst => ?_) (fun c hst hk' => ?_) hdemand
    · rcases phase_exec hs hpc hexec hno hst with hphase | ⟨j, i, rfl, rfl⟩
      · exact Or.inl ((congrArg Prod.fst hphase).trans hst)
      · exact Or.inr (Point.owns_target j i)
    refine (owns_of_owns hexec hst hk').resolve_right ?_
    rintro rfl
    -- a worker at its queue holds no chunk
    have hholds := (exec_flow hexec).base (hk'.picked_or.resolve_left (hdemand c))
    simp [Point.holds, Point.needs, Point.base] at hholds
  · exact h.enqueue hs hpc hqueue (hstate hphase)
  · exact h.pick hpc hqueue (hstate hphase)

/-- A step without effect on the chunk states and the demand queue. -/
theorem Tokens.congr (h : Tokens s)
    (hstate : ∀ d, (s'.sh.region.chunks d).state = (s.sh.region.chunks d).state)
    (hqueue : s'.sh.demandQueue = s.sh.demandQueue)
    (hpoint : ∀ t, (s'.pc t).point = (s.pc t).point ∨ (s'.pc t).point.Aside) : Tokens s' := by
  have howns : ∀ t c, (s'.pc t).point.Owns c → (s.pc t).point.Owns c := by
    intro t c hown
    rcases hpoint t with heq | haside
    · rwa [← heq]
    · exact absurd hown (haside.1 c)
  refine ⟨hqueue ▸ h.nodup, fun c hc => ?_, fun t c hp => ?_⟩
  · obtain ⟨hst, hnot⟩ := h.queued c (hqueue ▸ hc)
    exact ⟨(hstate c).trans hst, fun t hown => hnot t (howns t c hown)⟩
  · have hp' : (s.pc t).point = .checkDemand c := by
      rcases hpoint t with heq | haside
      · rwa [← heq]
      · rw [hp] at haside
        exact absurd rfl (haside.1 c)
    obtain ⟨hst, huniq⟩ := h.picked t c hp'
    exact ⟨(hstate c).trans hst, fun t' hown => huniq t' (howns t' c hown)⟩

theorem Tokens.step (h : Tokens s) (hs : Sound cfg s) (hok : NoReclaim cfg a s)
    (hstep : step cfg a s = some s') : Tokens s' := by
  cases moves_of_step hstep with
  | acquire hpc hneeds hfree =>
    exact h.congr (fun _ => rfl) rfl fun t' => Or.inl (acquire_point hpc t')
  | @giveUp _ now c hpc =>
    refine h.congr (fun _ => rfl) rfl fun t' => ?_
    by_cases ht : t' = .handler
    · subst ht
      simp only [State.arrive, update_self, enter_point]
      exact Or.inr ⟨by rintro _ ⟨⟩, by rintro _ _ ⟨⟩⟩
    · exact Or.inl (by simp [State.arrive, ht])
  | @exec _ t io k sh k' hpc hexec =>
    refine h.exec hs hpc hexec ?_
    rintro now d rfl
    obtain rfl : t = .handler := hs.eq_handler (by rw [hpc]; rfl)
    simpa [NoReclaim, hpc] using hok
  | tick _ => exact h.congr (fun _ => rfl) rfl fun _ => Or.inl rfl
  | drop _ => exact h.congr (fun _ => rfl) rfl fun _ => Or.inl rfl
  | requestStop => exact h.congr (fun _ => rfl) rfl fun _ => Or.inl rfl

theorem Tokens.init (cfg : Config n σ) (p : σ) : Tokens (pager cfg p).init := by
  refine ⟨List.nodup_nil, by rintro _ ⟨⟩, fun t c hp => ?_⟩
  have haside := init_aside cfg p t
  rw [hp] at haside
  exact absurd rfl (haside.1 c)

theorem Tokens.requeue (h : Tokens s) (l : List (Fin n)) : Tokens (s.requeue s.sh.demandQueue l) :=
  ⟨h.nodup, h.queued, h.picked⟩

theorem Reach.tokens {p : σ} {hn : 0 < n} {x : State n σ × Rings n}
    (h : Reach (Pager.ringed cfg p hn) (fun a x => NoReclaim cfg a x.1 ∧ InRange .demand a x) x) :
    Tokens x.1 :=
  Reach.demand_invariant (Tokens.init cfg p) (fun _ _ _ hs hok ht hstep => ht.step hs hok hstep)
    (fun _ l ht => ht.requeue l) h

/-! ## The law -/

/-- A worker has dequeued the chunk's job, or the thread runs a fetch of it. -/
def Point.Fetches : Point n → Fin n → Prop
  | .checkDemand c, d => d = c
  | .job j _, d => d = j.target
  | _, _ => False

theorem Point.Fetches.owns (h : k.Fetches c) : k.Owns c := by
  cases k with
  | checkDemand d => exact h
  | job j i =>
    obtain rfl : c = j.target := h
    exact Point.owns_target j i
  | _ => cases h

/-- Neither the state check of `do_one_demand` nor the room check of
`prefetch_pool_enqueue_demand` fails. -/
theorem Tokens.noAbort (h : Tokens s) (hn : n < UINT32_MAX) (hpc : s.pc t = .go k)
    (hk : ∃ c, k = .checkDemand c ∨ ∃ m, k = .enqueue m c) : Pager.exec cfg t io s.sh k ≠ .abort := by
  obtain ⟨c, rfl | ⟨m, rfl⟩⟩ := hk
  · have hst := (h.picked t c (by rw [hpc]; rfl)).1
    simp [Pager.exec, hst]
  · have hlen := h.nodup.length_le_card
    rw [Fintype.card_fin] at hlen
    have hroom : ¬ s.sh.demandQueue.length ≥ queueCap n := by
      rw [queueCap_of_lt hn]
      omega
    simp [Pager.exec, hroom]

/-- One thread at most fetches a chunk, the demand queue holds distinct `FETCHING` chunks, the
aborts of `do_one_demand` and `prefetch_pool_enqueue_demand` are out of reach, and a victim is
evictable until it is evicted. -/
structure SingleFetch (cfg : Config n σ) (s : State n σ) : Prop where
  unique : ∀ t t' c, (s.pc t).point.Fetches c → (s.pc t').point.Fetches c → t = t'
  nodup : s.sh.demandQueue.Nodup
  fetching : ∀ c ∈ s.sh.demandQueue, (s.sh.region.chunks c).state = .fetching
  noAbort : ∀ t io k, s.pc t = .go k → (∃ c, k = .checkDemand c ∨ ∃ m, k = .enqueue m c) →
    exec cfg t io s.sh k ≠ .abort
  evictable : ∀ t v, (s.pc t).point.victim = some v → (s.sh.region.chunks v).Evictable

/-- Without reclaims chunks are fetched one at a time, as long as the capacity of the demand ring
and the index of its entries are words. -/
theorem single_fetch (cfg : Config n σ) (p : σ) (hn : 0 < n) (hcap : n < UINT32_MAX)
    {x : State n σ × Rings n}
    (h : Reach (ringed cfg p hn) (fun a x => NoReclaim cfg a x.1 ∧ InRange .demand a x) x) :
    SingleFetch cfg x.1 := by
  have hs : Sound cfg x.1 := (Reach.ringed h).sound
  have ht := Reach.tokens h
  refine ⟨fun t t' c hf hf' => ?_, ht.nodup, fun c hc => (ht.queued c hc).1,
    fun t io k hpc hk => ht.noAbort hcap hpc hk, hs.victim⟩
  rcases hf.owns.picked_or with hp | hb
  · exact ((ht.picked t c hp).2 t' hf'.owns).symm
  · rcases hf'.owns.picked_or with hp' | hb'
    · exact (ht.picked t' c hp').2 t hf.owns
    · exact hs.owned.unique ((x.1.pc t).base_subset_holds hb) ((x.1.pc t').base_subset_holds hb')

theorem exec_enqueue_full {sh : Shared n σ} {m : Msg} (h : queueCap n ≤ sh.demandQueue.length) :
    exec cfg t io sh (.enqueue m c) = .abort := if_pos h

theorem Orderly.noReclaim {x : State n σ × Rings n} (h : Orderly a x) : NoReclaim cfg a x.1 := by
  unfold NoReclaim
  split
  · rename_i io now c hgo
    exact absurd hgo (h.2 io now c rfl)
  · trivial

/-- The capacity of the ring is 0: the first job does not fit. -/
theorem single_fetch_fails : ∃ x, Reach (ringed (starved UINT32_MAX (by decide)) () (by decide))
    (fun a x => NoReclaim (starved UINT32_MAX (by decide)) a x.1 ∧ InRange .demand a x) x ∧
      ¬ SingleFetch (starved UINT32_MAX (by decide)) x.1 := by
  have hstarved := starved_starved UINT32_MAX (by decide)
  have hblocked := Reaches.blocked hstarved () (by decide) (fun _ => ⟨0, by decide⟩) Nat.one_pos
  obtain ⟨x, hreach, hpc, -, hof⟩ := hblocked.dispatch (poised_holds _ _ 1) hstarved.async
    hstarved.policy rfl (pagerLookup_of_covers _ (covers_regionOff _ _)) rfl
  refine ⟨x, hreach.mono fun a x hok => ⟨hok.noReclaim, hok.1 .demand⟩, fun hlaw => ?_⟩
  have hgo := congrFun hpc .handler
  rw [update_self] at hgo
  refine hlaw.noAbort .handler {} _ hgo ⟨_, Or.inr ⟨_, rfl⟩⟩ (exec_enqueue_full ?_)
  rw [show queueCap UINT32_MAX = 0 from rfl]
  exact Nat.zero_le _

theorem dispatchZero_calm : (runIf (ringed twoPages () (by decide))
    (fun a x => NoReclaim twoPages a x.1) dispatchZero
      (ringed twoPages () (by decide)).init).isSome = true := by
  decide +kernel

theorem single_fetch_twoPages : ∃ s : State 2 Unit, s.sh.demandQueue = [0] ∧
    ∀ c ∈ s.sh.demandQueue, (s.sh.region.chunks c).state = .fetching :=
  ⟨_, by decide +kernel, (single_fetch twoPages () (by decide) (by decide)
    ((Reach.inRange (by decide) (reach_get dispatchZero dispatchZero_calm)).mono
      fun _ _ h => ⟨h.1, h.2 .demand⟩)).fetching⟩

end Residctl.Pager
