import Residctl.Accounting

/-!
# What the dispatcher waits for

The dispatcher should never wait for I/O. But a fetch holds its chunk's lock while it reads,
and `handle_fault` takes that lock to look at the state; and `on_fault` runs under
`budget_lock`, which a budget call keeps while it reconciles. The dispatcher is free of I/O
in the runs in which every mutex it comes to has no slow work left under it (`Courteous`).
-/

namespace Residctl.Pager

open Mutex Function Runs

variable {n : ℕ} {σ : Type} {cfg : Config n σ} {s s' : State n σ} {a : Action n} {t : Tid}
  {io : Input n} {sh sh' : Shared n σ} {k k' : Point n} {j : Job n} {i : Instr n} {c : Fin n}

/-- In the read of `fetch_chunk`, asleep in the retry loop, or reading `memory.stat`. -/
def Point.slow : Point n → Bool
  | .job _ (.read _) => true
  | .job _ (.tail _) => true
  | .job _ (.sleep _) => true
  | .job _ (.reconcile _) => true
  | _ => false

/-- The dispatcher, inside `handle_fault`, waits for no mutex whose holder is at slow work. -/
def NeverStalls (s : State n σ) : Prop :=
  ∀ k m c l t, s.pc .handler = .acq k → k.Dispatches m c → k.needs = some l →
    s.owner l = some t → (s.pc t).point.slow = false

/-! ## Slow work ahead -/

/-- The fetch is past its last read. -/
def Instr.settled : Instr n → Bool
  | ensure _ => false
  | reconcile _ => false
  | fit _ => false
  | evict _ _ => false
  | sleep _ => false
  | unpinJustResident _ => false
  | pad => false
  | read _ => false
  | tail _ => false
  | _ => true

/-- Under `budget_lock` in a budget call, which may reconcile before it releases the lock. -/
def Instr.budgetCall : Instr n → Bool
  | ensure _ => true
  | reconcile _ => true
  | fit _ => true
  | evict _ _ => true
  | _ => false

/-- The code from the point on does no slow work before it releases the mutex. -/
def Point.Settled : Point n → Lock n → Prop
  | .job j i, .chunk c => j.target = c → i.settled = true
  | .job _ i, .budget => i.budgetCall = false
  | .checkDemand _, .chunk _ => False
  | .checkPrefetch _, .chunk _ => False
  | .pinPrefetch _ _, .chunk _ => False
  | .startPrefetch _ _, .chunk _ => False
  | _, _ => True

instance (k : Point n) (l : Lock n) : Decidable (k.Settled l) := by
  unfold Point.Settled
  split <;> infer_instance

/-- The mutex is free, or its holder does no slow work under it any more. -/
def State.Yields (s : State n σ) (l : Lock n) : Prop :=
  match s.owner l with
  | some t => (s.pc t).point.Settled l
  | none => True

instance (s : State n σ) (l : Lock n) : Decidable (s.Yields l) := by
  unfold State.Yields
  split <;> infer_instance

/-- In `handle_fault`. -/
def Point.handling : Point n → Bool
  | .switch _ _ => true
  | .onFault _ _ => true
  | .enqueue _ _ => true
  | _ => false

/-- When the dispatcher comes to the mutex of a chunk, or to `budget_lock` for `on_fault`, the
mutex yields; and nobody takes a mutex that the dispatcher waits for to do slow work under it. -/
def Courteous (cfg : Config n σ) (a : Action n) (s : State n σ) : Prop :=
  match a with
  | .exec t _ =>
    match s.pc t with
    | .go .drain =>
      match s.sh.kernel.uffd.head?.bind fun m => pagerLookup cfg.table m.addr with
      | some c => s.Yields (.chunk c)
      | none => True
    | .go (.switch _ c) =>
      (s.sh.region.chunks c).state = .absent → (cfg.policy.bind Policy.onFault).isSome = true →
        s.Yields .budget
    | _ => True
  | .acquire t =>
    match (s.pc t).waits with
    | some l => (s.pc .handler).waits = some l → (s.pc .handler).point.handling = true →
        t ≠ .handler → (s.pc t).point.Settled l
    | none => True
  | _ => True

instance (cfg : Config n σ) (a : Action n) (s : State n σ) : Decidable (Courteous cfg a s) := by
  unfold Courteous
  repeat' split
  all_goals infer_instance

/-! ## The holders -/

theorem yields_iff (h : Owned Pc.holds s.owner s.pc) (l : Lock n) :
    s.Yields l ↔ ∀ t, l ∈ (s.pc t).holds → (s.pc t).point.Settled l := by
  unfold State.Yields
  split
  · rename_i t ho
    have hold := (h t l).1 ho
    exact ⟨fun hset t' h' => h.unique hold h' ▸ hset, fun hall => hall t hold⟩
  · rename_i ho
    refine ⟨fun _ t' h' => ?_, fun _ => trivial⟩
    rw [(h t' l).2 h'] at ho
    cases ho

theorem Point.settled_pool (k : Point n) : k.Settled .pool := by
  cases k <;> trivial

/-- A slow thread has not settled what it holds. -/
theorem Point.not_slow {l : Lock n} (hin : k.inline = false) (hl : l ∈ k.holds)
    (h : k.Settled l) : k.slow = false := by
  cases k with
  | job j i =>
    have hlocks : ∀ d, .chunk d ∈ j.locks → d = j.target := by
      intro d hd
      cases j with
      | maybe jr e hne => cases hin
      | _ => simpa [Job.locks, Job.target] using hd
    -- the slow instructions take no mutex; they hold the target's, and maybe `budget_lock`
    have hslow : ∀ i : Instr n, i.settled = false → (Point.job j i).needs = none →
        (i.inBudget = true → i.budgetCall = true) → l ∈ (Point.job j i).holds →
        ¬ (Point.job j i).Settled l := by
      intro i hi hneeds hb hl hset
      rw [Point.holds, hneeds, Point.base_job] at hl
      have hmem : l = .budget ∧ i.inBudget = true ∨ l ∈ j.locks := by
        split at hl
        · rename_i hin
          exact (List.mem_cons.1 hl).imp (fun he => ⟨he, hin⟩) id
        · exact Or.inr hl
      rcases hmem with ⟨rfl, hin⟩ | hmem
      · have hcall : i.budgetCall = false := hset
        rw [hb hin] at hcall
        cases hcall
      · cases l with
        | chunk d =>
          have hsettled : i.settled = true := hset (hlocks d hmem).symm
          rw [hi] at hsettled
          cases hsettled
        | _ => cases j <;> simp [Job.locks] at hmem
    cases i with
    | read off => exact absurd h (hslow _ rfl rfl (by rintro ⟨⟩) hl)
    | tail pos => exact absurd h (hslow _ rfl rfl (by rintro ⟨⟩) hl)
    | sleep b => exact absurd h (hslow _ rfl rfl (by rintro ⟨⟩) hl)
    | reconcile b => exact absurd h (hslow _ rfl rfl (fun _ => rfl) hl)
    | _ => rfl
  | _ => rfl

/-! ## What settles stays settled -/

/-- What a step of a fetch says about the slow work ahead. -/
def Instr.Onward (i i' : Instr n) : Prop :=
  (i.settled = true → i'.settled = true) ∧ (i'.inBudget = true → i.budgetCall = true)

theorem Instr.onward_of_settled {i i' : Instr n} (hset : i'.settled = true)
    (hb : i'.inBudget = false) : i.Onward i' :=
  ⟨fun _ => hset, fun h => by rw [hb] at h; cases h⟩

theorem Instr.onward_of_ahead {i i' : Instr n} (hset : i.settled = false)
    (hb : i'.inBudget = true → i.budgetCall = true) : i.Onward i' :=
  ⟨fun h => (by rw [hset] at h; cases h), hb⟩

theorem marked_settled (cfg : Config n σ) (j : Job n) : (marked cfg j).settled = true := by
  unfold marked speculate
  cases j <;> simp only [Job.speculative, if_true, if_false, Bool.false_eq_true]
  all_goals repeat' split
  all_goals rfl

theorem topNext_settled (need r : ℕ) (cursor : Fin n) :
    (topNext need r cursor).settled = true := by
  unfold topNext
  split <;> rfl

/-- A fetch of the pool goes on to an instruction without new slow work, or ends. -/
theorem JobBranch.onward (hin : (Point.job j i).inline = false)
    (h : JobBranch cfg io sh j i sh' k') : (∃ i', k' = .job j i' ∧ i.Onward i') ∨ k' = j.after := by
  cases h with
  | due _ | notDue _ | reconcile _ | reserve _ | choose _ | breakPin _ | infeasible _ | decline _
  | evict _ => exact Or.inl ⟨_, rfl, Instr.onward_of_ahead rfl fun _ => rfl⟩
  | sleep | pad | read _ _ | direct _ | tail _ _ | loaded _ =>
    exact Or.inl ⟨_, rfl, Instr.onward_of_ahead rfl (by rintro ⟨⟩)⟩
  | unpinJustResident | predictNone _ | predict _ => cases hin
  | mark =>
    exact Or.inl ⟨_, rfl, Instr.onward_of_settled (marked_settled cfg j) (marked_plain cfg j).1⟩
  | @unpinTarget _ ok => exact Or.inl ⟨_, rfl, by cases ok <;> exact Instr.onward_of_settled rfl rfl⟩
  | abandon | finishPrefetch _ | finish _ => exact Or.inr rfl
  | topNeed | topEnqueue =>
    exact Or.inl ⟨_, rfl, Instr.onward_of_settled (topNext_settled _ _ _) (topNext_plain _ _ _).1⟩
  | _ => exact Or.inl ⟨_, rfl, Instr.onward_of_settled rfl rfl⟩

/-- A worker or workload thread that keeps a mutex it has settled still has it settled. -/
theorem settled_exec (hin : k.inline = false) (hkind : k.kind ≠ .handler)
    (hexec : exec cfg t io sh k = .next sh' k') {l : Lock n} (hl : l ∈ k'.base)
    (h : k.Settled l) : k'.Settled l := by
  have hholds := (exec_flow hexec).base hl
  cases k with
  | job j i =>
    have hlocks : ∀ d, .chunk d ∈ j.locks → d = j.target := by
      intro d hd
      cases j with
      | maybe jr e hne => cases hin
      | _ => simpa [Job.locks, Job.target] using hd
    rcases (execJob_branch hexec).onward hin with ⟨i', rfl, hset, hb⟩ | rfl
    · rw [Point.base_job] at hl
      cases l with
      | chunk d =>
        have hd : d = j.target := by
          split at hl
          · exact hlocks d (by simpa using hl)
          · exact hlocks d hl
        exact fun _ => hset (h hd.symm)
      | budget =>
        have hin' : i'.inBudget = true := by
          split at hl
          · assumption
          · cases j <;> simp [Job.locks] at hl
        have hcall : i.budgetCall = false := h
        rw [hb hin'] at hcall
        cases hcall
      | pool => exact Point.settled_pool _
    · cases j with
      | maybe jr e hne => cases hin
      | _ => cases hl
  | checkDemand c =>
    -- the chunk's lock is taken for a fetch
    obtain rfl : l = .chunk c := by simpa [Point.holds, Point.needs, Point.base] using hholds
    cases h
  | checkPrefetch c =>
    obtain rfl : l = .chunk c := by simpa [Point.holds, Point.needs, Point.base] using hholds
    cases h
  | pinPrefetch ts c =>
    cases hexec
    obtain rfl : l = .chunk c := by simpa [Point.base] using hl
    cases h
  | startPrefetch ts c =>
    obtain rfl : l = .chunk c := by simpa [Point.holds, Point.needs, Point.base] using hholds
    cases h
  | pick =>
    obtain rfl : l = .pool := by simpa [Point.holds, Point.needs, Point.base] using hholds
    exact Point.settled_pool _
  | prefetchDone c =>
    obtain rfl : l = .pool := by simpa [Point.holds, Point.needs, Point.base] using hholds
    exact Point.settled_pool _
  | onAccess c =>
    cases hexec
    unfold afterAccess at hl
    split at hl <;> cases hl
  | release c =>
    cases hexec
    cases hl
  | retired => cases hexec
  | idle => cases hholds
  | touch b => cases hholds
  | _ => exact absurd rfl hkind

/-! ## Every run -/

/-- The mutex that the dispatcher waits for in `handle_fault` yields. -/
def Clear (s : State n σ) : Prop :=
  ∀ k l, s.pc .handler = .acq k → k.handling = true → k.needs = some l → s.Yields l

theorem Point.handling_iff : k.handling = true ↔ ∃ m c, k.Dispatches m c := by
  constructor
  · intro h
    cases k with
    | switch m c => exact ⟨m, c, rfl, rfl⟩
    | onFault m c => exact ⟨m, c, rfl, rfl⟩
    | enqueue m c => exact ⟨m, c, rfl, rfl⟩
    | _ => cases h
  · rintro ⟨m, c, h⟩
    cases k <;> first | rfl | cases h

theorem afterFault_handling {m : Msg} (h : (afterFault cfg m c).handling = true) :
    (afterFault cfg m c).needs = some .pool := by
  unfold afterFault at h ⊢
  split at h
  · rename_i hasync
    rw [if_pos hasync]
    rfl
  · cases h

/-- Which mutex the dispatcher comes to in `handle_fault`. -/
theorem handling_exec (hexec : exec cfg t io sh k = .next sh' k') (hk' : k'.handling = true) :
    (∃ c, k = .drain ∧ k'.needs = some (.chunk c) ∧
      (sh.kernel.uffd.head?.bind fun m => pagerLookup cfg.table m.addr) = some c) ∨
    (∃ m c, k = .switch m c ∧ k'.needs = some .budget ∧ (sh.region.chunks c).state = .absent ∧
      (cfg.policy.bind Policy.onFault).isSome = true) ∨
    k'.needs = some .pool := by
  cases exec_branch hexec with
  | @take m c rest huffd hc => exact Or.inl ⟨c, rfl, rfl, by rw [huffd]; exact hc⟩
  | @begin m c hst hhook => exact Or.inr (Or.inl ⟨m, c, rfl, rfl, hst, hhook⟩)
  | beginSilently _ _ | onFault => exact Or.inr (Or.inr (afterFault_handling hk'))
  | job h =>
    obtain ⟨m, c, hd⟩ := Point.handling_iff.1 hk'
    rcases h.flow.dispatch m c hd with hk | ⟨hk, -⟩ <;> cases hk
  | @notifySilently c _ _ | @onAccess c =>
    unfold afterAccess at hk'
    split at hk' <;> cases hk'
  | _ => cases hk'

theorem Clear.exec (h : Clear s) (hs : Sound cfg s) (hasync : cfg.asyncHandler = true)
    (hpc : s.pc t = .go k) (hexec : Pager.exec cfg t io s.sh k = .next sh' k')
    (hdrain : ∀ c, k = .drain →
      (s.sh.kernel.uffd.head?.bind fun m => pagerLookup cfg.table m.addr) = some c → s.Yields (.chunk c))
    (hswitch : ∀ m c, k = .switch m c → (s.sh.region.chunks c).state = .absent →
      (cfg.policy.bind Policy.onFault).isSome = true → s.Yields .budget) :
    Clear (s.arrive t sh' k') := by
  have hs' := hs.exec hpc hexec
  have hflow := exec_flow hexec
  have hinline := hs.not_inline hasync
  intro k₁ l hk₁ hhand hneeds
  rw [yields_iff hs'.owned]
  by_cases hth : t = .handler
  · -- the dispatcher has come to the mutex
    subst hth
    obtain rfl : k' = k₁ := by
      have hpt : ((s.arrive .handler sh' k').pc .handler).point = k₁ := by rw [hk₁]; rfl
      simpa [State.arrive] using hpt
    have hother : ∀ t', l ∈ ((s.arrive .handler sh' k').pc t').holds → t' ≠ .handler := by
      rintro t' hmem rfl
      have hbase : l ∈ k'.base := by simpa [State.arrive] using hmem
      cases k' with
      | switch m c => cases hbase
      | onFault m c =>
        obtain rfl : Lock.budget = l := Option.some.inj hneeds
        simp [Point.base] at hbase
      | enqueue m c =>
        obtain rfl : Lock.pool = l := Option.some.inj hneeds
        simp [Point.base] at hbase
      | _ => cases hhand
    intro t' hmem
    have ht' := hother t' hmem
    have hyield : s.Yields l ∨ l = .pool := by
      rcases handling_exec hexec hhand with ⟨c, rfl, hn, hm⟩ | ⟨m, c, rfl, hn, hst, hhook⟩ | hn
      · obtain rfl := Option.some.inj (hneeds.symm.trans hn)
        exact Or.inl (hdrain c rfl hm)
      · obtain rfl := Option.some.inj (hneeds.symm.trans hn)
        exact Or.inl (hswitch m c rfl hst hhook)
      · exact Or.inr (Option.some.inj (hneeds.symm.trans hn))
    rcases hyield with hy | rfl
    · have hmem' : l ∈ (s.pc t').holds := by simpa [State.arrive, ht'] using hmem
      simpa [State.arrive, ht'] using (yields_iff hs.owned l).1 hy t' hmem'
    · exact Point.settled_pool _
  · have hold := (yields_iff hs.owned l).1
      (h k₁ l (by simpa [State.arrive, Ne.symm hth] using hk₁) hhand hneeds)
    intro t' hmem
    by_cases ht' : t' = t
    · subst ht'
      have hbase : l ∈ k'.base := by simpa [State.arrive] using hmem
      have hk := hold t' (by rw [hpc]; exact hflow.base hbase)
      rw [hpc] at hk
      have hkind : k.kind ≠ .handler := by
        intro hkh
        exact hth (hs.eq_handler (by rw [hpc]; exact hkh))
      have hin := hinline t'
      rw [hpc] at hin
      simpa [State.arrive] using settled_exec hin hkind hexec hbase hk
    · have hmem' : l ∈ (s.pc t').holds := by simpa [State.arrive, ht'] using hmem
      simpa [State.arrive, ht'] using hold t' hmem'

theorem Clear.step (h : Clear s) (hs : Sound cfg s) (hasync : cfg.asyncHandler = true)
    (hok : Courteous cfg a s) (hstep : step cfg a s = some s') : Clear s' := by
  have hs' := hs.step hstep
  cases moves_of_step hstep with
  | @acquire _ t k l₀ hpc hneeds₀ hfree =>
    intro k₁ l hk₁ hhand hneeds
    have hth : t ≠ .handler := by
      rintro rfl
      simp at hk₁
    have hk₁' : s.pc .handler = .acq k₁ := by simpa [Ne.symm hth] using hk₁
    have hold := (yields_iff hs.owned l).1 (h k₁ l hk₁' hhand hneeds)
    rw [yields_iff hs'.owned]
    intro t' hmem
    by_cases ht' : t' = t
    · subst ht'
      simp only [update_self] at hmem ⊢
      rcases List.mem_append.1 (show l ∈ k.needs.toList ++ k.base from hmem) with hn | hb
      · obtain rfl : l₀ = l := by simpa [hneeds₀, eq_comm] using hn
        have hset : (s.pc t').point.Settled l₀ := by
          have hw : (s.pc t').waits = some l₀ := by rw [hpc]; exact hneeds₀
          simp only [Courteous, hw] at hok
          exact hok (by rw [hk₁']; exact hneeds) (by rw [hk₁']; exact hhand) hth
        rw [hpc] at hset
        exact hset
      · have hset := hold t' (by rw [hpc]; exact hb)
        rw [hpc] at hset
        exact hset
    · simp only [update_of_ne ht'] at hmem ⊢
      exact hold t' hmem
  | @giveUp _ now c hpc =>
    intro k₁ l hk₁ hhand hneeds
    have hk : Point.watch now (c.1 + 1) = k₁ := by
      have hpt : ((s.arrive .handler s.sh (.watch now (c.1 + 1))).pc .handler).point = k₁ := by
        rw [hk₁]
        rfl
      simpa [State.arrive] using hpt
    subst hk
    cases hhand
  | @exec _ t io k sh k' hpc hexec =>
    refine h.exec hs hasync hpc hexec ?_ ?_
    · rintro c rfl hm
      simpa [Courteous, hpc, hm] using hok
    · rintro m c rfl hst hhook
      simp only [Courteous, hpc] at hok
      exact hok hst hhook
  | tick _ => exact h
  | drop _ => exact h
  | requestStop => exact h

/-- In the async pager, as long as the mutexes that the dispatcher comes to have no slow work
left under them, it never waits for a read, a retry or a reconciliation. -/
theorem never_stalls (cfg : Config n σ) (p : σ) (hasync : cfg.asyncHandler = true)
    (h : Reach (pager cfg p) (Courteous cfg) s) : NeverStalls s := by
  have hs : Sound cfg s := Reach.sound h
  have hclear : Clear s := by
    refine h.invariant (I := Clear) (fun k l hk hhand hneeds => ?_) fun a s s' hr hok hc hstep => ?_
    · cases hk
    · exact hc.step (Reach.sound hr) hasync hok hstep
  intro k m c l t hk hd hneeds howner
  have hyield := hclear k l hk (Point.handling_iff.2 ⟨m, c, hd⟩) hneeds
  have hmem := (hs.owned t l).1 howner
  have hset := (yields_iff hs.owned l).1 hyield t hmem
  have hin := hs.not_inline hasync t
  cases hpt : s.pc t with
  | go k' =>
    rw [hpt] at hmem hset hin
    exact Point.not_slow hin hmem hset
  | acq k' =>
    -- a slow point takes no mutex
    have hwait := hs.waiting t k' hpt
    cases k' with
    | job j i =>
      cases i <;> first | rfl | cases hwait
    | _ => rfl

theorem switchZero_runs : (runIf (pager twoPages ()) (Courteous twoPages) (dispatchZero.take 9)
    (pager twoPages ()).init).isSome = true := by
  decide +kernel

theorem never_stalls_twoPages : ∃ s : State 2 Unit,
    s.pc .handler = .acq (.switch ⟨0, 0⟩ 0) ∧ NeverStalls s :=
  ⟨_, by decide +kernel, never_stalls twoPages () rfl
    (reach_get (dispatchZero.take 9) switchZero_runs)⟩

/-- While worker 0 is about to read chunk 0, client 1 faults on the chunk and the dispatcher
takes up its message. -/
def stallZero : List (Action 2) :=
  reserveZero ++ [.exec (.worker 0) {}, .exec (.client 1) {}, .exec (.client 1) {},
    .exec .handler {}]

theorem stallZero_runs :
    (run (pager twoPages ()) stallZero (pager twoPages ()).init).isSome = true := by
  decide +kernel

theorem dispatcher_stalls : ∃ s, Reachable (pager twoPages ()) s ∧ ¬ NeverStalls s :=
  ⟨_, reachable_get stallZero stallZero_runs, fun h => absurd
    (h (.switch ⟨0, 1⟩ 0) ⟨0, 1⟩ 0 (.chunk 0) (.worker 0) (by decide +kernel) ⟨rfl, rfl⟩ rfl
      (by decide +kernel)) (by decide +kernel)⟩

end Residctl.Pager
