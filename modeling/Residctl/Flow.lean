import Residctl.Branches

/-!
# Control flow

What a step of a thread can do to its program point, whatever the shared state is:
which mutexes it may still hold (`Flow.base`), whose code it stays in (`Flow.kind`), and
how the part of a fetch between the padding and the mark is entered (`Flow.load`).
`Moves` lists the steps of the whole machine.
-/

namespace Residctl.Pager

open Mutex Function

variable {n : ℕ} {σ : Type}

/-! ## Points and the mutexes held there -/

def Pc.point : Pc n → Point n
  | acq k => k
  | go k => k

@[simp] theorem enter_point (k : Point n) : (enter k).point = k := by
  unfold enter
  split <;> rfl

/-- A thread arrives with the base of its point. -/
@[simp] theorem enter_holds (k : Point n) : (enter k).holds = k.base := by
  unfold enter
  split
  · rfl
  · rename_i hneeds
    show k.needs.toList ++ k.base = k.base
    rw [Option.not_isSome_iff_eq_none.1 hneeds]
    rfl

theorem Point.base_subset_holds (k : Point n) : k.base ⊆ k.holds :=
  List.subset_append_right _ _

theorem Pc.base_subset_holds (p : Pc n) : p.point.base ⊆ p.holds := by
  cases p with
  | acq k => exact fun _ h => h
  | go k => exact k.base_subset_holds

theorem Point.needs_mem_holds {k : Point n} {l : Lock n} (h : k.needs = some l) : l ∈ k.holds := by
  simp [Point.holds, h]

theorem Job.mem_locks (j : Job n) : .chunk j.target ∈ j.locks := by
  cases j <;> simp [Job.locks, Job.target]

/-- The points under `budget_lock`. -/
def Instr.inBudget : Instr n → Bool
  | reconcile _ => true
  | fit _ => true
  | evict _ _ => true
  | _ => false

theorem Point.base_job (j : Job n) (i : Instr n) :
    (Point.job j i).base = if i.inBudget then .budget :: j.locks else j.locks := by
  cases i <;> rfl

theorem Job.locks_subset_base (j : Job n) (i : Instr n) : j.locks ⊆ (Point.job j i).base := by
  rw [Point.base_job]
  split
  · exact List.subset_cons_self _ _
  · exact fun _ h => h

theorem Job.target_mem_holds (j : Job n) (i : Instr n) : .chunk j.target ∈ (Point.job j i).holds :=
  (Point.job j i).base_subset_holds (j.locks_subset_base i j.mem_locks)

/-! ## Whose code a point belongs to -/

inductive Kind
  | handler
  | worker
  | client
deriving DecidableEq

def Tid.kind : Tid → Kind
  | handler => .handler
  | worker _ => .worker
  | client _ => .client

def Job.kind : Job n → Kind
  | handle _ => .handler
  | maybe _ _ _ => .handler
  | demand _ => .worker
  | prefetch _ => .worker

def Point.kind : Point n → Kind
  | job j _ => j.kind
  | checkDemand _ => .worker
  | checkPrefetch _ => .worker
  | pinPrefetch _ _ => .worker
  | startPrefetch _ _ => .worker
  | pick => .worker
  | prefetchDone _ => .worker
  | retired => .worker
  | idle => .client
  | touch _ => .client
  | onAccess _ => .client
  | release _ => .client
  | _ => .handler

/-- The handler fetches by itself. -/
def Point.inline : Point n → Bool
  | job (.handle _) _ => true
  | job (.maybe _ _ _) _ => true
  | checkMaybe _ _ _ => true
  | pinJustResident _ _ _ => true
  | _ => false

/-- From the padding of the buffer to the mark. -/
def Instr.loading : Instr n → Bool
  | read _ => true
  | tail _ => true
  | resolve => true
  | commit => true
  | mark => true
  | _ => false

def Point.loading : Point n → Bool
  | job _ i => i.loading
  | _ => false

/-- The chunk about to be evicted. -/
def Point.victim : Point n → Option (Fin n)
  | job _ (.evict _ v) => some v
  | _ => none

theorem Point.victim_eq_some {k : Point n} {v : Fin n} (h : k.victim = some v) :
    ∃ j a, k = .job j (.evict a v) := by
  cases k with
  | job j i =>
    cases i with
    | evict a u =>
      obtain rfl : u = v := Option.some.inj h
      exact ⟨j, a, rfl⟩
    | _ => cases h
  | _ => cases h

theorem Point.budget_mem_base_of_victim {k : Point n} {v : Fin n} (h : k.victim = some v) :
    .budget ∈ k.base := by
  obtain ⟨j, a, rfl⟩ := Point.victim_eq_some h
  exact List.mem_cons_self

/-- The dispatcher has a message in its hands. -/
def Point.Dispatches : Point n → Msg → Fin n → Prop
  | .switch m c, m', c' => m' = m ∧ c' = c
  | .onFault m c, m', c' => m' = m ∧ c' = c
  | .enqueue m c, m', c' => m' = m ∧ c' = c
  | _, _, _ => False

/-- The thread has taken charge of a chunk. -/
def Point.Owns : Point n → Fin n → Prop
  | .checkDemand c, d => d = c
  | k, d => .chunk d ∈ k.base

theorem Point.owns_of_mem_base {k : Point n} {c : Fin n} (h : .chunk c ∈ k.base) : k.Owns c := by
  cases k with
  | checkDemand d => cases h
  | _ => exact h

/-- The last instruction of a fetch. -/
def Instr.leaves : Instr n → Bool
  | abandon => true
  | finish => true
  | finishPrefetch => true
  | _ => false

/-- The step from the point lets go of a chunk. -/
def Point.Leaves : Point n → Fin n → Prop
  | .enqueue _ c, d => d = c
  | .job j i, d => i.leaves = true ∧ d = j.target
  | _, _ => False

/-! ## One step -/

/-- What a step from `k` to `k'` respects. -/
structure Flow (cfg : Config n σ) (k k' : Point n) : Prop where
  base : k'.base ⊆ k.holds
  kind : k'.kind = k.kind
  inline : k'.inline = true → k.inline = true ∨ cfg.asyncHandler = false
  load : k'.loading = true → k.loading = true ∨ ∃ j, k = .job j .pad
  victim : ∀ v, k'.victim = some v → ∃ j a, k = .job j (.fit a)
  dispatch : ∀ m c, k'.Dispatches m c → k.Dispatches m c ∨ k = .drain ∧ k' = .switch m c
  keep : ∀ c, k.Owns c → k'.Owns c ∨ k.Leaves c
  demand : ∀ c, k' = .checkDemand c → k = .pick

section

variable {cfg : Config n σ} {t : Tid} {io : Input n} {sh sh' : Shared n σ} {k k' : Point n}
  {j : Job n} {i i' : Instr n}

/-- Arrive without a mutex. -/
theorem Flow.free (hbase : k'.base = []) (hkind : k'.kind = k.kind) (hinline : k'.inline = false)
    (hload : k'.loading = false) (hdispatch : ∀ m c, ¬ k'.Dispatches m c)
    (hkeep : ∀ c, k.Owns c → k.Leaves c) (hdemand : ∀ c, k' = .checkDemand c → k = .pick) :
    Flow cfg k k' where
  base := by rw [hbase]; exact List.nil_subset _
  kind := hkind
  inline := fun h => by rw [hinline] at h; cases h
  load := fun h => by rw [hload] at h; cases h
  victim := fun v hv => by
    have hmem := Point.budget_mem_base_of_victim hv
    rw [hbase] at hmem
    cases hmem
  dispatch := fun m c h => absurd h (hdispatch m c)
  keep := fun c h => Or.inr (hkeep c h)
  demand := hdemand

/-- Within the handler's own fetch. -/
theorem Flow.keeping (hbase : k'.base ⊆ k.holds) (hkind : k'.kind = k.kind)
    (hinline : k.inline = true) (hload : k'.loading = false) (hvictim : k'.victim = none)
    (hdispatch : ∀ m c, ¬ k'.Dispatches m c) (hkeep : ∀ c, k.Owns c → k'.Owns c ∨ k.Leaves c)
    (hdemand : ∀ c, k' ≠ .checkDemand c) : Flow cfg k k' where
  base := hbase
  kind := hkind
  inline := fun _ => Or.inl hinline
  load := fun h => by rw [hload] at h; cases h
  victim := fun v hv => by rw [hvictim] at hv; cases hv
  dispatch := fun m c h => absurd h (hdispatch m c)
  keep := hkeep
  demand := fun c h => absurd h (hdemand c)

/-- The chunks of a job are kept throughout. -/
theorem Job.owns_iff (j : Job n) (i : Instr n) (c : Fin n) :
    (Point.job j i).Owns c ↔ .chunk c ∈ j.locks := by
  show .chunk c ∈ (Point.job j i).base ↔ _
  rw [Point.base_job]
  split
  · simp
  · exact Iff.rfl

theorem Flow.inside (hbudget : i'.inBudget = true → .budget ∈ (Point.job j i).holds)
    (hload : i'.loading = true → i.loading = true ∨ i = .pad)
    (hvictim : ∀ a v, i' = .evict a v → ∃ b, i = .fit b) :
    Flow cfg (.job j i) (.job j i') where
  base := by
    have hlocks := fun l h => (Point.job j i).base_subset_holds (j.locks_subset_base i (a := l) h)
    rw [Point.base_job]
    split
    · rename_i hb
      exact List.cons_subset.2 ⟨hbudget hb, hlocks⟩
    · exact hlocks
  kind := rfl
  inline := fun h => Or.inl (by cases j <;> first | rfl | cases h)
  load := fun h => (hload h).imp id fun hi => ⟨j, by rw [hi]⟩
  victim := fun v hv => by
    obtain ⟨j', a, hk⟩ := Point.victim_eq_some hv
    obtain ⟨b, hi⟩ := hvictim a v (Point.job.inj hk).2
    exact ⟨j, b, by rw [hi]⟩
  dispatch := by rintro _ _ ⟨⟩
  keep := fun c h => Or.inl ((j.owns_iff i' c).2 ((j.owns_iff i c).1 h))
  demand := by simp

theorem Flow.leave (j : Job n) (hi : i.leaves = true) : Flow cfg (.job j i) j.after := by
  have hlocks := fun c => (j.owns_iff i c).1
  cases j with
  | maybe jr c hne =>
    refine Flow.keeping ?_ rfl rfl rfl rfl (by rintro _ _ ⟨⟩) (fun d hd => ?_) (by rintro _ ⟨⟩)
    · refine List.cons_subset.2 ⟨Point.base_subset_holds _ ?_, List.nil_subset _⟩
      exact (Job.maybe jr c hne).locks_subset_base i List.mem_cons_self
    · have hor : d = jr ∨ d = c := by simpa [Job.locks, Job.target] using hlocks d hd
      rcases hor with rfl | rfl
      · exact Or.inl List.mem_cons_self
      · exact Or.inr ⟨hi, rfl⟩
  | _ =>
    refine Flow.free rfl rfl rfl rfl (by rintro _ _ ⟨⟩) (fun d hd => ⟨hi, ?_⟩) (by rintro _ ⟨⟩)
    simpa [Job.locks, Job.target] using hlocks d hd

theorem ensured_plain (cfg : Config n σ) (a : ℕ) (ok : Bool) (j : Job n) :
    (ensured cfg a ok j).inBudget = false ∧ (ensured cfg a ok j).loading = false := by
  cases j <;> cases ok <;> simp only [ensured, if_true, if_false, Bool.false_eq_true]
  all_goals first | exact ⟨rfl, rfl⟩ | (split <;> exact ⟨rfl, rfl⟩)

theorem marked_plain (cfg : Config n σ) (j : Job n) :
    (marked cfg j).inBudget = false ∧ (marked cfg j).loading = false := by
  unfold marked speculate
  cases j <;> simp only [Job.speculative, if_true, if_false, Bool.false_eq_true]
  all_goals repeat' split
  all_goals exact ⟨rfl, rfl⟩

theorem topNext_plain (need r : ℕ) (cursor : Fin n) :
    (topNext need r cursor).inBudget = false ∧ (topNext need r cursor).loading = false := by
  unfold topNext
  split <;> exact ⟨rfl, rfl⟩

/-- To an instruction outside the budget lock and outside the load. -/
theorem Flow.plain (h : i'.inBudget = false ∧ i'.loading = false) :
    Flow cfg (.job j i) (.job j i') :=
  Flow.inside (fun hb => by rw [h.1] at hb; cases hb) (fun hl => by rw [h.2] at hl; cases hl)
    fun a v hi => by rw [hi] at h; cases h.1

/-- Within the load. -/
theorem Flow.loading (h : i'.inBudget = false) (hi : i.loading = true ∨ i = .pad) :
    Flow cfg (.job j i) (.job j i') :=
  Flow.inside (fun hb => by rw [h] at hb; cases hb) (fun _ => hi)
    fun a v hi' => by rw [hi'] at h; cases h

/-- Within the budget lock. -/
theorem Flow.inBudget (h : i'.loading = false) (hi : .budget ∈ (Point.job j i).holds)
    (hvictim : ∀ a v, i' = .evict a v → ∃ b, i = .fit b) : Flow cfg (.job j i) (.job j i') :=
  Flow.inside (fun _ => hi) (fun hl => by rw [h] at hl; cases hl) hvictim

theorem budget_mem_holds_ensure (j : Job n) (a : ℕ) : .budget ∈ (Point.job j (.ensure a)).holds := by
  simp [Point.holds, Point.needs]

theorem budget_mem_holds_of_inBudget (h : i.inBudget = true) : .budget ∈ (Point.job j i).holds := by
  apply (Point.job j i).base_subset_holds
  rw [Point.base_job, if_pos h]
  exact List.mem_cons_self

/-- One step of a fetch. -/
theorem JobBranch.flow (h : JobBranch cfg io sh j i sh' k') : Flow cfg (.job j i) k' := by
  cases h with
  | due _ | notDue _ => exact Flow.inBudget rfl (budget_mem_holds_ensure j _) (by simp)
  | reconcile _ | evict _ => exact Flow.inBudget rfl (budget_mem_holds_of_inBudget rfl) (by simp)
  | choose _ | breakPin _ =>
    exact Flow.inBudget rfl (budget_mem_holds_of_inBudget rfl) fun _ _ _ => ⟨_, rfl⟩
  | reserve _ => exact Flow.plain (ensured_plain cfg _ true j)
  | infeasible _ | decline _ => exact Flow.plain (ensured_plain cfg _ false j)
  | @unpinJustResident jr c hne ok => exact Flow.plain (by cases ok <;> exact ⟨rfl, rfl⟩)
  | pad => exact Flow.loading rfl (Or.inr rfl)
  | read _ _ | direct _ | tail _ _ | loaded _ | resolve _ | commit =>
    exact Flow.loading rfl (Or.inl rfl)
  | mark => exact Flow.plain (marked_plain cfg j)
  | @unpinTarget _ ok => exact Flow.plain (by cases ok <;> exact ⟨rfl, rfl⟩)
  | abandon | finishPrefetch _ | finish _ => exact Flow.leave j rfl
  | @predict jr c hne _ =>
    refine Flow.keeping ?_ rfl rfl rfl rfl (by rintro _ _ ⟨⟩) (fun d hd => Or.inl hd) (by simp)
    exact fun l h => Point.base_subset_holds _ ((Job.handle jr).locks_subset_base .predict h)
  | topNeed | topEnqueue => exact Flow.plain (topNext_plain _ _ _)
  | sleep | retain | predictNone _ | topStop | topPredict _ _ | unpin =>
    exact Flow.plain ⟨rfl, rfl⟩

/-- A fetch ends with one step. -/
theorem JobBranch.eq_after (h : JobBranch cfg io sh j i sh' k') (hi : i.leaves = true) :
    k' = j.after := by
  cases h with
  | abandon | finishPrefetch _ | finish _ => rfl
  | _ => cases hi

theorem afterFault_flow {m : Msg} {c : Fin n} (hk : .chunk c ∈ k.holds) (hkind : k.kind = .handler)
    (hdispatch : k.Dispatches m c) (hkeep : ∀ d, k.Owns d → d = c) :
    Flow cfg k (afterFault cfg m c) := by
  have hkeep' : ∀ d, k.Owns d → .chunk d ∈ [Lock.chunk c] := fun d hd => by
    rw [hkeep d hd]
    exact List.mem_cons_self
  unfold afterFault
  split
  · refine ⟨?_, hkind.symm, fun h => absurd h Bool.false_ne_true,
      fun h => absurd h Bool.false_ne_true, by rintro _ ⟨⟩, ?_, fun d hd => Or.inl (hkeep' d hd),
      by simp⟩
    · exact List.cons_subset.2 ⟨hk, List.nil_subset _⟩
    · rintro m' c' ⟨rfl, rfl⟩
      exact Or.inl hdispatch
  · rename_i hasync
    refine ⟨?_, hkind.symm, fun _ => Or.inr (by simpa using hasync),
      fun h => absurd h Bool.false_ne_true, by rintro _ ⟨⟩, by rintro _ _ ⟨⟩,
      fun d hd => Or.inl (hkeep' d hd), by simp⟩
    exact List.cons_subset.2 ⟨hk, List.nil_subset _⟩

theorem afterAccess_flow {c : Fin n} (hkind : k.kind = .client) (hkeep : ∀ d, ¬ k.Owns d) :
    Flow cfg k (afterAccess cfg c) := by
  unfold afterAccess
  split <;> exact Flow.free rfl hkind.symm rfl rfl (by rintro _ _ ⟨⟩) (fun d hd => absurd hd (hkeep d))
    (by simp)

/-- A point that keeps the mutex of one chunk and is not part of a job. -/
theorem Flow.one {c : Fin n} (hbase : k'.base = [.chunk c]) (hk : .chunk c ∈ k.holds)
    (hkind : k'.kind = k.kind) (hinline : k'.inline = false) (hload : k'.loading = false)
    (hdispatch : ∀ m d, k'.Dispatches m d → k.Dispatches m d) (howns : k'.Owns c)
    (hkeep : ∀ d, k.Owns d → d = c) (hdemand : ∀ d, k' ≠ .checkDemand d) : Flow cfg k k' where
  base := by rw [hbase]; exact List.cons_subset.2 ⟨hk, List.nil_subset _⟩
  kind := hkind
  inline := fun h => by rw [hinline] at h; cases h
  load := fun h => by rw [hload] at h; cases h
  victim := fun v hv => by
    have hmem := Point.budget_mem_base_of_victim hv
    rw [hbase, List.mem_singleton] at hmem
    cases hmem
  dispatch := fun m d h => Or.inl (hdispatch m d h)
  keep := fun d h => Or.inl (by rw [hkeep d h]; exact howns)
  demand := fun d h => absurd h (hdemand d)

theorem exec_flow (hexec : exec cfg t io sh k = .next sh' k') : Flow cfg k k' := by
  cases exec_branch hexec with
  | job h => exact h.flow
  | take _ _ =>
    refine ⟨List.nil_subset _, rfl, by rintro ⟨⟩, by rintro ⟨⟩, by rintro _ ⟨⟩, ?_,
      by rintro _ ⟨⟩, by simp⟩
    rintro m c ⟨rfl, rfl⟩
    exact Or.inr ⟨rfl, rfl⟩
  | begin _ _ =>
    exact Flow.one rfl (Point.needs_mem_holds rfl) rfl rfl rfl (fun _ _ h => h)
      List.mem_cons_self (by rintro _ ⟨⟩) (by simp)
  | beginSilently _ _ =>
    exact afterFault_flow (Point.needs_mem_holds rfl) rfl ⟨rfl, rfl⟩ (by rintro _ ⟨⟩)
  | onFault =>
    exact afterFault_flow (Point.base_subset_holds _ List.mem_cons_self) rfl ⟨rfl, rfl⟩
      fun d hd => by simpa [Point.Owns, Point.base] using hd
  | enqueue _ =>
    refine Flow.free rfl rfl rfl rfl (by rintro _ _ ⟨⟩) (fun d hd => ?_) (by simp)
    simpa [Point.Owns, Point.base, Point.Leaves] using hd
  | startDemand _ =>
    exact Flow.one rfl (Point.needs_mem_holds rfl) rfl rfl rfl (by rintro _ _ ⟨⟩)
      List.mem_cons_self (fun _ hd => hd) (by simp)
  | wanted _ =>
    exact Flow.one rfl (Point.needs_mem_holds rfl) rfl rfl rfl (by rintro _ _ ⟨⟩)
      List.mem_cons_self (by rintro _ ⟨⟩) (by simp)
  | pinPrefetch =>
    exact Flow.one rfl (Point.base_subset_holds _ List.mem_cons_self) rfl rfl rfl (by rintro _ _ ⟨⟩)
      List.mem_cons_self (fun d hd => by simpa [Point.Owns, Point.base] using hd) (by simp)
  | startPrefetch =>
    exact Flow.one rfl (Point.base_subset_holds _ List.mem_cons_self) rfl rfl rfl (by rintro _ _ ⟨⟩)
      List.mem_cons_self (fun d hd => by simpa [Point.Owns, Point.base, Job.target] using hd) (by simp)
  | @startMaybe jr c hne _ =>
    -- the mutex of `jr` is kept, that of `c` has just been taken
    have hjr : .chunk jr ∈ (Point.checkMaybe jr c hne).holds :=
      Point.base_subset_holds _ List.mem_cons_self
    have hc : .chunk c ∈ (Point.checkMaybe jr c hne).holds := Point.needs_mem_holds rfl
    refine Flow.keeping ?_ rfl rfl rfl rfl (by rintro _ _ ⟨⟩) (fun d hd => Or.inl ?_) (by simp)
    · exact List.cons_subset.2 ⟨hjr, List.cons_subset.2 ⟨hc, List.nil_subset _⟩⟩
    · exact List.mem_cons.2 (Or.inl (List.mem_singleton.1 hd))
  | @leaveMaybe jr c hne _ =>
    refine Flow.keeping ?_ rfl rfl rfl rfl (by rintro _ _ ⟨⟩) (fun d hd => Or.inl hd) (by simp)
    exact List.cons_subset.2 ⟨Point.base_subset_holds _ List.mem_cons_self, List.nil_subset _⟩
  | @pinJustResident jr c hne =>
    refine Flow.keeping ?_ rfl rfl rfl rfl (by rintro _ _ ⟨⟩) (fun d hd => Or.inl hd) (by simp)
    exact (Point.pinJustResident jr c hne).base_subset_holds
  | takeDemand _ =>
    exact Flow.free rfl rfl rfl rfl (by rintro _ _ ⟨⟩) (by rintro _ ⟨⟩) fun _ _ => rfl
  | notifySilently _ _ | onAccess => exact afterAccess_flow rfl (by rintro _ ⟨⟩)
  | _ => exact Flow.free rfl rfl rfl rfl (by rintro _ _ ⟨⟩) (by rintro _ ⟨⟩) (by simp)

end

/-! ## The steps of the machine -/

/-- `step`, by cases. -/
inductive Moves (cfg : Config n σ) : Action n → State n σ → State n σ → Prop
  | acquire {s t k l} (hpc : s.pc t = .acq k) (hneeds : k.needs = some l) (hfree : s.owner l = none) :
      Moves cfg (.acquire t) s { s with
        owner := moveOwner Pc.holds s.owner t (.go k), pc := update s.pc t (.go k) }
  | giveUp {s now c} (hpc : s.pc .handler = .acq (.tryReclaim now c)) :
      Moves cfg .giveUp s (s.arrive .handler s.sh (.watch now (c.1 + 1)))
  | exec {s t io k sh k'} (hpc : s.pc t = .go k) (hexec : exec cfg t io s.sh k = .next sh k') :
      Moves cfg (.exec t io) s (s.arrive t sh k')
  | tick {s d} (h : s.sh.clock + d < 2 ^ 64) :
      Moves cfg (.tick d) s { s with sh := { s.sh with clock := s.sh.clock + d } }
  | drop {s m} (h : s.sh.kernel.waiting m.thread = none) :
      Moves cfg (.drop m) s
        { s with sh := s.sh.setKernel { s.sh.kernel with uffd := s.sh.kernel.uffd.erase m } }
  | requestStop {s} : Moves cfg .requestStop s { s with sh := { s.sh with stop := true } }

theorem moves_of_step {cfg : Config n σ} {a : Action n} {s s' : State n σ}
    (h : step cfg a s = some s') : Moves cfg a s s' := by
  cases a with
  | acquire t =>
    simp only [step] at h
    split at h
    · rename_i k hpc
      split at h
      · rename_i l hneeds
        split at h
        · rename_i hfree
          cases h
          exact Moves.acquire hpc hneeds hfree
        · cases h
      · cases h
    · cases h
  | giveUp =>
    simp only [step] at h
    split at h
    · rename_i now c hpc
      split at h
      · cases h
      · cases h
        exact Moves.giveUp hpc
    · cases h
  | exec t io =>
    simp only [step] at h
    split at h
    · rename_i k hpc
      split at h
      · rename_i sh k' hexec
        cases h
        exact Moves.exec hpc hexec
      · cases h
    · cases h
  | tick d =>
    simp only [step] at h
    split at h
    · rename_i hlt
      cases h
      exact Moves.tick hlt
    · cases h
  | drop m =>
    simp only [step] at h
    split at h
    · rename_i hidle
      cases h
      exact Moves.drop hidle
    · cases h
  | requestStop =>
    cases h
    exact Moves.requestStop

end Residctl.Pager
