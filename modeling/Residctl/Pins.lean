import Residctl.Accounting
import Residctl.Rings

/-!
# Pins

One counter per chunk is shared by the retention FIFO, a prefetch, a demand fetch and
`maybe_prefetch`. In every reachable state it is the number of these that hold the chunk, for the
FIFO in its 32-bit ring, whatever its capacity: the ring never wraps (`Retained`).
-/

namespace Residctl.Pager

open Mutex Function Runs

variable {n : ℕ} {σ : Type} {cfg : Config n σ} {s s' : State n σ} {a : Action n} {t : Tid}
  {io : Input n} {sh sh' : Shared n σ} {k k' : Point n} {j : Job n} {i : Instr n} {c d : Fin n}

/-! ## Who holds a pin -/

/-- Between `commit_reserved_and_pin` and `unpin_chunk`. -/
def Instr.pinned : Instr n → Bool
  | mark => true
  | predict => true
  | topNeed => true
  | topPredict _ _ _ => true
  | topEnqueue _ _ _ => true
  | unpin => true
  | _ => false

/-- The budget call of `maybe_prefetch`, until it unpins `just_resident`. -/
def Instr.budgeting : Instr n → Bool
  | ensure _ => true
  | reconcile _ => true
  | fit _ => true
  | evict _ _ => true
  | sleep _ => true
  | unpinJustResident _ => true
  | _ => false

/-- A prefetch of the chunk has pinned it and neither retained nor unpinned it. -/
def Point.PrefetchPin : Point n → Fin n → Prop
  | .startPrefetch _ c, d => d = c
  | .pinJustResident _ c _, d => d = c
  | .job j i, d => d = j.target ∧ j.speculative = true ∧ i.leaves = false
  | _, _ => False

/-- The chunk's demand fetch has committed and not unpinned it. -/
def Point.DemandPin : Point n → Fin n → Prop
  | .checkMaybe jr _ _, d => d = jr
  | .pinJustResident jr _ _, d => d = jr
  | .job (.maybe jr _ _) _, d => d = jr
  | .job j i, d => d = j.target ∧ j.speculative = false ∧ i.pinned = true
  | _, _ => False

/-- `maybe_prefetch` holds the chunk as `just_resident`. -/
def Point.JustResidentPin : Point n → Fin n → Prop
  | .job (.maybe jr _ _) i, d => d = jr ∧ i.budgeting = true
  | _, _ => False

instance (k : Point n) (d : Fin n) : Decidable (k.PrefetchPin d) := by
  unfold Point.PrefetchPin
  induction k using Point.casesOn with
  | job j i => induction j using Job.casesOn <;> dsimp only <;> infer_instance
  | _ => dsimp only; infer_instance

instance (k : Point n) (d : Fin n) : Decidable (k.DemandPin d) := by
  unfold Point.DemandPin
  induction k using Point.casesOn with
  | job j i => induction j using Job.casesOn <;> dsimp only <;> infer_instance
  | _ => dsimp only; infer_instance

instance (k : Point n) (d : Fin n) : Decidable (k.JustResidentPin d) := by
  unfold Point.JustResidentPin
  induction k using Point.casesOn with
  | job j i => induction j using Job.casesOn <;> dsimp only <;> infer_instance
  | _ => dsimp only; infer_instance

def State.PrefetchPinned (s : State n σ) (c : Fin n) : Prop := ∃ t, (s.pc t).point.PrefetchPin c

def State.DemandPinned (s : State n σ) (c : Fin n) : Prop := ∃ t, (s.pc t).point.DemandPin c

def State.JustResidentPinned (s : State n σ) (c : Fin n) : Prop :=
  ∃ t, (s.pc t).point.JustResidentPin c

/-! ## The instructions of prefetches -/

/-- Only a prefetch has a pin of its own to drop or to retain. -/
def Instr.prefetchOnly : Instr n → Bool
  | unpinTarget _ => true
  | retain => true
  | _ => false

def Point.Proper : Point n → Prop
  | .job j i => i.prefetchOnly = true → j.speculative = true
  | _ => True

theorem ensured_proper (cfg : Config n σ) (a : ℕ) (ok : Bool) (j : Job n) :
    (Point.job j (ensured cfg a ok j)).Proper := by
  intro h
  cases j <;> cases ok <;> simp only [ensured, if_true, if_false, Bool.false_eq_true] at h
  all_goals first | rfl | cases h | (split at h <;> cases h)

theorem marked_proper (cfg : Config n σ) (j : Job n) : (Point.job j (marked cfg j)).Proper := by
  intro h
  unfold marked speculate at h
  cases j <;> simp only [Job.speculative, if_true, if_false, Bool.false_eq_true] at h
  all_goals first | rfl | skip
  all_goals repeat' split at h
  all_goals cases h

theorem topNext_proper (need r : ℕ) (cursor : Fin n) (j : Job n) :
    (Point.job j (topNext need r cursor)).Proper := by
  intro h
  unfold topNext at h
  split at h <;> cases h

theorem after_proper (j : Job n) : j.after.Proper := by
  cases j with
  | maybe jr c hne => rintro ⟨⟩
  | _ => trivial

theorem JobBranch.proper (h : JobBranch cfg io sh j i sh' k') : k'.Proper := by
  cases h with
  | reserve _ => exact ensured_proper cfg _ true j
  | infeasible _ | decline _ => exact ensured_proper cfg _ false j
  | unpinJustResident => exact fun _ => rfl
  | mark => exact marked_proper cfg j
  | @unpinTarget _ ok => cases ok <;> rintro ⟨⟩
  | abandon | finishPrefetch _ | finish _ => exact after_proper j
  | predict _ => trivial
  | topNeed | topEnqueue => exact topNext_proper _ _ _ _
  | _ => rintro ⟨⟩

theorem afterFault_proper (cfg : Config n σ) (m : Msg) (c : Fin n) :
    (afterFault cfg m c).Proper := by
  unfold afterFault
  split
  · trivial
  · rintro ⟨⟩

theorem afterAccess_proper (cfg : Config n σ) (c : Fin n) : (afterAccess cfg c).Proper := by
  unfold afterAccess
  split <;> trivial

theorem exec_proper (hexec : exec cfg t io sh k = .next sh' k') : k'.Proper := by
  cases exec_branch hexec with
  | job h => exact h.proper
  | beginSilently _ _ | onFault => exact afterFault_proper cfg _ _
  | notifySilently _ _ | onAccess => exact afterAccess_proper cfg _
  | startDemand _ | startPrefetch | leaveMaybe _ | pinJustResident => rintro ⟨⟩
  | _ => trivial

theorem Reach.proper {ok : Action n → State n σ → Prop} {p : σ} (h : Reach (pager cfg p) ok s) :
    ∀ t, (s.pc t).point.Proper :=
  Reach.forall_point (fun t => init_point (P := Point.Proper) trivial trivial trivial trivial cfg p t)
    (fun _ _ => trivial) (fun _ hexec => exec_proper hexec) h

/-- The points do not depend on the rings. -/
theorem Reach.proper_ringed {ok : Action n → State n σ × Rings n → Prop} {p : σ} {hn : 0 < n}
    {x : State n σ × Rings n} (h : Reach (Pager.ringed cfg p hn) ok x) :
    ∀ t, (x.1.pc t).point.Proper := by
  refine h.invariant (I := fun x => ∀ t, (x.1.pc t).point.Proper)
    (init_point (P := Point.Proper) trivial trivial trivial trivial cfg p) ?_
  intro a x x' _ _ hold hstep
  obtain ⟨s', hs', rfl⟩ := ringed_step hstep
  show ∀ t, (s'.pc t).point.Proper
  exact forall_point_step (fun _ _ => trivial) (fun _ hexec => exec_proper hexec) hold hs'

/-! ## The pins of a role -/

theorem Instr.role_pins (j : Job n) (i : Instr n) (h : (Point.job j i).Proper) :
    (i.role j).pins = (if j.speculative = true ∧ i.leaves = false then 1 else 0) +
      if j.speculative = false ∧ i.pinned = true then 1 else 0 := by
  cases hj : j.speculative with
  | true =>
    cases i with
    | unpinTarget ok => cases ok <;> simp [Instr.role, Instr.leaves]
    | unpinJustResident ok => cases ok <;> simp [Instr.role, Instr.leaves, Job.pins, hj]
    | _ => simp [Instr.role, Instr.leaves, Job.pins, hj]
  | false =>
    cases i with
    | unpinTarget ok =>
      rw [h rfl] at hj
      cases hj
    | retain =>
      rw [h rfl] at hj
      cases hj
    | unpinJustResident ok => cases ok <;> simp [Instr.role, Instr.pinned, Job.pins, hj]
    | _ => simp [Instr.role, Instr.pinned, Job.pins, hj]

theorem Instr.jrPins_eq (i : Instr n) : i.jrPins = 1 + if i.budgeting = true then 1 else 0 := by
  cases i <;> rfl

/-- A role has the pins of the point. -/
theorem Point.role_pins (h : k.Proper) (d : Fin n) :
    (k.role d).pins = (if k.PrefetchPin d then 1 else 0) + (if k.DemandPin d then 1 else 0) +
      if k.JustResidentPin d then 1 else 0 := by
  cases k with
  | job j i =>
    have hrole := Instr.role_pins j i h
    have hjr := i.jrPins_eq
    by_cases hd : d = j.target
    · subst hd
      rw [Point.role_target, hrole]
      cases j with
      | maybe jr c hne =>
        simp [PrefetchPin, DemandPin, JustResidentPin, Job.target, Job.speculative, hne]
      | _ => simp [PrefetchPin, DemandPin, JustResidentPin, Job.target, Job.speculative]
    · simp only [Point.role, if_neg hd]
      cases j with
      | maybe jr c hne =>
        have hdc : ¬ d = c := hd
        simp only [Job.jrRole, PrefetchPin, DemandPin, JustResidentPin, Job.target, hdc, false_and,
          if_false]
        by_cases hdj : d = jr <;> simp [hdj, hjr]
      | _ => simp [Job.jrRole, PrefetchPin, DemandPin, JustResidentPin, hd]
  | checkMaybe jr c hne =>
    simp only [Point.role, PrefetchPin, DemandPin, JustResidentPin]
    by_cases hd : d = jr <;> simp [hd]
  | pinJustResident jr c hne =>
    simp only [Point.role, PrefetchPin, DemandPin, JustResidentPin]
    by_cases hd : d = c
    · simp [hd, hne]
    · by_cases hdj : d = jr <;> simp [hd, hdj, Ne.symm hne]
  | startPrefetch ts c =>
    simp only [Point.role, PrefetchPin, DemandPin, JustResidentPin]
    by_cases hd : d = c <;> simp [hd]
  | _ =>
    simp only [Point.role, PrefetchPin, DemandPin, JustResidentPin]
    first | rfl | (split <;> rfl)

/-! ## The law -/

theorem Point.mem_base_of_pin (h : k.PrefetchPin d ∨ k.DemandPin d ∨ k.JustResidentPin d) :
    .chunk d ∈ k.base := by
  cases k with
  | job j i =>
    apply j.locks_subset_base i
    cases j with
    | maybe jr c hne =>
      simp only [PrefetchPin, DemandPin, JustResidentPin, Job.target] at h
      simp only [Job.locks, List.mem_cons, Lock.chunk.injEq, List.not_mem_nil, or_false]
      tauto
    | _ =>
      simp only [PrefetchPin, DemandPin, JustResidentPin, Job.target] at h
      simp only [Job.locks, Job.target, List.mem_singleton, Lock.chunk.injEq]
      tauto
  | _ =>
    simp only [PrefetchPin, DemandPin, JustResidentPin] at h
    simp only [Point.base, List.mem_cons, Lock.chunk.injEq, List.not_mem_nil, or_false]
    tauto

open Classical in
theorem State.role_pins (howned : Owned Pc.holds s.owner s.pc) (h : ∀ t, (s.pc t).point.Proper)
    (c : Fin n) : (s.role c).pins = (if s.PrefetchPinned c then 1 else 0) +
      (if s.DemandPinned c then 1 else 0) + if s.JustResidentPinned c then 1 else 0 := by
  have hmem : ∀ t, ((s.pc t).point.PrefetchPin c ∨ (s.pc t).point.DemandPin c ∨
      (s.pc t).point.JustResidentPin c) → .chunk c ∈ (s.pc t).holds :=
    fun t hp => (s.pc t).base_subset_holds (Point.mem_base_of_pin hp)
  cases ho : s.owner (.chunk c) with
  | none =>
    -- nobody holds the lock, and so nobody holds a pin
    have hnot : ∀ t, .chunk c ∉ (s.pc t).holds := by
      intro t hold
      rw [(howned t _).2 hold] at ho
      cases ho
    have h₁ : ¬ s.PrefetchPinned c := fun ⟨t, hp⟩ => hnot t (hmem t (Or.inl hp))
    have h₂ : ¬ s.DemandPinned c := fun ⟨t, hp⟩ => hnot t (hmem t (Or.inr (Or.inl hp)))
    have h₃ : ¬ s.JustResidentPinned c := fun ⟨t, hp⟩ => hnot t (hmem t (Or.inr (Or.inr hp)))
    rw [if_neg h₁, if_neg h₂, if_neg h₃, State.role, readAt, ho]
    rfl
  | some t =>
    have hold := (howned t _).1 ho
    have huniq : ∀ t', .chunk c ∈ (s.pc t').holds → t' = t := fun t' h' => howned.unique h' hold
    have h₁ : s.PrefetchPinned c ↔ (s.pc t).point.PrefetchPin c :=
      ⟨fun ⟨t', hp⟩ => huniq t' (hmem t' (Or.inl hp)) ▸ hp, fun hp => ⟨t, hp⟩⟩
    have h₂ : s.DemandPinned c ↔ (s.pc t).point.DemandPin c :=
      ⟨fun ⟨t', hp⟩ => huniq t' (hmem t' (Or.inr (Or.inl hp))) ▸ hp, fun hp => ⟨t, hp⟩⟩
    have h₃ : s.JustResidentPinned c ↔ (s.pc t).point.JustResidentPin c :=
      ⟨fun ⟨t', hp⟩ => huniq t' (hmem t' (Or.inr (Or.inr hp))) ▸ hp, fun hp => ⟨t, hp⟩⟩
    rw [role_of_holds howned hold, Point.role_pins (h t)]
    simp only [h₁, h₂, h₃]

/-- Every pin that the code at a point drops has been taken. -/
def Point.NoUnderflow (sh : Shared n σ) : Point n → Prop
  | .job (.maybe jr _ _) (.unpinJustResident _) => 0 < (sh.region.chunks jr).pin
  | .job j (.unpinTarget _) => 0 < (sh.region.chunks j.target).pin
  | .job j .unpin => 0 < (sh.region.chunks j.target).pin
  -- the entry that the FIFO drops, or the one that `ensure_budget` breaks
  | .job _ .retain => ∀ c ∈ sh.region.pinnedPrefetch, 0 < (sh.region.chunks c).pin
  | .job _ (.fit _) => ∀ c ∈ sh.region.pinnedPrefetch, 0 < (sh.region.chunks c).pin
  | .release c => c ∈ sh.region.pinnedPrefetch → 0 < (sh.region.chunks c).pin
  | _ => True

theorem Sound.pin_pos (h : Sound cfg s) (hpc : s.pc t = .go k) (hc : .chunk c ∈ k.holds)
    (hpins : 0 < (k.role c).pins) : 0 < (s.sh.region.chunks c).pin := by
  have hle : (s.role c).pins ≤ (s.sh.region.chunks c).pin := h.life.pins_le_pin c
  rw [h.role_go hpc c hc] at hle
  omega

theorem Sound.noUnderflow (h : Sound cfg s) (hpc : s.pc t = .go k) : k.NoUnderflow s.sh := by
  have hfifo : ∀ c ∈ s.sh.region.pinnedPrefetch, 0 < (s.sh.region.chunks c).pin :=
    fun c hc => h.life.pin_pos hc
  cases k with
  | job j i =>
    have hpos := h.pin_pos hpc (j.target_mem_holds i)
    rw [Point.role_target] at hpos
    cases i with
    | unpinJustResident ok =>
      cases j with
      | maybe jr c hne =>
        apply h.pin_pos hpc (c := jr)
        · exact (Job.maybe jr c hne).locks_subset_base _ List.mem_cons_self |>
            Point.base_subset_holds _
        · have hjr : ¬ jr = c := fun he => hne he.symm
          simp [Point.role, Job.target, hjr, Job.jrRole, Instr.jrPins]
      | _ => trivial
    | unpinTarget ok =>
      cases j <;> exact hpos (by cases ok <;> exact Nat.one_pos)
    | unpin => cases j <;> exact hpos Nat.one_pos
    | retain => cases j <;> exact hfifo
    | fit b => cases j <;> exact hfifo
    | _ => cases j <;> trivial
  | release c => exact hfifo c
  | _ => trivial

open Classical in
/-- The holders of a chunk, counted. -/
theorem Sound.pin_eq (hs : Sound cfg s) (hproper : ∀ t, (s.pc t).point.Proper) (c : Fin n) :
    (s.sh.region.chunks c).pin = (if c ∈ s.sh.region.pinnedPrefetch then 1 else 0) +
      (if s.PrefetchPinned c then 1 else 0) + (if s.DemandPinned c then 1 else 0) +
      if s.JustResidentPinned c then 1 else 0 := by
  have hcount : s.sh.region.pinnedPrefetch.count c =
      if c ∈ s.sh.region.pinnedPrefetch then 1 else 0 := by
    split
    · rename_i hc
      exact List.count_eq_one_of_mem hs.life.nodup hc
    · rename_i hc
      exact List.count_eq_zero_of_not_mem hc
  have hlife : (s.sh.region.chunks c).pin =
      s.sh.region.pinnedPrefetch.count c + (s.role c).pins := hs.life.pin c
  rw [hlife, State.role_pins hs.owned hproper c, hcount]
  omega

open Classical in
/-- A chunk's pin count is the number of its holders, the FIFO in its ring is within its capacity,
and no pin is dropped that was not taken. -/
theorem pin_conservation (cfg : Config n σ) (p : σ) (hn : 0 < n) {x : State n σ × Rings n}
    (h : Reachable (ringed cfg p hn) x) :
    (x.2.pinned.entries (2 ^ 32) cfg.pinnedPrefetchCap = x.1.sh.region.pinnedPrefetch ∧
      x.1.sh.region.pinnedPrefetch.length ≤ cfg.pinnedPrefetchCap ∧
      x.1.sh.region.pinnedPrefetch.Nodup ∧
      ∀ c ∈ x.1.sh.region.pinnedPrefetch, (x.1.sh.region.chunks c).state = .resident) ∧
    (∀ c, (x.1.sh.region.chunks c).pin = (if c ∈ x.1.sh.region.pinnedPrefetch then 1 else 0) +
      (if x.1.PrefetchPinned c then 1 else 0) + (if x.1.DemandPinned c then 1 else 0) +
      if x.1.JustResidentPinned c then 1 else 0) ∧
    (∀ t k, x.1.pc t = .go k → k.NoUnderflow x.1.sh) ∧
    (∀ c, (∀ t, ¬ (x.1.pc t).point.Owns c) →
      (x.1.sh.region.chunks c).pin = if c ∈ x.1.sh.region.pinnedPrefetch then 1 else 0) ∧
    ∀ t j b v, x.1.pc t = .go (.job j (.fit b)) →
      demandDecision cfg x.1.sh.region j.target = .breakPin v →
      ((prefetchRetainRelease x.1.sh.region v).chunks v).pin = 0 := by
  have hringed := Reach.ringed h
  have hs : Sound cfg x.1 := hringed.sound
  have hproper := Reach.proper_ringed h
  have hpin := hs.pin_eq hproper
  refine ⟨⟨hringed.retained.entries, hs.life.cap, hs.life.nodup, fun c hc => (hs.life.retained c hc).1⟩,
    hpin, fun t k hpc => hs.noUnderflow hpc, fun c hfree => ?_, fun t j b v hpc hdec => ?_⟩
  · have hnot : ∀ t, ¬ ((x.1.pc t).point.PrefetchPin c ∨ (x.1.pc t).point.DemandPin c ∨
        (x.1.pc t).point.JustResidentPin c) :=
      fun t hp => hfree t (Point.owns_of_mem_base (Point.mem_base_of_pin hp))
    have h₁ : ¬ x.1.PrefetchPinned c := fun ⟨t, hp⟩ => hnot t (Or.inl hp)
    have h₂ : ¬ x.1.DemandPinned c := fun ⟨t, hp⟩ => hnot t (Or.inr (Or.inl hp))
    have h₃ : ¬ x.1.JustResidentPinned c := fun ⟨t, hp⟩ => hnot t (Or.inr (Or.inr hp))
    rw [hpin c, if_neg h₁, if_neg h₂, if_neg h₃]
    simp only [Nat.add_zero]
  · exact (release_evictable hs.life
      (pinBreakSelectVictim_some (demandDecision_breakPin hdec).2.2.2).2).2

/-- Four chunks of one page in a declared cycle, prefetches one ahead that stay pinned. -/
def fourAhead : Config 4 LoDeclared where
  table := ChunkTable.uniform 4 4096 page_pos page_aligned (by decide)
  registered := by decide
  truncated := by decide
  budgetBytes := 16384
  reconcileInterval := 1
  policy := some (policyLayerOrderDeclared 4 ⟨false, false⟩)
  asyncHandler := true
  pool := true
  workers := 2
  prefetchEnabled := true
  prefetchDepth := 1
  prefetchAdmissionAlways := true
  prefetchRetentionPinned := true
  fetchingTimeoutMs := 30000
  modelFileSize := 16384
  fileByte := fun _ => 7

def fourAheadCycle : LoDeclared := loDeclaredDeclareSequence (loDeclaredInit 4) [0, 1, 2, 3]

/-- Client 0 faults on chunk 0, the dispatcher queues it. -/
def faultZero : List (Action 4) :=
  [.tick 1, .exec (.client 0) {}, .exec (.client 0) {}] ++ List.replicate 8 (.exec .handler {}) ++
    [.acquire .handler, .exec .handler {}, .acquire .handler, .exec .handler {},
      .acquire .handler, .exec .handler {}]

/-- A worker fetches a page, from its budget call to the mapping of the pages. -/
def fetchPage (t : Tid) : List (Action 4) :=
  [.acquire t, .exec t {}, .exec t {}, .exec t {}, .exec t {}, .exec t { count := 4096 }, .exec t {},
    .exec t {}, .exec t {}]

/-- Worker 0 fetches chunk 0 and enqueues the prefetch of chunk 1. -/
def demandZero : List (Action 4) :=
  faultZero ++ [.acquire (.worker 0), .exec (.worker 0) {}, .acquire (.worker 0),
    .exec (.worker 0) {}] ++ fetchPage (.worker 0) ++ [.acquire (.worker 0), .exec (.worker 0) {},
    .exec (.worker 0) {}, .acquire (.worker 0), .exec (.worker 0) {}, .acquire (.worker 0),
    .exec (.worker 0) {}, .acquire (.worker 0), .exec (.worker 0) {}]

/-- Worker 1 prefetches chunk 1 up to its commit. -/
def prefetchOne : List (Action 4) :=
  demandZero ++ [.acquire (.worker 1), .exec (.worker 1) {}, .acquire (.worker 1),
    .exec (.worker 1) {}, .acquire (.worker 1), .exec (.worker 1) {}, .exec (.worker 1) {}] ++
    fetchPage (.worker 1)

/-- Worker 1 commits chunk 1 and puts it into the FIFO. -/
def retainOne : List (Action 4) :=
  prefetchOne ++ [.acquire (.worker 1), .exec (.worker 1) {}, .exec (.worker 1) {},
    .acquire (.worker 1), .exec (.worker 1) {}]

theorem retainOne_runs : (run (ringed fourAhead fourAheadCycle (by decide)) retainOne
    (ringed fourAhead fourAheadCycle (by decide)).init).isSome = true := by
  decide +kernel

theorem pin_conservation_fourAhead : ∃ s : State 4 LoDeclared,
    s.sh.region.pinnedPrefetch = [1] ∧ (s.sh.region.chunks 1).pin = 1 ∧
      ∀ c ∈ s.sh.region.pinnedPrefetch, (s.sh.region.chunks c).state = .resident :=
  ⟨_, by decide +kernel, by decide +kernel, (pin_conservation fourAhead fourAheadCycle (by decide)
    (reachable_get retainOne retainOne_runs)).1.2.2.2⟩

end Residctl.Pager
