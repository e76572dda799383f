import Residctl.Pool
import Residctl.Pins

/-!
# The prefetch depth

`prefetch_pool_top_up` reads `pf_outstanding`, releases the pool's mutex, and enqueues up
to the difference to `prefetch_depth` later. Two threads that read before either has
enqueued both take the whole difference, and exceed the depth (`depth_exceeded`). As long
as nobody computes an allowance while another thread still has one, the depth is a bound
(`depth_bound`).
-/

namespace Residctl.Pager

open Mutex Function Runs

variable {n : ℕ} {σ : Type} {cfg : Config n σ} {s s' : State n σ} {a : Action n} {t : Tid}
  {io : Input n} {k k' : Point n} {V V' : Pool n}

/-- The threads that can run `prefetch_pool_top_up`. -/
def poolThreads (cfg : Config n σ) : List Tid :=
  .handler :: (List.range (nWorkers cfg)).map .worker

def Point.measures : Point n → Bool
  | job _ .topNeed => true
  | _ => false

/-- A thread that finds room for prefetches is the only one in `prefetch_pool_top_up`. -/
def OneTopUp (cfg : Config n σ) (a : Action n) (s : State n σ) : Prop :=
  match a with
  | .exec t _ => (s.pc t).point.measures = true → s.sh.pfOutstanding < cfg.prefetchDepth →
      ∀ u ∈ poolThreads cfg, u ≠ t → (s.pc u).point.room = 0
  | _ => True

instance (cfg : Config n σ) (a : Action n) (s : State n σ) : Decidable (OneTopUp cfg a s) := by
  unfold OneTopUp
  induction a using Action.casesOn <;> dsimp only <;> infer_instance

/-- Every thread keeps to what is left of the depth, and one thread at most has an allowance. -/
structure Capped (cfg : Config n σ) (P : Tid → Point n) (m : ℕ) : Prop where
  bound : ∀ t, m + (P t).room ≤ cfg.prefetchDepth
  one : ∀ t u, 0 < (P t).room → 0 < (P u).room → t = u

section

variable {P : Tid → Point n} {m m' : ℕ}

theorem Capped.le (h : Capped cfg P m) : m ≤ cfg.prefetchDepth :=
  (Nat.le_add_right _ _).trans (h.bound .handler)

/-- A step that takes no allowance. -/
theorem Capped.move (h : Capped cfg P m) (hm : m' ≤ m) (hroom : k'.room ≤ (P t).room) :
    Capped cfg (update P t k') m' := by
  have hle : ∀ u, (update P t k' u).room ≤ (P u).room := by
    intro u
    by_cases hu : u = t
    · subst hu
      rwa [update_self]
    · rw [update_of_ne hu]
  refine ⟨fun u => ?_, fun u v hu hv => ?_⟩
  · have hb := h.bound u
    have hu := hle u
    omega
  · exact h.one u v (hu.trans_le (hle u)) (hv.trans_le (hle v))

/-- A thread computes its allowance when nobody else has one. -/
theorem Capped.measure (h : Capped cfg P m) (hother : ∀ u, u ≠ t → (P u).room = 0)
    (hroom : m + k'.room ≤ cfg.prefetchDepth) : Capped cfg (update P t k') m := by
  have hpos : ∀ u, 0 < (update P t k' u).room → u = t := by
    intro u hu
    by_contra hne
    rw [update_of_ne hne, hother u hne] at hu
    exact absurd hu (lt_irrefl 0)
  refine ⟨fun u => ?_, fun u v hu hv => (hpos u hu).trans (hpos v hv).symm⟩
  by_cases hu : u = t
  · subst hu
    rwa [update_self]
  · rw [update_of_ne hu]
    exact h.bound u

/-- A request is enqueued: the allowance of its thread shrinks by one. -/
theorem Capped.enqueue (h : Capped cfg P m) (hroom : k'.room + 1 = (P t).room) :
    Capped cfg (update P t k') (m + 1) := by
  have ht := h.bound t
  have hmove : Capped cfg (update P t k') m := h.move le_rfl (by omega)
  refine ⟨fun u => ?_, hmove.one⟩
  by_cases hu : u = t
  · subst hu
    rw [update_self]
    omega
  · -- the other threads have no allowance
    have hzero : (P u).room = 0 := by
      by_contra hne
      exact hu (h.one u t (Nat.pos_of_ne_zero hne) (by omega))
    rw [update_of_ne hu, hzero]
    omega

theorem Capped.deed (h : Capped cfg P V.pfOutstanding)
    (hdown : ∀ c, P t = .prefetchDone c → 0 < V.pfOutstanding) (hlt : V.pfOutstanding < 2 ^ 32)
    (hone : (P t).measures = true → V.pfOutstanding < cfg.prefetchDepth →
      ∀ u, u ≠ t → (P u).room = 0)
    (hdeed : PoolDeed cfg (P t) k' V V') : Capped cfg (update P t k') V'.pfOutstanding := by
  generalize hk : P t = k at hdeed hone
  cases hdeed with
  | aloof hal => exact h.move le_rfl (hk ▸ hal.room)
  | @measure j V =>
    split
    · rename_i hless
      refine h.measure (hone rfl hless) ?_
      show V.pfOutstanding + (topNext _ 0 j.target).room ≤ cfg.prefetchDepth
      rw [topNext_room]
      omega
    · exact h.move le_rfl (Nat.zero_le _)
  | @enqueuePrefetch j need i c V hnew hroom =>
    refine h.enqueue ?_
    rw [hk]
    show (topNext need (i + 1) c).room + 1 = need - (i + 1) + 1
    rw [topNext_room]
  | prefetchDone =>
    have hpos := hdown _ hk
    refine h.move ?_ (Nat.zero_le _)
    show (V.pfOutstanding + 2 ^ 32 - 1) % 2 ^ 32 ≤ V.pfOutstanding
    omega
  | _ => exact h.move le_rfl (Nat.zero_le _)

end

/-- Only the threads of the pool have an allowance. -/
theorem Reach.room_eq_zero {ok : Action n → State n σ → Prop} {p : σ} (h : Reach (pager cfg p) ok s)
    (ht : t ∉ poolThreads cfg) : (s.pc t).point.room = 0 := by
  have hs := Reach.sound h
  cases t with
  | handler => exact absurd List.mem_cons_self ht
  | worker i =>
    have hi : ¬ i < nWorkers cfg := fun hlt =>
      ht (List.mem_cons_of_mem _ (List.mem_map.2 ⟨i, List.mem_range.2 hlt, rfl⟩))
    rw [(Reach.hired h i).resolve_left hi]
    rfl
  | client i =>
    have hkind := hs.kind (.client i)
    cases hp : (s.pc (.client i)).point with
    | job j b =>
      rw [hp] at hkind
      cases j <;> cases hkind
    | _ => rfl

theorem Reach.capped {p : σ} (hn : n < 2 ^ 32) (h : Reach (pager cfg p) (OneTopUp cfg) s) :
    Capped cfg (fun t => (s.pc t).point) s.sh.pfOutstanding := by
  refine h.invariant (I := fun s => Capped cfg (fun t => (s.pc t).point) s.sh.pfOutstanding) ?_
    fun a s s' hr hok hc hstep => ?_
  · have hzero : ∀ t, ((pager cfg p).init.pc t).point.room = 0 :=
      init_point (P := fun k => k.room = 0) rfl rfl rfl rfl cfg p
    refine ⟨fun t => ?_, fun t u ht => ?_⟩
    · rw [hzero]
      exact Nat.zero_le _
    · rw [hzero] at ht
      exact absurd ht (lt_irrefl 0)
  · have htracks := Reach.tracks hn hr
    have hout : s.sh.pfOutstanding ≤ n := htracks.outstanding.le.trans (card_tracked_le _)
    obtain ⟨t, hdeed, hother, hact⟩ := pool_step hstep
    show Capped cfg (fun u => (s'.pc u).point) s'.sh.pool.pfOutstanding
    rw [points_update hother]
    rcases hact with ⟨io, rfl⟩ | ⟨-, haloof, hpool⟩
    · refine hc.deed (V := s.sh.pool) (fun c hp => ?_) (hout.trans_lt hn) (fun hm hlt u hu => ?_) hdeed
      · exact htracks.outstanding_pos (t := t) (c := c) (by rw [State.working, hp]; rfl)
      · by_cases hmem : u ∈ poolThreads cfg
        · exact hok hm hlt u hmem hu
        · exact Reach.room_eq_zero hr hmem
    · rw [hpool]
      exact hc.move le_rfl haloof.room

/-- When allowances never overlap, the prefetches that are queued or in flight stay within
`prefetch_depth`. -/
theorem depth_bound (cfg : Config n σ) (p : σ) (hn : n < 2 ^ 32)
    (h : Reach (pager cfg p) (OneTopUp cfg) s) : s.sh.pfOutstanding ≤ cfg.prefetchDepth :=
  (Reach.capped hn h).le

theorem retainOne_oneTopUp : (runIf (pager fourAhead fourAheadCycle) (OneTopUp fourAhead) retainOne
    (pager fourAhead fourAheadCycle).init).isSome = true := by
  decide +kernel

theorem depth_bound_fourAhead : ∃ s : State 4 LoDeclared,
    s.sh.pfTracked 1 = true ∧ s.sh.pfOutstanding ≤ fourAhead.prefetchDepth :=
  ⟨_, by decide +kernel, depth_bound fourAhead fourAheadCycle (by decide)
    (reach_get retainOne retainOne_oneTopUp)⟩

/-- Client 1 faults on chunk 2, and the dispatcher queues it behind chunk 0. -/
def faultBoth : List (Action 4) :=
  faultZero ++ [.exec (.client 1) { op := .touch 8192 }, .exec (.client 1) {}, .exec .handler {},
    .acquire .handler, .exec .handler {}, .acquire .handler, .exec .handler {}, .acquire .handler,
    .exec .handler {}]

/-- A worker fetches the next chunk of the demand queue, up to its top-up. -/
def demandFetch (t : Tid) : List (Action 4) :=
  [.acquire t, .exec t {}, .acquire t, .exec t {}] ++ fetchPage t ++
    [.acquire t, .exec t {}, .exec t {}]

/-- Both workers read `pf_outstanding` before either enqueues. -/
def topUpBoth : List (Action 4) :=
  faultBoth ++ demandFetch (.worker 0) ++ demandFetch (.worker 1) ++
    [.acquire (.worker 0), .exec (.worker 0) {}, .acquire (.worker 1), .exec (.worker 1) {},
      .acquire (.worker 0), .exec (.worker 0) {}, .acquire (.worker 0), .exec (.worker 0) {},
      .acquire (.worker 1), .exec (.worker 1) {}, .acquire (.worker 1), .exec (.worker 1) {}]

theorem topUpBoth_runs : (run (pager fourAhead fourAheadCycle) topUpBoth
    (pager fourAhead fourAheadCycle).init).isSome = true := by
  decide +kernel

/-- Two prefetches are queued at depth 1. -/
theorem depth_exceeded : ¬ ∀ s, Reachable (pager fourAhead fourAheadCycle) s →
    s.sh.pfOutstanding ≤ fourAhead.prefetchDepth := by
  intro h
  have hle := h _ (reachable_get topUpBoth topUpBoth_runs)
  revert hle
  decide +kernel

end Residctl.Pager
