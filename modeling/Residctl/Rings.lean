import Residctl.Pool
import Residctl.RetainRing

/-!
# The queues in their rings

`prefetch_pool.c` and `budget.c` keep three queues in arrays and compute the index of a place
in 32 bits. `ringed` is the pager with these arrays: a step of a thread writes the slots that
the code writes, and the next thread finds in the queues what it reads from the slots.

The ring behind the retention FIFO never wraps: `predict_next` returns an `int32_t`, so the
first `2 ^ 31` chunks are the only ones that are prefetched (`Retained`). The two rings of the
fetch pool lose an entry when one is pushed at `head + len = 2 ^ 32`. While none is (`InRange`)
the run is a run of `pager`, whose queues are lists (`Reach.unringed`); up to `2 ^ 31` slots
none ever is (`Reach.inRange`).
-/

namespace Residctl.Pager

open Function Runs

variable {n : ℕ} {σ : Type} {cfg : Config n σ} {s s' : State n σ} {a : Action n} {t : Tid}
  {io : Input n} {sh sh' : Shared n σ} {k k' : Point n} {c : Fin n}

/-! ## The machine with the rings -/

structure Rings (n : ℕ) where
  demand : RingBuffer (Fin n)
  prefetch : RingBuffer (Fin n)
  /-- `pinned_prefetch_queue` -/
  pinned : RingBuffer (Fin n)

/-- Zeroed arrays. A table has at least one chunk. -/
def Rings.init (hn : 0 < n) : Rings n :=
  ⟨⟨fun _ => ⟨0, hn⟩, 0, 0⟩, ⟨fun _ => ⟨0, hn⟩, 0, 0⟩, ⟨fun _ => ⟨0, hn⟩, 0, 0⟩⟩

def Rings.queue (q : Rings n) : JobKind → RingBuffer (Fin n)
  | .demand => q.demand
  | .prefetch => q.prefetch

/-- `prefetch_pool_enqueue_demand` and the first half of `worker_main`. -/
def Rings.demandAt (q : Rings n) : Point n → RingBuffer (Fin n)
  | .enqueue _ c => q.demand.wordPush (2 ^ 32) (queueCap n) c
  | .pick => if q.demand.len > 0 then q.demand.wordPop (2 ^ 32) (queueCap n) else q.demand
  | _ => q.demand

/-- `prefetch_pool_top_up` and the second half of `worker_main`. -/
def Rings.prefetchAt (sh : Shared n σ) (q : Rings n) : Point n → RingBuffer (Fin n)
  | .job _ (.topEnqueue _ _ c) =>
    if Wanted sh c then q.prefetch.wordPush (2 ^ 32) (queueCap n) c else q.prefetch
  | .pick =>
    if q.demand.len = 0 ∧ q.prefetch.len > 0 then q.prefetch.wordPop (2 ^ 32) (queueCap n)
    else q.prefetch
  | _ => q.prefetch

/-- The operation on the retention FIFO at a point. -/
def Point.retention (cfg : Config n σ) (sh : Shared n σ) : Point n → Option (RetainOp n)
  | .job j .retain => some (.retain j.target)
  | .job j (.fit _) =>
    match decision cfg sh.region j with
    | .breakPin v => some (.release v)
    | _ => none
  | .release c => some (.release c)
  | _ => none

/-- `prefetch_retain_on_resident` and `prefetch_retain_release`. -/
def Rings.pinnedAt (cfg : Config n σ) (sh : Shared n σ) (q : Rings n) (k : Point n) :
    RingBuffer (Fin n) :=
  match k.retention cfg sh with
  | some op => (op.ring cfg.pinnedPrefetchCap ⟨sh.region, q.pinned⟩).ring
  | none => q.pinned

/-- The rings after the step. -/
def Rings.step (cfg : Config n σ) (q : Rings n) (a : Action n) (s : State n σ) : Rings n :=
  match a with
  | .exec t _ =>
    match s.pc t with
    | .go k => ⟨q.demandAt k, q.prefetchAt s.sh k, q.pinnedAt cfg s.sh k⟩
    | .acq _ => q
  | _ => q

/-- The queues as the code reads them. -/
def State.load (cfg : Config n σ) (s : State n σ) (q : Rings n) : State n σ :=
  { s with sh := { s.sh with
    demandQueue := q.demand.entries (2 ^ 32) (queueCap n)
    pfQueue := q.prefetch.entries (2 ^ 32) (queueCap n)
    region := { s.sh.region with
      pinnedPrefetch := q.pinned.entries (2 ^ 32) cfg.pinnedPrefetchCap } } }

def ringed (cfg : Config n σ) (p : σ) (hn : 0 < n) : Machine (State n σ × Rings n) (Action n) where
  init := ((pager cfg p).init, Rings.init hn)
  step a x := (Pager.step cfg a x.1).map fun s =>
    (s.load cfg (x.2.step cfg a x.1), x.2.step cfg a x.1)

/-- The code at the point writes an entry into the ring. -/
def Point.Pushes (sh : Shared n σ) (kind : JobKind) : Point n → Prop
  | .enqueue _ _ => kind = .demand
  | .job _ (.topEnqueue _ _ c) => kind = .prefetch ∧ Wanted sh c
  | _ => False

/-- `head + len` is an `uint32_t` when an entry is written. -/
def InRange (kind : JobKind) (a : Action n) (x : State n σ × Rings n) : Prop :=
  match a with
  | .exec t _ => ∀ k, x.1.pc t = .go k → k.Pushes x.1.sh kind →
      (x.2.queue kind).head + (x.2.queue kind).len < 2 ^ 32
  | _ => True

theorem queueCap_lt (n : ℕ) : queueCap n < 2 ^ 32 := Nat.mod_lt _ (by decide)

/-! ## The rings of the fetch pool -/

section

variable {q : Rings n} {j : Job n} {i : Instr n}

theorem JobBranch.demandQueue (h : JobBranch cfg io sh j i sh' k') :
    sh'.demandQueue = sh.demandQueue := by
  have hdeed := h.pool
  show sh'.pool.demandQueue = sh.pool.demandQueue
  generalize sh.pool = V at hdeed
  generalize sh'.pool = V' at hdeed
  cases hdeed <;> rfl

/-- A step keeps the demand queue in its ring. -/
theorem Rings.demandAt_holds (hexec : exec cfg t io sh k = .next sh' k')
    (h : q.demand.Holds (2 ^ 32) (queueCap n) sh.demandQueue)
    (hword : k.Pushes sh .demand → q.demand.head + q.demand.len < 2 ^ 32) :
    (q.demandAt k).Holds (2 ^ 32) (queueCap n) sh'.demandQueue := by
  have hempty : sh.demandQueue = [] → q.demandAt .pick = q.demand := by
    intro hqueue
    have hlen := h.length
    rw [hqueue] at hlen
    exact if_neg (by rw [hlen]; exact lt_irrefl 0)
  cases exec_branch hexec with
  | enqueue hroom =>
    rw [← h.length] at hroom
    exact h.push hroom (hword rfl) _
  | takeDemand hqueue =>
    have hlen := h.length
    rw [hqueue] at h hlen
    rw [Rings.demandAt, if_pos (by rw [hlen]; exact Nat.succ_pos _)]
    exact h.pop (queueCap_lt n)
  | takePrefetch hdemand _ | retire hdemand _ _ | idle hdemand _ _ =>
    rw [hempty hdemand]
    exact h
  | job hbranch =>
    rw [hbranch.demandQueue]
    exact h
  | onFault | onAccess =>
    rw [show (sh.hook _ _).demandQueue = sh.demandQueue from
      congrArg Pool.demandQueue (pool_hook sh _ _)]
    exact h
  | _ => exact h

/-- A step keeps the prefetch queue in its ring. -/
theorem Rings.prefetchAt_holds (hexec : exec cfg t io sh k = .next sh' k')
    (hdemand : q.demand.len = sh.demandQueue.length)
    (h : q.prefetch.Holds (2 ^ 32) (queueCap n) sh.pfQueue)
    (hword : k.Pushes sh .prefetch → q.prefetch.head + q.prefetch.len < 2 ^ 32) :
    (q.prefetchAt sh k).Holds (2 ^ 32) (queueCap n) sh'.pfQueue := by
  have hsame : ∀ {sh₁ : Shared n σ}, sh₁.pool = sh.pool →
      q.prefetch.Holds (2 ^ 32) (queueCap n) sh₁.pfQueue := by
    intro sh₁ hpool
    rw [show sh₁.pfQueue = sh.pfQueue from congrArg Pool.pfQueue hpool]
    exact h
  have hlen := h.length
  cases exec_branch hexec with
  | takeDemand hqueue =>
    rw [hqueue] at hdemand
    rw [Rings.prefetchAt, if_neg (by rw [hdemand]; simp)]
    exact h
  | takePrefetch hnil hqueue =>
    rw [hnil] at hdemand
    rw [hqueue] at h hlen
    rw [Rings.prefetchAt, if_pos (by rw [hdemand, hlen]; simp)]
    exact h.pop (queueCap_lt n)
  | retire _ hnil _ | idle _ hnil _ =>
    rw [hnil] at hlen
    rw [Rings.prefetchAt, if_neg (by rw [hlen]; simp)]
    exact h
  | job hbranch =>
    cases hbranch with
    | topEnqueue =>
      rw [Rings.prefetchAt, topEnqueue]
      split
      · rename_i hwanted
        refine h.push ?_ (hword ⟨rfl, hwanted⟩) _
        rw [hlen]
        exact hwanted.2.2.2
      · exact h
    | pad => exact hsame (pool_padTail _ _ _)
    | mark => exact hsame (pool_markResident _ _ _)
    | abandon => exact hsame (pool_countFailed _ _)
    | finishPrefetch _ => exact hsame (pool_hook _ _ _)
    | _ => exact h
  | onFault | onAccess => exact hsame (pool_hook sh _ _)
  | _ => exact h

/-! ## The ring behind the retention FIFO -/

@[simp] theorem pinned_hook (sh : Shared n σ) (f : Option (σ → Fin n → σ)) (c : Fin n) :
    (sh.hook f c).region.pinnedPrefetch = sh.region.pinnedPrefetch := by
  cases f <;> rfl

/-- What the code at a point does to the FIFO. -/
theorem exec_retention (hexec : exec cfg t io sh k = .next sh' k') :
    sh'.region.pinnedPrefetch = match k.retention cfg sh with
      | some op => (op.fifo cfg sh.region).pinnedPrefetch
      | none => sh.region.pinnedPrefetch := by
  cases exec_branch hexec with
  | @job j _ _ _ hbranch =>
    cases hbranch with
    | breakPin hdecide =>
      simp only [Point.retention, hdecide]
      rfl
    | choose hdecide => simp only [Point.retention, hdecide]
    | reserve hdecide | infeasible hdecide | decline hdecide =>
      simp only [Point.retention, hdecide]
      rfl
    | pad =>
      unfold padTail
      split <;> rfl
    | mark =>
      unfold markResident
      split
      · rfl
      · exact pinned_hook _ _ _
    | abandon => cases j <;> rfl
    | finishPrefetch _ => exact pinned_hook _ _ _
    | commit => cases j <;> rfl
    | topEnqueue =>
      unfold topEnqueue
      split <;> rfl
    | _ => rfl
  | onFault | onAccess => exact pinned_hook _ _ _
  | _ => rfl

/-- The ring holds the FIFO and does not wrap: either it has at most `2 ^ 31` slots, or it never
fills, so that its head stays where it is. -/
structure Retained (cfg : Config n σ) (r : Region n σ) (ring : RingBuffer (Fin n)) : Prop where
  ok : RingRegion.Ok cfg.pinnedPrefetchCap ⟨r, ring⟩
  contents : ring.contents cfg.pinnedPrefetchCap = r.pinnedPrefetch
  near : ∀ c ∈ r.pinnedPrefetch, c.1 < 2 ^ 31
  short : cfg.pinnedPrefetchCap ≤ 2 ^ 31 ∨ ring.head = 0

variable {r r' : Region n σ} {ring : RingBuffer (Fin n)}

theorem length_le_of_near {l : List (Fin n)} (hnodup : l.Nodup) (hnear : ∀ c ∈ l, c.1 < 2 ^ 31) :
    l.length ≤ 2 ^ 31 := by
  have hsub : l.map Fin.val ⊆ List.range (2 ^ 31) := by
    intro x hx
    obtain ⟨c, hc, rfl⟩ := List.mem_map.1 hx
    exact List.mem_range.2 (hnear c hc)
  have hle := (List.subperm_of_subset (hnodup.map Fin.val_injective) hsub).length_le
  rwa [List.length_map, List.length_range] at hle

theorem Retained.len_le (h : Retained cfg r ring) : ring.len ≤ 2 ^ 31 := by
  have hle := length_le_of_near (h.contents ▸ h.ok.nodup) h.near
  rwa [← h.contents, RingBuffer.length_contents] at hle

theorem Retained.word (h : Retained cfg r ring) : ring.head + ring.len < 2 ^ 32 := by
  have hhead : ring.head < _ := h.ok.head
  have hlen : ring.len ≤ _ := h.ok.len
  have hle := h.len_le
  rcases h.short with hshort | hzero
  · omega
  · omega

theorem Retained.entries (h : Retained cfg r ring) :
    ring.entries (2 ^ 32) cfg.pinnedPrefetchCap = r.pinnedPrefetch := by
  rw [RingBuffer.entries_eq_contents h.word.le, h.contents]

theorem Retained.congr (h : Retained cfg r ring) (hfifo : r'.pinnedPrefetch = r.pinnedPrefetch) :
    Retained cfg r' ring where
  ok := ⟨h.ok.head, h.ok.len, h.ok.nodup⟩
  contents := h.contents.trans hfifo.symm
  near := hfifo ▸ h.near
  short := h.short

theorem Retained.fifo (h : Retained cfg r ring) :
    RingRegion.fifo cfg.pinnedPrefetchCap ⟨r, ring⟩ = r := by
  rw [RingRegion.fifo, h.contents]

theorem mem_of_mem_retain {target : Fin n}
    (h : c ∈ (prefetchRetainOnResident cfg r target).pinnedPrefetch) :
    c ∈ r.pinnedPrefetch ∨ c = target := by
  unfold prefetchRetainOnResident at h
  split at h
  · rename_i oldest rest hq
    rw [hq]
    split at h
    · rcases List.mem_append.1 h with hc | hc
      · exact Or.inl (List.mem_cons_of_mem _ hc)
      · exact Or.inr (List.mem_singleton.1 hc)
    · rcases List.mem_append.1 h with hc | hc
      · rw [hq] at hc
        exact Or.inl hc
      · exact Or.inr (List.mem_singleton.1 hc)
  · exact Or.inr (List.mem_singleton.1 h)

theorem mem_of_mem_release {v : Fin n} (h : c ∈ (prefetchRetainRelease r v).pinnedPrefetch) :
    c ∈ r.pinnedPrefetch := by
  unfold prefetchRetainRelease at h
  split at h
  · exact List.mem_of_mem_erase h
  · exact h

/-- A chunk that was prefetched is put behind the others. -/
theorem Retained.retain (h : Retained cfg r ring) {target : Fin n} (hnew : target ∉ r.pinnedPrefetch)
    (hnear : target.1 < 2 ^ 31) :
    Retained cfg (prefetchRetainOnResident cfg r target)
      (ringRetainOnResident cfg.pinnedPrefetchCap ⟨r, ring⟩ target).ring := by
  obtain ⟨hfifo, hok⟩ := ringRetainOnResident_refines h.ok h.word (by rwa [h.contents])
  rw [h.fifo] at hfifo
  refine ⟨⟨hok.head, hok.len, hok.nodup⟩, congrArg Region.pinnedPrefetch hfifo, ?_, ?_⟩
  · intro c hc
    rcases mem_of_mem_retain hc with hold | rfl
    · exact h.near c hold
    · exact hnear
  · by_cases hcap : cfg.pinnedPrefetchCap ≤ 2 ^ 31
    · exact Or.inl hcap
    · -- there are not as many chunks as slots
      have hle := h.len_le
      rw [ringRetainOnResident_of_room (by show ¬ ring.len ≥ _; omega)]
      exact Or.inr (h.short.resolve_left hcap)

theorem Retained.release (h : Retained cfg r ring) (v : Fin n) :
    Retained cfg (prefetchRetainRelease r v)
      (ringRetainRelease cfg.pinnedPrefetchCap ⟨r, ring⟩ v).ring := by
  obtain ⟨hfifo, hok⟩ := ringRetainRelease_refines h.ok h.word.le v
  rw [h.fifo] at hfifo
  refine ⟨⟨hok.head, hok.len, hok.nodup⟩, congrArg Region.pinnedPrefetch hfifo, ?_, ?_⟩
  · intro c hc
    exact h.near c (mem_of_mem_release hc)
  · refine h.short.imp id fun hzero => ?_
    unfold ringRetainRelease
    split
    · exact hzero
    · exact hzero

end

/-! ## Predictions -/

/-- The chunk that the point is about was predicted: its id is an `int32_t`. -/
def Point.Near : Point n → Prop
  | .checkPrefetch c => c.1 < 2 ^ 31
  | .pinPrefetch _ c => c.1 < 2 ^ 31
  | .startPrefetch _ c => c.1 < 2 ^ 31
  | .checkMaybe _ c _ => c.1 < 2 ^ 31
  | .pinJustResident _ c _ => c.1 < 2 ^ 31
  | .job j i => (j.speculative = true ∨ i = .retain → j.target.1 < 2 ^ 31) ∧
      ∀ need r c, i = .topEnqueue need r c → c.1 < 2 ^ 31
  | _ => True

theorem predictNext_lt (cfg : Config n σ) (sh : Shared n σ) (c : Fin n) :
    predictNext cfg sh c < 2 ^ 31 := by
  unfold predictNext
  split
  · rename_i predict hpredict
    obtain ⟨P, -, hP⟩ := Option.bind_eq_some_iff.1 hpredict
    exact P.predictNext_lt hP
  · decide

theorem near_of_predict {d : Fin n} (h : predictNext cfg sh c = d.1) : d.1 < 2 ^ 31 := by
  have hlt := predictNext_lt cfg sh c
  omega

section

variable {j : Job n} {i i' : Instr n}

theorem Point.Near.inside (h : (Point.job j i).Near) (hretain : i' = .retain → j.speculative = true)
    (htop : ∀ need r c, i' ≠ .topEnqueue need r c) : (Point.job j i').Near := by
  constructor
  · intro hor
    exact h.1 (Or.inl (hor.elim id hretain))
  · intro need r c he
    exact absurd he (htop need r c)

/-- A demand fetch has not been predicted. -/
theorem Point.near_demand (hj : j.speculative = false) (hretain : i ≠ .retain)
    (htop : ∀ need r c, i ≠ .topEnqueue need r c) : (Point.job j i).Near := by
  constructor
  · rintro (hspec | hi)
    · rw [hj] at hspec
      cases hspec
    · exact absurd hi hretain
  · intro need r c he
    exact absurd he (htop need r c)

theorem ensured_ne (cfg : Config n σ) (b : ℕ) (ok : Bool) (j : Job n) :
    ensured cfg b ok j ≠ .retain ∧ ∀ need r c, ensured cfg b ok j ≠ .topEnqueue need r c := by
  cases j <;> cases ok <;> simp only [ensured, if_true, if_false, Bool.false_eq_true]
  all_goals try split
  all_goals exact ⟨by simp, by simp⟩

theorem marked_ne (cfg : Config n σ) (j : Job n) :
    (marked cfg j = .retain → j.speculative = true) ∧
      ∀ need r c, marked cfg j ≠ .topEnqueue need r c := by
  unfold marked speculate
  cases j <;> simp only [Job.speculative, if_true, if_false, Bool.false_eq_true]
  all_goals repeat' split
  all_goals exact ⟨by simp, by simp⟩

theorem topNext_ne (need r : ℕ) (c : Fin n) :
    topNext need r c ≠ .retain ∧ ∀ need' r' c', topNext need r c ≠ .topEnqueue need' r' c' := by
  unfold topNext
  split
  · exact ⟨by simp, by simp⟩
  · exact ⟨by simp, by simp⟩

theorem after_near (j : Job n) : j.after.Near := by
  cases j with
  | maybe jr c hne => exact Point.near_demand rfl nofun nofun
  | _ => trivial

theorem JobBranch.near (h : JobBranch cfg io sh j i sh' k') (hk : (Point.job j i).Near) :
    k'.Near := by
  cases h with
  | @reserve _ b _ =>
    obtain ⟨hretain, htop⟩ := ensured_ne cfg b true j
    exact hk.inside (fun he => absurd he hretain) htop
  | @infeasible _ b _ | @decline _ b _ =>
    obtain ⟨hretain, htop⟩ := ensured_ne cfg b false j
    exact hk.inside (fun he => absurd he hretain) htop
  | @unpinJustResident _ _ _ ok | @unpinTarget _ ok => cases ok <;> exact hk.inside nofun nofun
  | mark => exact hk.inside (marked_ne cfg j).1 (marked_ne cfg j).2
  | abandon | finishPrefetch _ | finish _ => exact after_near j
  | predict hpredict => exact near_of_predict hpredict
  | topPredict hpredict _ =>
    constructor
    · rintro (hspec | ⟨⟨⟩⟩)
      exact hk.1 (Or.inl hspec)
    · rintro _ _ _ ⟨⟩
      exact near_of_predict hpredict
  | topNeed =>
    obtain ⟨hretain, htop⟩ := topNext_ne (if sh.pfOutstanding < cfg.prefetchDepth then
      cfg.prefetchDepth - sh.pfOutstanding else 0) 0 j.target
    exact hk.inside (fun he => absurd he hretain) htop
  | @topEnqueue _ need r c =>
    obtain ⟨hretain, htop⟩ := topNext_ne need (r + 1) c
    exact hk.inside (fun he => absurd he hretain) htop
  | _ => exact hk.inside nofun nofun

theorem exec_near (hexec : exec cfg t io sh k = .next sh' k') (hk : k.Near)
    (hqueue : ∀ c ∈ sh.pfQueue, c.1 < 2 ^ 31) : k'.Near := by
  cases exec_branch hexec with
  | job h => exact h.near hk
  | takePrefetch _ hq =>
    apply hqueue
    rw [hq]
    exact List.mem_cons_self
  | wanted _ | pinPrefetch | startMaybe _ => exact hk
  | startPrefetch | pinJustResident => exact ⟨fun _ => hk, nofun⟩
  | startDemand _ | leaveMaybe _ => exact Point.near_demand rfl nofun nofun
  | beginSilently _ _ | onFault =>
    unfold afterFault
    split
    · trivial
    · exact Point.near_demand rfl nofun nofun
  | notifySilently _ _ | onAccess =>
    unfold afterAccess
    split <;> trivial
  | _ => trivial

end

/-! ## Every run -/

/-- Put other jobs into the queues of the fetch pool. -/
def State.requeue (s : State n σ) (demand prefetch : List (Fin n)) : State n σ :=
  { s with sh := { s.sh with demandQueue := demand, pfQueue := prefetch } }

/-- The locks, the chunks and the counters do not depend on the queues. -/
theorem Sound.requeue (h : Sound cfg s) (demand prefetch : List (Fin n)) :
    Sound cfg (s.requeue demand prefetch) :=
  ⟨h.owned, h.waiting, h.kind, h.inline, h.life, h.victim⟩

/-- What holds in every state of the ringed machine, also when a ring has lost an entry. -/
structure Ringed (cfg : Config n σ) (s : State n σ) (q : Rings n) : Prop where
  sound : Sound cfg s
  near : ∀ t, (s.pc t).point.Near
  slots : ∀ i, (q.prefetch.slot i).1 < 2 ^ 31
  demandQueue : s.sh.demandQueue = q.demand.entries (2 ^ 32) (queueCap n)
  pfQueue : s.sh.pfQueue = q.prefetch.entries (2 ^ 32) (queueCap n)
  retained : Retained cfg s.sh.region q.pinned

section

variable {q : Rings n}

theorem Rings.step_exec (q : Rings n) (hpc : s.pc t = .go k) :
    q.step cfg (.exec t io) s = ⟨q.demandAt k, q.prefetchAt s.sh k, q.pinnedAt cfg s.sh k⟩ := by
  simp only [Rings.step, hpc]

theorem State.load_eq (h : Retained cfg s.sh.region q.pinned) :
    s.load cfg q = s.requeue (q.demand.entries (2 ^ 32) (queueCap n))
      (q.prefetch.entries (2 ^ 32) (queueCap n)) := by
  rw [State.load, h.entries]
  rfl

theorem retention_eq_retain {target : Fin n} (h : k.retention cfg sh = some (.retain target)) :
    ∃ j, k = .job j .retain ∧ target = j.target := by
  cases k with
  | job j i =>
    cases i with
    | retain => exact ⟨j, rfl, (RetainOp.retain.inj (Option.some.inj h)).symm⟩
    | fit b =>
      simp only [Point.retention] at h
      split at h <;> cases h
    | _ => cases h
  | _ => cases h

/-- A chunk about to be retained is not in the FIFO yet. -/
theorem Ringed.retained_exec (h : Ringed cfg s q) (hpc : s.pc t = .go k)
    (hexec : exec cfg t io s.sh k = .next sh' k') :
    Retained cfg sh'.region (q.pinnedAt cfg s.sh k) := by
  have hfifo := exec_retention hexec
  unfold Rings.pinnedAt
  cases hop : k.retention cfg s.sh with
  | none =>
    rw [hop] at hfifo
    exact h.retained.congr hfifo
  | some op =>
    rw [hop] at hfifo
    cases op with
    | retain target =>
      obtain ⟨j, rfl, rfl⟩ := retention_eq_retain hop
      have hnear := h.near t
      rw [hpc] at hnear
      refine (h.retained.retain ?_ (hnear.1 (Or.inr rfl))).congr hfifo
      intro hmem
      have hpins := (h.sound.life.retained j.target hmem).2
      rw [show (s.sh.life s.role).role j.target = s.role j.target from rfl,
        h.sound.role_job hpc] at hpins
      cases hpins
    | release v => exact (h.retained.release v).congr hfifo

theorem Ringed.slots_exec (h : Ringed cfg s q) (hpc : s.pc t = .go k) (i : ℕ) :
    ((q.prefetchAt s.sh k).slot i).1 < 2 ^ 31 := by
  have hnear := h.near t
  rw [hpc] at hnear
  unfold Rings.prefetchAt
  split
  · split
    · show (update q.prefetch.slot _ _ i).1 < 2 ^ 31
      rw [update_apply]
      split
      · exact hnear.2 _ _ _ rfl
      · exact h.slots i
    · exact h.slots i
  · split
    · exact h.slots i
    · exact h.slots i
  · exact h.slots i

theorem Ringed.near_exec (h : Ringed cfg s q) (hpc : s.pc t = .go k)
    (hexec : exec cfg t io s.sh k = .next sh' k') : k'.Near := by
  refine exec_near hexec (forall_go (P := fun _ k => k.Near) h.near hpc) fun c hc => ?_
  rw [h.pfQueue] at hc
  obtain ⟨i, -, rfl⟩ := List.mem_map.1 hc
  exact h.slots _

theorem Ringed.loaded (hs : Sound cfg s) (hnear : ∀ t, (s.pc t).point.Near)
    (hslots : ∀ i, (q.prefetch.slot i).1 < 2 ^ 31) (hretained : Retained cfg s.sh.region q.pinned) :
    Ringed cfg (s.load cfg q) q := by
  rw [State.load_eq hretained]
  exact ⟨hs.requeue _ _, hnear, hslots, rfl, rfl, hretained.congr rfl⟩

theorem Ringed.step (h : Ringed cfg s q) (hstep : Pager.step cfg a s = some s') :
    Ringed cfg (s'.load cfg (q.step cfg a s)) (q.step cfg a s) ∧
      Retained cfg s'.sh.region (q.step cfg a s).pinned := by
  have hs := h.sound.step hstep
  cases moves_of_step hstep with
  | acquire hpc hneeds hfree =>
    exact ⟨Ringed.loaded hs (forall_acquire (P := fun _ k => k.Near) h.near hpc) h.slots h.retained,
      h.retained⟩
  | giveUp hpc =>
    exact ⟨Ringed.loaded hs (forall_arrive (P := fun _ k => k.Near) h.near trivial) h.slots h.retained,
      h.retained⟩
  | exec hpc hexec =>
    rw [q.step_exec hpc]
    have hretained := h.retained_exec hpc hexec
    exact ⟨Ringed.loaded hs (forall_arrive (P := fun _ k => k.Near) h.near (h.near_exec hpc hexec))
      (h.slots_exec hpc) hretained, hretained⟩
  | tick _ => exact ⟨Ringed.loaded hs h.near h.slots (h.retained.congr rfl), h.retained.congr rfl⟩
  | drop _ => exact ⟨Ringed.loaded hs h.near h.slots (h.retained.congr rfl), h.retained.congr rfl⟩
  | requestStop =>
    exact ⟨Ringed.loaded hs h.near h.slots (h.retained.congr rfl), h.retained.congr rfl⟩

theorem Ringed.init (cfg : Config n σ) (p : σ) (hn : 0 < n) :
    Ringed cfg (pager cfg p).init (Rings.init hn) where
  sound := Sound.init cfg p
  near := init_point (P := Point.Near) trivial trivial trivial trivial cfg p
  slots _ := by
    show 0 < 2 ^ 31
    decide
  demandQueue := rfl
  pfQueue := rfl
  retained := ⟨⟨cfg.pinnedPrefetchCap_pos, Nat.zero_le _, List.nodup_nil⟩, rfl, nofun, Or.inr rfl⟩

end

variable {p : σ} {hn : 0 < n} {x x' : State n σ × Rings n}

theorem ringed_step (h : (ringed cfg p hn).step a x = some x') : ∃ s', step cfg a x.1 = some s' ∧
    x' = (s'.load cfg (x.2.step cfg a x.1), x.2.step cfg a x.1) := by
  obtain ⟨s', hs', rfl⟩ := Option.map_eq_some_iff.1 h
  exact ⟨s', hs', rfl⟩

theorem ringed_exec (hpc : x.1.pc t = .go k) (hexec : exec cfg t io x.1.sh k = .next sh' k') :
    (ringed cfg p hn).step (.exec t io) x = some
      ((x.1.arrive t sh' k').load cfg (x.2.step cfg (.exec t io) x.1),
        x.2.step cfg (.exec t io) x.1) := by
  simp [ringed, step, hpc, hexec]

theorem Reach.ringed {ok : Action n → State n σ × Rings n → Prop}
    (h : Reach (Pager.ringed cfg p hn) ok x) : Ringed cfg x.1 x.2 := by
  refine h.invariant (I := fun x => Ringed cfg x.1 x.2) (Ringed.init cfg p hn) ?_
  intro a x x' _ _ hx hstep
  obtain ⟨s', hs', rfl⟩ := ringed_step hstep
  exact (hx.step hs').1

/-! ## Runs in range -/

theorem Ringed.queue (h : Ringed cfg x.1 x.2) (kind : JobKind) :
    x.1.sh.pool.queue kind = (x.2.queue kind).entries (2 ^ 32) (queueCap n) := by
  cases kind with
  | demand => exact h.demandQueue
  | prefetch => exact h.pfQueue

theorem Ringed.length (h : Ringed cfg x.1 x.2) (kind : JobKind) :
    (x.2.queue kind).len = (x.1.sh.pool.queue kind).length := by
  rw [h.queue kind, RingBuffer.length_entries]

/-- A step in range loses nothing. -/
theorem Ringed.holds_step (kind : JobKind) (h : Ringed cfg x.1 x.2)
    (hq : (x.2.queue kind).Holds (2 ^ 32) (queueCap n) (x.1.sh.pool.queue kind))
    (hok : InRange kind a x) (hstep : Pager.step cfg a x.1 = some s') :
    ((x.2.step cfg a x.1).queue kind).Holds (2 ^ 32) (queueCap n) (s'.sh.pool.queue kind) := by
  cases moves_of_step hstep with
  | exec hpc hexec =>
    rw [x.2.step_exec hpc]
    cases kind with
    | demand => exact Rings.demandAt_holds hexec hq (hok _ hpc)
    | prefetch => exact Rings.prefetchAt_holds hexec (h.length .demand) hq (hok _ hpc)
  | _ => exact hq

theorem Reach.holds {ok : Action n → State n σ × Rings n → Prop} (kind : JobKind)
    (hok : ∀ a x, ok a x → InRange kind a x) (h : Reach (Pager.ringed cfg p hn) ok x) :
    (x.2.queue kind).Holds (2 ^ 32) (queueCap n) (x.1.sh.pool.queue kind) := by
  refine h.invariant
    (I := fun x => (x.2.queue kind).Holds (2 ^ 32) (queueCap n) (x.1.sh.pool.queue kind)) ?_ ?_
  · cases kind <;> exact RingBuffer.Holds.empty _ _ _
  · intro a x x' hr hx hq hstep
    have hr' := (Reach.ringed (Reach.step hr hx hstep)).queue kind
    obtain ⟨s', hs', rfl⟩ := ringed_step hstep
    have hholds := (Reach.ringed hr).holds_step kind hq (hok a x hx) hs'
    rw [hr', hholds.entries]
    exact hholds

/-- The queues after a step are those of the list machine. -/
theorem Ringed.load_queue (h : Ringed cfg x.1 x.2) (hstep : Pager.step cfg a x.1 = some s')
    (hq : ∀ kind, ((x.2.step cfg a x.1).queue kind).Holds (2 ^ 32) (queueCap n)
      (s'.sh.pool.queue kind)) : s'.load cfg (x.2.step cfg a x.1) = s' := by
  have hdemand : (x.2.step cfg a x.1).demand.entries _ _ = s'.sh.demandQueue := (hq .demand).entries
  have hprefetch : (x.2.step cfg a x.1).prefetch.entries _ _ = s'.sh.pfQueue := (hq .prefetch).entries
  rw [State.load_eq (h.step hstep).2, hdemand, hprefetch]
  rfl

/-- In range the rings are the queues of `pager`. -/
theorem unringed_step (ok : Action n → State n σ → Prop)
    (hr : Reach (Pager.ringed cfg p hn) (fun a x => ok a x.1 ∧ ∀ kind, InRange kind a x) x)
    (hok : ok a x.1 ∧ ∀ kind, InRange kind a x) (hstep : (Pager.ringed cfg p hn).step a x = some x') :
    ok a x.1 ∧ (pager cfg p).step a x.1 = some x'.1 := by
  obtain ⟨s', hs', rfl⟩ := ringed_step hstep
  refine ⟨hok.1, hs'.trans (congrArg some ?_)⟩
  refine ((Reach.ringed hr).load_queue hs' fun kind => ?_).symm
  exact (Reach.ringed hr).holds_step kind (Reach.holds kind (fun _ _ h => h.2 kind) hr) (hok.2 kind) hs'

theorem Reach.unringed {ok : Action n → State n σ → Prop}
    (h : Reach (Pager.ringed cfg p hn) (fun a x => ok a x.1 ∧ ∀ kind, InRange kind a x) x) :
    Reach (pager cfg p) ok x.1 :=
  Reach.map (f := Prod.fst) rfl (fun _ _ _ hr hok hstep => unringed_step ok hr hok hstep) h

/-- What does not depend on the prefetch queue holds of every run whose demand queue is in
range. -/
theorem Reach.demand_invariant {ok : Action n → State n σ → Prop} {I : State n σ → Prop}
    (hinit : I (pager cfg p).init)
    (hstep : ∀ a s s', Sound cfg s → ok a s → I s → step cfg a s = some s' → I s')
    (hqueue : ∀ s l, I s → I (s.requeue s.sh.demandQueue l))
    (h : Reach (Pager.ringed cfg p hn) (fun a x => ok a x.1 ∧ InRange .demand a x) x) : I x.1 := by
  refine h.invariant (I := fun x => I x.1) hinit fun a x x' hr hok hI hx => ?_
  obtain ⟨s', hs', rfl⟩ := ringed_step hx
  have hholds := (Reach.ringed hr).holds_step .demand (Reach.holds .demand (fun _ _ h => h.2) hr) hok.2 hs'
  have hdemand : (x.2.step cfg a x.1).demand.entries _ _ = s'.sh.demandQueue := hholds.entries
  show I (s'.load cfg _)
  rw [State.load_eq ((Reach.ringed hr).step hs').2, hdemand]
  exact hqueue s' _ (hstep a x.1 s' (Reach.ringed hr).sound hok.1 hI hs')

theorem exec_room {kind : JobKind} (hexec : exec cfg t io sh k = .next sh' k')
    (hpush : k.Pushes sh kind) : (sh.pool.queue kind).length < queueCap n := by
  cases exec_branch hexec with
  | enqueue hroom =>
    obtain rfl : kind = .demand := hpush
    exact hroom
  | job hbranch =>
    cases hbranch with
    | topEnqueue =>
      obtain ⟨rfl, hwanted⟩ := hpush
      exact hwanted.2.2.2
    | _ => cases hpush
  | _ => cases hpush

/-- With at most `2 ^ 31` slots a run stays in range. -/
theorem inRange_step {ok : Action n → State n σ × Rings n → Prop} (hsmall : n < 2 ^ 31)
    (hr : Reach (Pager.ringed cfg p hn) (fun a x => ok a x ∧ ∀ kind, InRange kind a x) x)
    (hstep : (Pager.ringed cfg p hn).step a x = some x') (kind : JobKind) : InRange kind a x := by
  unfold InRange
  split
  · rename_i t io
    intro k hpc hpush
    obtain ⟨s', hs', -⟩ := ringed_step hstep
    have hholds := Reach.holds kind (fun _ _ h => h.2 kind) hr
    have hcap : queueCap n = n + 1 := queueCap_of_lt (by unfold UINT32_MAX; omega)
    cases moves_of_step hs' with
    | exec hpc' hexec =>
      obtain rfl := Pc.go.inj (hpc.symm.trans hpc')
      have hroom := exec_room hexec hpush
      rw [← hholds.length] at hroom
      exact hholds.lt_of_le_half (by omega) hroom
  · trivial

theorem Reach.inRange {ok : Action n → State n σ × Rings n → Prop} (hsmall : n < 2 ^ 31)
    (h : Reach (Pager.ringed cfg p hn) ok x) :
    Reach (Pager.ringed cfg p hn) (fun a x => ok a x ∧ ∀ kind, InRange kind a x) x := by
  induction h with
  | init => exact Reach.init
  | step _ hok hstep ih => exact Reach.step ih ⟨hok, inRange_step hsmall ih hstep⟩ hstep

end Residctl.Pager
