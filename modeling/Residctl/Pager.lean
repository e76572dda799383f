import Residctl.Budget
import Residctl.Kernel
import Residctl.Lib.Mutex
import Residctl.Lib.Runs

/-!
# The pager's threads

`pager.c`, `prefetch_pool.c`, `prefetch.c`, `fetch.c` as one machine: the handler (or
dispatcher), the workers of the fetch pool and the workload threads. A step of a thread
takes a mutex, or executes the code from one program point to the next; code that
holds a mutex from its `lock` to its `unlock` without waiting is one step.

The queues are lists here; `Rings` puts them into the arrays of the source.

`Point.base` are the mutexes held on arrival at a point and `Point.needs` the one that
the point takes first; what a thread holds beyond the base of the next point is
released by the step.
-/

namespace Residctl.Pager

open Mutex

variable {n : ℕ} {σ : Type}

/-! ## Program points -/

/-- The mutexes. -/
inductive Lock (n : ℕ)
  | chunk (c : Fin n)
  | budget
  | pool
deriving DecidableEq, Repr

inductive Tid
  | handler
  | worker (i : ℕ)
  | client (i : ℕ)
deriving DecidableEq, Repr

/-- A fetch of a chunk, by the function that runs it: `handle_absent`, `do_one_demand`,
`do_one_prefetch`, or `maybe_prefetch` after `jr` became resident. -/
inductive Job (n : ℕ)
  | handle (c : Fin n)
  | demand (c : Fin n)
  | prefetch (c : Fin n)
  | maybe (jr c : Fin n) (h : c ≠ jr)
deriving DecidableEq, Repr

/-- Points of a fetch once its chunk is `FETCHING`. -/
inductive Instr (n : ℕ)
  /-- call `ensure_budget` or `ensure_budget_prefetch` -/
  | ensure (attempt : ℕ)
  /-- read `memory.stat` -/
  | reconcile (attempt : ℕ)
  /-- the head of the budget loop -/
  | fit (attempt : ℕ)
  | evict (attempt : ℕ) (v : Fin n)
  | sleep (attempt : ℕ)
  /-- `just_resident->pin--` in `maybe_prefetch` -/
  | unpinJustResident (ok : Bool)
  /-- zero the bytes past the end of the file -/
  | pad
  /-- `pread` in the aligned part, `off` bytes done -/
  | read (off : ℕ)
  /-- the buffered `pread` at `pos` -/
  | tail (pos : ℕ)
  | resolve
  | commit
  /-- set `RESIDENT` -/
  | mark
  /-- drop the pin of a prefetch that is not retained (`ok`) or failed -/
  | unpinTarget (ok : Bool)
  | abandon
  | retain
  | finishPrefetch
  /-- `predict_next` in `maybe_prefetch` -/
  | predict
  | topNeed
  | topPredict (need i : ℕ) (cursor : Fin n)
  | topEnqueue (need i : ℕ) (idx : Fin n)
  | unpin
  | finish
deriving DecidableEq, Repr

inductive Point (n : ℕ)
  -- `pager_run` and what it calls
  | top
  | watch (now i : ℕ)
  | tryReclaim (now : ℕ) (c : Fin n)
  | poll
  | drain
  | switch (m : Msg) (c : Fin n)
  | onFault (m : Msg) (c : Fin n)
  | enqueue (m : Msg) (c : Fin n)
  | stopPool
  | join
  | exited
  -- before the chunk of a job is `FETCHING`
  | checkDemand (c : Fin n)
  | checkPrefetch (c : Fin n)
  | pinPrefetch (tStart : ℕ) (c : Fin n)
  | startPrefetch (tStart : ℕ) (c : Fin n)
  | checkMaybe (jr c : Fin n) (h : c ≠ jr)
  | pinJustResident (jr c : Fin n) (h : c ≠ jr)
  | job (j : Job n) (i : Instr n)
  -- `worker_main`
  | pick
  | prefetchDone (c : Fin n)
  | retired
  -- a workload thread
  | idle
  | touch (a : ℕ)
  | onAccess (c : Fin n)
  | release (c : Fin n)
deriving DecidableEq, Repr

def Job.target : Job n → Fin n
  | handle c => c
  | demand c => c
  | prefetch c => c
  | maybe _ c _ => c

/-- The chunk locks held throughout the job. -/
def Job.locks : Job n → List (Lock n)
  | maybe jr c _ => [.chunk jr, .chunk c]
  | j => [.chunk j.target]

/-- Mutexes held on arrival. -/
def Point.base : Point n → List (Lock n)
  | onFault _ c => [.chunk c]
  | enqueue _ c => [.chunk c]
  | pinPrefetch _ c => [.chunk c]
  | startPrefetch _ c => [.chunk c]
  | checkMaybe jr _ _ => [.chunk jr]
  | pinJustResident jr c _ => [.chunk jr, .chunk c]
  | job j (.reconcile _) => .budget :: j.locks
  | job j (.fit _) => .budget :: j.locks
  | job j (.evict _ _) => .budget :: j.locks
  | job j _ => j.locks
  | _ => []

/-- The mutex taken at the point. -/
def Point.needs : Point n → Option (Lock n)
  | tryReclaim _ c => some (.chunk c)
  | switch _ c => some (.chunk c)
  | checkDemand c => some (.chunk c)
  | checkPrefetch c => some (.chunk c)
  | checkMaybe _ c _ => some (.chunk c)
  | job _ (.evict _ v) => some (.chunk v)
  | onFault _ _ => some .budget
  | pinPrefetch _ _ => some .budget
  | job _ (.ensure _) => some .budget
  | job _ .commit => some .budget
  | job (.maybe _ _ _) (.unpinTarget _) => none
  | job _ (.unpinTarget _) => some .budget
  | job _ .retain => some .budget
  | job _ (.topPredict _ _ _) => some .budget
  | job _ .unpin => some .budget
  | onAccess _ => some .budget
  | release _ => some .budget
  | enqueue _ _ => some .pool
  | stopPool => some .pool
  | job _ .topNeed => some .pool
  | job _ (.topEnqueue _ _ _) => some .pool
  | pick => some .pool
  | prefetchDone _ => some .pool
  | _ => none

/-- A thread waits for the mutex of a point, or executes there. -/
inductive Pc (n : ℕ)
  | acq (k : Point n)
  | go (k : Point n)
deriving DecidableEq, Repr

def Point.holds (k : Point n) : List (Lock n) := k.needs.toList ++ k.base

def Pc.holds : Pc n → List (Lock n)
  | acq k => k.base
  | go k => k.holds

/-- Arrive at a point. -/
def enter (k : Point n) : Pc n := if k.needs.isSome then .acq k else .go k

/-- The mutex a thread is blocked on. -/
def Pc.waits : Pc n → Option (Lock n)
  | acq k => k.needs
  | go _ => none

/-! ## Shared state -/

structure Shared (n : ℕ) (σ : Type) where
  region : Region n σ
  demandQueue : List (Fin n)
  pfQueue : List (Fin n)
  pfTracked : Fin n → Bool
  pfOutstanding : ℕ
  poolStop : Bool
  /-- pool threads that have not returned -/
  workersLeft : ℕ
  /-- `*stop` -/
  stop : Bool
  /-- `CLOCK_MONOTONIC` in ns -/
  clock : ℕ
  kernel : Kernel

structure State (n : ℕ) (σ : Type) where
  sh : Shared n σ
  owner : Lock n → Option Tid
  pc : Tid → Pc n

/-- What a workload thread does next. -/
inductive ClientOp (n : ℕ)
  | touch (a : ℕ)
  | notify (c : Fin n)

/-- What the environment decides in a step. -/
structure Input (n : ℕ) where
  /-- `memory.stat[shmem]` -/
  shmem : ℕ := 0
  /-- how much `pread` returns at most, 0 for `EINTR` -/
  count : ℕ := 0
  /-- `poll` reports the descriptor readable -/
  ready : Bool := true
  op : ClientOp n := .touch 0

/-- The result of executing at a point. -/
inductive Outcome (n : ℕ) (σ : Type)
  | next (sh : Shared n σ) (k : Point n)
  | abort
  | blocked

def Shared.setRegion (sh : Shared n σ) (r : Region n σ) : Shared n σ := { sh with region := r }

def Shared.setKernel (sh : Shared n σ) (k : Kernel) : Shared n σ := { sh with kernel := k }

def Shared.stat (sh : Shared n σ) (f : Stats → Stats) : Shared n σ :=
  sh.setRegion { sh.region with stats := f sh.region.stats }

/-- `UFFDIO_WAKE` over a chunk. -/
def Shared.wakeRange (cfg : Config n σ) (sh : Shared n σ) (c : Fin n) : Shared n σ :=
  sh.setKernel (sh.kernel.wake (cfg.table.regionOff c) (cfg.table.len c))

/-- `pager_abandon_fetch`. -/
def Shared.abandonFetch (cfg : Config n σ) (sh : Shared n σ) (c : Fin n) : Shared n σ :=
  (sh.setRegion (sh.region.modify c Chunk.abandonFetch)).wakeRange cfg c

/-- Enter `FETCHING` at time `now` with the next fault number. -/
def Shared.beginFetch (sh : Shared n σ) (now : ℕ) (c : Fin n) : Shared n σ :=
  sh.setRegion { sh.region.modify c fun k => k.beginFetch now (sh.region.faultSeq + 1) with
    faultSeq := sh.region.faultSeq + 1 }

/-- Run an optional policy hook. -/
def Shared.hook (sh : Shared n σ) (f : Option (σ → Fin n → σ)) (c : Fin n) : Shared n σ :=
  match f with
  | some f => sh.setRegion { sh.region with policyState := f sh.region.policyState c }
  | none => sh

/-! ## `fetch_chunk` -/

def alignedStart (cfg : Config n σ) (c : Fin n) : ℕ := alignDown (cfg.table.regionOff c)

def alignedEnd (cfg : Config n σ) (c : Fin n) : ℕ :=
  alignUp (cfg.table.regionOff c + cfg.table.len c)

/-- The chunk's pages run past the end of the file. -/
def Clamped (cfg : Config n σ) (c : Fin n) : Prop :=
  cfg.modelFileSize ≠ 0 ∧ alignedEnd cfg c > cfg.modelFileSize

instance (cfg : Config n σ) (c : Fin n) : Decidable (Clamped cfg c) :=
  inferInstanceAs (Decidable (_ ∧ _))

/-- `direct_end`, which is also the start of the buffered tail. -/
def directEnd (cfg : Config n σ) (c : Fin n) : ℕ :=
  if Clamped cfg c then
    if alignDown cfg.modelFileSize > alignedStart cfg c then alignDown cfg.modelFileSize
    else alignedStart cfg c
  else alignedEnd cfg c

def tailEnd (cfg : Config n σ) (c : Fin n) : ℕ :=
  if Clamped cfg c then cfg.modelFileSize else alignedEnd cfg c

/-- `pread(fd, .., want, pos)`: `none` at the end of the file, `some 0` for `EINTR`. -/
def pread (cfg : Config n σ) (io : Input n) (pos want : ℕ) : Option ℕ :=
  if pos < cfg.modelFileSize then some (min io.count (min want (cfg.modelFileSize - pos))) else none

/-- The padding `memset`. -/
def padTail (cfg : Config n σ) (sh : Shared n σ) (c : Fin n) : Shared n σ :=
  if Clamped cfg c then
    sh.setKernel (sh.kernel.store cfg.modelFileSize (alignedEnd cfg c - cfg.modelFileSize) fun _ => 0)
  else sh

def loadBytes (cfg : Config n σ) (sh : Shared n σ) (pos k : ℕ) : Shared n σ :=
  sh.setKernel (sh.kernel.store pos k cfg.fileByte)

/-! ## Control flow between the points -/

/-- A fetch pool is running. -/
def hasPool (cfg : Config n σ) : Bool := cfg.asyncHandler || cfg.pool

def nWorkers (cfg : Config n σ) : ℕ := if cfg.workers > 0 then cfg.workers else 1

/-- The job is a prefetch. -/
def Job.speculative : Job n → Bool
  | handle _ => false
  | demand _ => false
  | prefetch _ => true
  | maybe _ _ _ => true

/-- Where the thread goes on when it has dropped the lock of the job's chunk. -/
def Job.after : Job n → Point n
  | handle _ => .drain
  | demand _ => .pick
  | prefetch c => .prefetchDone c
  | maybe jr _ _ => .job (handle jr) .unpin

/-- After the policy has heard of a fault. -/
def afterFault (cfg : Config n σ) (m : Msg) (c : Fin n) : Point n :=
  if cfg.asyncHandler then .enqueue m c else .job (.handle c) (.ensure 0)

/-- After the budget call `attempt`: a demand fetch is retried up to 200 times, the
synchronous one only when a pool may hold reservations. -/
def ensured (cfg : Config n σ) (attempt : ℕ) (ok : Bool) : Job n → Instr n
  | .handle _ =>
    if ok then .pad else if cfg.prefetchDepth > 1 ∧ attempt < 200 then .sleep attempt else .abandon
  | .demand _ => if ok then .pad else if attempt < 200 then .sleep attempt else .abandon
  | .prefetch _ => if ok then .pad else .unpinTarget false
  | .maybe _ _ _ => .unpinJustResident ok

/-- The prefetch that follows a completed demand fetch, if any. -/
def speculate (cfg : Config n σ) : Job n → Instr n
  | .handle _ =>
    if cfg.prefetchEnabled ∧ (cfg.policy.bind Policy.predictNext).isSome then
      if cfg.prefetchDepth ≤ 1 then .predict else if hasPool cfg then .topNeed else .unpin
    else .unpin
  | _ =>
    if cfg.prefetchEnabled ∧ (cfg.policy.bind Policy.predictNext).isSome ∧ hasPool cfg then .topNeed
    else .unpin

/-- After `RESIDENT` is set. -/
def marked (cfg : Config n σ) (j : Job n) : Instr n :=
  if j.speculative then
    if cfg.prefetchRetentionPinned then .retain else .unpinTarget true
  else speculate cfg j

def predictNext (cfg : Config n σ) (sh : Shared n σ) (c : Fin n) : ℤ :=
  match cfg.policy.bind Policy.predictNext with
  | some predict => predict sh.region.policyState c
  | none => -1

/-- The next round of the loop in `prefetch_pool_top_up`, or its end. -/
def topNext (need i : ℕ) (cursor : Fin n) : Instr n :=
  if i < need then .topPredict need i cursor else .unpin

/-! ## Executing at a point -/

/-- `timeout_ns`. -/
def timeoutNs (cfg : Config n σ) : ℕ :=
  (if cfg.fetchingTimeoutMs ≠ 0 then cfg.fetchingTimeoutMs else 30000) * 1000000

/-- The watchdog's test of a chunk, with the time read at the start of its pass. -/
def Stuck (cfg : Config n σ) (sh : Shared n σ) (now : ℕ) (c : Fin n) : Prop :=
  (sh.region.chunks c).state = .fetching ∧ (sh.region.chunks c).fetchingSinceNs ≠ 0 ∧
    sub64 now (sh.region.chunks c).fetchingSinceNs ≥ timeoutNs cfg

instance (cfg : Config n σ) (sh : Shared n σ) (now : ℕ) (c : Fin n) :
    Decidable (Stuck cfg sh now c) := inferInstanceAs (Decidable (_ ∧ _ ∧ _))

/-- `handle_fault` under the chunk lock. -/
def handleFault (cfg : Config n σ) (sh : Shared n σ) (m : Msg) (c : Fin n) : Outcome n σ :=
  match (sh.region.chunks c).state with
  | .resident =>
    .next ((sh.wakeRange cfg c).stat fun s => { s with dedupResident := s.dedupResident + 1 }) .drain
  | .fetching => .next (sh.stat fun s => { s with dedupFetching := s.dedupFetching + 1 }) .drain
  | .absent =>
    .next (sh.beginFetch sh.clock c)
      (if (cfg.policy.bind Policy.onFault).isSome then .onFault m c else afterFault cfg m c)

/-- One evaluation of the head of `ensure_budget` or `ensure_budget_prefetch`. -/
def budgetLoop (cfg : Config n σ) (sh : Shared n σ) (j : Job n) (attempt : ℕ) : Outcome n σ :=
  match if j.speculative then prefetchDecision cfg sh.region j.target
    else demandDecision cfg sh.region j.target with
  | .reserve =>
    .next (sh.setRegion (reserve cfg sh.region j.target)) (.job j (ensured cfg attempt true j))
  | .evict v => .next sh (.job j (.evict attempt v))
  | .breakPin v => .next (sh.setRegion (breakPin sh.region v)) (.job j (.evict attempt v))
  | .infeasible =>
    .next (sh.setRegion (countInfeasible sh.region)) (.job j (ensured cfg attempt false j))
  | .decline =>
    .next (sh.setRegion (countDeclined sh.region)) (.job j (ensured cfg attempt false j))

/-- `evict_chunk` under the victim's lock. -/
def evictChunk (cfg : Config n σ) (sh : Shared n σ) (v : Fin n) : Shared n σ :=
  (sh.setRegion (evictBody cfg sh.region v)).setKernel
    (sh.kernel.punch (cfg.table.regionOff v) (cfg.table.len v))

/-- The exit of a failed prefetch after `pager_abandon_fetch`: back off for 100 ms, in the
pool only. -/
def countFailed (sh : Shared n σ) (j : Job n) : Shared n σ :=
  let sh := match j with
    | .prefetch c => sh.setRegion (sh.region.modify c fun k =>
        { k with declineUntilNs := sh.clock + 100 * 1000 * 1000 })
    | _ => sh
  if j.speculative then
    sh.stat fun s => { s with prefetchInfeasible := s.prefetchInfeasible + 1 }
  else sh

/-- `maybe_prefetch` up to the target's lock. -/
def maybePrefetch (cfg : Config n σ) (sh : Shared n σ) (jr : Fin n) : Outcome n σ :=
  let p := predictNext cfg sh jr
  if p < 0 then .next sh (.job (.handle jr) .unpin)
  else if h : p.toNat < n then
    if hself : (⟨p.toNat, h⟩ : Fin n) = jr then .next sh (.job (.handle jr) .unpin)
    else .next sh (.checkMaybe jr ⟨p.toNat, h⟩ hself)
  else .abort

/-- The prediction step of `prefetch_pool_top_up`. -/
def topPredict (cfg : Config n σ) (sh : Shared n σ) (j : Job n) (need i : ℕ) (cursor : Fin n) :
    Outcome n σ :=
  let p := predictNext cfg sh cursor
  if p < 0 then .next sh (.job j .unpin)
  else if h : p.toNat < n then
    if (⟨p.toNat, h⟩ : Fin n) = j.target then .next sh (.job j .unpin)
    else .next sh (.job j (.topEnqueue need i ⟨p.toNat, h⟩))
  else .next sh (.job j .unpin)

/-- `demand_cap` and `pf_cap`: `n_chunks + 1` on `uint32_t`. -/
def queueCap (n : ℕ) : ℕ := (n + 1) % 2 ^ 32

theorem queueCap_of_lt (hn : n < UINT32_MAX) : queueCap n = n + 1 :=
  Nat.mod_eq_of_lt (by unfold UINT32_MAX at hn; omega)

/-- The test of `prefetch_pool_top_up` before it enqueues a prediction. -/
def Wanted (sh : Shared n σ) (idx : Fin n) : Prop :=
  sh.pfTracked idx = false ∧ (sh.region.chunks idx).state = .absent ∧
    ¬ (sh.region.chunks idx).declineUntilNs > sh.clock ∧ sh.pfQueue.length < queueCap n

instance (sh : Shared n σ) (idx : Fin n) : Decidable (Wanted sh idx) :=
  inferInstanceAs (Decidable (_ ∧ _ ∧ _ ∧ _))

/-- The enqueue step of `prefetch_pool_top_up`. -/
def topEnqueue (sh : Shared n σ) (idx : Fin n) : Shared n σ :=
  if Wanted sh idx then
    { sh with pfTracked := Function.update sh.pfTracked idx true
              pfQueue := sh.pfQueue ++ [idx]
              pfOutstanding := sh.pfOutstanding + 1 }
  else sh

/-- The points of a fetch. -/
def execJob (cfg : Config n σ) (io : Input n) (sh : Shared n σ) (j : Job n) : Instr n → Outcome n σ
  | .ensure a =>
    let sh := sh.setRegion (countFetch sh.region)
    .next sh (.job j (if reconcileDue cfg sh.region then .reconcile a else .fit a))
  | .reconcile a =>
    if reconcileOk cfg sh.region io.shmem then
      .next (sh.setRegion (reconciled sh.region)) (.job j (.fit a))
    else .abort
  | .fit a => budgetLoop cfg sh j a
  | .evict a v =>
    if (sh.region.chunks v).Evictable then .next (evictChunk cfg sh v) (.job j (.reconcile a))
    else .abort
  | .sleep a => .next sh (.job j (.ensure (a + 1)))
  | .unpinJustResident ok =>
    match j with
    | .maybe jr _ _ => .next (sh.setRegion (unpinChunk sh.region jr))
        (.job j (if ok then .pad else .unpinTarget false))
    | _ => .blocked
  | .pad => .next (padTail cfg sh j.target) (.job j (.read 0))
  | .read off =>
    if alignedStart cfg j.target + off < directEnd cfg j.target then
      match pread cfg io (alignedStart cfg j.target + off)
          (directEnd cfg j.target - (alignedStart cfg j.target + off)) with
      | some k => .next (loadBytes cfg sh (alignedStart cfg j.target + off) k) (.job j (.read (off + k)))
      | none => .abort
    else .next sh (.job j (.tail (directEnd cfg j.target)))
  | .tail pos =>
    if pos < tailEnd cfg j.target then
      match pread cfg io pos (tailEnd cfg j.target - pos) with
      | some k => .next (loadBytes cfg sh pos k) (.job j (.tail (pos + k)))
      | none => .abort
    else .next sh (.job j .resolve)
  | .resolve =>
    if sh.kernel.Continues (cfg.table.regionOff j.target) (cfg.table.len j.target) then
      .next (sh.setKernel (sh.kernel.continueRange (cfg.table.regionOff j.target)
        (cfg.table.len j.target))) (.job j .commit)
    else .abort
  | .commit =>
    .next (sh.setRegion (if j.speculative then commitReserved cfg sh.region j.target
      else commitReservedAndPin cfg sh.region j.target)) (.job j .mark)
  | .mark =>
    let sh := (sh.setRegion (sh.region.modify j.target Chunk.becomeResident)).stat fun s =>
      { s with bytesFetched := s.bytesFetched + cfg.table.len j.target }
    let sh := if j.speculative then sh else sh.hook (cfg.policy.bind Policy.onResident) j.target
    .next sh (.job j (marked cfg j))
  | .unpinTarget ok =>
    .next (sh.setRegion (unpinChunk sh.region j.target))
      (.job j (if ok then .finishPrefetch else .abandon))
  | .abandon => .next (countFailed (sh.abandonFetch cfg j.target) j) j.after
  | .retain =>
    .next (sh.setRegion (prefetchRetainOnResident cfg sh.region j.target)) (.job j .finishPrefetch)
  | .finishPrefetch =>
    if (sh.region.chunks j.target).state = .fetching then .abort
    else .next ((sh.stat fun s => { s with prefetches := s.prefetches + 1 }).hook
      (cfg.policy.bind Policy.onResident) j.target) j.after
  | .predict =>
    match j with
    | .handle jr => maybePrefetch cfg sh jr
    | _ => .blocked
  | .topNeed =>
    .next sh (.job j (topNext
      (if sh.pfOutstanding < cfg.prefetchDepth then cfg.prefetchDepth - sh.pfOutstanding else 0) 0
      j.target))
  | .topPredict need i cursor => topPredict cfg sh j need i cursor
  | .topEnqueue need i idx => .next (topEnqueue sh idx) (.job j (topNext need (i + 1) idx))
  | .unpin => .next (sh.setRegion (unpinChunk sh.region j.target)) (.job j .finish)
  | .finish =>
    if (sh.region.chunks j.target).state = .fetching then .abort
    else .next (sh.stat fun s => { s with absentHandled := s.absentHandled + 1 }) j.after

/-- `worker_main` under the pool lock. An empty queue is a `pthread_cond_wait`. -/
def workerMain (sh : Shared n σ) : Outcome n σ :=
  match sh.demandQueue, sh.pfQueue with
  | c :: rest, _ => .next { sh with demandQueue := rest } (.checkDemand c)
  | [], c :: rest => .next { sh with pfQueue := rest } (.checkPrefetch c)
  | [], [] =>
    if sh.poolStop then .next { sh with workersLeft := sh.workersLeft - 1 } .retired
    else .next sh .pick

/-- `pager_notify_access` after the policy has heard of the access. -/
def afterAccess (cfg : Config n σ) (c : Fin n) : Point n :=
  if cfg.prefetchRetentionPinned then .release c else .idle

/-- A workload thread reads the byte at `a`, or faults. -/
def touch (sh : Shared n σ) (t : Tid) (a : ℕ) : Outcome n σ :=
  match t with
  | .client i =>
    match sh.kernel.waiting i with
    | some _ => .blocked
    | none =>
      if sh.kernel.mapped (pageOf a) then .next sh .idle
      else .next (sh.setKernel (sh.kernel.fault i a)) (.touch a)
  | _ => .blocked

/-- Thread `t` executes at a point. -/
def exec (cfg : Config n σ) (t : Tid) (io : Input n) (sh : Shared n σ) : Point n → Outcome n σ
  | .top =>
    if sh.stop then .next sh (if hasPool cfg then .stopPool else .exited)
    else .next sh (if cfg.asyncHandler then .watch sh.clock 0 else .poll)
  | .watch now i =>
    if h : i < n then
      .next sh (if Stuck cfg sh now ⟨i, h⟩ then .tryReclaim now ⟨i, h⟩ else .watch now (i + 1))
    else .next sh .poll
  | .tryReclaim now c =>
    .next (if Stuck cfg sh now c then
      (sh.abandonFetch cfg c).stat fun s => { s with fetchingTimeout := s.fetchingTimeout + 1 }
      else sh) (.watch now (c.1 + 1))
  | .poll => .next sh (if io.ready then .drain else .top)
  | .drain =>
    match sh.kernel.uffd with
    | [] => .next sh .top
    | m :: rest =>
      match pagerLookup cfg.table m.addr with
      | some c => .next (sh.setKernel { sh.kernel with uffd := rest }) (.switch m c)
      | none => .abort
  | .switch m c => handleFault cfg sh m c
  | .onFault m c => .next (sh.hook (cfg.policy.bind Policy.onFault) c) (afterFault cfg m c)
  | .enqueue _ c =>
    if sh.demandQueue.length ≥ queueCap n then .abort
    else .next { sh with demandQueue := sh.demandQueue ++ [c] } .drain
  | .stopPool => .next { sh with poolStop := true } .join
  | .join => if sh.workersLeft = 0 then .next sh .exited else .blocked
  | .exited => .blocked
  | .checkDemand c =>
    if (sh.region.chunks c).state = .fetching then .next sh (.job (.demand c) (.ensure 0)) else .abort
  | .checkPrefetch c =>
    .next sh (if (sh.region.chunks c).state = .absent then .pinPrefetch sh.clock c
      else .prefetchDone c)
  | .pinPrefetch ts c => .next (sh.setRegion (pinChunk sh.region c)) (.startPrefetch ts c)
  | .startPrefetch ts c => .next (sh.beginFetch ts c) (.job (.prefetch c) (.ensure 0))
  | .checkMaybe jr c h =>
    if (sh.region.chunks c).state = .absent then
      .next ((sh.setRegion (pinChunk sh.region c)).beginFetch sh.clock c) (.pinJustResident jr c h)
    else .next sh (.job (.handle jr) .unpin)
  | .pinJustResident jr c h =>
    .next (sh.setRegion (pinChunk sh.region jr)) (.job (.maybe jr c h) (.ensure 0))
  | .job j i => execJob cfg io sh j i
  | .pick => workerMain sh
  | .prefetchDone c =>
    .next { sh with pfOutstanding := (sh.pfOutstanding + 2 ^ 32 - 1) % 2 ^ 32
                    pfTracked := Function.update sh.pfTracked c false } .pick
  | .retired => .blocked
  | .idle =>
    match io.op with
    | .touch a => if a < cfg.table.regionLen then .next sh (.touch a) else .blocked
    | .notify c =>
      .next sh (if (cfg.policy.bind Policy.onAccess).isSome then .onAccess c else afterAccess cfg c)
  | .touch a => touch sh t a
  | .onAccess c => .next (sh.hook (cfg.policy.bind Policy.onAccess) c) (afterAccess cfg c)
  | .release c => .next (sh.setRegion (prefetchRetainRelease sh.region c)) .idle

/-! ## The machine -/

/-- Thread `t` has executed and arrives at `k`. -/
def State.arrive (s : State n σ) (t : Tid) (sh : Shared n σ) (k : Point n) : State n σ where
  sh := sh
  owner := moveOwner Pc.holds s.owner t (enter k)
  pc := Function.update s.pc t (enter k)

inductive Action (n : ℕ)
  /-- `pthread_mutex_lock` succeeds, or `pthread_mutex_trylock` does -/
  | acquire (t : Tid)
  /-- `pthread_mutex_trylock` fails -/
  | giveUp
  | exec (t : Tid) (io : Input n)
  | tick (d : ℕ)
  /-- the kernel drops the message of a thread that runs again -/
  | drop (m : Msg)
  | requestStop

def step (cfg : Config n σ) (a : Action n) (s : State n σ) : Option (State n σ) :=
  match a with
  | .acquire t =>
    match s.pc t with
    | .acq k =>
      match k.needs with
      | some l =>
        if s.owner l = none then
          some { s with owner := moveOwner Pc.holds s.owner t (.go k)
                        pc := Function.update s.pc t (.go k) }
        else none
      | none => none
    | .go _ => none
  | .giveUp =>
    match s.pc .handler with
    | .acq (.tryReclaim now c) =>
      if s.owner (.chunk c) = none then none
      else some (s.arrive .handler s.sh (.watch now (c.1 + 1)))
    | _ => none
  | .exec t io =>
    match s.pc t with
    | .go k =>
      match exec cfg t io s.sh k with
      | .next sh k' => some (s.arrive t sh k')
      | _ => none
    | .acq _ => none
  | .tick d =>
    if s.sh.clock + d < 2 ^ 64 then some { s with sh := { s.sh with clock := s.sh.clock + d } }
    else none
  | .drop m =>
    if s.sh.kernel.waiting m.thread = none then
      some { s with sh := s.sh.setKernel { s.sh.kernel with uffd := s.sh.kernel.uffd.erase m } }
    else none
  | .requestStop => some { s with sh := { s.sh with stop := true } }

def Shared.init (cfg : Config n σ) (p : σ) : Shared n σ where
  region := Region.init n p
  demandQueue := []
  pfQueue := []
  pfTracked := fun _ => false
  pfOutstanding := 0
  poolStop := false
  workersLeft := if hasPool cfg then nWorkers cfg else 0
  stop := false
  clock := 0
  kernel := Kernel.init

/-- The handler enters its loop, the pool's workers theirs, the workload is idle. -/
def startPoint (cfg : Config n σ) : Tid → Point n
  | .handler => .top
  | .worker i => if hasPool cfg ∧ i < nWorkers cfg then .pick else .retired
  | .client _ => .idle

/-- `p` is the policy's state after its set-up. -/
def pager (cfg : Config n σ) (p : σ) : Runs.Machine (State n σ) (Action n) where
  init := ⟨Shared.init cfg p, fun _ => none, fun t => enter (startPoint cfg t)⟩
  step := step cfg

end Residctl.Pager
