import Residctl.Pager

/-!
# The branches of the code

Every way on from a program point, with the tests that lead there: `JobBranch` for the points
of a fetch, `Branch` for all. What is proved about single steps goes through `exec_branch`.
-/

namespace Residctl.Pager

variable {n : ℕ} {σ : Type}

/-- What the head of the budget loop decides for a job. -/
def decision (cfg : Config n σ) (r : Region n σ) (j : Job n) : Decision n :=
  if j.speculative then prefetchDecision cfg r j.target else demandDecision cfg r j.target

section

variable {cfg : Config n σ} {r : Region n σ} {j : Job n} {v : Fin n}

theorem decision_reserve (h : decision cfg r j = .reserve) : ¬ overBudget cfg r j.target := by
  unfold decision at h
  split at h
  · exact prefetchDecision_reserve h
  · exact demandDecision_reserve h

theorem decision_evict (h : decision cfg r j = .evict v) : cfg.selectVictim r = some v := by
  unfold decision at h
  split at h
  · exact (prefetchDecision_evict h).2.1
  · exact (demandDecision_evict h).2

/-- Only a demand fetch breaks a pin, and only one that retention took. -/
theorem decision_breakPin (h : decision cfg r j = .breakPin v) :
    j.speculative = false ∧ v ∈ r.pinnedPrefetch := by
  unfold decision at h
  split at h
  · exact absurd h prefetchDecision_ne_breakPin
  · rename_i hspec
    exact ⟨Bool.eq_false_iff.2 hspec,
      (pinBreakSelectVictim_some (demandDecision_breakPin h).2.2.2).2⟩

end

/-- The chunk is `RESIDENT` and the policy knows, if the fetch was on demand. -/
def markResident (cfg : Config n σ) (sh : Shared n σ) (j : Job n) : Shared n σ :=
  let sh := (sh.setRegion (sh.region.modify j.target Chunk.becomeResident)).stat fun s =>
    { s with bytesFetched := s.bytesFetched + cfg.table.len j.target }
  if j.speculative then sh else sh.hook (cfg.policy.bind Policy.onResident) j.target

/-- From a point of a fetch to the next point. -/
inductive JobBranch (cfg : Config n σ) (io : Input n) (sh : Shared n σ) :
    Job n → Instr n → Shared n σ → Point n → Prop
  -- `ensure_budget`, `ensure_budget_prefetch`
  | due {j a} (hdue : reconcileDue cfg (countFetch sh.region)) :
      JobBranch cfg io sh j (.ensure a) (sh.setRegion (countFetch sh.region))
        (.job j (.reconcile a))
  | notDue {j a} (hdue : ¬ reconcileDue cfg (countFetch sh.region)) :
      JobBranch cfg io sh j (.ensure a) (sh.setRegion (countFetch sh.region)) (.job j (.fit a))
  | reconcile {j a} (hok : reconcileOk cfg sh.region io.shmem) :
      JobBranch cfg io sh j (.reconcile a) (sh.setRegion (reconciled sh.region)) (.job j (.fit a))
  | reserve {j a} (hdecide : decision cfg sh.region j = .reserve) :
      JobBranch cfg io sh j (.fit a) (sh.setRegion (reserve cfg sh.region j.target))
        (.job j (ensured cfg a true j))
  | choose {j a v} (hdecide : decision cfg sh.region j = .evict v) :
      JobBranch cfg io sh j (.fit a) sh (.job j (.evict a v))
  | breakPin {j a v} (hdecide : decision cfg sh.region j = .breakPin v) :
      JobBranch cfg io sh j (.fit a) (sh.setRegion (breakPin sh.region v)) (.job j (.evict a v))
  | infeasible {j a} (hdecide : decision cfg sh.region j = .infeasible) :
      JobBranch cfg io sh j (.fit a) (sh.setRegion (countInfeasible sh.region))
        (.job j (ensured cfg a false j))
  | decline {j a} (hdecide : decision cfg sh.region j = .decline) :
      JobBranch cfg io sh j (.fit a) (sh.setRegion (countDeclined sh.region))
        (.job j (ensured cfg a false j))
  | evict {j a v} (hev : (sh.region.chunks v).Evictable) :
      JobBranch cfg io sh j (.evict a v) (evictChunk cfg sh v) (.job j (.reconcile a))
  | sleep {j a} : JobBranch cfg io sh j (.sleep a) sh (.job j (.ensure (a + 1)))
  -- `fetch_chunk`
  | unpinJustResident {jr c hne ok} :
      JobBranch cfg io sh (.maybe jr c hne) (.unpinJustResident ok)
        (sh.setRegion (unpinChunk sh.region jr))
        (.job (.maybe jr c hne) (if ok then .pad else .unpinTarget false))
  | pad {j} : JobBranch cfg io sh j .pad (padTail cfg sh j.target) (.job j (.read 0))
  | read {j off m} (hlt : alignedStart cfg j.target + off < directEnd cfg j.target)
      (hread : pread cfg io (alignedStart cfg j.target + off)
        (directEnd cfg j.target - (alignedStart cfg j.target + off)) = some m) :
      JobBranch cfg io sh j (.read off) (loadBytes cfg sh (alignedStart cfg j.target + off) m)
        (.job j (.read (off + m)))
  | direct {j off} (hend : directEnd cfg j.target ≤ alignedStart cfg j.target + off) :
      JobBranch cfg io sh j (.read off) sh (.job j (.tail (directEnd cfg j.target)))
  | tail {j pos m} (hlt : pos < tailEnd cfg j.target)
      (hread : pread cfg io pos (tailEnd cfg j.target - pos) = some m) :
      JobBranch cfg io sh j (.tail pos) (loadBytes cfg sh pos m) (.job j (.tail (pos + m)))
  | loaded {j pos} (hend : tailEnd cfg j.target ≤ pos) :
      JobBranch cfg io sh j (.tail pos) sh (.job j .resolve)
  | resolve {j}
      (hok : sh.kernel.Continues (cfg.table.regionOff j.target) (cfg.table.len j.target)) :
      JobBranch cfg io sh j .resolve (sh.setKernel (sh.kernel.continueRange
        (cfg.table.regionOff j.target) (cfg.table.len j.target))) (.job j .commit)
  | commit {j} : JobBranch cfg io sh j .commit
      (sh.setRegion (if j.speculative then commitReserved cfg sh.region j.target
        else commitReservedAndPin cfg sh.region j.target)) (.job j .mark)
  | mark {j} : JobBranch cfg io sh j .mark (markResident cfg sh j) (.job j (marked cfg j))
  -- the end of a prefetch, or of a failed fetch
  | unpinTarget {j ok} :
      JobBranch cfg io sh j (.unpinTarget ok) (sh.setRegion (unpinChunk sh.region j.target))
        (.job j (if ok then .finishPrefetch else .abandon))
  | abandon {j} :
      JobBranch cfg io sh j .abandon (countFailed (sh.abandonFetch cfg j.target) j) j.after
  | retain {j} : JobBranch cfg io sh j .retain
      (sh.setRegion (prefetchRetainOnResident cfg sh.region j.target)) (.job j .finishPrefetch)
  | finishPrefetch {j} (hst : (sh.region.chunks j.target).state ≠ .fetching) :
      JobBranch cfg io sh j .finishPrefetch
        ((sh.stat fun s => { s with prefetches := s.prefetches + 1 }).hook
          (cfg.policy.bind Policy.onResident) j.target) j.after
  -- `maybe_prefetch`, `prefetch_pool_top_up`
  | predictNone {jr} (hnone : predictNext cfg sh jr < 0 ∨ predictNext cfg sh jr = jr.1) :
      JobBranch cfg io sh (.handle jr) .predict sh (.job (.handle jr) .unpin)
  | predict {jr c hne} (hpredict : predictNext cfg sh jr = c.1) :
      JobBranch cfg io sh (.handle jr) .predict sh (.checkMaybe jr c hne)
  | topNeed {j} : JobBranch cfg io sh j .topNeed sh (.job j (topNext
      (if sh.pfOutstanding < cfg.prefetchDepth then cfg.prefetchDepth - sh.pfOutstanding else 0) 0
      j.target))
  | topStop {j need i cursor} : JobBranch cfg io sh j (.topPredict need i cursor) sh (.job j .unpin)
  | topPredict {j need i cursor c} (hpredict : predictNext cfg sh cursor = c.1)
      (hne : c ≠ j.target) :
      JobBranch cfg io sh j (.topPredict need i cursor) sh (.job j (.topEnqueue need i c))
  | topEnqueue {j need i c} : JobBranch cfg io sh j (.topEnqueue need i c) (topEnqueue sh c)
      (.job j (topNext need (i + 1) c))
  -- the end of a demand fetch
  | unpin {j} :
      JobBranch cfg io sh j .unpin (sh.setRegion (unpinChunk sh.region j.target)) (.job j .finish)
  | finish {j} (hst : (sh.region.chunks j.target).state ≠ .fetching) :
      JobBranch cfg io sh j .finish
        (sh.stat fun s => { s with absentHandled := s.absentHandled + 1 }) j.after

/-- From a program point to the next. -/
inductive Branch (cfg : Config n σ) (t : Tid) (io : Input n) (sh : Shared n σ) :
    Point n → Shared n σ → Point n → Prop
  -- `pager_run`
  | stopPool (hstop : sh.stop = true) (hpool : hasPool cfg = true) :
      Branch cfg t io sh .top sh .stopPool
  | exit (hstop : sh.stop = true) (hpool : hasPool cfg = false) :
      Branch cfg t io sh .top sh .exited
  | watchdog (hstop : sh.stop = false) (hasync : cfg.asyncHandler = true) :
      Branch cfg t io sh .top sh (.watch sh.clock 0)
  | wait (hstop : sh.stop = false) (hsync : cfg.asyncHandler = false) :
      Branch cfg t io sh .top sh .poll
  | stuck {now c} (hstuck : Stuck cfg sh now c) :
      Branch cfg t io sh (.watch now c.1) sh (.tryReclaim now c)
  | notStuck {now c} (hstuck : ¬ Stuck cfg sh now c) :
      Branch cfg t io sh (.watch now c.1) sh (.watch now (c.1 + 1))
  | watched {now i} (hi : n ≤ i) : Branch cfg t io sh (.watch now i) sh .poll
  | reclaim {now c} (hstuck : Stuck cfg sh now c) :
      Branch cfg t io sh (.tryReclaim now c) ((sh.abandonFetch cfg c).stat fun s =>
        { s with fetchingTimeout := s.fetchingTimeout + 1 }) (.watch now (c.1 + 1))
  | spare {now c} (hstuck : ¬ Stuck cfg sh now c) :
      Branch cfg t io sh (.tryReclaim now c) sh (.watch now (c.1 + 1))
  | ready (hready : io.ready = true) : Branch cfg t io sh .poll sh .drain
  | timeout (hready : io.ready = false) : Branch cfg t io sh .poll sh .top
  | empty (huffd : sh.kernel.uffd = []) : Branch cfg t io sh .drain sh .top
  | take {m c rest} (huffd : sh.kernel.uffd = m :: rest)
      (hc : pagerLookup cfg.table m.addr = some c) :
      Branch cfg t io sh .drain (sh.setKernel { sh.kernel with uffd := rest }) (.switch m c)
  -- `handle_fault`
  | present {m c} (hst : (sh.region.chunks c).state = .resident) :
      Branch cfg t io sh (.switch m c)
        ((sh.wakeRange cfg c).stat fun s => { s with dedupResident := s.dedupResident + 1 }) .drain
  | coming {m c} (hst : (sh.region.chunks c).state = .fetching) :
      Branch cfg t io sh (.switch m c)
        (sh.stat fun s => { s with dedupFetching := s.dedupFetching + 1 }) .drain
  | begin {m c} (hst : (sh.region.chunks c).state = .absent)
      (hhook : (cfg.policy.bind Policy.onFault).isSome = true) :
      Branch cfg t io sh (.switch m c) (sh.beginFetch sh.clock c) (.onFault m c)
  | beginSilently {m c} (hst : (sh.region.chunks c).state = .absent)
      (hhook : (cfg.policy.bind Policy.onFault).isSome = false) :
      Branch cfg t io sh (.switch m c) (sh.beginFetch sh.clock c) (afterFault cfg m c)
  | onFault {m c} : Branch cfg t io sh (.onFault m c)
      (sh.hook (cfg.policy.bind Policy.onFault) c) (afterFault cfg m c)
  | enqueue {m c} (hroom : sh.demandQueue.length < queueCap n) :
      Branch cfg t io sh (.enqueue m c) { sh with demandQueue := sh.demandQueue ++ [c] } .drain
  -- `prefetch_pool_stop`
  | broadcast : Branch cfg t io sh .stopPool { sh with poolStop := true } .join
  | joined (hleft : sh.workersLeft = 0) : Branch cfg t io sh .join sh .exited
  -- how a job starts
  | startDemand {c} (hst : (sh.region.chunks c).state = .fetching) :
      Branch cfg t io sh (.checkDemand c) sh (.job (.demand c) (.ensure 0))
  | wanted {c} (hst : (sh.region.chunks c).state = .absent) :
      Branch cfg t io sh (.checkPrefetch c) sh (.pinPrefetch sh.clock c)
  | unwanted {c} (hst : (sh.region.chunks c).state ≠ .absent) :
      Branch cfg t io sh (.checkPrefetch c) sh (.prefetchDone c)
  | pinPrefetch {ts c} : Branch cfg t io sh (.pinPrefetch ts c)
      (sh.setRegion (pinChunk sh.region c)) (.startPrefetch ts c)
  | startPrefetch {ts c} : Branch cfg t io sh (.startPrefetch ts c) (sh.beginFetch ts c)
      (.job (.prefetch c) (.ensure 0))
  | startMaybe {jr c hne} (hst : (sh.region.chunks c).state = .absent) :
      Branch cfg t io sh (.checkMaybe jr c hne)
        ((sh.setRegion (pinChunk sh.region c)).beginFetch sh.clock c) (.pinJustResident jr c hne)
  | leaveMaybe {jr c hne} (hst : (sh.region.chunks c).state ≠ .absent) :
      Branch cfg t io sh (.checkMaybe jr c hne) sh (.job (.handle jr) .unpin)
  | pinJustResident {jr c hne} : Branch cfg t io sh (.pinJustResident jr c hne)
      (sh.setRegion (pinChunk sh.region jr)) (.job (.maybe jr c hne) (.ensure 0))
  | job {j i sh' k'} (hbranch : JobBranch cfg io sh j i sh' k') :
      Branch cfg t io sh (.job j i) sh' k'
  -- `worker_main`
  | takeDemand {c rest} (hqueue : sh.demandQueue = c :: rest) :
      Branch cfg t io sh .pick { sh with demandQueue := rest } (.checkDemand c)
  | takePrefetch {c rest} (hdemand : sh.demandQueue = []) (hqueue : sh.pfQueue = c :: rest) :
      Branch cfg t io sh .pick { sh with pfQueue := rest } (.checkPrefetch c)
  | retire (hdemand : sh.demandQueue = []) (hprefetch : sh.pfQueue = [])
      (hstop : sh.poolStop = true) :
      Branch cfg t io sh .pick { sh with workersLeft := sh.workersLeft - 1 } .retired
  | idle (hdemand : sh.demandQueue = []) (hprefetch : sh.pfQueue = [])
      (hstop : sh.poolStop = false) : Branch cfg t io sh .pick sh .pick
  | prefetchDone {c} : Branch cfg t io sh (.prefetchDone c)
      { sh with pfOutstanding := (sh.pfOutstanding + 2 ^ 32 - 1) % 2 ^ 32
                pfTracked := Function.update sh.pfTracked c false } .pick
  -- a workload thread
  | aim {a} (hop : io.op = .touch a) (ha : a < cfg.table.regionLen) :
      Branch cfg t io sh .idle sh (.touch a)
  | notify {c} (hop : io.op = .notify c) (hhook : (cfg.policy.bind Policy.onAccess).isSome = true) :
      Branch cfg t io sh .idle sh (.onAccess c)
  | notifySilently {c} (hop : io.op = .notify c)
      (hhook : (cfg.policy.bind Policy.onAccess).isSome = false) :
      Branch cfg t io sh .idle sh (afterAccess cfg c)
  | load {a i} (ht : t = .client i) (hidle : sh.kernel.waiting i = none)
      (hpage : sh.kernel.mapped (pageOf a) = true) : Branch cfg t io sh (.touch a) sh .idle
  | fault {a i} (ht : t = .client i) (hidle : sh.kernel.waiting i = none)
      (hpage : sh.kernel.mapped (pageOf a) = false) :
      Branch cfg t io sh (.touch a) (sh.setKernel (sh.kernel.fault i a)) (.touch a)
  | onAccess {c} : Branch cfg t io sh (.onAccess c)
      (sh.hook (cfg.policy.bind Policy.onAccess) c) (afterAccess cfg c)
  | release {c} : Branch cfg t io sh (.release c)
      (sh.setRegion (prefetchRetainRelease sh.region c)) .idle

/-! ## The functions take these branches -/

section

variable {cfg : Config n σ} {t : Tid} {io : Input n} {sh sh' : Shared n σ} {k k' : Point n}
  {j : Job n} {i : Instr n}

theorem budgetLoop_branch {a : ℕ} (hexec : budgetLoop cfg sh j a = .next sh' k') :
    JobBranch cfg io sh j (.fit a) sh' k' := by
  unfold budgetLoop at hexec
  split at hexec
  · cases hexec
    exact .reserve ‹_›
  · cases hexec
    exact .choose ‹_›
  · cases hexec
    exact .breakPin ‹_›
  · cases hexec
    exact .infeasible ‹_›
  · cases hexec
    exact .decline ‹_›

theorem maybePrefetch_branch {jr : Fin n} (hexec : maybePrefetch cfg sh jr = .next sh' k') :
    JobBranch cfg io sh (.handle jr) .predict sh' k' := by
  unfold maybePrefetch at hexec
  simp only at hexec
  split at hexec
  · rename_i hneg
    cases hexec
    exact .predictNone (Or.inl hneg)
  · rename_i hnonneg
    have hcast : ((predictNext cfg sh jr).toNat : ℤ) = predictNext cfg sh jr :=
      Int.toNat_of_nonneg (Int.not_lt.1 hnonneg)
    split at hexec
    · split at hexec
      · rename_i hself
        cases hexec
        have hval := congrArg (fun d : Fin n => (d.1 : ℤ)) hself
        exact .predictNone (Or.inr (hcast.symm.trans hval))
      · cases hexec
        exact .predict hcast.symm
    · cases hexec

theorem topPredict_branch {need i : ℕ} {cursor : Fin n}
    (hexec : topPredict cfg sh j need i cursor = .next sh' k') :
    JobBranch cfg io sh j (.topPredict need i cursor) sh' k' := by
  unfold topPredict at hexec
  simp only at hexec
  split at hexec
  · cases hexec
    exact .topStop
  · rename_i hnonneg
    have hcast : ((predictNext cfg sh cursor).toNat : ℤ) = predictNext cfg sh cursor :=
      Int.toNat_of_nonneg (Int.not_lt.1 hnonneg)
    split at hexec
    · split at hexec
      · cases hexec
        exact .topStop
      · rename_i hne
        cases hexec
        exact .topPredict hcast.symm hne
    · cases hexec
      exact .topStop

theorem execJob_branch (hexec : execJob cfg io sh j i = .next sh' k') :
    JobBranch cfg io sh j i sh' k' := by
  cases i with
  | ensure a =>
    cases hexec
    split
    · exact .due ‹_›
    · exact .notDue ‹_›
  | reconcile a =>
    simp only [execJob] at hexec
    split at hexec
    · cases hexec
      exact .reconcile ‹_›
    · cases hexec
  | fit a => exact budgetLoop_branch hexec
  | evict a v =>
    simp only [execJob] at hexec
    split at hexec
    · cases hexec
      exact .evict ‹_›
    · cases hexec
  | sleep a =>
    cases hexec
    exact .sleep
  | unpinJustResident ok =>
    cases j with
    | maybe jr c hne =>
      cases hexec
      exact .unpinJustResident
    | _ => cases hexec
  | pad =>
    cases hexec
    exact .pad
  | read off =>
    simp only [execJob] at hexec
    split at hexec
    · split at hexec
      · cases hexec
        exact .read ‹_› ‹_›
      · cases hexec
    · rename_i hend
      cases hexec
      exact .direct (Nat.le_of_not_lt hend)
  | tail pos =>
    simp only [execJob] at hexec
    split at hexec
    · split at hexec
      · cases hexec
        exact .tail ‹_› ‹_›
      · cases hexec
    · rename_i hend
      cases hexec
      exact .loaded (Nat.le_of_not_lt hend)
  | resolve =>
    simp only [execJob] at hexec
    split at hexec
    · cases hexec
      exact .resolve ‹_›
    · cases hexec
  | commit =>
    cases hexec
    exact .commit
  | mark =>
    cases hexec
    exact .mark
  | unpinTarget ok =>
    cases hexec
    exact .unpinTarget
  | abandon =>
    cases hexec
    exact .abandon
  | retain =>
    cases hexec
    exact .retain
  | finishPrefetch =>
    simp only [execJob] at hexec
    split at hexec
    · cases hexec
    · cases hexec
      exact .finishPrefetch ‹_›
  | predict =>
    cases j with
    | handle jr => exact maybePrefetch_branch hexec
    | _ => cases hexec
  | topNeed =>
    cases hexec
    exact .topNeed
  | topPredict need i cursor => exact topPredict_branch hexec
  | topEnqueue need i c =>
    cases hexec
    exact .topEnqueue
  | unpin =>
    cases hexec
    exact .unpin
  | finish =>
    simp only [execJob] at hexec
    split at hexec
    · cases hexec
    · cases hexec
      exact .finish ‹_›

theorem handleFault_branch {m : Msg} {c : Fin n} (hexec : handleFault cfg sh m c = .next sh' k') :
    Branch cfg t io sh (.switch m c) sh' k' := by
  unfold handleFault at hexec
  split at hexec
  · cases hexec
    exact .present ‹_›
  · cases hexec
    exact .coming ‹_›
  · cases hexec
    split
    · exact .begin ‹_› ‹_›
    · rename_i hhook
      exact .beginSilently ‹_› (Bool.eq_false_iff.2 hhook)

theorem workerMain_branch (hexec : workerMain sh = .next sh' k') :
    Branch cfg t io sh .pick sh' k' := by
  unfold workerMain at hexec
  split at hexec
  · cases hexec
    exact .takeDemand ‹_›
  · cases hexec
    exact .takePrefetch ‹_› ‹_›
  · split at hexec
    · cases hexec
      exact .retire ‹_› ‹_› ‹_›
    · rename_i hstop
      cases hexec
      exact .idle ‹_› ‹_› (Bool.eq_false_iff.2 hstop)

theorem touch_branch {a : ℕ} (hexec : touch sh t a = .next sh' k') :
    Branch cfg t io sh (.touch a) sh' k' := by
  unfold touch at hexec
  split at hexec
  · split at hexec
    · cases hexec
    · split at hexec
      · cases hexec
        exact .load rfl ‹_› ‹_›
      · rename_i hpage
        cases hexec
        exact .fault rfl ‹_› (Bool.eq_false_iff.2 hpage)
  · cases hexec

theorem exec_branch (hexec : exec cfg t io sh k = .next sh' k') : Branch cfg t io sh k sh' k' := by
  cases k with
  | top =>
    simp only [exec] at hexec
    split at hexec
    · cases hexec
      split
      · exact .stopPool ‹_› ‹_›
      · rename_i hpool
        exact .exit ‹_› (Bool.eq_false_iff.2 hpool)
    · rename_i hstop
      cases hexec
      split
      · exact .watchdog (Bool.eq_false_iff.2 hstop) ‹_›
      · rename_i hsync
        exact .wait (Bool.eq_false_iff.2 hstop) (Bool.eq_false_iff.2 hsync)
  | watch now i =>
    simp only [exec] at hexec
    split at hexec
    · rename_i hi
      cases hexec
      split
      · exact Branch.stuck (c := ⟨i, hi⟩) ‹_›
      · exact Branch.notStuck (c := ⟨i, hi⟩) ‹_›
    · rename_i hi
      cases hexec
      exact .watched (Nat.le_of_not_lt hi)
  | tryReclaim now c =>
    cases hexec
    split
    · exact .reclaim ‹_›
    · exact .spare ‹_›
  | poll =>
    cases hexec
    split
    · exact .ready ‹_›
    · rename_i hready
      exact .timeout (Bool.eq_false_iff.2 hready)
  | drain =>
    simp only [exec] at hexec
    split at hexec
    · cases hexec
      exact .empty ‹_›
    · split at hexec
      · cases hexec
        exact .take ‹_› ‹_›
      · cases hexec
  | switch m c => exact handleFault_branch hexec
  | onFault m c =>
    cases hexec
    exact .onFault
  | enqueue m c =>
    simp only [exec] at hexec
    split at hexec
    · cases hexec
    · rename_i hroom
      cases hexec
      exact .enqueue (Nat.lt_of_not_ge hroom)
  | stopPool =>
    cases hexec
    exact .broadcast
  | join =>
    simp only [exec] at hexec
    split at hexec
    · cases hexec
      exact .joined ‹_›
    · cases hexec
  | exited => cases hexec
  | checkDemand c =>
    simp only [exec] at hexec
    split at hexec
    · cases hexec
      exact .startDemand ‹_›
    · cases hexec
  | checkPrefetch c =>
    cases hexec
    split
    · exact .wanted ‹_›
    · exact .unwanted ‹_›
  | pinPrefetch ts c =>
    cases hexec
    exact .pinPrefetch
  | startPrefetch ts c =>
    cases hexec
    exact .startPrefetch
  | checkMaybe jr c hne =>
    simp only [exec] at hexec
    split at hexec
    · cases hexec
      exact .startMaybe ‹_›
    · cases hexec
      exact .leaveMaybe ‹_›
  | pinJustResident jr c hne =>
    cases hexec
    exact .pinJustResident
  | job j i => exact .job (execJob_branch hexec)
  | pick => exact workerMain_branch hexec
  | prefetchDone c =>
    cases hexec
    exact .prefetchDone
  | retired => cases hexec
  | idle =>
    simp only [exec] at hexec
    split at hexec
    · split at hexec
      · cases hexec
        exact .aim ‹_› ‹_›
      · cases hexec
    · cases hexec
      split
      · exact .notify ‹_› ‹_›
      · rename_i hhook
        exact .notifySilently ‹_› (Bool.eq_false_iff.2 hhook)
  | touch a => exact touch_branch hexec
  | onAccess c =>
    cases hexec
    exact .onAccess
  | release c =>
    cases hexec
    exact .release

end

end Residctl.Pager
