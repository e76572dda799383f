import Residctl.Sound

/-!
# What a step does to the data

The chunk states with their time stamps, the kernel side and the demand queue (`View`),
and the list of everything a step of a thread can do to them (`Deed`). All that is proved
about faults and about the bytes of the region rests on `exec_deed`.
-/

namespace Residctl.Pager

open Mutex Function

variable {n : ℕ} {σ : Type}

/-! ## The view -/

/-- What the steps below change in a chunk: its state and since when it is `FETCHING`. -/
def Region.phase (r : Region n σ) (d : Fin n) : ChunkState × ℕ :=
  ((r.chunks d).state, (r.chunks d).fetchingSinceNs)

/-- The part of the shared state that holds, or moves, data. -/
structure View (n : ℕ) where
  /-- state and `fetching_since_ns` -/
  phase : Fin n → ChunkState × ℕ
  kernel : Kernel
  /-- the demand queue -/
  queue : List (Fin n)

/-- The view of a shared state. -/
def Shared.view (sh : Shared n σ) : View n := ⟨Region.phase sh.region, sh.kernel, sh.demandQueue⟩

/-- `UFFDIO_WAKE` over a chunk. -/
def View.wake (cfg : Config n σ) (V : View n) (c : Fin n) : View n :=
  { V with kernel := V.kernel.wake (cfg.table.regionOff c) (cfg.table.len c) }

/-- One chunk changes its state. -/
def View.setPhase (V : View n) (c : Fin n) (st : ChunkState) (since : ℕ) : View n :=
  { V with phase := update V.phase c (st, since) }

/-- A chunk that is not `RESIDENT` changes to another such state. -/
theorem resident_setPhase {V : View n} {c : Fin n} {st : ChunkState} {since : ℕ}
    (hst : st ≠ .resident) (hc : (V.phase c).1 ≠ .resident) (d : Fin n) :
    ((V.setPhase c st since).phase d).1 = .resident ↔ (V.phase d).1 = .resident := by
  by_cases hd : d = c
  · subst hd
    simp [View.setPhase, hst, hc]
  · simp [View.setPhase, hd]

/-- Points with a rule of their own in `Deed` for every way on. -/
def Point.quiet : Point n → Bool
  | .job _ .pad => false
  | .job _ .abandon => false
  | .job _ i => !i.loading
  | .enqueue _ _ => false
  | .switch _ _ => false
  | .drain => false
  | .pick => false
  | _ => true

/-- The padding `memset` of a chunk. -/
def padKernel (cfg : Config n σ) (k : Kernel) (c : Fin n) : Kernel :=
  if Clamped cfg c then
    k.store cfg.modelFileSize (alignedEnd cfg c - cfg.modelFileSize) fun _ => 0
  else k

/-- What a step from `k` to `k'` does to the data. -/
inductive Deed (cfg : Config n σ) : Point n → Point n → View n → View n → Prop
  | quiet {k k' V} (hk : k.quiet = true) : Deed cfg k k' V V
  | empty {V} : Deed cfg .drain .top V V
  | take {m c rest V} (huffd : V.kernel.uffd = m :: rest)
      (hc : pagerLookup cfg.table m.addr = some c) :
      Deed cfg .drain (.switch m c) V { V with kernel := { V.kernel with uffd := rest } }
  | present {m c V} (hst : (V.phase c).1 = .resident) :
      Deed cfg (.switch m c) .drain V (V.wake cfg c)
  | coming {m c V} (hst : (V.phase c).1 = .fetching) : Deed cfg (.switch m c) .drain V V
  | begin {k k' c now V} (hst : (V.phase c).1 = .absent) (hk : .chunk c ∈ k.holds)
      (hk' : .chunk c ∈ k'.base) (hload : k.loading = false ∧ k'.loading = false)
      (hleave : ∀ d, ¬ k.Leaves d) :
      Deed cfg k k' V (V.setPhase c .fetching now)
  | enqueue {m c V} (hlen : V.queue.length < queueCap n) :
      Deed cfg (.enqueue m c) .drain V { V with queue := V.queue ++ [c] }
  | pick {c rest V} (hqueue : V.queue = c :: rest) :
      Deed cfg .pick (.checkDemand c) V { V with queue := rest }
  | turn {k' V} (hk' : ∀ c, ¬ k'.Owns c) (hload : k'.loading = false) : Deed cfg .pick k' V V
  | reclaim {now c V} (hst : (V.phase c).1 = .fetching) (hsince : (V.phase c).2 ≠ 0)
      (hage : sub64 now (V.phase c).2 ≥ timeoutNs cfg) :
      Deed cfg (.tryReclaim now c) (.watch now (c.1 + 1)) V ((V.setPhase c .absent 0).wake cfg c)
  | abandon {j V} : Deed cfg (.job j .abandon) j.after V
      ((V.setPhase j.target .absent 0).wake cfg j.target)
  | evict {j a v V} (hst : (V.phase v).1 = .resident) :
      Deed cfg (.job j (.evict a v)) (.job j (.reconcile a)) V
        { V.setPhase v .absent (V.phase v).2 with
          kernel := V.kernel.punch (cfg.table.regionOff v) (cfg.table.len v) }
  | pad {j V} : Deed cfg (.job j .pad) (.job j (.read 0)) V
      { V with kernel := padKernel cfg V.kernel j.target }
  | read {j off k V}
      (hlo : alignedStart cfg j.target + off + k ≤ directEnd cfg j.target)
      (hfile : alignedStart cfg j.target + off + k ≤ cfg.modelFileSize) :
      Deed cfg (.job j (.read off)) (.job j (.read (off + k))) V
        { V with kernel := V.kernel.store (alignedStart cfg j.target + off) k cfg.fileByte }
  | direct {j off V} (hend : directEnd cfg j.target ≤ alignedStart cfg j.target + off) :
      Deed cfg (.job j (.read off)) (.job j (.tail (directEnd cfg j.target))) V V
  | tail {j pos k V} (hlo : pos + k ≤ tailEnd cfg j.target) (hfile : pos + k ≤ cfg.modelFileSize) :
      Deed cfg (.job j (.tail pos)) (.job j (.tail (pos + k))) V
        { V with kernel := V.kernel.store pos k cfg.fileByte }
  | loaded {j pos V} (hend : tailEnd cfg j.target ≤ pos) :
      Deed cfg (.job j (.tail pos)) (.job j .resolve) V V
  | resolve {j V}
      (hok : V.kernel.Continues (cfg.table.regionOff j.target) (cfg.table.len j.target)) :
      Deed cfg (.job j .resolve) (.job j .commit) V { V with
        kernel := V.kernel.continueRange (cfg.table.regionOff j.target) (cfg.table.len j.target) }
  | commit {j V} : Deed cfg (.job j .commit) (.job j .mark) V V
  | mark {j V} : Deed cfg (.job j .mark) (.job j (marked cfg j)) V (V.setPhase j.target .resident 0)
  | fault {i a V} (hidle : V.kernel.waiting i = none) (hpage : V.kernel.mapped (pageOf a) = false) :
      Deed cfg (.touch a) (.touch a) V { V with kernel := V.kernel.fault i a }

/-! ## The view under the operations -/

section

variable {r : Region n σ} {sh sh' : Shared n σ} {c : Fin n}

theorem phase_modify (r : Region n σ) (c : Fin n) (f : Chunk → Chunk) :
    Region.phase (r.modify c f) =
      update (Region.phase r) c ((f (r.chunks c)).state, (f (r.chunks c)).fetchingSinceNs) := by
  funext d
  by_cases hd : d = c
  · subst hd
    simp [Region.phase]
  · simp [Region.phase, hd]

theorem phase_modify_same (r : Region n σ) (c : Fin n) {f : Chunk → Chunk}
    (hf : ∀ k, (f k).state = k.state ∧ (f k).fetchingSinceNs = k.fetchingSinceNs) :
    Region.phase (r.modify c f) = Region.phase r := by
  rw [phase_modify, (hf _).1, (hf _).2]
  exact update_eq_self c (Region.phase r)

@[simp] theorem phase_pinChunk (r : Region n σ) (c : Fin n) :
    Region.phase (pinChunk r c) = Region.phase r :=
  phase_modify_same r c (f := Chunk.incPin) fun _ => ⟨rfl, rfl⟩

@[simp] theorem phase_unpinChunk (r : Region n σ) (c : Fin n) :
    Region.phase (unpinChunk r c) = Region.phase r :=
  phase_modify_same r c (f := Chunk.decPin) fun k => by
    unfold Chunk.decPin
    exact ⟨by simp only, by simp only⟩

theorem phase_decline (r : Region n σ) (c : Fin n) (until' : ℕ) :
    Region.phase (r.modify c fun k => { k with declineUntilNs := until' }) = Region.phase r :=
  phase_modify_same r c (f := fun k => { k with declineUntilNs := until' }) fun _ => ⟨rfl, rfl⟩

@[simp] theorem phase_release (r : Region n σ) (c : Fin n) :
    Region.phase (prefetchRetainRelease r c) = Region.phase r := by
  unfold prefetchRetainRelease
  split
  · exact phase_unpinChunk r c
  · rfl

@[simp] theorem phase_retain (cfg : Config n σ) (r : Region n σ) (c : Fin n) :
    Region.phase (prefetchRetainOnResident cfg r c) = Region.phase r := by
  unfold prefetchRetainOnResident
  split
  · split
    · exact phase_unpinChunk r _
    · rfl
  · rfl

@[simp] theorem phase_commit (cfg : Config n σ) (r : Region n σ) (c : Fin n) :
    Region.phase (commitReserved cfg r c) = Region.phase r := rfl

@[simp] theorem phase_commitAndPin (cfg : Config n σ) (r : Region n σ) (c : Fin n) :
    Region.phase (commitReservedAndPin cfg r c) = Region.phase r :=
  phase_modify_same (commitReserved cfg r c) c (f := Chunk.incPin) fun _ => ⟨rfl, rfl⟩

@[simp] theorem view_setRegion (sh : Shared n σ) (r : Region n σ) :
    (sh.setRegion r).view = { sh.view with phase := Region.phase r } := rfl

@[simp] theorem view_setKernel (sh : Shared n σ) (k : Kernel) :
    (sh.setKernel k).view = { sh.view with kernel := k } := rfl

@[simp] theorem view_stat (sh : Shared n σ) (f : Stats → Stats) : (sh.stat f).view = sh.view := rfl

@[simp] theorem view_hook (sh : Shared n σ) (f : Option (σ → Fin n → σ)) (c : Fin n) :
    (sh.hook f c).view = sh.view := by
  cases f <;> rfl

@[simp] theorem view_wakeRange (cfg : Config n σ) (sh : Shared n σ) (c : Fin n) :
    (sh.wakeRange cfg c).view = sh.view.wake cfg c := rfl

theorem view_of_phase {r : Region n σ} (h : Region.phase r = Region.phase sh.region) :
    (sh.setRegion r).view = sh.view := by
  rw [view_setRegion, h]
  rfl

theorem view_beginFetch (sh : Shared n σ) (now : ℕ) (c : Fin n) :
    (sh.beginFetch now c).view = sh.view.setPhase c .fetching now :=
  congrArg (fun f => View.mk f sh.kernel sh.demandQueue)
    (phase_modify sh.region c fun k => k.beginFetch now (sh.region.faultSeq + 1))

theorem view_abandonFetch (cfg : Config n σ) (sh : Shared n σ) (c : Fin n) :
    (sh.abandonFetch cfg c).view = (sh.view.setPhase c .absent 0).wake cfg c := by
  have hphase := phase_modify sh.region c Chunk.abandonFetch
  exact congrArg (fun f => (View.mk f sh.kernel sh.demandQueue).wake cfg c) hphase

theorem view_countFailed (sh : Shared n σ) (j : Job n) : (countFailed sh j).view = sh.view := by
  cases j with
  | prefetch c =>
    unfold countFailed
    rw [if_pos (show (Job.prefetch c).speculative = true from rfl), view_stat]
    exact view_of_phase (phase_decline _ _ _)
  | _ => rfl

theorem view_evictChunk (cfg : Config n σ) (sh : Shared n σ) (v : Fin n) :
    (evictChunk cfg sh v).view = { sh.view.setPhase v .absent (sh.view.phase v).2 with
      kernel := sh.kernel.punch (cfg.table.regionOff v) (cfg.table.len v) } := by
  -- the counters of the region are not part of the view
  have hphase : Region.phase (evictBody cfg sh.region v) =
      Region.phase (sh.region.modify v fun k => { k with state := .absent }) := by
    funext d
    simp only [Region.phase, evictBody]
  rw [evictChunk, view_setKernel, view_setRegion, hphase, phase_modify]
  rfl

end

/-! ## Every step is a deed -/

section

variable {cfg : Config n σ} {t : Tid} {io : Input n} {sh sh' : Shared n σ} {k k' : Point n}
  {j : Job n} {i : Instr n}

/-- A quiet step of a fetch. -/
theorem Deed.still (hk : k.quiet = true) (hview : sh'.view = sh.view) :
    Deed cfg k k' sh.view sh'.view := by
  rw [hview]
  exact Deed.quiet hk

theorem topEnqueue_view (sh : Shared n σ) (idx : Fin n) : (topEnqueue sh idx).view = sh.view := by
  unfold topEnqueue
  split <;> rfl

/-- `pread` stays below the end of the file and returns at most what is asked for. -/
theorem pread_le {pos want m : ℕ} (h : pread cfg io pos want = some m) :
    m ≤ want ∧ pos + m ≤ cfg.modelFileSize := by
  unfold pread at h
  split at h
  · have hm := Option.some.inj h
    omega
  · cases h

theorem view_padTail (cfg : Config n σ) (sh : Shared n σ) (c : Fin n) :
    (padTail cfg sh c).view = { sh.view with kernel := padKernel cfg sh.kernel c } := by
  unfold padTail padKernel
  split <;> rfl

/-- The chunk of the job becomes `RESIDENT`. -/
theorem view_markResident (cfg : Config n σ) (sh : Shared n σ) (j : Job n) :
    (markResident cfg sh j).view = sh.view.setPhase j.target .resident 0 := by
  have hphase := phase_modify sh.region j.target Chunk.becomeResident
  have hset : (sh.setRegion (sh.region.modify j.target Chunk.becomeResident)).view =
      sh.view.setPhase j.target .resident 0 :=
    congrArg (fun f => View.mk f sh.kernel sh.demandQueue) hphase
  unfold markResident
  split
  · exact hset
  · rw [view_hook, view_stat, hset]

theorem execJob_mark (hexec : execJob cfg io sh j .mark = .next sh' k') :
    sh'.view = sh.view.setPhase j.target .resident 0 ∧ k' = .job j (marked cfg j) := by
  cases execJob_branch hexec
  exact ⟨view_markResident cfg sh j, rfl⟩

theorem JobBranch.deed (h : JobBranch cfg io sh j i sh' k') :
    Deed cfg (.job j i) k' sh.view sh'.view := by
  cases h with
  | breakPin _ => exact Deed.still rfl (view_of_phase (phase_release _ _))
  | evict hev =>
    rw [view_evictChunk]
    exact Deed.evict hev.1
  | pad =>
    rw [view_padTail]
    exact Deed.pad
  | read hlt hread =>
    obtain ⟨hwant, hfile⟩ := pread_le hread
    exact Deed.read (by omega) hfile
  | direct hend => exact Deed.direct hend
  | tail hlt hread =>
    obtain ⟨hwant, hfile⟩ := pread_le hread
    exact Deed.tail (by omega) hfile
  | loaded hend => exact Deed.loaded hend
  | resolve hok => exact Deed.resolve hok
  | commit =>
    have hview : (sh.setRegion (if j.speculative = true then commitReserved cfg sh.region j.target
        else commitReservedAndPin cfg sh.region j.target)).view = sh.view := by
      apply view_of_phase
      split
      · exact phase_commit _ _ _
      · exact phase_commitAndPin _ _ _
    rw [hview]
    exact Deed.commit
  | mark =>
    rw [view_markResident]
    exact Deed.mark
  | abandon =>
    rw [view_countFailed, view_abandonFetch]
    exact Deed.abandon
  | unpinJustResident | unpinTarget | unpin =>
    exact Deed.still rfl (view_of_phase (phase_unpinChunk _ _))
  | retain => exact Deed.still rfl (view_of_phase (phase_retain _ _ _))
  | finishPrefetch _ => exact Deed.still rfl (view_hook _ _ _)
  | topEnqueue => exact Deed.still rfl (topEnqueue_view _ _)
  | _ => exact Deed.still rfl rfl

theorem afterFault_base (cfg : Config n σ) (m : Msg) (c : Fin n) :
    (afterFault cfg m c).base = [.chunk c] ∧ (afterFault cfg m c).loading = false := by
  unfold afterFault
  split <;> exact ⟨rfl, rfl⟩

/-- Every step of a thread does one of the listed things. A prefetch that is started is
`ABSENT`, as it was when it was checked. -/
theorem exec_deed
    (hstart : ∀ ts c, k = .startPrefetch ts c → (sh.region.chunks c).state = .absent)
    (hexec : exec cfg t io sh k = .next sh' k') :
    Deed cfg k k' sh.view sh'.view := by
  cases exec_branch hexec with
  | job h => exact h.deed
  | present hst => exact Deed.present hst
  | coming hst => exact Deed.coming hst
  | begin hst _ =>
    rw [view_beginFetch]
    exact Deed.begin hst (Point.needs_mem_holds rfl) List.mem_cons_self ⟨rfl, rfl⟩
      (by rintro _ ⟨⟩)
  | @beginSilently m c hst _ =>
    obtain ⟨hbase, hload⟩ := afterFault_base cfg m c
    rw [view_beginFetch]
    refine Deed.begin hst (Point.needs_mem_holds rfl) ?_ ⟨rfl, hload⟩ (by rintro _ ⟨⟩)
    rw [hbase]
    exact List.mem_cons_self
  | reclaim hstuck =>
    rw [view_stat, view_abandonFetch]
    exact Deed.reclaim hstuck.1 hstuck.2.1 hstuck.2.2
  | empty _ => exact Deed.empty
  | take huffd hc => exact Deed.take huffd hc
  | enqueue hroom => exact Deed.enqueue hroom
  | startPrefetch =>
    rw [view_beginFetch]
    exact Deed.begin (hstart _ _ rfl) (Point.base_subset_holds _ List.mem_cons_self)
      List.mem_cons_self ⟨rfl, rfl⟩ (by rintro _ ⟨⟩)
  | @startMaybe jr c hne hst =>
    have hpin : (sh.setRegion (pinChunk sh.region c)).view = sh.view :=
      view_of_phase (phase_pinChunk _ _)
    rw [view_beginFetch, hpin]
    exact Deed.begin hst (Point.needs_mem_holds rfl) (by simp [Point.base]) ⟨rfl, rfl⟩ (by rintro _ ⟨⟩)
  | takeDemand hqueue => exact Deed.pick hqueue
  | takePrefetch _ _ | retire _ _ _ | idle _ _ _ => exact Deed.turn (by rintro _ ⟨⟩) rfl
  | fault _ hidle hpage => exact Deed.fault hidle hpage
  | onFault | onAccess => exact Deed.still rfl (view_hook _ _ _)
  | pinPrefetch | pinJustResident => exact Deed.still rfl (view_of_phase (phase_pinChunk _ _))
  | release => exact Deed.still rfl (view_of_phase (phase_release _ _))
  | _ => exact Deed.still rfl rfl

end

section

variable {cfg : Config n σ} {s : State n σ} {t : Tid} {io : Input n} {sh' : Shared n σ}
  {k k' : Point n}

theorem Sound.deed (h : Sound cfg s) (hpc : s.pc t = .go k)
    (hexec : Pager.exec cfg t io s.sh k = .next sh' k') : Deed cfg k k' s.sh.view sh'.view := by
  refine exec_deed (fun ts c hk => ?_) hexec
  have hmem : .chunk c ∈ k.holds := by
    rw [hk]
    exact Point.base_subset_holds _ List.mem_cons_self
  have hrole : s.role c = .absent 1 := by
    rw [h.role_go hpc c hmem, hk]
    exact if_pos rfl
  have hfits := h.fits c
  rwa [hrole] at hfits

/-- A step from a quiet point does not load. -/
theorem Flow.not_loading (h : Flow cfg k k') (hk : k.quiet = true) :
    k.loading = false ∧ k'.loading = false := by
  have hload : k.loading = false := by
    cases k with
    | job j i => cases i <;> first | rfl | exact absurd hk Bool.false_ne_true
    | _ => rfl
  refine ⟨hload, Bool.eq_false_iff.2 fun hl => ?_⟩
  rcases h.load hl with hk' | ⟨j, rfl⟩
  · rw [hload] at hk'
    cases hk'
  · cases hk

end

end Residctl.Pager
