import Residctl.Accounting
import Residctl.Declared
import Residctl.Deeds

/-!
# The published counters

`stat_absent_handled`, `stat_prefetches`, `stat_evictions`, `stat_bytes_fetched` and
`stat_bytes_punched` against the chunks that are `RESIDENT`. A fetch is counted in bytes
when its chunk becomes `RESIDENT` and as a fetch only when the job ends; in between the
chunk is uncounted (`Role.Uncounted`).

The handler adds to `stat_bytes_fetched` without an atomic operation, although the workers of
a pool add to it at the same time. `torn` is the pager with that addition in two steps.
-/

namespace Residctl

variable {n : ℕ} {σ : Type}

/-- The chunk is `RESIDENT` and its fetch has not been counted yet. -/
@[simp] def Role.Uncounted : Role → Prop
  | none => False
  | absent _ => False
  | fetching _ => False
  | reserved _ => False
  | mapped _ => False
  | committed _ => False
  | resident _ => True

instance : DecidablePred Role.Uncounted
  | .resident _ => isTrue trivial
  | .none => isFalse id
  | .absent _ => isFalse id
  | .fetching _ => isFalse id
  | .reserved _ => isFalse id
  | .mapped _ => isFalse id
  | .committed _ => isFalse id

namespace Pager

open Mutex Function Runs Ledger

/-! ## What a step counts -/

structure Tally where
  /-- `stat_absent_handled + stat_prefetches` -/
  handled : ℕ
  evictions : ℕ
  fetched : ℕ
  punched : ℕ

def Shared.tally (sh : Shared n σ) : Tally where
  handled := sh.region.stats.absentHandled + sh.region.stats.prefetches
  evictions := sh.region.stats.evictions
  fetched := sh.region.stats.bytesFetched
  punched := sh.region.stats.bytesPunched

/-- What a step from the point counts. -/
def Point.count (cfg : Config n σ) (T : Tally) : Point n → Tally
  | .job j .mark => { T with fetched := T.fetched + cfg.table.len j.target }
  | .job _ (.evict _ v) =>
    { T with evictions := T.evictions + 1, punched := T.punched + cfg.table.len v }
  | .job _ .finish => { T with handled := T.handled + 1 }
  | .job _ .finishPrefetch => { T with handled := T.handled + 1 }
  | _ => T

/-- The step from the point makes a fetch uncounted, or counts it. -/
def Point.settles : Point n → Bool
  | .job _ .mark => true
  | .job _ .finish => true
  | .job _ .finishPrefetch => true
  | _ => false

/-- A step counts what its point says, and the uncounted fetches change only where it does. -/
structure Counts (cfg : Config n σ) (k k' : Point n) (T T' : Tally) : Prop where
  tally : T' = k.count cfg T
  uncounted : k.settles = false → ∀ d, (k'.role d).Uncounted ↔ (k.role d).Uncounted

section

variable {cfg : Config n σ} {t : Tid} {io : Input n} {sh sh' : Shared n σ} {k k' : Point n}
  {j : Job n} {i i' : Instr n} {T T' : Tally}

theorem Job.jrRole_uncounted (i i' : Instr n) (d : Fin n) :
    (j.jrRole i' d).Uncounted ↔ (j.jrRole i d).Uncounted := by
  cases j with
  | maybe jr c hne => simp only [Job.jrRole]; split <;> rfl
  | _ => exact Iff.rfl

/-- Within a job. -/
theorem Counts.inside (hT : T' = (Point.job j i).count cfg T)
    (h : (i'.role j).Uncounted ↔ (i.role j).Uncounted) :
    Counts cfg (.job j i) (.job j i') T T' where
  tally := hT
  uncounted _ d := by
    by_cases hd : d = j.target
    · rw [hd, Point.role_target, Point.role_target]
      exact h
    · simp only [Point.role, if_neg hd]
      exact j.jrRole_uncounted i i' d

/-- A step that counts a fetch, or marks its chunk. -/
theorem Counts.settle (hT : T' = k.count cfg T) (h : k.settles = true) : Counts cfg k k' T T' :=
  ⟨hT, fun hf => by rw [h] at hf; cases hf⟩

/-- Outside of the jobs nothing is counted. -/
theorem Counts.outside (hT : T' = k.count cfg T) (h' : ∀ d, ¬ (k'.role d).Uncounted)
    (h : ∀ d, ¬ (k.role d).Uncounted) : Counts cfg k k' T T' :=
  ⟨hT, fun _ d => iff_of_false (h' d) (h d)⟩

theorem ensured_uncounted (cfg : Config n σ) (a : ℕ) (ok : Bool) (j : Job n) :
    ¬ ((ensured cfg a ok j).role j).Uncounted := by
  rw [ensured_role]
  split <;> exact id

theorem tally_release (sh : Shared n σ) (c : Fin n) :
    (sh.setRegion (prefetchRetainRelease sh.region c)).tally = sh.tally := by
  unfold prefetchRetainRelease
  split <;> rfl

theorem tally_hook (sh : Shared n σ) (f : Option (σ → Fin n → σ)) (c : Fin n) :
    (sh.hook f c).tally = sh.tally := by
  cases f <;> rfl

/-- Leaving a job forgets its chunk; the other chunk of `maybe_prefetch` stays uncounted. -/
theorem Counts.leave (hT : T' = (Point.job j i).count cfg T) (h : ¬ (i.role j).Uncounted) :
    Counts cfg (.job j i) j.after T T' where
  tally := hT
  uncounted _ d := by
    by_cases hd : d = j.target
    · subst hd
      rw [Point.role_target]
      refine iff_of_false ?_ h
      cases j with
      | maybe jr c hne => simp [Job.after, Point.role, Job.target, Job.jrRole, hne]
      | _ => exact id
    · cases j with
      | maybe jr c hne =>
        have hdc : d ≠ c := hd
        by_cases hdj : d = jr
        · simp [Job.after, Point.role, Job.target, Job.jrRole, Instr.role, hdj, hne.symm]
        · simp [Job.after, Point.role, Job.target, Job.jrRole, hdc, hdj]
      | _ =>
        simp only [Point.role, if_neg hd]
        exact Iff.rfl

theorem marked_uncounted (cfg : Config n σ) (j : Job n) : ((marked cfg j).role j).Uncounted := by
  rw [(marked_role cfg j).1]
  trivial

theorem topNext_uncounted (need r : ℕ) (cursor : Fin n) (j : Job n) :
    ((topNext need r cursor).role j).Uncounted := by
  rw [(topNext_role need r cursor j).1]
  trivial

theorem tally_retain (cfg : Config n σ) (sh : Shared n σ) (c : Fin n) :
    (sh.setRegion (prefetchRetainOnResident cfg sh.region c)).tally = sh.tally := by
  unfold prefetchRetainOnResident
  split
  · split <;> rfl
  · rfl

theorem tally_markResident (cfg : Config n σ) (sh : Shared n σ) (j : Job n) :
    (markResident cfg sh j).tally =
      { sh.tally with fetched := sh.tally.fetched + cfg.table.len j.target } := by
  unfold markResident
  split
  · rfl
  · exact tally_hook _ _ _

theorem JobBranch.counts (h : JobBranch cfg io sh j i sh' k') :
    Counts cfg (.job j i) k' sh.tally sh'.tally := by
  cases h with
  | reserve _ => exact Counts.inside rfl (iff_of_false (ensured_uncounted cfg _ true j) id)
  | infeasible _ | decline _ =>
    exact Counts.inside rfl (iff_of_false (ensured_uncounted cfg _ false j) id)
  | breakPin _ => exact Counts.inside (tally_release sh _) Iff.rfl
  | @unpinJustResident jr c hne ok | @unpinTarget _ ok =>
    cases ok with
    | true => exact Counts.inside rfl Iff.rfl
    | false => exact Counts.inside rfl Iff.rfl
  | pad =>
    refine Counts.inside ?_ Iff.rfl
    unfold padTail
    split <;> rfl
  | commit =>
    refine Counts.inside ?_ Iff.rfl
    split <;> rfl
  | mark => exact Counts.settle (tally_markResident cfg sh j) rfl
  | abandon =>
    refine Counts.leave ?_ id
    cases j <;> rfl
  | retain => exact Counts.inside (tally_retain cfg sh j.target) Iff.rfl
  | finishPrefetch _ => exact Counts.settle (tally_hook _ _ _) rfl
  | @predict jr c hne _ =>
    refine ⟨rfl, fun _ d => ?_⟩
    by_cases hd : d = jr <;> simp [Point.role, Job.target, Job.jrRole, Instr.role, hd]
  | topNeed => exact Counts.inside rfl (iff_of_true (topNext_uncounted _ _ _ j) trivial)
  | topEnqueue =>
    refine Counts.inside ?_ (iff_of_true (topNext_uncounted _ _ _ j) trivial)
    unfold Pager.topEnqueue
    split <;> rfl
  | finish _ =>
    refine Counts.settle ?_ rfl
    exact congrArg (fun m => { sh.tally with handled := m }) (Nat.add_right_comm _ _ _)
  | _ => exact Counts.inside rfl Iff.rfl

/-- A chunk whose fetch begins. -/
theorem fault_uncounted (c d : Fin n) : ¬ (Role.Uncounted (if d = c then .fetching 0 else .none)) := by
  split <;> exact id

theorem exec_counts (hexec : exec cfg t io sh k = .next sh' k') :
    Counts cfg k k' sh.tally sh'.tally := by
  cases exec_branch hexec with
  | job h => exact h.counts
  | @begin m c _ _ => exact Counts.outside rfl (fault_uncounted c) fun _ => id
  | @beginSilently m c _ _ =>
    refine Counts.outside rfl (fun d => ?_) fun _ => id
    rw [afterFault_role]
    exact fault_uncounted c d
  | @onFault m c =>
    refine Counts.outside (tally_hook _ _ _) (fun d => ?_) (fault_uncounted c)
    rw [afterFault_role]
    exact fault_uncounted c d
  | @enqueue m c _ => exact Counts.outside rfl (fun _ => id) (fault_uncounted c)
  | startDemand _ =>
    refine Counts.outside rfl (fun d => ?_) fun _ => id
    simp only [Point.role, Job.jrRole, Instr.role]
    split <;> exact id
  | wanted _ =>
    refine Counts.outside rfl (fun d => ?_) fun _ => id
    simp only [Point.role]
    split <;> exact id
  | pinPrefetch =>
    refine Counts.outside rfl (fun d => ?_) fun d => ?_
    · simp only [Point.role]
      split <;> exact id
    · simp only [Point.role]
      split <;> exact id
  | startPrefetch =>
    refine Counts.outside rfl (fun d => ?_) fun d => ?_
    · simp only [Point.role, Job.jrRole, Instr.role]
      split <;> exact id
    · simp only [Point.role]
      split <;> exact id
  | @startMaybe jr c hne _ =>
    refine ⟨rfl, fun _ d => ?_⟩
    by_cases hdc : d = c
    · simp [Point.role, hdc, hne]
    · by_cases hdj : d = jr <;> simp [Point.role, hdc, hdj, hne.symm]
  | @leaveMaybe jr c hne _ =>
    refine ⟨rfl, fun _ d => ?_⟩
    by_cases hd : d = jr <;> simp [Point.role, Job.target, Job.jrRole, Instr.role, hd]
  | @pinJustResident jr c hne =>
    refine ⟨rfl, fun _ d => ?_⟩
    by_cases hdc : d = c
    · simp [Point.role, Job.target, Instr.role, hdc]
    · by_cases hdj : d = jr <;>
        simp [Point.role, Job.target, Job.jrRole, hdc, hdj, hne.symm]
  | notifySilently _ _ =>
    refine Counts.outside rfl (fun d => ?_) fun _ => id
    rw [afterAccess_role]
    exact id
  | onAccess =>
    refine Counts.outside (tally_hook _ _ _) (fun d => ?_) fun _ => id
    rw [afterAccess_role]
    exact id
  | release => exact Counts.outside (tally_release sh _) (fun _ => id) fun _ => id
  | _ => exact Counts.outside rfl (fun _ => id) fun _ => id

end

/-! ## The chunks that are `RESIDENT` -/

def View.Resident (V : View n) (c : Fin n) : Prop := (V.phase c).1 = .resident

instance (V : View n) : DecidablePred V.Resident := fun _ => inferInstanceAs (Decidable (_ = _))

section

variable {cfg : Config n σ} {t : Tid} {io : Input n} {s : State n σ} {sh' : Shared n σ}
  {k k' : Point n} {V V' : View n} {w : Fin n → ℕ} {j : Job n} {a : ℕ} {c v : Fin n}

theorem View.resident_setPhase_of_ne (V : View n) {c d : Fin n} (hd : d ≠ c) (st : ChunkState)
    (since : ℕ) : (V.setPhase c st since).Resident d ↔ V.Resident d := by
  simp [View.Resident, View.setPhase, hd]

theorem View.resident_setPhase_self (V : View n) (c : Fin n) (st : ChunkState) (since : ℕ) :
    (V.setPhase c st since).Resident c ↔ st = .resident := by
  simp [View.Resident, View.setPhase]

/-- Only a mark and an eviction change which chunks are `RESIDENT`. -/
theorem Deed.resident_iff (h : Deed cfg k k' V V') (hmark : ∀ j, k ≠ .job j .mark)
    (hvictim : k.victim = none) (habandon : ∀ j, k = .job j .abandon → ¬ V.Resident j.target)
    (d : Fin n) : V'.Resident d ↔ V.Resident d := by
  cases h with
  | begin hst _ _ _ _ => exact resident_setPhase (by simp) (by simp [hst]) d
  | reclaim hst _ _ => exact resident_setPhase (by simp) (by simp [hst]) d
  | @abandon j _ => exact resident_setPhase (by simp) (habandon j rfl) d
  | evict _ => cases hvictim
  | @mark j _ => exact absurd rfl (hmark j)
  | _ => exact Iff.rfl

/-- A chunk that is being fetched is not `RESIDENT`. -/
theorem Sound.not_resident (h : Sound cfg s) {j : Job n} {i : Instr n}
    (hpc : s.pc t = .go (.job j i)) (hst : (i.role j).Fits .fetching) (hne : i.role j ≠ .none) :
    ¬ s.sh.view.Resident j.target := by
  intro hres
  have hfits := h.fits j.target
  rw [h.role_job hpc, show (s.sh.region.chunks j.target).state = .resident from hres] at hfits
  cases hr : i.role j <;> simp_all

theorem Sound.total_mark (h : Sound cfg s) (hpc : s.pc t = .go (.job j .mark))
    (hexec : Pager.exec cfg t io s.sh (.job j .mark) = .next sh' k') :
    total w sh'.view.Resident = total w s.sh.view.Resident + w j.target := by
  have hjob : execJob cfg io s.sh j .mark = .next sh' k' := hexec
  have hview := (execJob_mark hjob).1
  have hnot := h.not_resident hpc (show Role.Fits _ _ from rfl) (by simp [Instr.role])
  have hupd := total_update (w := w) (p := s.sh.view.Resident) (q := sh'.view.Resident)
    (c := j.target) fun d hd => by rw [hview, View.resident_setPhase_of_ne _ hd]
  have hself : sh'.view.Resident j.target := by
    rw [hview, View.resident_setPhase_self]
  rw [if_neg hnot, if_pos hself] at hupd
  exact hupd

theorem Sound.total_evict (h : Sound cfg s) (hpc : s.pc t = .go (.job j (.evict a v)))
    (hexec : Pager.exec cfg t io s.sh (.job j (.evict a v)) = .next sh' k') :
    total w sh'.view.Resident + w v = total w s.sh.view.Resident := by
  have hv := h.victim t v (by rw [hpc]; rfl)
  simp only [Pager.exec, execJob, if_pos hv] at hexec
  cases hexec
  have hstep : ∀ d, (evictChunk cfg s.sh v).view.Resident d ↔
      (s.sh.view.setPhase v .absent (s.sh.view.phase v).2).Resident d := by
    rw [view_evictChunk]
    exact fun _ => Iff.rfl
  have hupd := total_update (w := w) (p := s.sh.view.Resident)
    (q := (evictChunk cfg s.sh v).view.Resident) (c := v)
    fun d hd => (hstep d).trans (View.resident_setPhase_of_ne _ hd _ _)
  have hself : ¬ (evictChunk cfg s.sh v).view.Resident v := by
    rw [hstep, View.resident_setPhase_self]
    simp
  have hold : s.sh.view.Resident v := hv.1
  rw [if_pos hold, if_neg hself] at hupd
  exact hupd

theorem Sound.total_other (h : Sound cfg s) (hpc : s.pc t = .go k)
    (hexec : Pager.exec cfg t io s.sh k = .next sh' k') (hmark : ∀ j, k ≠ .job j .mark)
    (hvictim : k.victim = none) :
    total w sh'.view.Resident = total w s.sh.view.Resident := by
  refine total_congr fun d => (h.deed hpc hexec).resident_iff hmark hvictim ?_ d
  rintro j rfl
  exact h.not_resident hpc (show Role.Fits _ _ from rfl) (by simp [Instr.role])

/-! ## The uncounted fetches -/

theorem Sound.uncounted_other (h : Sound cfg s) (hpc : s.pc t = .go k)
    (hexec : Pager.exec cfg t io s.sh k = .next sh' k') (hk : k.settles = false) :
    total w (fun c => ((s.arrive t sh' k').role c).Uncounted) =
      total w fun c => (s.role c).Uncounted := by
  refine total_congr fun d => ?_
  rw [role_arrive h.owned hpc (exec_flow hexec).base, overlay]
  split
  · rename_i hmem
    rw [h.role_go hpc d hmem]
    exact (exec_counts hexec).uncounted hk d
  · exact Iff.rfl

/-- One role changes. -/
theorem uncounted_update (ρ : Fin n → Role) (c : Fin n) (r : Role) :
    total w (fun d => (update ρ c r d).Uncounted) + (if (ρ c).Uncounted then w c else 0) =
      total w (fun d => (ρ d).Uncounted) + if r.Uncounted then w c else 0 := by
  have hupd := total_update (w := w) (p := fun d => (ρ d).Uncounted)
    (q := fun d => (update ρ c r d).Uncounted) (c := c) fun d hd => by rw [update_of_ne hd]
  simpa only [update_self] using hupd

theorem Sound.uncounted_mark (h : Sound cfg s) (hpc : s.pc t = .go (.job j .mark))
    (hexec : Pager.exec cfg t io s.sh (.job j .mark) = .next sh' k') :
    total w (fun c => ((s.arrive t sh' k').role c).Uncounted) =
      total w (fun c => (s.role c).Uncounted) + w j.target := by
  have hjob : execJob cfg io s.sh j .mark = .next sh' k' := hexec
  obtain ⟨-, rfl⟩ := execJob_mark hjob
  have hupd := uncounted_update (w := w) s.role j.target ((marked cfg j).role j)
  rw [h.role_job hpc, if_neg (by simp [Instr.role]), if_pos (marked_uncounted cfg j)] at hupd
  rw [role_arrive h.owned hpc (exec_flow hexec).base, overlay_job (h.role_go hpc)]
  · exact hupd
  · exact fun d => Job.jrRole_congr (marked_role cfg j).2 d

/-- The end of a job counts its fetch. -/
theorem Sound.uncounted_leave (h : Sound cfg s) {i : Instr n} (hpc : s.pc t = .go (.job j i))
    (hjr : i.jrPins = 1) (hi : (i.role j).Uncounted)
    (hexec : Pager.exec cfg t io s.sh (.job j i) = .next sh' j.after) :
    total w (fun c => ((s.arrive t sh' j.after).role c).Uncounted) + w j.target =
      total w fun c => (s.role c).Uncounted := by
  have hupd := uncounted_update (w := w) s.role j.target .none
  rw [h.role_job hpc, if_pos hi, if_neg (show ¬ Role.none.Uncounted from id)] at hupd
  rw [role_arrive h.owned hpc (exec_flow hexec).base, overlay_after (h.role_go hpc) hjr]
  exact hupd

end

/-! ## The balance -/

/-- Every chunk that is `RESIDENT` is a fetch that was not evicted, in fetches and in bytes. -/
structure Balanced (cfg : Config n σ) (s : State n σ) : Prop where
  chunks : total (fun _ => 1) s.sh.view.Resident + s.sh.tally.evictions =
    s.sh.tally.handled + total (fun _ => 1) fun c => (s.role c).Uncounted
  bytes : total cfg.table.len s.sh.view.Resident + s.sh.tally.punched = s.sh.tally.fetched

section

variable {cfg : Config n σ} {t : Tid} {io : Input n} {s s' : State n σ} {sh' : Shared n σ}
  {k k' : Point n} {j : Job n} {act : Action n}

theorem Balanced.of_eq (h : Balanced cfg s) (hview : s'.sh.view.phase = s.sh.view.phase)
    (htally : s'.sh.tally = s.sh.tally) (hrole : s'.role = s.role) : Balanced cfg s' := by
  have hres : s'.sh.view.Resident = s.sh.view.Resident := by
    funext c
    rw [View.Resident, hview]
    rfl
  have htotal : ∀ w : Fin n → ℕ, total w s'.sh.view.Resident = total w s.sh.view.Resident :=
    fun w => total_congr fun c => by rw [hres]
  constructor
  · rw [htotal, htally, hrole]
    exact h.chunks
  · rw [htotal, htally]
    exact h.bytes

/-- After the count the thread leaves the job. -/
theorem exec_leave {sh : Shared n σ} {i : Instr n} (hi : i = .finish ∨ i = .finishPrefetch)
    (hexec : exec cfg t io sh (.job j i) = .next sh' k') : k' = j.after := by
  cases exec_branch hexec with
  | job h => exact h.eq_after (by rcases hi with rfl | rfl <;> rfl)

/-- The end of a job, by either function. -/
theorem Balanced.leave (h : Balanced cfg s) (hs : Sound cfg s) {i : Instr n}
    (hpc : s.pc t = .go (.job j i)) (hjr : i.jrPins = 1) (hi : (i.role j).Uncounted)
    (hmark : i ≠ .mark) (hvictim : (Point.job j i).victim = none)
    (htally : sh'.tally = { s.sh.tally with handled := s.sh.tally.handled + 1 })
    (hexec : exec cfg t io s.sh (.job j i) = .next sh' j.after) :
    Balanced cfg (s.arrive t sh' j.after) := by
  have hres := fun w => hs.total_other (w := w) hpc hexec
    (fun j' hj => hmark (Point.job.inj hj).2) hvictim
  have hunc := hs.uncounted_leave (w := fun _ => 1) hpc hjr hi hexec
  have hold := h.chunks
  constructor
  · show total _ sh'.view.Resident + sh'.tally.evictions = sh'.tally.handled + _
    rw [hres, htally]
    show _ + s.sh.tally.evictions = s.sh.tally.handled + 1 + _
    omega
  · show total _ sh'.view.Resident + sh'.tally.punched = sh'.tally.fetched
    rw [hres, htally]
    exact h.bytes

theorem Balanced.exec (h : Balanced cfg s) (hs : Sound cfg s) (hpc : s.pc t = .go k)
    (hexec : exec cfg t io s.sh k = .next sh' k') : Balanced cfg (s.arrive t sh' k') := by
  have htally : sh'.tally = k.count cfg s.sh.tally := (exec_counts hexec).tally
  have hchunks := h.chunks
  have hbytes := h.bytes
  by_cases hmark : ∃ j, k = .job j .mark
  · obtain ⟨j, rfl⟩ := hmark
    have hres := fun w => hs.total_mark (w := w) hpc hexec
    have hunc := hs.uncounted_mark (w := fun _ => 1) hpc hexec
    constructor
    · show total _ sh'.view.Resident + sh'.tally.evictions = sh'.tally.handled + _
      rw [hres, hunc, htally]
      show _ + 1 + s.sh.tally.evictions = s.sh.tally.handled + (_ + 1)
      omega
    · show total _ sh'.view.Resident + sh'.tally.punched = sh'.tally.fetched
      rw [hres, htally]
      show _ + cfg.table.len j.target + s.sh.tally.punched =
        s.sh.tally.fetched + cfg.table.len j.target
      omega
  have hnomark : ∀ j, k ≠ .job j .mark := fun j hj => hmark ⟨j, hj⟩
  by_cases hevict : ∃ j a v, k = .job j (.evict a v)
  · obtain ⟨j, a, v, rfl⟩ := hevict
    have hres := fun w => hs.total_evict (w := w) hpc hexec
    have hunc := hs.uncounted_other (w := fun _ => 1) hpc hexec rfl
    have hone := hres fun _ => 1
    have hlen := hres cfg.table.len
    constructor
    · show total _ sh'.view.Resident + sh'.tally.evictions = sh'.tally.handled + _
      rw [hunc, htally]
      show _ + (s.sh.tally.evictions + 1) = s.sh.tally.handled + _
      omega
    · show total _ sh'.view.Resident + sh'.tally.punched = sh'.tally.fetched
      rw [htally]
      show _ + (s.sh.tally.punched + cfg.table.len v) = s.sh.tally.fetched
      omega
  have hvictim : k.victim = none := by
    cases hk : k.victim with
    | none => rfl
    | some v =>
      obtain ⟨j, a, rfl⟩ := Point.victim_eq_some hk
      exact absurd ⟨j, a, v, rfl⟩ hevict
  by_cases hsettle : k.settles = true
  · -- a job ends
    cases k with
    | job j i =>
      cases i with
      | mark => exact absurd rfl (hnomark j)
      | finish =>
        obtain rfl := exec_leave (Or.inl rfl) hexec
        exact h.leave hs hpc rfl trivial (by simp) rfl htally hexec
      | finishPrefetch =>
        obtain rfl := exec_leave (Or.inr rfl) hexec
        exact h.leave hs hpc rfl trivial (by simp) rfl htally hexec
      | _ => cases hsettle
    | _ => cases hsettle
  · have hother : k.settles = false := by simpa using hsettle
    have hres := fun w => hs.total_other (w := w) hpc hexec hnomark hvictim
    have hunc := hs.uncounted_other (w := fun _ => 1) hpc hexec hother
    have hsame : sh'.tally = s.sh.tally := by
      rw [htally]
      cases k with
      | job j i =>
        cases i with
        | mark => exact absurd rfl (hnomark j)
        | evict a v => exact absurd ⟨j, a, v, rfl⟩ hevict
        | finish => cases hother
        | finishPrefetch => cases hother
        | _ => rfl
      | _ => rfl
    constructor
    · show total _ sh'.view.Resident + sh'.tally.evictions = sh'.tally.handled + _
      rw [hres, hunc, hsame]
      exact hchunks
    · show total _ sh'.view.Resident + sh'.tally.punched = sh'.tally.fetched
      rw [hres, hsame]
      exact hbytes

theorem Balanced.step (h : Balanced cfg s) (hs : Sound cfg s)
    (hstep : step cfg act s = some s') : Balanced cfg s' := by
  cases moves_of_step hstep with
  | acquire hpc hneeds hfree => exact h.of_eq rfl rfl (role_acquire hs.owned hpc hneeds hfree)
  | giveUp hpc =>
    refine h.of_eq rfl rfl (role_arrive_free hs.owned ?_ rfl)
    rw [hpc]
    rfl
  | exec hpc hexec => exact h.exec hs hpc hexec
  | tick _ => exact h.of_eq rfl rfl rfl
  | drop _ => exact h.of_eq rfl rfl rfl
  | requestStop => exact h.of_eq rfl rfl rfl

theorem Reach.balanced {p : σ} (h : Reachable (pager cfg p) s) : Balanced cfg s := by
  refine h.invariant ?_ fun _ _ _ hr _ hb hstep => hb.step (Reach.sound hr) hstep
  constructor
  · rw [total_eq_zero (p := (pager cfg p).init.sh.view.Resident) (by rintro c ⟨⟩),
      total_eq_zero (p := fun c => ((pager cfg p).init.role c).Uncounted) fun c => id]
    rfl
  · rw [total_eq_zero (p := (pager cfg p).init.sh.view.Resident) (by rintro c ⟨⟩)]
    rfl

/-! ## When no fetch is under way -/

/-- From the budget call of a fetch to its count. Evictions happen within. -/
def Point.fetches : Point n → Bool
  | .job _ _ => true
  | .checkMaybe _ _ _ => true
  | .pinJustResident _ _ _ => true
  | _ => false

/-- No fetch and no eviction is in progress. -/
def State.Calm (s : State n σ) : Prop := ∀ t, (s.pc t).point.fetches = false

/-- The published counters account for what is `RESIDENT`. -/
def Conserved (sh : Shared n σ) : Prop :=
  (Finset.univ.filter fun c => (sh.region.chunks c).state = .resident).card +
      sh.region.stats.evictions = sh.region.stats.absentHandled + sh.region.stats.prefetches ∧
    sh.region.residentBytes + sh.region.stats.bytesPunched = sh.region.stats.bytesFetched

instance (sh : Shared n σ) : Decidable (Conserved sh) := inferInstanceAs (Decidable (_ ∧ _))

theorem Point.fetches_of_uncounted {c : Fin n} (h : (k.role c).Uncounted) : k.fetches = true := by
  cases k with
  | job j i => rfl
  | checkMaybe jr c hne => rfl
  | pinJustResident jr c hne => rfl
  | onFault m d => simp only [Point.role] at h; split at h <;> cases h
  | enqueue m d => simp only [Point.role] at h; split at h <;> cases h
  | pinPrefetch ts d => simp only [Point.role] at h; split at h <;> cases h
  | startPrefetch ts d => simp only [Point.role] at h; split at h <;> cases h
  | _ => cases h

theorem Balanced.conserved (h : Balanced cfg s) (hs : Sound cfg s) (hcalm : s.Calm) :
    Conserved s.sh := by
  have hunc : ∀ c, ¬ (s.role c).Uncounted := by
    intro c hc
    obtain ⟨t, ht⟩ := (role_iff (P := Role.Uncounted) hs.owned id).1 hc
    have hno := hcalm t
    rw [Point.fetches_of_uncounted ht] at hno
    cases hno
  have hcom : ∀ c, ¬ (s.role c).Commits := by
    intro c hc
    obtain ⟨t, ht⟩ := (role_iff (P := Role.Commits) hs.owned id).1 hc
    obtain ⟨j, hj, -⟩ := (Point.role_commits _ c).1 ht
    have hno := hcalm t
    rw [hj] at hno
    cases hno
  have hchunks := h.chunks
  have hbytes := h.bytes
  rw [total_eq_zero hunc, Nat.add_zero, total, ← Finset.card_filter] at hchunks
  have hres : s.sh.region.residentBytes = total cfg.table.len s.sh.view.Resident := by
    refine hs.life.resident.trans (total_congr fun c => ?_)
    exact or_iff_left (hcom c)
  refine ⟨hchunks, ?_⟩
  rw [hres]
  exact hbytes

end

/-! ## The addition in two steps -/

/-- The pager, and what the handler has loaded of `stat_bytes_fetched` for its `+=`. -/
structure Torn (n : ℕ) (σ : Type) where
  pager : State n σ
  loaded : Option ℕ

inductive TornAction (n : ℕ)
  /-- the handler loads `stat_bytes_fetched` -/
  | load
  | act (a : Action n)

/-- The thread is about to mark a chunk and to add its length. -/
def Pc.adding : Pc n → Option (Job n)
  | .go (.job j .mark) => some j
  | _ => none

/-- The handler adds to `stat_bytes_fetched` without an atomic operation. -/
def Action.stores (a : Action n) (s : State n σ) : Option (Job n) :=
  match a with
  | .exec .handler _ => (s.pc .handler).adding
  | _ => none

def Shared.storeFetched (sh : Shared n σ) (v : ℕ) : Shared n σ :=
  sh.stat fun s => { s with bytesFetched := v }

def tornStep (cfg : Config n σ) (a : TornAction n) (x : Torn n σ) : Option (Torn n σ) :=
  match a with
  | .load =>
    if (x.pager.pc .handler).adding.isSome ∧ x.loaded = none then
      some { x with loaded := some x.pager.sh.region.stats.bytesFetched }
    else none
  | .act a =>
    match a.stores x.pager with
    | some j => do
      let v ← x.loaded
      let s ← step cfg a x.pager
      some ⟨{ s with sh := s.sh.storeFetched (v + cfg.table.len j.target) }, none⟩
    | none => (step cfg a x.pager).map fun s => ⟨s, x.loaded⟩

/-- The pager with the handler's `stat_bytes_fetched += len` torn apart. -/
def torn (cfg : Config n σ) (p : σ) : Machine (Torn n σ) (TornAction n) where
  init := ⟨(pager cfg p).init, none⟩
  step := tornStep cfg

/-- The step is a worker's addition to `stat_bytes_fetched`. -/
def Action.workerAdds (a : Action n) (s : State n σ) : Bool :=
  match a with
  | .exec (.worker w) _ => (s.pc (.worker w)).adding.isSome
  | _ => false

/-- No worker adds between the handler's load and its store. -/
def Undisturbed (a : TornAction n) (x : Torn n σ) : Prop :=
  match a with
  | .load => True
  | .act a => x.loaded = none ∨ a.workerAdds x.pager = false

instance (a : TornAction n) (x : Torn n σ) : Decidable (Undisturbed a x) :=
  match a with
  | .load => inferInstanceAs (Decidable True)
  | .act _ => inferInstanceAs (Decidable (_ ∨ _))

section

variable {cfg : Config n σ} {p : σ} {t : Tid} {io : Input n} {s s' : State n σ}
  {sh sh' : Shared n σ} {k k' : Point n} {j : Job n} {a : Action n} {x x' : Torn n σ}

theorem Pc.adding_eq_some {q : Pc n} (h : q.adding = some j) : q = .go (.job j .mark) := by
  unfold Pc.adding at h
  split at h
  · obtain rfl := Option.some.inj h
    rfl
  · cases h

theorem Action.stores_eq_some (h : a.stores s = some j) :
    (∃ io, a = .exec .handler io) ∧ s.pc .handler = .go (.job j .mark) := by
  unfold Action.stores at h
  split at h
  · exact ⟨⟨_, rfl⟩, Pc.adding_eq_some h⟩
  · cases h

/-- Only a mark adds to `stat_bytes_fetched`. -/
theorem fetched_exec (hmark : ∀ j, k ≠ .job j .mark) (hexec : exec cfg t io sh k = .next sh' k') :
    sh'.region.stats.bytesFetched = sh.region.stats.bytesFetched := by
  have htally := congrArg Tally.fetched (exec_counts hexec).tally
  refine htally.trans ?_
  cases k with
  | job j i =>
    cases i with
    | mark => exact absurd rfl (hmark j)
    | _ => rfl
  | _ => rfl

/-- The loaded value is still the value of the counter. -/
structure Fresh (x : Torn n σ) : Prop where
  value : ∀ v, x.loaded = some v → v = x.pager.sh.region.stats.bytesFetched
  adding : x.loaded.isSome = true → ∃ j, x.pager.pc .handler = .go (.job j .mark)

/-- A step of another thread between load and store. -/
theorem Fresh.keep (h : Fresh x) (hs : Sound cfg x.pager) (hloaded : x.loaded.isSome = true)
    (hstores : a.stores x.pager = none) (hadds : a.workerAdds x.pager = false)
    (hstep : step cfg a x.pager = some s') : Fresh ⟨s', x.loaded⟩ := by
  obtain ⟨j, hj⟩ := h.adding hloaded
  -- the handler waits for its store, the others do not touch the counter
  suffices hsame : s'.sh.region.stats.bytesFetched = x.pager.sh.region.stats.bytesFetched ∧
      s'.pc .handler = x.pager.pc .handler by
    refine ⟨fun v hv => ?_, fun _ => ⟨j, hsame.2.trans hj⟩⟩
    rw [hsame.1]
    exact h.value v hv
  cases moves_of_step hstep with
  | @acquire _ t k l hpc hneeds hfree =>
    refine ⟨rfl, update_of_ne ?_ _ _⟩
    rintro rfl
    rw [hj] at hpc
    cases hpc
  | giveUp hpc =>
    rw [hj] at hpc
    cases hpc
  | @exec _ t io k sh' k' hpc hexec =>
    have ht : t ≠ .handler := by
      rintro rfl
      rw [Action.stores, hj] at hstores
      cases hstores
    refine ⟨fetched_exec ?_ hexec, update_of_ne ht.symm _ _⟩
    rintro j' rfl
    have hkind := hs.kind t
    rw [hpc] at hkind
    cases t with
    | handler => exact ht rfl
    | worker w =>
      rw [Action.workerAdds, hpc] at hadds
      cases hadds
    | client i => cases j' <;> cases hkind
  | tick _ => exact ⟨rfl, rfl⟩
  | drop _ => exact ⟨rfl, rfl⟩
  | requestStop => exact ⟨rfl, rfl⟩

/-- The store of an undisturbed addition is the addition. -/
theorem storeFetched_mark (hexec : exec cfg t io sh (.job j .mark) = .next sh' k') :
    sh'.storeFetched (sh.region.stats.bytesFetched + cfg.table.len j.target) = sh' := by
  have htally : sh'.region.stats.bytesFetched =
      sh.region.stats.bytesFetched + cfg.table.len j.target :=
    congrArg Tally.fetched (exec_counts hexec).tally
  rw [← htally]
  rfl

/-- A run whose additions are undisturbed is a run of the pager. -/
theorem Reach.untorn (h : Reach (torn cfg p) Undisturbed x) :
    Reachable (pager cfg p) x.pager ∧ Fresh x := by
  induction h with
  | init => exact ⟨Reach.init, by rintro v ⟨⟩, by rintro ⟨⟩⟩
  | @step a x x' _ hok hstep ih =>
    obtain ⟨hreach, hfresh⟩ := ih
    cases a with
    | load =>
      simp only [torn, tornStep] at hstep
      split at hstep
      · rename_i hload
        obtain rfl := Option.some.inj hstep
        refine ⟨hreach, fun v hv => (Option.some.inj hv).symm, fun _ => ?_⟩
        obtain ⟨j, hj⟩ := Option.isSome_iff_exists.1 hload.1
        exact ⟨j, Pc.adding_eq_some hj⟩
      · cases hstep
    | act a =>
      simp only [torn, tornStep] at hstep
      split at hstep
      · rename_i j hstores
        obtain ⟨v, hv, hstep⟩ := Option.bind_eq_some_iff.1 hstep
        obtain ⟨s, hs, hstep⟩ := Option.bind_eq_some_iff.1 hstep
        obtain rfl := Option.some.inj hstep
        obtain ⟨⟨io, rfl⟩, hpc⟩ := Action.stores_eq_some hstores
        refine ⟨?_, by rintro v ⟨⟩, by rintro ⟨⟩⟩
        -- nobody added since the load, so the stored sum is the one `pager` stores
        rw [hfresh.value v hv]
        have hpager : (pager cfg p).step (.exec .handler io) x.pager = some s := hs
        have hnext : Reachable (pager cfg p) s := Reach.step hreach trivial hpager
        cases moves_of_step hs with
        | @exec _ _ _ k sh' k' hpc' hexec =>
          obtain rfl : k = .job j .mark := Pc.go.inj (hpc'.symm.trans hpc)
          have hstore := storeFetched_mark hexec
          rw [show (x.pager.arrive .handler sh' k').sh = sh' from rfl, hstore]
          exact hnext
      · rename_i hstores
        obtain ⟨s, hs, rfl⟩ := Option.map_eq_some_iff.1 hstep
        refine ⟨Reach.step hreach trivial hs, ?_⟩
        cases hl : x.loaded with
        | none => exact ⟨by rintro v ⟨⟩, by rintro ⟨⟩⟩
        | some v =>
          have hloaded : x.loaded.isSome = true := by rw [hl]; rfl
          -- the step leaves a pending load fresh
          have hadds : a.workerAdds x.pager = false := by
            rcases hok with hnone | hadds
            · rw [hl] at hnone
              cases hnone
            · exact hadds
          rw [← hl]
          exact hfresh.keep (Reach.sound hreach) hloaded hstores hadds hs

/-- Without a pool the workers never run. -/
theorem Reach.retired (hpool : hasPool cfg = false) (h : Reachable (pager cfg p) s) (w : ℕ) :
    s.pc (.worker w) = .go .retired := by
  refine h.invariant (I := fun s => s.pc (.worker w) = .go .retired) ?_ ?_
  · show enter (startPoint cfg (.worker w)) = _
    rw [startPoint, hpool, if_neg (by simp)]
    rfl
  · intro a s s' _ _ hs hstep
    cases moves_of_step hstep with
    | @acquire _ t k l hpc hneeds hfree =>
      refine (update_of_ne ?_ _ _).trans hs
      rintro rfl
      rw [hs] at hpc
      cases hpc
    | @giveUp _ now c hpc =>
      have hother : (s.arrive .handler s.sh (.watch now (c.1 + 1))).pc (.worker w) =
          s.pc (.worker w) := by simp [State.arrive]
      exact hother.trans hs
    | @exec _ t io k sh k' hpc hexec =>
      refine (update_of_ne ?_ _ _).trans hs
      rintro rfl
      rw [hs] at hpc
      cases hpc
      cases hexec
    | tick _ => exact hs
    | drop _ => exact hs
    | requestStop => exact hs

/-- A pager that dispatches to its pool, or has none, is never disturbed. -/
theorem Reach.undisturbed (hcfg : cfg.asyncHandler = true ∨ hasPool cfg = false)
    (h : Reachable (torn cfg p) x) : Reach (torn cfg p) Undisturbed x := by
  induction h with
  | init => exact Reach.init
  | @step a x x' _ _ hstep ih =>
    refine Reach.step ih ?_ hstep
    obtain ⟨hreach, hfresh⟩ := Reach.untorn ih
    cases a with
    | load => trivial
    | act a =>
      rcases hcfg with hasync | hpool
      · -- the handler does not fetch
        left
        rw [← Option.not_isSome_iff_eq_none]
        intro hloaded
        obtain ⟨j, hj⟩ := hfresh.adding hloaded
        have hs := Reach.sound hreach
        have hkind := hs.kind .handler
        have hinline := hs.not_inline hasync .handler
        rw [hj] at hkind hinline
        cases j with
        | handle c => cases hinline
        | maybe jr c hne => cases hinline
        | demand c => cases hkind
        | prefetch c => cases hkind
      · right
        unfold Action.workerAdds
        split
        · rename_i w io
          rw [Reach.retired hpool hreach w]
          rfl
        · rfl

/-- When no fetch and no eviction is in progress the published counters account for what is
`RESIDENT`, in every run in which no worker adds to `stat_bytes_fetched` while the handler is in
the middle of its own addition; so always with the asynchronous handler or without a pool. -/
theorem counters_conserved (cfg : Config n σ) (p : σ) :
    (∀ x, Reach (torn cfg p) Undisturbed x → x.pager.Calm → Conserved x.pager.sh) ∧
      (cfg.asyncHandler = true ∨ hasPool cfg = false →
        ∀ x, Reachable (torn cfg p) x → x.pager.Calm → Conserved x.pager.sh) := by
  have hconserved : ∀ x, Reach (torn cfg p) Undisturbed x → x.pager.Calm →
      Conserved x.pager.sh := by
    intro x h hcalm
    have hreach := (Reach.untorn h).1
    exact (Reach.balanced hreach).conserved (Reach.sound hreach) hcalm
  exact ⟨hconserved, fun hcfg x h => hconserved x (Reach.undisturbed hcfg h)⟩

/-- The thread that takes the step. -/
def Action.thread : Action n → Option Tid
  | .acquire t => some t
  | .giveUp => some .handler
  | .exec t _ => some t
  | _ => none

theorem step_pc_of_ne (hstep : step cfg a s = some s') (ht : a.thread ≠ some t) :
    s'.pc t = s.pc t := by
  cases moves_of_step hstep with
  | acquire _ _ _ => exact update_of_ne (fun h => ht (congrArg some h.symm)) _ _
  | giveUp _ => exact update_of_ne (fun h => ht (congrArg some h.symm)) _ _
  | exec _ _ => exact update_of_ne (fun h => ht (congrArg some h.symm)) _ _
  | tick _ => rfl
  | drop _ => rfl
  | requestStop => rfl

def TornAction.thread : TornAction n → Option Tid
  | .load => none
  | .act a => a.thread

theorem tornStep_pc_of_ne {b : TornAction n} (hstep : tornStep cfg b x = some x')
    (ht : b.thread ≠ some t) : x'.pager.pc t = x.pager.pc t := by
  cases b with
  | load =>
    simp only [tornStep] at hstep
    split at hstep
    · obtain rfl := Option.some.inj hstep
      rfl
    · cases hstep
  | act a =>
    simp only [tornStep] at hstep
    split at hstep
    · obtain ⟨v, _, hstep⟩ := Option.bind_eq_some_iff.1 hstep
      obtain ⟨s, hs, hstep⟩ := Option.bind_eq_some_iff.1 hstep
      obtain rfl := Option.some.inj hstep
      have hpc : s.pc t = x.pager.pc t := step_pc_of_ne hs ht
      exact hpc
    · obtain ⟨s, hs, rfl⟩ := Option.map_eq_some_iff.1 hstep
      exact step_pc_of_ne hs ht

section

variable {ok : TornAction n → Torn n σ → Prop} [∀ b x, Decidable (ok b x)]
  {bs : List (TornAction n)}

/-- A thread that takes no step of the run stays where it is. -/
theorem run_pc_of_ne (hrun : runIf (torn cfg p) ok bs x = some x')
    (ht : ∀ b ∈ bs, b.thread ≠ some t) : x'.pager.pc t = x.pager.pc t := by
  induction bs generalizing x with
  | nil =>
    cases hrun
    rfl
  | cons b bs ih =>
    rw [runIf] at hrun
    split at hrun
    · obtain ⟨y, hy, hrest⟩ := Option.bind_eq_some_iff.1 hrun
      rw [ih hrest fun b' hb' => ht b' (List.mem_cons_of_mem _ hb'),
        tornStep_pc_of_ne hy (ht b List.mem_cons_self)]
    · cases hrun

/-- Calm after a run from the start, if the threads that took its steps are. -/
theorem calm_of_run (hrun : runIf (torn cfg p) ok bs (torn cfg p).init = some x)
    (hcalm : ∀ b ∈ bs, ∀ t ∈ b.thread, (x.pager.pc t).point.fetches = false) : x.pager.Calm := by
  intro t
  by_cases ht : ∃ b ∈ bs, b.thread = some t
  · obtain ⟨b, hb, hbt⟩ := ht
    exact hcalm b hb t hbt
  · rw [run_pc_of_ne hrun fun b hb hbt => ht ⟨b, hb, hbt⟩]
    exact init_point (P := fun k => k.fetches = false) rfl rfl rfl rfl cfg p t

end

end

/-! ## A lost addition -/

theorem three_chunks_fit : 3 * 4096 < 2 ^ 64 := by decide

/-- A synchronous handler with a pool that fetches one chunk ahead. -/
def syncAhead : Config 3 LoDeclared where
  table := ChunkTable.uniform 3 4096 page_pos page_aligned three_chunks_fit
  registered := by decide
  truncated := by decide
  budgetBytes := 12288
  reconcileInterval := 1
  policy := some (policyLayerOrderDeclared 3 ⟨false, false⟩)
  asyncHandler := false
  pool := true
  workers := 2
  prefetchEnabled := true
  prefetchDepth := 2
  prefetchAdmissionAlways := true
  prefetchRetentionPinned := false
  fetchingTimeoutMs := 30000
  modelFileSize := 12288
  fileByte := fun _ => 7

def aheadInOrder : LoDeclared := loDeclaredDeclareSequence (loDeclaredInit 3) [0, 1, 2]

/-- The thread executes so many points. -/
def goes (t : Tid) (k : ℕ) : List (TornAction 3) := List.replicate k (.act (.exec t {}))

/-- The thread takes a mutex and executes so many points, once for each of the numbers. -/
def blocks (t : Tid) (shmem : ℕ) (ks : List ℕ) : List (TornAction 3) :=
  ks.flatMap fun k =>
    .act (.acquire t) :: List.replicate k (.act (.exec t { count := 4096, shmem := shmem }))

/-- The handler fetches chunk 0, queues chunks 1 and 2 for the pool and gets a fault on chunk 2;
a worker is about to mark chunk 1 and the handler chunk 2. -/
def bothAtMark : List (TornAction 3) :=
  .act (.tick 1) :: goes (.client 0) 2 ++ goes .handler 3 ++ blocks .handler 0 [1, 1, 8, 1] ++
    .load :: goes .handler 1 ++ blocks .handler 0 [1, 1, 1, 1, 1, 2] ++ goes .handler 3 ++
    .act (.exec (.client 1) { op := .touch 8192 }) :: goes (.client 1) 1 ++
    blocks (.worker 0) 4096 [1, 1, 2, 8, 1] ++ goes .handler 1 ++ blocks .handler 8192 [1, 1, 8, 1]

/-- The worker adds before the handler loads. -/
def markApart : List (TornAction 3) :=
  bothAtMark ++ goes (.worker 0) 1 ++ .load :: goes .handler 1 ++
    blocks (.worker 0) 0 [2, 1] ++ blocks .handler 0 [1, 1, 1, 2]

/-- The worker adds between the handler's load and its store. -/
def markWithin : List (TornAction 3) :=
  bothAtMark ++ .load :: goes (.worker 0) 1 ++ goes .handler 1 ++
    blocks (.worker 0) 0 [2, 1] ++ blocks .handler 0 [1, 1, 1, 2]

theorem markApart_runs : (runIf (torn syncAhead aheadInOrder) Undisturbed markApart
    (torn syncAhead aheadInOrder).init).isSome = true := by
  decide +kernel

theorem counters_conserved_syncAhead : ∃ x, Reach (torn syncAhead aheadInOrder) Undisturbed x ∧
    x.pager.Calm ∧ x.pager.sh.region.residentBytes = 12288 ∧ Conserved x.pager.sh := by
  have hreach := reach_get markApart markApart_runs
  have hcalm := calm_of_run (Option.some_get markApart_runs).symm (by decide +kernel)
  exact ⟨_, hreach, hcalm, by decide +kernel,
    (counters_conserved syncAhead aheadInOrder).1 _ hreach hcalm⟩

theorem markWithin_runs : (runIf (torn syncAhead aheadInOrder) (fun _ _ => True) markWithin
    (torn syncAhead aheadInOrder).init).isSome = true := by
  decide +kernel

/-- The worker's addition to `stat_bytes_fetched` is lost. -/
theorem counters_lost : ¬ ∀ x, Reachable (torn syncAhead aheadInOrder) x → x.pager.Calm →
    Conserved x.pager.sh := by
  intro hall
  have hcalm := calm_of_run (Option.some_get markWithin_runs).symm (by decide +kernel)
  have hconserved := hall _ (reach_get markWithin markWithin_runs) hcalm
  revert hconserved
  decide +kernel

end Pager

end Residctl
