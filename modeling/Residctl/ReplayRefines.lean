import Residctl.Consumption
import Residctl.SyncReplay

/-!
# The threaded driver refines the serial one

Thread 0 of `replay_cyclic_mt` records the references that `replay_cyclic` records, in
the same order and with the same byte count, however the threads are interleaved. The
other threads only read: in every step the pages of the chunk are dealt out by stride. The
serial references are also those of the replay through the synchronous handler
(`replayCyclic_refTrace`).
-/

namespace Residctl.Replay

open Runs Steps Function Finset

variable {n : ℕ} {a : Args n} {s s' : State a} {t u : Fin a.nThreads} {j k : ℕ} {p q : Pc}

/-! ## The serial driver -/

/-- `bytes_touched`, `ref_seq` and the records of `replay_cyclic`. -/
structure Serial where
  bytesTouched : ℕ
  refSeq : ℕ
  trace : List (ℕ × ℕ)
deriving DecidableEq, Repr

/-- What the body of the inner loop does for chunk `i` besides the signal and the reads. -/
def serialStep (a : Args n) (r : Serial) (i : Fin n) : Serial :=
  let r := { r with bytesTouched := (r.bytesTouched + a.table.len i) % 2 ^ 64 }
  if a.refTrace then
    { r with refSeq := r.refSeq + 1, trace := r.trace ++ [(r.refSeq + 1, i.1)] }
  else r

/-- `replay_cyclic` after `nPasses` passes. -/
def serialRun (a : Args n) (nPasses : ℕ) : Serial :=
  (List.range nPasses).foldl (fun r _ => (List.finRange n).foldl (serialStep a) r) ⟨0, 0, []⟩

/-- What `replay_cyclic` returns. -/
def serialResult (a : Args n) : Result :=
  ⟨a.nPasses, a.nPasses * n % 2 ^ 32, (serialRun a a.nPasses).bytesTouched⟩

/-- The outputs after `r` references. -/
def afterRefs (a : Args n) (r : ℕ) : Serial where
  bytesTouched := (∑ k ∈ range r, a.len k) % 2 ^ 64
  refSeq := if a.refTrace then r else 0
  trace := if a.refTrace then (List.range r).map fun k => (k + 1, k % n) else []

theorem afterRefs_succ (a : Args n) (r : ℕ) (i : Fin n) (hi : r % n = i.1) :
    serialStep a (afterRefs a r) i = afterRefs a (r + 1) := by
  have hlen : a.len r = a.table.len i := by
    rw [Args.len, dif_pos (hi ▸ i.2)]
    exact congrArg _ (Fin.ext hi)
  have hbytes : (afterRefs a (r + 1)).bytesTouched =
      ((afterRefs a r).bytesTouched + a.table.len i) % 2 ^ 64 := by
    rw [afterRefs, afterRefs, sum_range_succ, hlen, Nat.mod_add_mod]
  unfold serialStep
  dsimp only
  rw [← hbytes]
  cases ha : a.refTrace with
  | true => simp [afterRefs, ha, List.range_succ, hi]
  | false => simp [afterRefs, ha]

theorem serialPass (a : Args n) (pass : ℕ) :
    (List.finRange n).foldl (serialStep a) (afterRefs a (pass * n)) =
      afterRefs a ((pass + 1) * n) := by
  suffices hpart : ∀ i ≤ n, ((List.finRange n).take i).foldl (serialStep a)
      (afterRefs a (pass * n)) = afterRefs a (pass * n + i) by
    have hall := hpart n le_rfl
    rwa [List.take_of_length_le (by simp), ← Nat.succ_mul] at hall
  intro i hi
  induction i with
  | zero => rfl
  | succ i ih =>
    have hget : (List.finRange n)[i]? = some ⟨i, hi⟩ := by
      rw [List.getElem?_eq_getElem (by rwa [List.length_finRange]), List.getElem_finRange]
      rfl
    rw [List.take_add_one, hget, List.foldl_append, ih (by omega)]
    exact afterRefs_succ a _ ⟨i, hi⟩ (by
      rw [Nat.mul_comm, Nat.mul_add_mod]
      exact Nat.mod_eq_of_lt hi)

/-- The serial driver makes the references one after the other. -/
theorem serialRun_eq (a : Args n) (nPasses : ℕ) : serialRun a nPasses = afterRefs a (nPasses * n) := by
  induction nPasses with
  | zero => simp [serialRun, afterRefs]
  | succ nPasses ih =>
    have hrange := congrArg (fun l => l.foldl (fun r _ => (List.finRange n).foldl (serialStep a) r)
      ⟨0, 0, []⟩) (List.range_succ (n := nPasses))
    rw [serialRun, hrange, List.foldl_append]
    show (List.finRange n).foldl (serialStep a) (serialRun a nPasses) = _
    rw [ih, serialPass]

/-! ## One thread's share of the pages -/

/-- The bytes of the pages below `m` that thread `t` reads in step `k`. -/
def strideBytes (a : Args n) (t : Fin a.nThreads) (k m : ℕ) : ℕ :=
  ∑ i ∈ range m with i % a.nThreads = t.1, min (a.len k - i * RESIDCTL_ALIGN) RESIDCTL_ALIGN

/-- The shares add up to the chunk. -/
theorem sum_strideBytes (hnt : 0 < a.nThreads) (k : ℕ) :
    ∑ t, strideBytes a t k (a.pages k) = a.len k := by
  unfold strideBytes
  rw [sum_stride hnt, Args.pages]
  exact sum_pieces (by decide) _

theorem strideBytes_succ (a : Args n) (t : Fin a.nThreads) (k m : ℕ) :
    strideBytes a t k (m + 1) = strideBytes a t k m +
      if m % a.nThreads = t.1 then min (a.len k - m * RESIDCTL_ALIGN) RESIDCTL_ALIGN else 0 := by
  unfold strideBytes
  rw [sum_filter, sum_range_succ, ← sum_filter]

/-- How many pages of step `k` a thread at `p` has gone past. -/
def Pc.readTo (a : Args n) (p : Pc) (k : ℕ) : ℕ :=
  if k < p.finished a then a.pages k
  else
    match p with
    | .read j _ pageIdx _ => if k = j then pageIdx else 0
    | .compute j _ | .markDone j => if k = j then a.pages k else 0
    | _ => 0

/-- A thread at `p` has left the read loop of step `k`. -/
def Pc.HasRead (a : Args n) (p : Pc) (k : ℕ) : Prop :=
  k < p.finished a ∨
    match p with
    | .compute j _ | .markDone j => k = j
    | _ => False

/-- The locals of the read loop. -/
def Pc.Loop (a : Args n) (t : Fin a.nThreads) : Pc → Prop
  | .read k off pageIdx myBytes => off = pageIdx * RESIDCTL_ALIGN ∧ pageIdx ≤ a.pages k ∧
      myBytes = strideBytes a t k pageIdx
  | .compute k myBytes => myBytes = strideBytes a t k (a.pages k)
  | _ => True

/-- The points that only thread 0 reaches. -/
def Pc.Coordinates : Pc → Prop
  | .signal _ _ | .waitFull _ | .asleepFull _ | .record _ => True
  | _ => False

/-- What is known of a thread at `p`: its locals, the pages it has read, and the bytes
it has reported. -/
structure State.Local (s : State a) (t : Fin a.nThreads) (p : Pc) : Prop where
  loop : p.Loop a t
  reads : ∀ k i, i % a.nThreads = t.1 → s.readBy k i = if i < p.readTo a k then [t] else []
  bytes : ∀ k, p.HasRead a k → s.myBytes k t = strideBytes a t k (a.pages k)
  coordinates : p.Coordinates → t.1 = 0

@[simp] theorem Pc.readTo_woken (p : Pc) : p.woken.readTo a = p.readTo a := by
  cases p <;> rfl

theorem State.Local.woken (h : s.Local t p) : s.Local t p.woken where
  loop := by cases p <;> exact h.loop
  reads k i hi := by
    rw [Pc.readTo_woken]
    exact h.reads k i hi
  bytes k hk := by cases p <;> exact h.bytes k hk
  coordinates hp := by cases p <;> exact h.coordinates hp

/-- A step that neither reads nor reports. -/
theorem State.Local.move (h : s.Local t p) (hreads : s'.readBy = s.readBy)
    (hbytes : s'.myBytes = s.myBytes) (hto : ∀ k, q.readTo a k = p.readTo a k)
    (hhas : ∀ k, q.HasRead a k → p.HasRead a k) (hloop : q.Loop a t)
    (hcoord : q.Coordinates → t.1 = 0) : s'.Local t q where
  loop := hloop
  reads k i hi := by
    rw [hreads, hto]
    exact h.reads k i hi
  bytes k hk := by
    rw [hbytes]
    exact h.bytes k (hhas k hk)
  coordinates := hcoord

/-- What another thread does leaves a thread's pages and bytes alone. -/
theorem State.Local.frame (h : s.Local u p)
    (hreads : ∀ k i, i % a.nThreads = u.1 → s'.readBy k i = s.readBy k i)
    (hbytes : ∀ k, s'.myBytes k u = s.myBytes k u) : s'.Local u p where
  loop := h.loop
  reads k i hi := by
    rw [hreads k i hi]
    exact h.reads k i hi
  bytes k hk := by
    rw [hbytes]
    exact h.bytes k hk
  coordinates := h.coordinates

/-- The pages that the read loop is still to visit. -/
theorem Args.lt_pages_iff (a : Args n) (k i : ℕ) :
    i * RESIDCTL_ALIGN < a.len k ↔ i < a.pages k := by
  unfold Args.pages RESIDCTL_ALIGN
  omega

/-- One round of the read loop. -/
theorem State.Local.readPage {off pageIdx myBytes : ℕ}
    (h : s.Local t (.read k off pageIdx myBytes)) (hoff : off < a.len k) :
    (s.readPage t k off pageIdx myBytes).Local t ((s.readPage t k off pageIdx myBytes).pc t) := by
  obtain ⟨hoffeq, hle, hbytes⟩ := h.loop
  have hlt : pageIdx < a.pages k := by
    rw [← Args.lt_pages_iff, ← hoffeq]
    exact hoff
  have hoff' : off + RESIDCTL_ALIGN = (pageIdx + 1) * RESIDCTL_ALIGN := by
    rw [hoffeq, Nat.succ_mul]
  unfold State.readPage
  split
  · -- the page is in the stride of the thread
    rename_i hmine
    show State.Local _ t (update s.pc t _ t)
    rw [update_self]
    refine ⟨⟨hoff', hlt, ?_⟩, fun j i hi => ?_, fun j hj => ?_, fun hc => absurd hc id⟩
    · rw [strideBytes_succ, if_pos hmine, ← hbytes, ← hoffeq]
      congr 1
      split <;> omega
    · have hold := h.reads j i hi
      show update s.readBy k (update (s.readBy k) pageIdx (s.readBy k pageIdx ++ [t])) j i = _
      by_cases hj : j = k
      · subst hj
        rw [update_self]
        have hnew : Pc.readTo a (.read j (off + RESIDCTL_ALIGN) (pageIdx + 1) (myBytes +
            if a.len j - off < RESIDCTL_ALIGN then a.len j - off else RESIDCTL_ALIGN)) j =
            pageIdx + 1 := by
          simp [Pc.readTo, Pc.finished]
        have hnow : Pc.readTo a (.read j off pageIdx myBytes) j = pageIdx := by
          simp [Pc.readTo, Pc.finished]
        rw [hnow] at hold
        rw [hnew]
        by_cases hi' : i = pageIdx
        · subst hi'
          rw [update_self, hold, if_neg (lt_irrefl i), if_pos (Nat.lt_succ_self i)]
          rfl
        · rw [update_of_ne hi', hold]
          have hiff : i < pageIdx ↔ i < pageIdx + 1 := by omega
          simp only [hiff]
      · rw [update_of_ne hj, hold]
        simp [Pc.readTo, Pc.finished, hj]
    · refine h.bytes j (hj.imp_right fun hf => absurd hf id)
  · rename_i hother
    show State.Local _ t (update s.pc t _ t)
    rw [update_self]
    refine ⟨⟨hoff', hlt, ?_⟩, fun j i hi => ?_, fun j hj => ?_, fun hc => absurd hc id⟩
    · rw [strideBytes_succ, if_neg hother, Nat.add_zero, hbytes]
    · have hold := h.reads j i hi
      show s.readBy j i = _
      rw [hold]
      have hne : i ≠ pageIdx := by
        rintro rfl
        exact hother hi
      have hiff : i < pageIdx ↔ i < pageIdx + 1 := by omega
      by_cases hj : j = k
      · subst hj
        simp [Pc.readTo, Pc.finished, hiff]
      · simp [Pc.readTo, Pc.finished, hj]
    · exact h.bytes j (hj.imp_right fun hf => absurd hf id)

/-- The end of the read loop. -/
theorem State.Local.leaveLoop {off pageIdx myBytes : ℕ}
    (h : s.Local t (.read k off pageIdx myBytes)) (hoff : ¬ off < a.len k) :
    ((s.setMyBytes t k myBytes).goto t (.compute k myBytes)).Local t (.compute k myBytes) := by
  obtain ⟨hoffeq, hle, hbytes⟩ := h.loop
  have hall : pageIdx = a.pages k := by
    refine le_antisymm hle (Nat.le_of_not_lt fun hlt => hoff ?_)
    rw [hoffeq, Args.lt_pages_iff]
    exact hlt
  rw [hall] at hbytes
  refine ⟨hbytes, fun j i hi => ?_, fun j hj => ?_, fun hc => absurd hc id⟩
  · have hold := h.reads j i hi
    show s.readBy j i = _
    rw [hold]
    by_cases hj : j = k
    · subst hj
      simp [Pc.readTo, Pc.finished, hall]
    · simp [Pc.readTo, Pc.finished, hj]
  · show update s.myBytes k (update (s.myBytes k) t myBytes) j t = _
    rcases hj with hlt | rfl
    · have hlt' : j < k := hlt
      rw [update_of_ne hlt'.ne]
      exact h.bytes j (Or.inl hlt)
    · rw [update_self, update_self, hbytes]

theorem Pc.readTo_of_finished (h : k < p.finished a) : p.readTo a k = a.pages k := if_pos h

/-- Inside the read loop, or between it and the end of the step. -/
def Pc.Reads : Pc → Prop
  | .read _ _ _ _ | .compute _ _ | .markDone _ => True
  | _ => False

theorem Pc.readTo_of_not_reads (h : ¬ p.Reads) (j : ℕ) :
    p.readTo a j = if j < p.finished a then a.pages j else 0 := by
  cases p <;> first | rfl | exact absurd trivial h

theorem Pc.lt_of_hasRead (h : ¬ p.Reads) (hj : p.HasRead a j) : j < p.finished a := by
  cases p <;> first | exact absurd trivial h | exact hj.resolve_right id

/-- A thread that has marked step `k` done has gone past its pages. -/
theorem Pc.readTo_markDone (k j : ℕ) :
    Pc.readTo a (.markDone k) j = if j < k + 1 then a.pages j else 0 := by
  show (if j < k then a.pages j else if j = k then a.pages j else 0) = _
  split_ifs <;> first | rfl | omega

/-- A step between two points outside the read loop. -/
theorem State.Local.idle (h : s.Local t p) (hreads : s'.readBy = s.readBy)
    (hbytes : s'.myBytes = s.myBytes) (hp : ¬ p.Reads) (hq : ¬ q.Reads)
    (hfin : q.finished a = p.finished a) (hcoord : q.Coordinates → t.1 = 0) : s'.Local t q := by
  refine h.move hreads hbytes (fun j => ?_) (fun j hj => Or.inl ?_) ?_ hcoord
  · rw [Pc.readTo_of_not_reads hp, Pc.readTo_of_not_reads hq, hfin]
  · rw [← hfin]
    exact Pc.lt_of_hasRead hq hj
  · cases q <;> first | trivial | exact absurd trivial hq

/-- A thread enters the read loop of step `k`. -/
theorem State.Local.enterLoop (h : s.Local t p) (hreads : s'.readBy = s.readBy)
    (hbytes : s'.myBytes = s.myBytes) (hp : ¬ p.Reads) (hfin : p.finished a = k) :
    s'.Local t (.read k 0 0 0) := by
  refine h.move hreads hbytes (fun j => ?_) (fun j hj => Or.inl ?_) ⟨by simp, Nat.zero_le _, rfl⟩
    (fun hc => absurd hc id)
  · rw [Pc.readTo_of_not_reads hp, hfin]
    show (if j < k then a.pages j else if j = k then 0 else 0) = _
    split_ifs <;> rfl
  · rw [hfin]
    exact hj.resolve_right id

/-- A thread leaves a step that it has marked done. -/
theorem State.Local.leaveStep (h : s.Local t (.markDone k)) (hreads : s'.readBy = s.readBy)
    (hbytes : s'.myBytes = s.myBytes) (hq : ¬ q.Reads) (hfin : q.finished a = k + 1)
    (hcoord : q.Coordinates → t.1 = 0) : s'.Local t q := by
  refine h.move hreads hbytes (fun j => ?_) (fun j hj => ?_) ?_ hcoord
  · rw [Pc.readTo_of_not_reads hq, hfin, Pc.readTo_markDone]
  · have hlt := Pc.lt_of_hasRead hq hj
    rw [hfin] at hlt
    exact (Nat.lt_succ_iff_lt_or_eq.1 hlt)
  · cases q <;> first | trivial | exact absurd trivial hq

theorem State.not_reads_afterMark (t : Fin a.nThreads) (k : ℕ) :
    ¬ (State.afterMark t k).Reads := by
  unfold State.afterMark
  split <;> exact id

theorem State.coordinates_afterMark (t : Fin a.nThreads) (k : ℕ)
    (h : (State.afterMark t k).Coordinates) : t.1 = 0 := by
  unfold State.afterMark at h
  split at h
  · assumption
  · exact absurd h id

@[simp] theorem State.mark_readBy (s : State a) (t : Fin a.nThreads) (k : ℕ) :
    (s.mark t k).readBy = s.readBy := by
  unfold State.mark
  dsimp only
  split <;> rfl

@[simp] theorem State.mark_myBytes (s : State a) (t : Fin a.nThreads) (k : ℕ) :
    (s.mark t k).myBytes = s.myBytes := by
  unfold State.mark
  dsimp only
  split <;> rfl

/-- Marking a step done. -/
theorem State.Local.mark (h : s.Local t (.markDone k)) :
    (s.mark t k).Local t ((s.mark t k).pc t) := by
  by_cases hlast : s.completed k + 1 = a.nThreads
  · rw [State.mark_pc_of_last hlast, update_self]
    refine h.leaveStep (State.mark_readBy s t k) (State.mark_myBytes s t k) ?_
      (State.finished_afterComplete t k) ?_
    · unfold State.afterComplete
      split
      · exact id
      · exact State.not_reads_afterMark t k
    · unfold State.afterComplete
      split
      · exact fun hc => absurd hc id
      · exact State.coordinates_afterMark t k
  · rw [State.mark_pc_of_not_last hlast, update_self]
    exact h.leaveStep (State.mark_readBy s t k) (State.mark_myBytes s t k)
      (State.not_reads_afterMark t k) (State.finished_afterMark t k)
      (State.coordinates_afterMark t k)

/-- The thread that takes a step. -/
theorem State.Local.exec (h : s.Local t (s.pc t)) (hb : (s.pc t).Bounded a)
    (hs : s.exec t = some s') : s'.Local t (s'.pc t) := by
  have hgoto : ∀ (s₁ : State a) (q : Pc), s₁.Local t q →
      (s₁.goto t q).Local t ((s₁.goto t q).pc t) := by
    intro s₁ q hq
    show State.Local _ t (update s₁.pc t q t)
    rw [update_self]
    exact hq.move rfl rfl (fun _ => rfl) (fun _ => id) hq.loop hq.coordinates
  obtain ⟨p, hpc, hbranch⟩ := State.exec_branch hs
  rw [hpc] at h hb
  cases hbranch with
  | signalFirst _ _ hzero => exact hgoto s _ (h.idle rfl rfl id id rfl fun _ => hzero.1)
  | start _ _ => exact hgoto s _ (h.enterLoop rfl rfl id rfl)
  | sleepToStart _ _ => exact hgoto s _ (h.idle rfl rfl id id rfl fun hc => absurd hc id)
  | @ended k hlt =>
    -- past the last step, where the bound is met
    have hk : a.totalSteps = k := le_antisymm (Nat.le_of_not_lt hlt) hb
    exact hgoto s _ (h.idle rfl rfl id id hk fun hc => absurd hc id)
  | @access k => exact hgoto (s.access k) _ (h.idle rfl rfl id id rfl h.coordinates)
  | @release k => exact hgoto (s.release k) _ (h.enterLoop rfl rfl id rfl)
  | readPage hoff => exact h.readPage hoff
  | @readDone k off pageIdx myBytes hoff =>
    -- the read loop ends
    have hleave := h.leaveLoop hoff
    exact hgoto (s.setMyBytes t k myBytes) _
      (hleave.move rfl rfl (fun _ => rfl) (fun _ => id) hleave.loop hleave.coordinates)
  | @compute k myBytes =>
    have hbusy : (s.computeBusy myBytes).readBy = s.readBy ∧
        (s.computeBusy myBytes).myBytes = s.myBytes := by
      unfold State.computeBusy
      split <;> exact ⟨rfl, rfl⟩
    exact hgoto (s.computeBusy myBytes) _
      (h.move hbusy.1 hbusy.2 (fun _ => rfl) (fun _ => id) trivial fun hc => absurd hc id)
  | markDone => exact h.mark
  | @notifyAccess k => exact hgoto (s.access k) _ (h.idle rfl rfl id id rfl h.coordinates)
  | @notifyRelease k =>
    exact hgoto (s.release k) _ (h.idle rfl rfl id (State.not_reads_afterMark t k)
      (State.finished_afterMark t k) (State.coordinates_afterMark t k))
  | full _ | sleepFull _ => exact hgoto s _ (h.idle rfl rfl id id rfl h.coordinates)
  | @record k =>
    have hrec : (s.recordRef k).readBy = s.readBy ∧ (s.recordRef k).myBytes = s.myBytes := by
      unfold State.recordRef
      dsimp only
      split <;> exact ⟨rfl, rfl⟩
    exact hgoto (s.recordRef k) _ (h.idle hrec.1 hrec.2 id id rfl fun hc => absurd hc id)

/-- A step of thread `t` leaves what belongs to another thread alone. -/
theorem State.exec_frame (hb : (s.pc t).Bounded a) (hs : s.exec t = some s') (hu : u ≠ t) :
    (s'.pc u = s.pc u ∨ s'.pc u = (s.pc u).woken) ∧
      (∀ k i, i % a.nThreads = u.1 → s'.readBy k i = s.readBy k i) ∧
      ∀ k, s'.myBytes k u = s.myBytes k u := by
  have hpc : s'.pc u = s.pc u ∨ s'.pc u = (s.pc u).woken := by
    rcases State.exec_cases hb hs with ⟨k, -, rfl⟩ | ⟨q, hadv⟩
    · by_cases hlast : s.completed k + 1 = a.nThreads
      · rw [State.mark_pc_of_last hlast, update_of_ne hu]
        exact Or.inr rfl
      · rw [State.mark_pc_of_not_last hlast, update_of_ne hu]
        exact Or.inl rfl
    · rw [hadv.pc, update_of_ne hu]
      exact Or.inl rfl
  refine ⟨hpc, ?_⟩
  have hsame : ∀ s₁ : State a, s₁.readBy = s.readBy → s₁.myBytes = s.myBytes →
      (∀ k i, i % a.nThreads = u.1 → s₁.readBy k i = s.readBy k i) ∧
        ∀ k, s₁.myBytes k u = s.myBytes k u := by
    intro s₁ hreads hbytes
    rw [hreads, hbytes]
    exact ⟨fun _ _ _ => rfl, fun _ => rfl⟩
  obtain ⟨p, -, hbranch⟩ := State.exec_branch hs
  cases hbranch with
  | signalFirst | start | sleepToStart | ended | access | release | notifyAccess | notifyRelease
  | full | sleepFull => exact hsame _ rfl rfl
  -- a page of `t` is in its stride, and not in that of `u`
  | @readPage k off pageIdx _ _ =>
    unfold State.readPage
    split
    · rename_i hmine
      refine ⟨fun j i hi => ?_, fun _ => rfl⟩
      show update s.readBy k (update (s.readBy k) pageIdx (s.readBy k pageIdx ++ [t])) j i = _
      have hne : i ≠ pageIdx := by
        rintro rfl
        exact hu (Fin.ext (hi.symm.trans hmine))
      by_cases hj : j = k
      · subst hj
        rw [update_self, update_of_ne hne]
      · rw [update_of_ne hj]
    · exact hsame _ rfl rfl
  | @readDone k _ _ myBytes _ =>
    refine ⟨fun _ _ _ => rfl, fun j => ?_⟩
    show update s.myBytes k (update (s.myBytes k) t myBytes) j u = _
    by_cases hj : j = k
    · subst hj
      rw [update_self, update_of_ne hu]
    · rw [update_of_ne hj]
  | compute => refine hsame _ ?_ ?_ <;> (unfold State.computeBusy; split <;> rfl)
  | markDone => exact hsame _ (State.mark_readBy s t _) (State.mark_myBytes s t _)
  | record => refine hsame _ ?_ ?_ <;> (unfold State.recordRef; dsimp only; split <;> rfl)

/-! ## The record of thread 0 -/

/-- The outputs of the threaded driver. -/
def State.serial (s : State a) : Serial := ⟨s.bytesTouched, s.refSeq, s.trace⟩

/-- The references that thread 0 has recorded when it is at `p`. -/
def Pc.recorded (a : Args n) : Pc → ℕ
  | .notify k _ | .waitFull k | .asleepFull k | .record k => k
  | p => p.finished a

@[simp] theorem Pc.recorded_woken (p : Pc) : p.woken.recorded a = p.recorded a := by
  cases p <;> rfl

theorem State.recordRef_serial (h : s.serial = afterRefs a k) :
    (s.recordRef k).serial = afterRefs a (k + 1) := by
  have hbytes : s.bytesTouched = (afterRefs a k).bytesTouched := congrArg Serial.bytesTouched h
  have hseq : s.refSeq = (afterRefs a k).refSeq := congrArg Serial.refSeq h
  have htrace : s.trace = (afterRefs a k).trace := congrArg Serial.trace h
  have hsum : (s.bytesTouched + a.len k) % 2 ^ 64 = (afterRefs a (k + 1)).bytesTouched := by
    rw [hbytes, afterRefs, afterRefs, sum_range_succ, Nat.mod_add_mod]
  unfold State.recordRef
  dsimp only
  rw [hsum]
  cases ha : a.refTrace with
  | true => simp [State.serial, hseq, htrace, afterRefs, ha, List.range_succ]
  | false => simp [State.serial, hseq, htrace, afterRefs, ha]

@[simp] theorem State.mark_serial (s : State a) (t : Fin a.nThreads) (k : ℕ) :
    (s.mark t k).serial = s.serial := by
  unfold State.mark
  dsimp only
  split <;> rfl

/-- Only the record of a reference changes the outputs. -/
theorem State.exec_serial (hrec : ∀ k, s.pc t ≠ .record k) (hs : s.exec t = some s') :
    s'.serial = s.serial := by
  obtain ⟨p, hpc, hbranch⟩ := State.exec_branch hs
  cases hbranch with
  | signalFirst | start | sleepToStart | ended | access | release | notifyAccess | notifyRelease
  | readDone | full | sleepFull => rfl
  | readPage _ =>
    unfold State.readPage
    split <;> rfl
  | compute =>
    unfold State.computeBusy
    split <;> rfl
  | markDone => exact State.mark_serial s t _
  | @record k => exact absurd hpc (hrec k)

theorem State.recorded_afterMark (ht : t.1 = 0) (k : ℕ) :
    (State.afterMark t k).recorded a = k := by
  rw [State.afterMark, if_pos ht]
  rfl

/-- Until its record thread 0 stays at the same reference. -/
theorem State.exec_recorded (ht : t.1 = 0) (hb : (s.pc t).Bounded a)
    (hrec : ∀ k, s.pc t ≠ .record k) (hs : s.exec t = some s') :
    (s'.pc t).recorded a = (s.pc t).recorded a := by
  have hgoto : ∀ (s₁ : State a) (q : Pc), q.recorded a = (s.pc t).recorded a →
      ((s₁.goto t q).pc t).recorded a = (s.pc t).recorded a := by
    intro s₁ q hq
    show (update s₁.pc t q t).recorded a = _
    rw [update_self, hq]
  obtain ⟨p, hpc, hbranch⟩ := State.exec_branch hs
  rw [hpc] at hb
  cases hbranch with
  | signalFirst | start | sleepToStart => exact hgoto s _ (by rw [hpc]; rfl)
  | @ended k hlt =>
    have hk : a.totalSteps = k := le_antisymm (Nat.le_of_not_lt hlt) hb
    exact hgoto s _ (by rw [hpc]; exact hk)
  | access | notifyAccess => exact hgoto (s.access _) _ (by rw [hpc]; rfl)
  | release => exact hgoto (s.release _) _ (by rw [hpc]; rfl)
  | readPage _ =>
    unfold State.readPage
    split
    · exact hgoto (s.touch t _ _) _ (by rw [hpc]; rfl)
    · exact hgoto s _ (by rw [hpc]; rfl)
  | readDone _ => exact hgoto (s.setMyBytes t _ _) _ (by rw [hpc]; rfl)
  | compute => exact hgoto (s.computeBusy _) _ (by rw [hpc]; rfl)
  | @markDone k =>
    by_cases hlast : s.completed k + 1 = a.nThreads
    · rw [State.mark_pc_of_last hlast, update_self, hpc]
      unfold State.afterComplete
      split
      · rfl
      · exact State.recorded_afterMark ht k
    · rw [State.mark_pc_of_not_last hlast, update_self, hpc]
      exact State.recorded_afterMark ht k
  | @notifyRelease k =>
    exact hgoto (s.release _) _ (by rw [hpc]; exact State.recorded_afterMark ht k)
  | full _ | sleepFull _ => exact hgoto s _ (by rw [hpc]; rfl)
  | @record k => exact absurd hpc (hrec k)

/-! ## Refinement -/

/-- Every thread has read its share so far, and thread 0 has recorded what the serial
driver records. -/
structure State.RefineInv (s : State a) : Prop where
  locals : ∀ t, s.Local t (s.pc t)
  serial : ∀ t, t.1 = 0 → s.serial = afterRefs a ((s.pc t).recorded a)

theorem State.RefineInv.init : (State.init a).RefineInv where
  locals _ := ⟨trivial, fun _ _ _ => rfl,
    fun k hk => absurd (hk.resolve_right id) (Nat.not_lt_zero k), fun hc => absurd hc id⟩
  serial _ _ := by
    show (⟨0, 0, []⟩ : Serial) = afterRefs a 0
    simp [afterRefs]

theorem State.RefineInv.exec (h : s.RefineInv) (hinv : s.Inv) (hs : s.exec t = some s') :
    s'.RefineInv where
  locals := by
    intro u
    by_cases hu : u = t
    · rw [hu]
      exact (h.locals t).exec (hinv.bounded t) hs
    · obtain ⟨hpc, hreads, hbytes⟩ := State.exec_frame (hinv.bounded t) hs hu
      rcases hpc with hpc | hpc
      · rw [hpc]
        exact (h.locals u).frame hreads hbytes
      · rw [hpc]
        exact ((h.locals u).frame hreads hbytes).woken
  serial := by
    intro u hu
    by_cases hut : u = t
    · subst hut
      by_cases hrec : ∀ k, s.pc u ≠ .record k
      · rw [State.exec_serial hrec hs, State.exec_recorded hu (hinv.bounded u) hrec hs]
        exact h.serial u hu
      · push Not at hrec
        obtain ⟨k, hpc⟩ := hrec
        have hold := h.serial u hu
        rw [hpc] at hold
        simp only [State.exec, hpc] at hs
        cases hs
        show (s.recordRef k).serial = afterRefs a
          (Pc.recorded a (update (s.recordRef k).pc u (.waitToStart (k + 1)) u))
        rw [update_self]
        exact State.recordRef_serial hold
    · have hrec : ∀ k, s.pc t ≠ .record k := by
        intro k hpc
        have hzero : t.1 = 0 := (h.locals t).coordinates (by rw [hpc]; trivial)
        exact hut (Fin.ext (hu.trans hzero.symm))
      rw [State.exec_serial hrec hs, h.serial u hu]
      rcases (State.exec_frame (hinv.bounded t) hs hut).1 with hpc | hpc
      · rw [hpc]
      · rw [hpc, Pc.recorded_woken]

theorem State.RefineInv.wakeup (h : s.RefineInv) (t : Fin a.nThreads) :
    (s.goto t (s.pc t).woken).RefineInv where
  locals := by
    intro u
    have hframe : (s.goto t (s.pc t).woken).Local u (s.pc u) :=
      (h.locals u).frame (fun _ _ _ => rfl) fun _ => rfl
    show State.Local _ u (update s.pc t (s.pc t).woken u)
    by_cases hu : u = t
    · subst hu
      rw [update_self]
      exact hframe.woken
    · rw [update_of_ne hu]
      exact hframe
  serial := by
    intro u hu
    show s.serial = afterRefs a (Pc.recorded a (update s.pc t (s.pc t).woken u))
    by_cases hut : u = t
    · subst hut
      rw [update_self, Pc.recorded_woken]
      exact h.serial u hu
    · rw [update_of_ne hut]
      exact h.serial u hu

theorem reachable_refineInv (hs : Reachable (driver a) s) : s.RefineInv := by
  refine Reach.invariant State.RefineInv.init (fun act s s' hreach _ h hstep => ?_) hs
  cases act with
  | step t => exact h.exec (reachable_inv hreach.reachable) hstep
  | spuriousWakeup t =>
    cases hstep
    exact h.wakeup t

/-- The threaded driver does what `replay_cyclic` does: its trace is that of the serial
driver as far as it goes; in a step that all threads have finished every page was read by
one thread, once, and the byte counts add up; after the joins the trace and the results
are those of the serial driver, and every run gets there. -/
structure RefinesSerial (s : State a) : Prop where
  trace_prefix : s.trace <+: (serialRun a a.nPasses).trace
  pages : ∀ k < a.nPasses * n, s.Complete k →
    (∀ i < a.pages k, ∃ t, s.readBy k i = [t]) ∧ (∀ i, a.pages k ≤ i → s.readBy k i = []) ∧
      ∑ t, s.myBytes k t = a.len k
  joined : s.Joined → (∀ k < a.nPasses * n, s.Complete k) ∧
    s.trace = (serialRun a a.nPasses).trace ∧ s.result = some (serialResult a)
  ends : ∃ (ts : List (Fin a.nThreads)) (s' : State a),
    run (driver a) (ts.map Action.step) s = some s' ∧ s'.Joined

theorem afterRefs_trace_prefix (a : Args n) {r m : ℕ} (h : r ≤ m) :
    (afterRefs a r).trace <+: (afterRefs a m).trace := by
  unfold afterRefs
  dsimp only
  split
  · obtain ⟨d, rfl⟩ := Nat.exists_eq_add_of_le h
    rw [List.range_add]
    exact List.IsPrefix.map _ (List.prefix_append _ _)
  · exact List.prefix_refl _

theorem State.Inv.recorded_le (h : s.Inv) (t : Fin a.nThreads) :
    (s.pc t).recorded a ≤ a.totalSteps := by
  have hle := h.position_le t
  unfold State.position at hle
  cases hpc : s.pc t <;> rw [hpc] at hle <;> simp only [Pc.recorded, Pc.finished] at hle ⊢ <;> omega

/-- In a step that everyone has finished each page was read by the thread it was dealt to. -/
theorem State.RefineInv.pages (h : s.RefineInv) (hnt : 0 < a.nThreads) (hk : s.Complete k) :
    (∀ i < a.pages k, ∃ t, s.readBy k i = [t]) ∧ (∀ i, a.pages k ≤ i → s.readBy k i = []) ∧
      ∑ t, s.myBytes k t = a.len k := by
  have hreads : ∀ i, s.readBy k i = if i < a.pages k then
      [⟨i % a.nThreads, Nat.mod_lt i hnt⟩] else [] := by
    intro i
    have hlt : k < (s.pc ⟨i % a.nThreads, Nat.mod_lt i hnt⟩).finished a := hk _
    rw [(h.locals ⟨i % a.nThreads, Nat.mod_lt i hnt⟩).reads k i rfl, Pc.readTo_of_finished hlt]
  refine ⟨fun i hi => ?_, fun i hi => ?_, ?_⟩
  · exact ⟨_, by rw [hreads, if_pos hi]⟩
  · rw [hreads, if_neg (by omega)]
  · rw [← sum_strideBytes hnt k]
    exact sum_congr rfl fun t _ => (h.locals t).bytes k (Or.inl (hk t))

/-- Whatever the interleaving, `replay_cyclic_mt` refines `replay_cyclic`. -/
theorem refines_serial (hnt : 2 ≤ a.nThreads) (hsteps : a.nPasses * n < 2 ^ 32)
    (hs : Reachable (driver a) s) : RefinesSerial s := by
  have hinv := reachable_inv hs
  have h := reachable_refineInv hs
  have htotal : a.totalSteps = a.nPasses * n := Nat.mod_eq_of_lt hsteps
  have hserial := h.serial ⟨0, by omega⟩ rfl
  constructor
  · have hle := hinv.recorded_le ⟨0, by omega⟩
    have htrace : s.trace = (afterRefs a ((s.pc ⟨0, by omega⟩).recorded a)).trace :=
      congrArg Serial.trace hserial
    rw [htrace, serialRun_eq]
    exact afterRefs_trace_prefix a (htotal ▸ hle)
  · exact fun k _ hk => h.pages (by omega) hk
  · intro hjoin
    rw [hjoin] at hserial
    have hall : s.serial = serialRun a a.nPasses := by
      rw [hserial, serialRun_eq, ← htotal]
      rfl
    have hbytes : s.bytesTouched = (serialRun a a.nPasses).bytesTouched :=
      congrArg Serial.bytesTouched hall
    refine ⟨fun k hk t => ?_, congrArg Serial.trace hall, ?_⟩
    · rw [State.position, hjoin t]
      show k < a.totalSteps
      rwa [htotal]
    · cases ha : a.consumptionSignalAll with
      | true =>
        rw [(joined_result ha hnt hsteps hs hjoin).2, hbytes, serialResult,
          Nat.mod_eq_of_lt hsteps]
      | false =>
        rw [State.result, if_neg (by simp [ha]), hbytes]
        rfl
  · exact exists_joined hs

theorem refines_serial_twoReaders :
    RefinesSerial ((run (driver twoReaders) firstSignal (State.init twoReaders)).get
      firstSignal_runs) :=
  refines_serial (by decide) (by decide) (reachable_get firstSignal firstSignal_runs)

/-! ## The two models of the serial driver -/

section

variable {σ : Type} {cfg : Config n σ} {clock : ℕ → ℕ} {r r' : SyncState n σ} {c : Fin n}

theorem reconcileSync_refTrace (h : reconcileSync cfg r = some r') : r'.refTrace = r.refTrace := by
  unfold reconcileSync at h
  split at h
  · cases h
    rfl
  · cases h

theorem evictSync_refTrace {v : Fin n} (h : evictSync cfg r v = some r') :
    r'.refTrace = r.refTrace := by
  unfold evictSync at h
  split at h
  · have hsame := reconcileSync_refTrace h
    exact hsame
  · cases h

theorem ensureBudgetLoop_refTrace {head : Region n σ → Fin n → Decision n} {ok : Bool} {fuel : ℕ}
    (h : ensureBudgetLoop cfg head c fuel r = some (r', ok)) : r'.refTrace = r.refTrace := by
  induction fuel generalizing r with
  | zero => cases h
  | succ fuel ih =>
    rw [ensureBudgetLoop] at h
    split at h
    · cases h
      rfl
    · obtain ⟨r₁, hevict, hloop⟩ := Option.bind_eq_some_iff.1 h
      have hsame := evictSync_refTrace hevict
      exact (ih hloop).trans hsame
    · obtain ⟨r₁, hevict, hloop⟩ := Option.bind_eq_some_iff.1 h
      have hsame := evictSync_refTrace hevict
      exact (ih hloop).trans hsame
    · cases h
      rfl
    · cases h
      rfl

theorem budgetCall_refTrace {head : Region n σ → Fin n → Decision n} {ok : Bool}
    (h : budgetCall cfg head c r = some (r', ok)) : r'.refTrace = r.refTrace := by
  unfold budgetCall at h
  dsimp only at h
  split at h
  · obtain ⟨r₁, hrec, hloop⟩ := Option.bind_eq_some_iff.1 h
    have hsame := reconcileSync_refTrace hrec
    exact (ensureBudgetLoop_refTrace hloop).trans hsame
  · have hsame := ensureBudgetLoop_refTrace h
    exact hsame

theorem ensureBudgetRetry_refTrace {ok : Bool} {attempts : ℕ}
    (h : ensureBudgetRetry cfg c attempts r = some (r', ok)) : r'.refTrace = r.refTrace := by
  induction attempts generalizing r with
  | zero => exact budgetCall_refTrace h
  | succ attempts ih =>
    rw [ensureBudgetRetry] at h
    obtain ⟨⟨r₁, ok₁⟩, hfirst, hrest⟩ := Option.bind_eq_some_iff.1 h
    dsimp only at hrest
    split at hrest
    · cases hrest
      exact budgetCall_refTrace hfirst
    · exact (ih hrest).trans (budgetCall_refTrace hfirst)

theorem prefetchAfter_refTrace {now : ℕ} (h : prefetchAfter cfg now r c = some r') :
    r'.refTrace = r.refTrace := by
  unfold prefetchAfter at h
  split at h
  · unfold maybePrefetch at h
    split at h
    · cases h
      rfl
    · dsimp only at h
      split at h
      · cases h
        rfl
      · split at h
        · split at h
          · cases h
            rfl
          · obtain ⟨⟨r₁, ok⟩, hbudget, hr'⟩ := Option.map_eq_some_iff.1 h
            have hsame := budgetCall_refTrace hbudget
            dsimp only at hr'
            split at hr' <;> cases hr' <;> exact hsame
        · cases h
  · cases h
    rfl

theorem handleFaultSync_refTrace {now : ℕ} (h : handleFaultSync cfg now r c = some r') :
    r'.refTrace = r.refTrace := by
  unfold handleFaultSync at h
  split at h
  · cases h
    rfl
  · cases h
    rfl
  · obtain ⟨⟨r₁, ok⟩, hbudget, hr'⟩ := Option.bind_eq_some_iff.1 h
    have hsame := ensureBudgetRetry_refTrace hbudget
    dsimp only at hr'
    split at hr'
    · obtain ⟨r₂, hprefetch, rfl⟩ := Option.map_eq_some_iff.1 hr'
      exact (prefetchAfter_refTrace hprefetch).trans hsame
    · cases hr'
      exact hsame

/-- One reference of the pager's model of the serial driver appends the chunk's id. -/
theorem replayStep_refTrace (h : replayStep cfg clock r c = some r') :
    r'.refTrace = r.refTrace ++ [c.1] := by
  unfold replayStep at h
  obtain ⟨r₁, hread, hrec⟩ := Option.bind_eq_some_iff.1 h
  have hsame : r₁.refTrace = r.refTrace := by
    split at hread
    · cases hread
      rfl
    · have hfault := handleFaultSync_refTrace hread
      exact hfault
  split at hrec
  · cases hrec
    rw [← hsame]
  · cases hrec

theorem foldlM_replayStep_refTrace (cs : List (Fin n))
    (h : cs.foldlM (replayStep cfg clock) r = some r') :
    r'.refTrace = r.refTrace ++ cs.map Fin.val := by
  induction cs generalizing r with
  | nil =>
    cases h
    simp
  | cons c cs ih =>
    rw [List.foldlM_cons] at h
    obtain ⟨r₁, hstep, hrest⟩ := Option.bind_eq_some_iff.1 h
    rw [ih hrest, replayStep_refTrace hstep]
    simp

theorem serialPass_ids (ha : a.refTrace = true) (o : Serial) (cs : List (Fin n)) :
    (cs.foldl (serialStep a) o).trace.map Prod.snd = o.trace.map Prod.snd ++ cs.map Fin.val := by
  induction cs generalizing o with
  | nil => simp
  | cons c cs ih =>
    rw [List.foldl_cons, ih]
    simp [serialStep, ha]

/-- When the serial driver runs through the synchronous handler, the chunks of its trace
are the ones that `serialRun` records. -/
theorem replayCyclic_refTrace (ha : a.refTrace = true) (nPasses : ℕ)
    (h : replayCyclic cfg clock nPasses r = some r') :
    r'.refTrace = r.refTrace ++ (serialRun a nPasses).trace.map Prod.snd := by
  induction nPasses generalizing r' with
  | zero =>
    cases h
    simp [serialRun]
  | succ nPasses ih =>
    unfold replayCyclic at h ih
    rw [List.range_succ, List.foldlM_append] at h
    obtain ⟨r₁, hpasses, hlast⟩ := Option.bind_eq_some_iff.1 h
    rw [List.foldlM_cons] at hlast
    obtain ⟨r₂, hpass, hend⟩ := Option.bind_eq_some_iff.1 hlast
    cases hend
    have hserial : serialRun a (nPasses + 1) =
        (List.finRange n).foldl (serialStep a) (serialRun a nPasses) := by
      simp [serialRun, List.range_succ]
    rw [hserial, serialPass_ids ha, foldlM_replayStep_refTrace _ hpass, ih hpasses,
      List.append_assoc]

end

end Residctl.Replay
