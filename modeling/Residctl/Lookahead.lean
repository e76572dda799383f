import Residctl.Declared
import Residctl.Lib.Runs
import Residctl.Lib.Steps

/-!
# The threaded driver and its lookahead window

`replay_cyclic_mt`: `n_threads` threads walk the same global steps, `pass * n_chunks + i`
for chunk `i`, each reading its stride of the chunk's pages. A thread may begin step `s`
once step `s - window - 1` is complete on all threads; thread 0 records the reference
when the step is complete.

A critical section of `la->lock` is one step of the machine. A thread that finds its
condition false is asleep until the broadcast of a completed step, or a spurious wake-up,
makes it look again.
-/

namespace Residctl.Replay

open Runs Steps Function

variable {n : ℕ}

/-! ## State -/

/-- The arguments of `replay_cyclic_mt`. -/
structure Args (n : ℕ) where
  table : ChunkTable n
  nPasses : ℕ
  nThreads : ℕ
  window : ℕ
  /-- `--consumption-signal all-threads` -/
  consumptionSignalAll : Bool
  /-- `ref_trace` is not `NULL` -/
  refTrace : Bool
  computeNsPerMib : ℕ

namespace Args

/-- `total_steps`, a product of two `uint32_t`. -/
def totalSteps (a : Args n) : ℕ := a.nPasses * n % 2 ^ 32

/-- `len` of the chunk of step `s`. -/
def len (a : Args n) (s : ℕ) : ℕ := if h : s % n < n then a.table.len ⟨s % n, h⟩ else 0

/-- The pages that the read loop visits in step `s`. -/
def pages (a : Args n) (s : ℕ) : ℕ := (a.len s + RESIDCTL_ALIGN - 1) / RESIDCTL_ALIGN

end Args

/-- Where a call of `pager_notify_access` is: before the policy's `on_access`, or after it
and before the retention release. -/
inductive Call
  | entered
  | accessed
deriving DecidableEq, Repr

/-- Where a driver thread is in step `s`, with the locals it still needs. -/
inductive Pc
  /-- the loop head and `lookahead_wait_to_start` -/
  | waitToStart (s : ℕ)
  | asleepToStart (s : ℕ)
  /-- the signal of thread 0 before its read -/
  | signal (s : ℕ) (call : Call)
  | read (s off pageIdx myBytes : ℕ)
  | compute (s myBytes : ℕ)
  /-- `lookahead_mark_done` -/
  | markDone (s : ℕ)
  /-- the signal of the thread that has completed the step -/
  | notify (s : ℕ) (call : Call)
  /-- `lookahead_wait_full` -/
  | waitFull (s : ℕ)
  | asleepFull (s : ℕ)
  /-- thread 0 counts and records the reference -/
  | record (s : ℕ)
  | done
deriving DecidableEq, Repr

/-- A thread that was asleep looks at its condition again. -/
def Pc.woken : Pc → Pc
  | .asleepToStart s => .waitToStart s
  | .asleepFull s => .waitFull s
  | p => p

/-- `la`, the context of thread 0, the compute statistics and the position of
`layer_order_declared`. -/
structure State (a : Args n) where
  pc : Fin a.nThreads → Pc
  completed : ℕ → ℕ
  notifyCount : ℕ
  policy : LoDeclared
  bytesTouched : ℕ
  refSeq : ℕ
  /-- the records of the reference trace: sequence number and chunk id -/
  trace : List (ℕ × ℕ)
  computeTotalBytes : ℕ
  /-- history: the steps for which `pager_notify_access` was called, in order -/
  called : List ℕ
  /-- history: the steps for which the call has returned, in order -/
  returned : List ℕ
  /-- history: the threads that have read page `p` in step `s` -/
  readBy : ℕ → ℕ → List (Fin a.nThreads)
  /-- history: `my_bytes` of each thread in each step -/
  myBytes : ℕ → Fin a.nThreads → ℕ

variable {a : Args n}

namespace State

/-- `replay_main` has declared the chunks in order. -/
def init (a : Args n) : State a where
  pc _ := .waitToStart 0
  completed _ := 0
  notifyCount := 0
  policy := declaredAfter n (List.range n) 0
  bytesTouched := 0
  refSeq := 0
  trace := []
  computeTotalBytes := 0
  called := []
  returned := []
  readBy _ _ := []
  myBytes _ _ := 0

/-! ## Steps of one thread -/

def goto (s : State a) (t : Fin a.nThreads) (p : Pc) : State a := { s with pc := update s.pc t p }

/-- `lookahead_wait_to_start` returns for step `k`. -/
def GateOpen (s : State a) (k : ℕ) : Prop :=
  let gate : ℤ := k - a.window - 1
  gate < 0 ∨ a.nThreads ≤ s.completed gate.toNat

instance (s : State a) (k : ℕ) : Decidable (s.GateOpen k) := inferInstanceAs (Decidable (_ ∨ _))

/-- `lookahead_wait_full` returns for step `k`. -/
def Full (s : State a) (k : ℕ) : Prop := a.nThreads ≤ s.completed k

instance (s : State a) (k : ℕ) : Decidable (s.Full k) := inferInstanceAs (Decidable (_ ≤ _))

/-- The first half of `pager_notify_access` for the chunk of step `k`. -/
def access (s : State a) (k : ℕ) : State a :=
  { s with policy := loDeclaredOnAccess s.policy (k % n), called := s.called ++ [k] }

/-- The second half, which touches the retention list only. -/
def release (s : State a) (k : ℕ) : State a := { s with returned := s.returned ++ [k] }

/-- Thread `t` reads page `pageIdx` in step `k`. -/
def touch (s : State a) (t : Fin a.nThreads) (k pageIdx : ℕ) : State a :=
  let readBy := update (s.readBy k) pageIdx (s.readBy k pageIdx ++ [t])
  { s with readBy := update s.readBy k readBy }

/-- One round of the read loop. -/
def readPage (s : State a) (t : Fin a.nThreads) (k off pageIdx myBytes : ℕ) : State a :=
  if pageIdx % a.nThreads = t.1 then
    (s.touch t k pageIdx).goto t
      (.read k (off + RESIDCTL_ALIGN) (pageIdx + 1)
        (myBytes + if a.len k - off < RESIDCTL_ALIGN then a.len k - off else RESIDCTL_ALIGN))
  else s.goto t (.read k (off + RESIDCTL_ALIGN) (pageIdx + 1) myBytes)

/-- Thread `t` leaves the read loop with `myBytes`. -/
def setMyBytes (s : State a) (t : Fin a.nThreads) (k myBytes : ℕ) : State a :=
  { s with myBytes := update s.myBytes k (update (s.myBytes k) t myBytes) }

/-- `compute_busy`, up to its arithmetic on the bytes just read. -/
def computeBusy (s : State a) (myBytes : ℕ) : State a :=
  if 0 < myBytes ∧ a.computeNsPerMib ≠ 0 then
    { s with computeTotalBytes := (s.computeTotalBytes + myBytes) % 2 ^ 64 }
  else s

/-- Behind `lookahead_mark_done`. -/
def afterMark (t : Fin a.nThreads) (k : ℕ) : Pc :=
  if t.1 = 0 then .waitFull k else .waitToStart (k + 1)

/-- `lookahead_mark_done` up to the signal. -/
def mark (s : State a) (t : Fin a.nThreads) (k : ℕ) : State a :=
  let s := { s with completed := update s.completed k (s.completed k + 1) }
  if s.completed k = a.nThreads then
    let s := { s with
      notifyCount := if a.consumptionSignalAll then s.notifyCount + 1 else s.notifyCount
      pc := fun u => (s.pc u).woken }
    s.goto t (if a.consumptionSignalAll then .notify k .entered else afterMark t k)
  else s.goto t (afterMark t k)

/-- The tail of the loop body in thread 0. -/
def recordRef (s : State a) (k : ℕ) : State a :=
  let s := { s with bytesTouched := (s.bytesTouched + a.len k) % 2 ^ 64 }
  if a.refTrace then
    { s with refSeq := s.refSeq + 1, trace := s.trace ++ [(s.refSeq + 1, k % n)] }
  else s

/-- `replay_thread_main`; `none` for a thread that has ended or is asleep. -/
def exec (s : State a) (t : Fin a.nThreads) : Option (State a) :=
  match s.pc t with
  | .waitToStart k =>
    if k < a.totalSteps then
      if s.GateOpen k then
        if t.1 = 0 ∧ ¬ a.consumptionSignalAll then some (s.goto t (.signal k .entered))
        else some (s.goto t (.read k 0 0 0))
      else some (s.goto t (.asleepToStart k))
    else some (s.goto t .done)
  | .asleepToStart _ => none
  | .signal k .entered => some ((s.access k).goto t (.signal k .accessed))
  | .signal k .accessed => some ((s.release k).goto t (.read k 0 0 0))
  | .read k off pageIdx myBytes =>
    if off < a.len k then some (s.readPage t k off pageIdx myBytes)
    else some ((s.setMyBytes t k myBytes).goto t (.compute k myBytes))
  | .compute k myBytes => some ((s.computeBusy myBytes).goto t (.markDone k))
  | .markDone k => some (s.mark t k)
  | .notify k .entered => some ((s.access k).goto t (.notify k .accessed))
  | .notify k .accessed => some ((s.release k).goto t (afterMark t k))
  | .waitFull k => if s.Full k then some (s.goto t (.record k)) else some (s.goto t (.asleepFull k))
  | .asleepFull _ => none
  | .record k => some ((s.recordRef k).goto t (.waitToStart (k + 1)))
  | .done => none

end State

inductive Action (a : Args n)
  | step (t : Fin a.nThreads)
  /-- `pthread_cond_wait` may return without a broadcast -/
  | spuriousWakeup (t : Fin a.nThreads)

/-- The driver; any interleaving of its threads is a sequence of actions. -/
def driver (a : Args n) : Machine (State a) (Action a) where
  init := State.init a
  step
    | .step t, s => s.exec t
    | .spuriousWakeup t, s => some (s.goto t (s.pc t).woken)

/-- `replay_result_t` without the time. -/
structure Result where
  nPasses : ℕ
  nTouches : ℕ
  bytesTouched : ℕ
deriving DecidableEq, Repr

/-- Every thread has ended and is joined. -/
def State.Joined (s : State a) : Prop := ∀ t, s.pc t = .done

/-- What `replay_cyclic_mt` returns after the joins; `none` is the abort of the check of
`notify_count`. -/
def State.result (s : State a) : Option Result :=
  if a.consumptionSignalAll ∧ s.notifyCount ≠ a.totalSteps then none
  else some ⟨a.nPasses, a.nPasses * n % 2 ^ 32, s.bytesTouched⟩

/-! ## Positions -/

/-- The steps that a thread at `p` has finished. -/
def Pc.finished (a : Args n) : Pc → ℕ
  | .waitToStart k | .asleepToStart k | .signal k _ | .read k _ _ _ | .compute k _
  | .markDone k => k
  | .notify k _ | .waitFull k | .asleepFull k | .record k => k + 1
  | .done => a.totalSteps

/-- The steps it has begun. -/
def Pc.begun (a : Args n) : Pc → ℕ
  | .waitToStart k | .asleepToStart k => k
  | .signal k _ | .read k _ _ _ | .compute k _ | .markDone k | .notify k _ | .waitFull k
  | .asleepFull k | .record k => k + 1
  | .done => a.totalSteps

/-- The step is one of the run. -/
def Pc.Bounded (a : Args n) : Pc → Prop
  | .waitToStart k => k ≤ a.totalSteps
  | .asleepToStart k | .signal k _ | .read k _ _ _ | .compute k _ | .markDone k | .notify k _
  | .waitFull k | .asleepFull k | .record k => k < a.totalSteps
  | .done => True

/-- The condition of a sleeping thread is still false. -/
def State.Justified (s : State a) : Pc → Prop
  | .asleepToStart k => ¬ s.GateOpen k
  | .asleepFull k => ¬ s.Full k
  | _ => True

@[simp] theorem Pc.finished_woken (p : Pc) : p.woken.finished a = p.finished a := by
  cases p <;> rfl

@[simp] theorem Pc.begun_woken (p : Pc) : p.woken.begun a = p.begun a := by
  cases p <;> rfl

theorem Pc.Bounded.woken {p : Pc} (h : p.Bounded a) : p.woken.Bounded a := by
  cases p with
  | asleepToStart k => exact Nat.le_of_lt h
  | _ => exact h

theorem State.justified_woken (s : State a) (p : Pc) : s.Justified p.woken := by
  cases p <;> trivial

/-- Each thread's number of finished steps. -/
def State.position (s : State a) (t : Fin a.nThreads) : ℕ := (s.pc t).finished a

/-- The counters count, every thread is within the window, and no wake-up was lost. -/
structure State.Inv (s : State a) : Prop where
  bounded : ∀ t, (s.pc t).Bounded a
  completed : s.completed = finished s.position
  window : ∀ t u, (s.pc t).begun a ≤ s.position u + a.window + 1
  justified : ∀ t, s.Justified (s.pc t)

section

variable {s s' : State a} {t : Fin a.nThreads} {k : ℕ} {p : Pc}

/-- Step `k` is complete when the counter has reached the number of threads. -/
theorem State.Inv.full_iff (h : s.Inv) : s.Full k ↔ ∀ t, k < s.position t := by
  have hcard : Fintype.card (Fin a.nThreads) ≤ finished s.position k ↔ ∀ t, k < s.position t :=
    card_le_finished_iff
  rw [Fintype.card_fin] at hcard
  rw [State.Full, h.completed]
  exact hcard

theorem State.gateOpen_iff (s : State a) (k : ℕ) :
    s.GateOpen k ↔ k ≤ a.window ∨ s.Full (k - a.window - 1) := by
  unfold State.GateOpen State.Full
  dsimp only
  have hgate : ((k : ℤ) - a.window - 1).toNat = k - a.window - 1 := by omega
  rw [hgate]
  apply or_congr
  · omega
  · exact Iff.rfl

theorem State.Inv.position_le (h : s.Inv) (t : Fin a.nThreads) :
    s.position t ≤ a.totalSteps := by
  have hb := h.bounded t
  unfold State.position
  cases hpc : s.pc t <;> rw [hpc] at hb <;> simp only [Pc.Bounded, Pc.finished] at hb ⊢ <;> omega

/-- The gate keeps a thread within the window of every other thread. -/
theorem State.Inv.le_of_gateOpen (h : s.Inv) (hgate : s.GateOpen k) (u : Fin a.nThreads) :
    k + 1 ≤ s.position u + a.window + 1 := by
  rcases (s.gateOpen_iff k).1 hgate with hle | hfull
  · omega
  · have hlt := h.full_iff.1 hfull u
    omega

theorem State.finished_afterMark (t : Fin a.nThreads) (k : ℕ) :
    (State.afterMark t k).finished a = k + 1 := by
  unfold State.afterMark
  split <;> rfl

theorem State.begun_afterMark (t : Fin a.nThreads) (k : ℕ) :
    (State.afterMark t k).begun a = k + 1 := by
  unfold State.afterMark
  split <;> rfl

theorem State.bounded_afterMark (hk : k < a.totalSteps) : (State.afterMark t k).Bounded a := by
  unfold State.afterMark
  split <;> exact hk

theorem State.justified_afterMark (s : State a) (t : Fin a.nThreads) (k : ℕ) :
    s.Justified (State.afterMark t k) := by
  unfold State.afterMark
  split <;> trivial

/-- What a step of thread `t` does to the positions, unless it marks a step done. -/
structure State.Advances (s s' : State a) (t : Fin a.nThreads) (p : Pc) : Prop where
  pc : s'.pc = update s.pc t p
  completed : s'.completed = s.completed
  finished : p.finished a = (s.pc t).finished a
  begun : p.begun a = (s.pc t).begun a ∨
    ∃ k, s.pc t = .waitToStart k ∧ s.GateOpen k ∧ p.begun a = k + 1
  bounded : p.Bounded a
  justified : s.Justified p

/-- A step inside the body of the loop. -/
theorem State.Advances.within {q : Pc} (hpc : s.pc t = q) (hs : s'.pc = update s.pc t p)
    (hcompleted : s'.completed = s.completed) (hfinished : p.finished a = q.finished a)
    (hbegun : p.begun a = q.begun a) (hb : p.Bounded a) (hj : s.Justified p) :
    s.Advances s' t p where
  pc := hs
  completed := hcompleted
  finished := by rw [hpc, hfinished]
  begun := Or.inl (by rw [hpc, hbegun])
  bounded := hb
  justified := hj

/-- `exec`, by cases. -/
inductive State.Branch (s : State a) (t : Fin a.nThreads) : Pc → State a → Prop
  -- `lookahead_wait_to_start`
  | signalFirst {k : ℕ} (hlt : k < a.totalSteps) (hgate : s.GateOpen k)
      (hsig : t.1 = 0 ∧ ¬ a.consumptionSignalAll) :
      Branch s t (.waitToStart k) (s.goto t (.signal k .entered))
  | start {k : ℕ} (hlt : k < a.totalSteps) (hgate : s.GateOpen k) :
      Branch s t (.waitToStart k) (s.goto t (.read k 0 0 0))
  | sleepToStart {k : ℕ} (hlt : k < a.totalSteps) (hgate : ¬ s.GateOpen k) :
      Branch s t (.waitToStart k) (s.goto t (.asleepToStart k))
  | ended {k : ℕ} (hlt : ¬ k < a.totalSteps) : Branch s t (.waitToStart k) (s.goto t .done)
  -- the body of the loop
  | access {k : ℕ} : Branch s t (.signal k .entered) ((s.access k).goto t (.signal k .accessed))
  | release {k : ℕ} : Branch s t (.signal k .accessed) ((s.release k).goto t (.read k 0 0 0))
  | readPage {k off pageIdx myBytes : ℕ} (hoff : off < a.len k) :
      Branch s t (.read k off pageIdx myBytes) (s.readPage t k off pageIdx myBytes)
  | readDone {k off pageIdx myBytes : ℕ} (hoff : ¬ off < a.len k) :
      Branch s t (.read k off pageIdx myBytes)
        ((s.setMyBytes t k myBytes).goto t (.compute k myBytes))
  | compute {k myBytes : ℕ} :
      Branch s t (.compute k myBytes) ((s.computeBusy myBytes).goto t (.markDone k))
  | markDone {k : ℕ} : Branch s t (.markDone k) (s.mark t k)
  | notifyAccess {k : ℕ} :
      Branch s t (.notify k .entered) ((s.access k).goto t (.notify k .accessed))
  | notifyRelease {k : ℕ} :
      Branch s t (.notify k .accessed) ((s.release k).goto t (State.afterMark t k))
  -- the tail of thread 0
  | full {k : ℕ} (hfull : s.Full k) : Branch s t (.waitFull k) (s.goto t (.record k))
  | sleepFull {k : ℕ} (hfull : ¬ s.Full k) : Branch s t (.waitFull k) (s.goto t (.asleepFull k))
  | record {k : ℕ} : Branch s t (.record k) ((s.recordRef k).goto t (.waitToStart (k + 1)))

theorem State.exec_branch (h : s.exec t = some s') : ∃ p, s.pc t = p ∧ s.Branch t p s' := by
  refine ⟨s.pc t, rfl, ?_⟩
  unfold State.exec at h
  split at h <;> rename_i hpc <;> rw [hpc]
  · split_ifs at h with hlt hgate hsig
    · cases h
      exact .signalFirst hlt hgate hsig
    · cases h
      exact .start hlt hgate
    · cases h
      exact .sleepToStart hlt hgate
    · cases h
      exact .ended hlt
  · cases h
  · cases h
    exact .access
  · cases h
    exact .release
  · split_ifs at h with hoff
    · cases h
      exact .readPage hoff
    · cases h
      exact .readDone hoff
  · cases h
    exact .compute
  · cases h
    exact .markDone
  · cases h
    exact .notifyAccess
  · cases h
    exact .notifyRelease
  · split_ifs at h with hfull
    · cases h
      exact .full hfull
    · cases h
      exact .sleepFull hfull
  · cases h
  · cases h
    exact .record
  · cases h

theorem State.exec_cases (hb : (s.pc t).Bounded a) (h : s.exec t = some s') :
    (∃ k, s.pc t = .markDone k ∧ s' = s.mark t k) ∨ ∃ p, s.Advances s' t p := by
  obtain ⟨p, hpc, hbranch⟩ := State.exec_branch h
  rw [hpc] at hb
  cases hbranch with
  | @markDone k => exact Or.inl ⟨k, hpc, rfl⟩
  | @signalFirst k hlt hgate _ =>
    exact Or.inr ⟨_, rfl, rfl, by rw [hpc]; rfl, Or.inr ⟨k, hpc, hgate, rfl⟩, hlt, trivial⟩
  | @start k hlt hgate =>
    exact Or.inr ⟨_, rfl, rfl, by rw [hpc]; rfl, Or.inr ⟨k, hpc, hgate, rfl⟩, hlt, trivial⟩
  | sleepToStart hlt hgate => exact Or.inr ⟨_, .within hpc rfl rfl rfl rfl hlt hgate⟩
  | @ended k hlt =>
    have hk : k = a.totalSteps := le_antisymm hb (Nat.le_of_not_lt hlt)
    exact Or.inr ⟨_, .within hpc rfl rfl hk.symm hk.symm trivial trivial⟩
  | readPage hoff =>
    unfold State.readPage
    split
    · exact Or.inr ⟨_, .within hpc rfl rfl rfl rfl hb trivial⟩
    · exact Or.inr ⟨_, .within hpc rfl rfl rfl rfl hb trivial⟩
  | compute =>
    unfold State.computeBusy
    split
    · exact Or.inr ⟨_, .within hpc rfl rfl rfl rfl hb trivial⟩
    · exact Or.inr ⟨_, .within hpc rfl rfl rfl rfl hb trivial⟩
  | @notifyRelease k =>
    refine Or.inr ⟨_, .within hpc rfl rfl ?_ ?_ (bounded_afterMark hb) (justified_afterMark s t k)⟩
    · exact finished_afterMark t k
    · exact begun_afterMark t k
  | sleepFull hfull => exact Or.inr ⟨_, .within hpc rfl rfl rfl rfl hb hfull⟩
  | record =>
    unfold State.recordRef
    dsimp only
    split
    · exact Or.inr ⟨_, .within hpc rfl rfl rfl rfl hb trivial⟩
    · exact Or.inr ⟨_, .within hpc rfl rfl rfl rfl hb trivial⟩
  | access | release | readDone _ | notifyAccess | full _ =>
    exact Or.inr ⟨_, .within hpc rfl rfl rfl rfl hb trivial⟩

/-! ## Marking a step done -/

/-- Where a thread goes after it has completed step `k` for everyone. -/
def State.afterComplete (t : Fin a.nThreads) (k : ℕ) : Pc :=
  if a.consumptionSignalAll then .notify k .entered else State.afterMark t k

theorem State.mark_completed (s : State a) (t : Fin a.nThreads) (k : ℕ) :
    (s.mark t k).completed = update s.completed k (s.completed k + 1) := by
  unfold State.mark
  dsimp only
  split <;> rfl

theorem State.mark_pc_of_last (h : s.completed k + 1 = a.nThreads) :
    (s.mark t k).pc = update (fun u => (s.pc u).woken) t (State.afterComplete t k) := by
  unfold State.mark
  dsimp only
  rw [if_pos (by rw [update_self]; exact h)]
  rfl

theorem State.mark_pc_of_not_last (h : s.completed k + 1 ≠ a.nThreads) :
    (s.mark t k).pc = update s.pc t (State.afterMark t k) := by
  unfold State.mark
  dsimp only
  rw [if_neg (by rw [update_self]; exact h)]
  rfl

theorem State.finished_afterComplete (t : Fin a.nThreads) (k : ℕ) :
    (State.afterComplete t k).finished a = k + 1 := by
  unfold State.afterComplete
  split
  · rfl
  · exact State.finished_afterMark t k

theorem State.begun_afterComplete (t : Fin a.nThreads) (k : ℕ) :
    (State.afterComplete t k).begun a = k + 1 := by
  unfold State.afterComplete
  split
  · rfl
  · exact State.begun_afterMark t k

/-- Apart from wake-ups only the thread that marks moves, and it has finished one step more. -/
theorem State.mark_position (hpc : s.pc t = .markDone k) :
    (s.mark t k).position = update s.position t (k + 1) := by
  funext u
  by_cases hlast : s.completed k + 1 = a.nThreads
  · rw [State.position, State.mark_pc_of_last hlast]
    by_cases hu : u = t
    · subst hu
      rw [update_self, update_self, State.finished_afterComplete]
    · rw [update_of_ne hu, update_of_ne hu, Pc.finished_woken]
      rfl
  · rw [State.position, State.mark_pc_of_not_last hlast]
    by_cases hu : u = t
    · subst hu
      rw [update_self, update_self, State.finished_afterMark]
    · rw [update_of_ne hu, update_of_ne hu]
      rfl

theorem State.mark_begun (hpc : s.pc t = .markDone k) (u : Fin a.nThreads) :
    ((s.mark t k).pc u).begun a = (s.pc u).begun a := by
  by_cases hlast : s.completed k + 1 = a.nThreads
  · rw [State.mark_pc_of_last hlast]
    by_cases hu : u = t
    · subst hu
      rw [update_self, State.begun_afterComplete, hpc]
      rfl
    · rw [update_of_ne hu, Pc.begun_woken]
  · rw [State.mark_pc_of_not_last hlast]
    by_cases hu : u = t
    · subst hu
      rw [update_self, State.begun_afterMark, hpc]
      rfl
    · rw [update_of_ne hu]

theorem State.mark_bounded (hb : ∀ u, (s.pc u).Bounded a) (hpc : s.pc t = .markDone k)
    (u : Fin a.nThreads) : ((s.mark t k).pc u).Bounded a := by
  have hk : k < a.totalSteps := by
    have := hb t
    rwa [hpc] at this
  by_cases hlast : s.completed k + 1 = a.nThreads
  · rw [State.mark_pc_of_last hlast]
    by_cases hu : u = t
    · subst hu
      rw [update_self]
      unfold State.afterComplete
      split
      · exact hk
      · exact State.bounded_afterMark hk
    · rw [update_of_ne hu]
      exact (hb u).woken
  · rw [State.mark_pc_of_not_last hlast]
    by_cases hu : u = t
    · subst hu
      rw [update_self]
      exact State.bounded_afterMark hk
    · rw [update_of_ne hu]
      exact hb u

/-! ## The invariant -/

/-- Raising the counter of an incomplete step to less than the number of threads opens
nothing, so those who sleep may go on sleeping. -/
theorem State.Inv.justified_mark (h : s.Inv) (hpc : s.pc t = .markDone k) (u : Fin a.nThreads) :
    (s.mark t k).Justified ((s.mark t k).pc u) := by
  by_cases hlast : s.completed k + 1 = a.nThreads
  · -- the broadcast has woken everyone
    rw [State.mark_pc_of_last hlast]
    by_cases hu : u = t
    · subst hu
      rw [update_self]
      unfold State.afterComplete
      split
      · trivial
      · exact State.justified_afterMark _ _ _
    · rw [update_of_ne hu]
      exact State.justified_woken _ _
  · have hle : s.completed k + 1 ≤ a.nThreads := by
      have hbound := finished_le_card (update s.position t (k + 1)) k
      have hat : s.position t = k := by rw [State.position, hpc]; rfl
      rw [finished_update hat, update_self, ← h.completed, Fintype.card_fin] at hbound
      exact hbound
    have hfull : ∀ j, (s.mark t k).Full j → s.Full j := by
      intro j hj
      unfold State.Full at hj ⊢
      rw [State.mark_completed] at hj
      by_cases hjk : j = k
      · subst hjk
        rw [update_self] at hj
        omega
      · rwa [update_of_ne hjk] at hj
    have hgate : ∀ j, (s.mark t k).GateOpen j → s.GateOpen j := by
      intro j hj
      rw [State.gateOpen_iff] at hj ⊢
      exact hj.imp_right (hfull _)
    rw [State.mark_pc_of_not_last hlast]
    by_cases hu : u = t
    · subst hu
      rw [update_self]
      exact State.justified_afterMark _ _ _
    · rw [update_of_ne hu]
      have hj := h.justified u
      cases hpcu : s.pc u with
      | asleepToStart j =>
        rw [hpcu] at hj
        exact fun hopen => hj (hgate j hopen)
      | asleepFull j =>
        rw [hpcu] at hj
        exact fun hopen => hj (hfull j hopen)
      | _ => trivial

theorem State.Inv.mark (h : s.Inv) (hpc : s.pc t = .markDone k) : (s.mark t k).Inv where
  bounded := State.mark_bounded h.bounded hpc
  completed := by
    have hat : s.position t = k := by rw [State.position, hpc]; rfl
    rw [State.mark_completed, State.mark_position hpc, finished_update hat, h.completed]
  window := by
    intro u v
    have hw := h.window u v
    rw [State.mark_begun hpc, State.mark_position hpc]
    by_cases hv : v = t
    · subst hv
      have hat : s.position v = k := by rw [State.position, hpc]; rfl
      rw [update_self]
      omega
    · rwa [update_of_ne hv]
  justified := h.justified_mark hpc

theorem State.justified_congr (hc : s'.completed = s.completed) (q : Pc) :
    s'.Justified q ↔ s.Justified q := by
  cases q with
  | asleepToStart j => simp only [State.Justified, State.GateOpen, hc]
  | asleepFull j => simp only [State.Justified, State.Full, hc]
  | _ => exact Iff.rfl

theorem State.Advances.position (h : s.Advances s' t p) : s'.position = s.position := by
  funext u
  rw [State.position, h.pc]
  by_cases hu : u = t
  · subst hu
    rw [update_self, h.finished]
    rfl
  · rw [update_of_ne hu]
    rfl

theorem State.Inv.advances (h : s.Inv) (hadv : s.Advances s' t p) : s'.Inv where
  bounded := by
    intro u
    rw [hadv.pc]
    by_cases hu : u = t
    · subst hu
      rw [update_self]
      exact hadv.bounded
    · rw [update_of_ne hu]
      exact h.bounded u
  completed := by rw [hadv.completed, hadv.position, h.completed]
  window := by
    intro u v
    rw [hadv.pc, hadv.position]
    by_cases hu : u = t
    · subst hu
      rw [update_self]
      rcases hadv.begun with hsame | ⟨k, -, hgate, hbegun⟩
      · rw [hsame]
        exact h.window u v
      · rw [hbegun]
        exact h.le_of_gateOpen hgate v
    · rw [update_of_ne hu]
      exact h.window u v
  justified := by
    intro u
    rw [State.justified_congr hadv.completed, hadv.pc]
    by_cases hu : u = t
    · subst hu
      rw [update_self]
      exact hadv.justified
    · rw [update_of_ne hu]
      exact h.justified u

theorem State.Inv.init : (State.init a).Inv where
  bounded _ := Nat.zero_le _
  completed := by
    funext k
    simp [State.init, finished, State.position, Pc.finished]
  window _ _ := Nat.zero_le _
  justified _ := trivial

theorem State.Inv.wakeup (h : s.Inv) (t : Fin a.nThreads) : (s.goto t (s.pc t).woken).Inv :=
  h.advances (p := (s.pc t).woken) ⟨rfl, rfl, Pc.finished_woken _, Or.inl (Pc.begun_woken _),
    (h.bounded t).woken, State.justified_woken _ _⟩

theorem State.Inv.exec (h : s.Inv) (hs : s.exec t = some s') : s'.Inv := by
  rcases State.exec_cases (h.bounded t) hs with ⟨k, hpc, rfl⟩ | ⟨p, hadv⟩
  · exact h.mark hpc
  · exact h.advances hadv

theorem reachable_inv (hs : Reachable (driver a) s) : s.Inv := by
  refine Reach.invariant State.Inv.init (fun act s s' _ _ h hstep => ?_) hs
  cases act with
  | step t => exact h.exec hstep
  | spuriousWakeup t =>
    cases hstep
    exact h.wakeup t

/-! ## The window, and progress -/

/-- Step `k` is complete: every thread has finished it. -/
def State.Complete (s : State a) (k : ℕ) : Prop := ∀ t, k < s.position t

/-- Some thread has begun step `k`. -/
def State.Begun (s : State a) (k : ℕ) : Prop := ∃ t, k < (s.pc t).begun a

/-- Thread `t` is in `lookahead_wait_to_start` or `lookahead_wait_full`, and asleep or
about to sleep. -/
def State.Blocked (s : State a) (t : Fin a.nThreads) : Prop :=
  match s.pc t with
  | .waitToStart k => k < a.totalSteps ∧ ¬ s.GateOpen k
  | .waitFull k => ¬ s.Full k
  | .asleepToStart _ | .asleepFull _ => True
  | _ => False

/-- A thread that neither is blocked nor has ended can take a step. -/
theorem State.exec_isSome (hend : s.pc t ≠ .done) (hblocked : ¬ s.Blocked t) :
    (s.exec t).isSome := by
  unfold State.Blocked at hblocked
  unfold State.exec
  split
  · split_ifs <;> rfl
  · rename_i hpc
    rw [hpc] at hblocked
    exact absurd trivial hblocked
  · rfl
  · rfl
  · split <;> rfl
  · rfl
  · rfl
  · rfl
  · rfl
  · split <;> rfl
  · rename_i hpc
    rw [hpc] at hblocked
    exact absurd trivial hblocked
  · rfl
  · rename_i hpc
    exact absurd hpc hend

/-- The thread that is behind the others is not blocked: its gate is open, since the step
at the gate is one that everyone has finished. -/
theorem State.Inv.not_blocked (h : s.Inv) (hlast : ∀ u, s.position t ≤ s.position u) :
    ¬ s.Blocked t := by
  have hj := h.justified t
  have hgate : ∀ k, (s.pc t).finished a = k → s.GateOpen k := by
    intro k hk
    rw [State.gateOpen_iff]
    by_cases hle : k ≤ a.window
    · exact Or.inl hle
    · refine Or.inr (h.full_iff.2 fun u => ?_)
      have hu := hlast u
      rw [State.position, hk] at hu
      omega
  have hfull : ∀ k, (s.pc t).finished a = k + 1 → s.Full k := by
    intro k hk
    refine h.full_iff.2 fun u => ?_
    have hu := hlast u
    rw [State.position, hk] at hu
    exact hu
  unfold State.Blocked
  cases hpc : s.pc t with
  | waitToStart k => exact fun hb => hb.2 (hgate k (by rw [hpc]; rfl))
  | asleepToStart k =>
    rw [hpc] at hj
    exact absurd (hgate k (by rw [hpc]; rfl)) hj
  | waitFull k => exact fun hb => hb (hfull k (by rw [hpc]; rfl))
  | asleepFull k =>
    rw [hpc] at hj
    exact absurd (hfull k (by rw [hpc]; rfl)) hj
  | _ => exact id

/-- A thread that is last, if it has not ended, waits for nobody. -/
theorem State.Inv.exists_unblocked (h : s.Inv) {t : Fin a.nThreads} (ht : s.pc t ≠ .done) :
    ∃ u, s.pc u ≠ .done ∧ ¬ s.Blocked u := by
  have hne : Nonempty (Fin a.nThreads) := ⟨t⟩
  obtain ⟨u, hu⟩ := Steps.exists_last s.position
  by_cases hdone : s.pc u = .done
  · -- then all steps are complete, and `t` is on its way out
    have hall : a.totalSteps = s.position u := by
      rw [State.position, hdone]
      rfl
    refine ⟨t, ht, h.not_blocked fun v => ?_⟩
    exact (h.position_le t).trans (hall.trans_le (hu v))
  · exact ⟨u, hdone, h.not_blocked hu⟩

/-- The steps begun and not complete lie in a window of `window + 1` steps from the
earliest incomplete one, and while a thread has not ended, such a thread is not blocked. -/
theorem lookahead_window (hs : Reachable (driver a) s) :
    (∃ m, (∀ k < m, s.Complete k) ∧ (m < a.totalSteps → ¬ s.Complete m) ∧
      ∀ k, s.Begun k → ¬ s.Complete k → m ≤ k ∧ k ≤ m + a.window) ∧
    ((∃ t, s.pc t ≠ .done) → ∃ t, s.pc t ≠ .done ∧ ¬ s.Blocked t) := by
  have h := reachable_inv hs
  constructor
  · rcases isEmpty_or_nonempty (Fin a.nThreads) with hempty | hne
    · refine ⟨a.totalSteps, fun k _ t => (hempty.false t).elim, fun hlt => absurd hlt (lt_irrefl _),
        fun k ⟨t, _⟩ => (hempty.false t).elim⟩
    · obtain ⟨t, ht⟩ := exists_last s.position
      refine ⟨s.position t, fun k hk u => hk.trans_le (ht u),
        fun _ hcomplete => lt_irrefl _ (hcomplete t), ?_⟩
      rintro k ⟨u, hu⟩ hincomplete
      unfold State.Complete at hincomplete
      push Not at hincomplete
      obtain ⟨v, hv⟩ := hincomplete
      have hwindow := h.window u t
      have hmin := ht v
      omega
  · rintro ⟨t, hend⟩
    exact h.exists_unblocked hend

end

/-- Two passes of two threads over two chunks of two pages. -/
def twoReaders : Args 2 where
  table := ChunkTable.uniform 2 8192 (by decide) (by decide) (by decide)
  nPasses := 2
  nThreads := 2
  window := 1
  consumptionSignalAll := true
  refTrace := true
  computeNsPerMib := 0

/-- Both threads finish step 0; thread 0 does so last and is in the call that signals it. -/
def firstSignal : List (Action twoReaders) :=
  List.replicate 6 (.step ⟨1, by decide⟩) ++ List.replicate 7 (.step ⟨0, by decide⟩)

theorem firstSignal_runs :
    (run (driver twoReaders) firstSignal (State.init twoReaders)).isSome = true := by
  decide +kernel

theorem lookahead_window_twoReaders :
    let s := (run (driver twoReaders) firstSignal (State.init twoReaders)).get firstSignal_runs
    (∃ m, (∀ k < m, s.Complete k) ∧ (m < twoReaders.totalSteps → ¬ s.Complete m) ∧
      ∀ k, s.Begun k → ¬ s.Complete k → m ≤ k ∧ k ≤ m + twoReaders.window) ∧
    ((∃ t, s.pc t ≠ .done) → ∃ t, s.pc t ≠ .done ∧ ¬ s.Blocked t) :=
  lookahead_window (reachable_get firstSignal firstSignal_runs)

end Residctl.Replay
