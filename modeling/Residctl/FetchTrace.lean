import Mathlib.Algebra.BigOperators.Group.Finset.Basic
import Mathlib.Algebra.Order.BigOperators.Group.Finset
import Residctl.Lib.Calls
import Residctl.Lib.Mutex
import Residctl.Lib.Runs
import Residctl.Trace

/-!
# The fetch trace

`fetch_trace.c` and its four callers. The handler and the workers of the pool take slots of one
array, each under the lock of the trace, and fill them in without it; `main` writes the array out
when they are gone. The file then has one record of every call, in the order in which the lock was
taken (`flush_exact`), unless there were more calls than slots (`calls_end`).
-/

namespace Residctl

/-! ## Layout -/

/-- `fetch_trace_record_t`. -/
structure FetchTraceRecord where
  seq : UInt64
  chunkId : UInt32
  wasPrefetch : UInt8
  pad : List.Vector UInt8 3
  tHandlerEntryNs : UInt64
  tReadStartNs : UInt64
  tReadEndNs : UInt64
  tContinueEndNs : UInt64
  tHandlerExitNs : UInt64
  bytesRead : UInt64
  tDispatchEntryNs : UInt64
  tDispatchEnqueueNs : UInt64
deriving DecidableEq

/-- What `calloc` and `memset` leave. -/
def FetchTraceRecord.zero : FetchTraceRecord :=
  ⟨0, 0, 0, List.Vector.replicate 3 0, 0, 0, 0, 0, 0, 0, 0, 0⟩

def FetchTraceRecord.packed : Packed FetchTraceRecord :=
  (Packed.uint64.seq <| .seq .uint32 <| .seq .uint8 <| .seq (.bytes 3) <| .seq .uint64 <|
    .seq .uint64 <| .seq .uint64 <| .seq .uint64 <| .seq .uint64 <| .seq .uint64 <|
    .seq .uint64 .uint64).map
    { toFun := fun (seq, id, pre, pad, entry, start, stop, cont, exit, bytes, dis, enq) =>
        ⟨seq, id, pre, pad, entry, start, stop, cont, exit, bytes, dis, enq⟩
      invFun := fun r => (r.seq, r.chunkId, r.wasPrefetch, r.pad, r.tHandlerEntryNs,
        r.tReadStartNs, r.tReadEndNs, r.tContinueEndNs, r.tHandlerExitNs, r.bytesRead,
        r.tDispatchEntryNs, r.tDispatchEnqueueNs)
      left_inv := fun _ => rfl
      right_inv := fun _ => rfl }

@[simp] theorem FetchTraceRecord.packed_size : FetchTraceRecord.packed.size = 80 := rfl

/-- `fetch_trace_t`, without its lock. -/
structure FetchTrace where
  records : ℕ → FetchTraceRecord
  capacity : ℕ
  count : ℕ
  nextSeq : ℕ

/-- `fetch_trace_open`; `calloc` refuses a size that is no `size_t`. -/
def fetchTraceOpen (capacity : ℕ) : Option FetchTrace :=
  if capacity * FetchTraceRecord.packed.size < 2 ^ 64 then
    some { records := fun _ => .zero, capacity, count := 0, nextSeq := 1 }
  else none

/-! ## Writing an array out -/

/-- The loop of `fetch_trace_flush` and `policy_trace_flush`; a call that fails ends it. -/
def flushLoop : List WriteRet → List UInt8 → List UInt8 → Option (List UInt8)
  | _, file, [] => some file
  | [], _, _ :: _ => none
  | .failed :: _, file, _ :: _ => some file
  | .interrupted :: rets, file, b :: rest => flushLoop rets file (b :: rest)
  | .wrote n :: rets, file, b :: rest =>
    flushLoop rets (file ++ (b :: rest).take n) ((b :: rest).drop n)

section

variable {rets : List WriteRet} {file file' buf : List UInt8}

/-- The file is a prefix of the array, and all of it when no call fails. -/
theorem flushLoop_file (h : flushLoop rets file buf = some file') :
    (∃ m, file' = file ++ buf.take m) ∧ (.failed ∉ rets → file' = file ++ buf) := by
  fun_induction flushLoop rets file buf with
  | case1 rets file =>
    cases h
    exact ⟨⟨0, by simp⟩, fun _ => by simp⟩
  | case2 => cases h
  | case3 rets file b rest =>
    cases h
    exact ⟨⟨0, by simp⟩, fun hok => absurd List.mem_cons_self hok⟩
  | case4 rets file b rest ih =>
    exact ⟨(ih h).1, fun hok => (ih h).2 fun hmem => hok (List.mem_cons_of_mem _ hmem)⟩
  | case5 n rets file b rest ih =>
    constructor
    · rcases (ih h).1 with ⟨m, rfl⟩
      exact ⟨n + m, by rw [List.take_add, List.append_assoc]⟩
    · intro hok
      rw [(ih h).2 fun hmem => hok (List.mem_cons_of_mem _ hmem), List.append_assoc,
        List.take_append_drop]

/-- While no call fails the loop is that of `write_all`. -/
theorem flushLoop_eq_writeAll (hok : .failed ∉ rets) :
    flushLoop rets file buf = (writeAll rets file buf).toOption.map Prod.fst := by
  fun_induction flushLoop rets file buf with
  | case1 rets file => cases rets <;> rfl
  | case2 => rfl
  | case3 rets file b rest => exact absurd List.mem_cons_self hok
  | case4 rets file b rest ih =>
    exact ih fun hmem => hok (List.mem_cons_of_mem _ hmem)
  | case5 n rets file b rest ih =>
    exact ih fun hmem => hok (List.mem_cons_of_mem _ hmem)

/-- What comes of an array of records that the loop has written to an empty file. -/
structure Flushes {α : Type*} (P : Packed α) (l : List α) (rets : List WriteRet) : Prop where
  returns : Accepting rets (P.size * l.length) →
    ∃ file, flushLoop rets [] (l.flatMap P.write) = some file
  complete : .failed ∉ rets → ∀ file, flushLoop rets [] (l.flatMap P.write) = some file →
    P.records file = l
  cut : ∀ file, flushLoop rets [] (l.flatMap P.write) = some file →
    P.records file = l.take (file.length / P.size)

theorem flushes {α : Type*} {P : Packed α} (hpos : 0 < P.size) (l : List α)
    (rets : List WriteRet) : Flushes P l rets := by
  have hcut : ∀ file, flushLoop rets [] (l.flatMap P.write) = some file →
      P.records file = l.take (file.length / P.size) := by
    intro file h
    obtain ⟨m, rfl⟩ := (flushLoop_file h).1
    rw [List.nil_append, P.records_take hpos, List.length_take, P.length_flatMap_write]
    -- a cut behind the end is no cut
    rcases Nat.le_total m (P.size * l.length) with hm | hm
    · rw [Nat.min_eq_left hm]
    · rw [Nat.min_eq_right hm, Nat.mul_div_cancel_left _ hpos, List.take_length]
      exact List.take_of_length_le ((Nat.le_div_iff_mul_le hpos).2 (by rwa [Nat.mul_comm]))
  refine ⟨fun hacc => ?_, fun hok file h => ?_, hcut⟩
  · rw [← P.length_flatMap_write] at hacc
    obtain ⟨rets', hwritten, -⟩ := writeAll_accepting (k := 0) [] hacc
    refine ⟨l.flatMap P.write, ?_⟩
    rw [flushLoop_eq_writeAll hacc.ok, hwritten]
    rfl
  · have hall := hcut file h
    rw [hall, (flushLoop_file h).2 hok, List.nil_append, P.length_flatMap_write,
      Nat.mul_div_cancel_left _ hpos, List.take_length]

end

namespace FetchTrace

open Calls Function Mutex Runs

/-! ## Callers -/

/-- An assignment to a field of a record. -/
inductive Store
  | chunkId (x : UInt32)
  | wasPrefetch (x : UInt8)
  | tHandlerEntryNs (x : UInt64)
  | tReadStartNs (x : UInt64)
  | tReadEndNs (x : UInt64)
  | tContinueEndNs (x : UInt64)
  | tHandlerExitNs (x : UInt64)
  | bytesRead (x : UInt64)
  | tDispatchEntryNs (x : UInt64)
  | tDispatchEnqueueNs (x : UInt64)
deriving DecidableEq

def Store.apply (r : FetchTraceRecord) : Store → FetchTraceRecord
  | chunkId x => { r with chunkId := x }
  | wasPrefetch x => { r with wasPrefetch := x }
  | tHandlerEntryNs x => { r with tHandlerEntryNs := x }
  | tReadStartNs x => { r with tReadStartNs := x }
  | tReadEndNs x => { r with tReadEndNs := x }
  | tContinueEndNs x => { r with tContinueEndNs := x }
  | tHandlerExitNs x => { r with tHandlerExitNs := x }
  | bytesRead x => { r with bytesRead := x }
  | tDispatchEntryNs x => { r with tDispatchEntryNs := x }
  | tDispatchEnqueueNs x => { r with tDispatchEnqueueNs := x }

/-- The functions that call `fetch_trace_reserve`. -/
inductive Caller
  | handleAbsent
  | maybePrefetch
  | doOneDemand (dispatchEntryNs dispatchEnqueueNs : UInt64)
  | doOnePrefetch
deriving DecidableEq

def Caller.wasPrefetch : Caller → UInt8
  | handleAbsent | doOneDemand .. => 0
  | maybePrefetch | doOnePrefetch => 1

/-- Only the demand path of the pool has a dispatch phase. -/
def Caller.dispatch : Caller → List Store
  | doOneDemand entry enqueue => [.tDispatchEntryNs entry, .tDispatchEnqueueNs enqueue]
  | _ => []

/-- `fetch_timing_t`. -/
structure FetchTiming where
  readStartNs : UInt64
  readEndNs : UInt64
  continueEndNs : UInt64
deriving DecidableEq

/-- What a caller knows when it asks for a slot. -/
structure Call where
  caller : Caller
  idx : UInt32
  tStart : UInt64
  timing : FetchTiming
  tExit : UInt64
  len : UInt64
deriving DecidableEq

/-- The assignments behind `fetch_trace_reserve`, in their order. -/
def Call.stores (c : Call) : List Store :=
  [.chunkId c.idx, .wasPrefetch c.caller.wasPrefetch, .tHandlerEntryNs c.tStart,
    .tReadStartNs c.timing.readStartNs, .tReadEndNs c.timing.readEndNs,
    .tContinueEndNs c.timing.continueEndNs, .tHandlerExitNs c.tExit, .bytesRead c.len] ++
  c.caller.dispatch

/-! ## Threads -/

/-- Where a thread is: outside, in `fetch_trace_reserve`, or filling its slot in. -/
inductive Pc
  | idle
  | lock (c : Call)
  | check (c : Call)
  | take (c : Call)
  | clear (c : Call) (slot : ℕ)
  | number (c : Call) (slot : ℕ)
  | unlock (c : Call) (slot : ℕ)
  | fill (stores : List Store) (slot : ℕ)
deriving DecidableEq

def Pc.holds : Pc → List Unit
  | check _ | take _ | clear .. | number .. | unlock .. => [()]
  | _ => []

/-- Whether the thread can go on when the lock is free, or taken. -/
def Pc.enabled (free : Bool) : Pc → Bool
  | idle => false
  | lock _ => free
  | _ => true

/-- One statement of a thread; `none` is `abort`. -/
def Pc.exec (ft : FetchTrace) : Pc → Option (FetchTrace × Pc)
  | idle => some (ft, idle)
  | lock c => some (ft, check c)
  | check c => if ft.count ≥ ft.capacity then none else some (ft, take c)
  | take c => some ({ ft with count := ft.count + 1 }, clear c ft.count)
  | clear c slot => some ({ ft with records := update ft.records slot .zero }, number c slot)
  | number c slot =>
    some ({ ft with
      records := update ft.records slot
        { ft.records slot with seq := UInt64.ofNat ft.nextSeq }
      nextSeq := ft.nextSeq + 1 }, unlock c slot)
  | unlock c slot => some (ft, fill c.stores slot)
  | fill [] _ => some (ft, idle)
  | fill (a :: rest) slot =>
    some ({ ft with records := update ft.records slot (a.apply (ft.records slot)) },
      fill rest slot)

structure State (T : Type*) where
  ft : FetchTrace
  aborted : Bool
  owner : Unit → Option T
  pc : T → Pc

inductive Action (T : Type*)
  | call (t : T) (c : Call)
  | exec (t : T)

variable {T : Type*}

def State.move [DecidableEq T] (s : State T) (t : T) (ft : FetchTrace) (p : Pc) : State T :=
  { s with ft, owner := moveOwner Pc.holds s.owner t p, pc := update s.pc t p }

section

variable [DecidableEq T] (s : State T) (t : T) (ft : FetchTrace) (p : Pc)

@[simp] theorem State.move_ft : (s.move t ft p).ft = ft := rfl

@[simp] theorem State.move_owner : (s.move t ft p).owner = moveOwner Pc.holds s.owner t p := rfl

@[simp] theorem State.move_aborted : (s.move t ft p).aborted = s.aborted := rfl

@[simp] theorem State.move_pc : (s.move t ft p).pc = update s.pc t p := rfl

end

def step [DecidableEq T] (a : Action T) (s : State T) : Option (State T) :=
  if s.aborted then none else
  match a with
  | .call t c => if s.pc t = .idle then some (s.move t s.ft (.lock c)) else none
  | .exec t =>
    if (s.pc t).enabled (s.owner () = none) then
      match (s.pc t).exec s.ft with
      | none => some { s with aborted := true }
      | some (ft, p) => some (s.move t ft p)
    else none

/-- The threads of a process that share the trace. -/
def tracing (T : Type*) [DecidableEq T] (ft : FetchTrace) : Machine (State T) (Action T) where
  init := ⟨ft, false, fun _ => none, fun _ => .idle⟩
  step := step

/-- `fetch_trace_flush` to a file it could open. -/
def fetchTraceFlush (rets : List WriteRet) (ft : FetchTrace) : Option (List UInt8) :=
  flushLoop rets [] (((List.range ft.count).map ft.records).flatMap FetchTraceRecord.packed.write)

/-! ## History -/

/-- The call that the next statement takes a slot for. -/
def Pc.takes : Pc → List Call
  | take c => [c]
  | _ => []

def note : Action T → State T → State T → List (Event T Call)
  | .call t c, _, _ => [.called t c]
  | .exec t, s, _ => (s.pc t).takes.map (.served t)

/-! ## What a call is to write -/

/-- The record of a call whose slot got the number `seq`. -/
def Call.record (c : Call) (seq : ℕ) : FetchTraceRecord where
  seq := UInt64.ofNat seq
  chunkId := c.idx
  wasPrefetch := c.caller.wasPrefetch
  pad := List.Vector.replicate 3 0
  tHandlerEntryNs := c.tStart
  tReadStartNs := c.timing.readStartNs
  tReadEndNs := c.timing.readEndNs
  tContinueEndNs := c.timing.continueEndNs
  tHandlerExitNs := c.tExit
  bytesRead := c.len
  tDispatchEntryNs := match c.caller with | .doOneDemand entry _ => entry | _ => 0
  tDispatchEnqueueNs := match c.caller with | .doOneDemand _ enqueue => enqueue | _ => 0

/-- What slot `i` will hold when the thread at this point is done with it. -/
def Pc.finish (i : ℕ) (r : FetchTraceRecord) : Pc → FetchTraceRecord
  | clear c slot => if slot = i then c.record (i + 1) else r
  | number c slot =>
    if slot = i then c.stores.foldl Store.apply { r with seq := UInt64.ofNat (i + 1) } else r
  | unlock c slot => if slot = i then c.stores.foldl Store.apply r else r
  | fill stores slot => if slot = i then stores.foldl Store.apply r else r
  | _ => r

/-- The call that has no slot yet. -/
def Pc.waiting : Pc → List Call
  | lock c | check c | take c => [c]
  | _ => []

/-- The slot that the thread writes to. -/
def Pc.slot : Pc → Option ℕ
  | clear _ slot | number _ slot | unlock _ slot | fill _ slot => some slot
  | _ => none

/-- Slots that are counted and have no number. -/
def Pc.unnumbered : Pc → ℕ
  | clear .. | number .. => 1
  | _ => 0

theorem Call.fill_zero (c : Call) (seq : ℕ) :
    c.stores.foldl Store.apply { FetchTraceRecord.zero with seq := UInt64.ofNat seq } =
      c.record seq := by
  rcases c with ⟨caller, idx, tStart, timing, tExit, len⟩
  cases caller <;> rfl

section

variable {ft ft' : FetchTrace} {p p' : Pc} {i : ℕ}

/-- What a statement does to the counters and the call. -/
theorem Pc.exec_control (h : p.exec ft = some (ft', p')) :
    ft'.capacity = ft.capacity ∧ ft'.count = ft.count + p.takes.length ∧
      ft'.nextSeq + p'.unnumbered + ft.count = ft.nextSeq + p.unnumbered + ft'.count ∧
      p.waiting = p.takes ++ p'.waiting := by
  cases p with
  | check c =>
    rw [Pc.exec] at h
    split at h
    · cases h
    · cases h
      exact ⟨rfl, rfl, rfl, rfl⟩
  | fill stores slot =>
    cases stores <;> cases h <;> exact ⟨rfl, rfl, rfl, rfl⟩
  | take c =>
    cases h
    refine ⟨rfl, rfl, ?_, rfl⟩
    simp only [Pc.unnumbered]
    omega
  | number c slot =>
    cases h
    refine ⟨rfl, rfl, ?_, rfl⟩
    simp only [Pc.unnumbered]
  | _ =>
    cases h
    exact ⟨rfl, rfl, rfl, rfl⟩

/-- A thread writes to its own slot, which is the next one when it takes it. -/
theorem Pc.exec_slot (h : p.exec ft = some (ft', p')) {slot : ℕ} (hslot : p'.slot = some slot) :
    p.slot = some slot ∨ p.takes ≠ [] ∧ slot = ft.count := by
  cases p with
  | check c =>
    rw [Pc.exec] at h
    split at h <;> cases h
    cases hslot
  | fill stores j =>
    cases stores <;> cases h
    · cases hslot
    · exact Or.inl hslot
  | take c =>
    cases h
    cases hslot
    exact Or.inr ⟨by simp [Pc.takes], rfl⟩
  | idle | lock =>
    cases h
    cases hslot
  | _ =>
    cases h
    exact Or.inl hslot

theorem Pc.exec_records (h : p.exec ft = some (ft', p')) (hslot : p.slot ≠ some i) :
    ft'.records i = ft.records i := by
  cases p with
  | check c =>
    rw [Pc.exec] at h
    split at h <;> cases h
    rfl
  | clear c slot | number c slot =>
    cases h
    exact update_of_ne (fun he => hslot (congrArg some he.symm)) _ _
  | fill stores slot =>
    cases stores <;> cases h
    · rfl
    · exact update_of_ne (fun he => hslot (congrArg some he.symm)) _ _
  | _ =>
    cases h
    rfl

/-- What a slot will hold is decided when it is taken. -/
theorem Pc.exec_finish (h : p.exec ft = some (ft', p'))
    (hnum : ∀ c slot, p = .number c slot → ft.nextSeq = slot + 1) (htake : p.takes = []) :
    p'.finish i (ft'.records i) = p.finish i (ft.records i) := by
  cases p with
  | check c =>
    rw [Pc.exec] at h
    split at h <;> cases h
    rfl
  | take c => cases htake
  | clear c slot =>
    cases h
    by_cases hi : slot = i
    · subst hi
      simp only [Pc.finish, if_pos, update_self]
      exact c.fill_zero _
    · simp only [Pc.finish, if_neg hi]
      exact update_of_ne (Ne.symm hi) _ _
  | number c slot =>
    cases h
    by_cases hi : slot = i
    · subst hi
      simp only [Pc.finish, if_pos, update_self, hnum c slot rfl]
    · simp only [Pc.finish, if_neg hi]
      exact update_of_ne (Ne.symm hi) _ _
  | fill stores slot =>
    cases stores with
    | nil =>
      cases h
      simp [Pc.finish]
    | cons a rest =>
      cases h
      by_cases hi : slot = i
      · subst hi
        simp only [Pc.finish, if_pos, update_self, List.foldl_cons]
      · simp only [Pc.finish, if_neg hi]
        exact update_of_ne (Ne.symm hi) _ _
  | _ =>
    cases h
    rfl

/-- Only `fetch_trace_reserve` takes the lock. -/
theorem Pc.exec_holds (h : p.exec ft = some (ft', p')) (hp : () ∈ p'.holds) :
    () ∈ p.holds ∨ ∃ c, p = .lock c := by
  cases p with
  | lock c => exact Or.inr ⟨c, rfl⟩
  | fill stores slot =>
    cases stores <;> cases h <;> cases hp
  | idle | unlock =>
    cases h
    cases hp
  | _ => exact Or.inl (by simp [Pc.holds])

/-- The test comes right before the slot is taken. -/
theorem Pc.exec_take {c : Call} (h : p.exec ft = some (ft', .take c)) :
    ft'.count < ft'.capacity := by
  cases p with
  | check d =>
    rw [Pc.exec] at h
    split at h <;> cases h
    exact Nat.lt_of_not_le ‹_›
  | fill stores slot => cases stores <;> cases h
  | _ => cases h

/-- A slot without a number is the last one. -/
theorem Pc.exec_last {slot : ℕ} (h : p.exec ft = some (ft', p')) (hslot : p'.slot = some slot)
    (hp : p'.unnumbered = 1) :
    slot + 1 = ft'.count ∨ p.slot = some slot ∧ p.unnumbered = 1 ∧ ft'.count = ft.count := by
  cases p with
  | take c =>
    cases h
    cases hslot
    exact Or.inl rfl
  | clear c j =>
    cases h
    exact Or.inr ⟨hslot, rfl, rfl⟩
  | check c =>
    rw [Pc.exec] at h
    split at h <;> cases h
    cases hp
  | fill stores j => cases stores <;> cases h <;> cases hp
  | _ =>
    cases h
    cases hp

end

/-! ## What every run keeps -/

theorem unnumbered_of_not_holds {p : Pc} {l : Unit} (h : l ∉ p.holds) : p.unnumbered = 0 := by
  cases p <;> simp_all [Pc.holds, Pc.unnumbered]

/-- The counters, the lock and the calls. -/
structure Control [DecidableEq T] (cap : ℕ) (s : State T) (log : List (Event T Call)) : Prop where
  owned : Owned Pc.holds s.owner s.pc
  capacity : s.ft.capacity = cap
  count : s.ft.count = (served log).length
  room : s.ft.count ≤ cap
  /-- the test is still true when the slot is taken -/
  tested : ∀ t c, s.pc t = .take c → s.ft.count < cap
  numbered : s.ft.nextSeq + readAt (fun p _ => p.unnumbered) 0 s.owner s.pc () = s.ft.count + 1
  last : ∀ t slot, (s.pc t).slot = some slot → (s.pc t).unnumbered = 1 → slot + 1 = s.ft.count
  order : Ordered Pc.waiting s.pc log
  full : s.aborted = true → cap < (called log).length

/-- The slots, each the work of one call. -/
structure Filled (s : State T) (log : List (Event T Call)) : Prop where
  own : ∀ t slot, (s.pc t).slot = some slot → ∃ c, (served log)[slot]? = some (t, c)
  finish : ∀ i t c, (served log)[i]? = some (t, c) →
    (s.pc t).finish i (s.ft.records i) = c.record (i + 1)

/-- What a step does. -/
inductive Moves [DecidableEq T] (s : State T) : Action T → State T → Prop
  | call {t c} (hidle : s.pc t = .idle) : Moves s (.call t c) (s.move t s.ft (.lock c))
  | exec {t ft p} (hen : (s.pc t).enabled (s.owner () = none) = true)
      (hexec : (s.pc t).exec s.ft = some (ft, p)) : Moves s (.exec t) (s.move t ft p)
  | abort {t c} (hpc : s.pc t = .check c) (hfull : s.ft.capacity ≤ s.ft.count) :
      Moves s (.exec t) { s with aborted := true }

section

variable [DecidableEq T] {s s' : State T} {a : Action T} {log : List (Event T Call)} {cap : ℕ} {t : T}

theorem moves_of_step (h : step a s = some s') : s.aborted = false ∧ Moves s a s' := by
  unfold step at h
  split at h
  · cases h
  · rename_i hrun
    refine ⟨by simpa using hrun, ?_⟩
    cases a with
    | call t c =>
      dsimp only at h
      split at h
      · cases h
        exact .call ‹_›
      · cases h
    | exec t =>
      dsimp only at h
      split at h
      · rename_i hen
        cases hexec : (s.pc t).exec s.ft with
        | some q =>
          rw [hexec] at h
          cases h
          exact .exec hen hexec
        | none =>
          rw [hexec] at h
          cases h
          -- only the test aborts
          cases hpc : s.pc t with
          | check c =>
            rw [hpc, Pc.exec] at hexec
            split at hexec
            · exact .abort hpc ‹_›
            · cases hexec
          | fill stores slot =>
            rw [hpc] at hexec
            cases stores <;> cases hexec
          | _ =>
            rw [hpc] at hexec
            cases hexec
      · cases h

theorem Control.init (ft : FetchTrace) (hft : fetchTraceOpen cap = some ft) :
    Control cap (tracing T ft).init [] := by
  unfold fetchTraceOpen at hft
  split at hft
  · cases hft
    exact
      { owned := fun t l => ⟨fun h => (by cases h), fun h => (by cases h)⟩
        capacity := rfl
        count := rfl
        room := Nat.zero_le _
        tested := fun t c h => (by cases h)
        numbered := rfl
        last := fun t slot h => (by cases h)
        order := Ordered.init fun t => rfl
        full := fun h => (by cases h) }
  · cases hft

theorem Control.step_call {c : Call} (h : Control cap s log) (hrun : s.aborted = false)
    (hidle : s.pc t = .idle) : Control cap (s.move t s.ft (.lock c)) (log ++ [.called t c]) where
  owned := h.owned.move (t := t) (p := .lock c) fun l hl => (by simp [Pc.holds] at hl)
  capacity := h.capacity
  count := by rw [served_call]; exact h.count
  room := h.room
  tested := by
    intro u d hu
    by_cases hut : u = t
    · subst hut
      rw [State.move_pc, update_self] at hu
      cases hu
    · exact h.tested u d ((update_of_ne hut _ _).symm.trans hu)
  numbered := by
    have hread := readAt_move (f := fun p _ => p.unnumbered) h.owned
      (fun p l => unnumbered_of_not_holds) t (.lock c) ()
    rw [if_neg (by rw [hidle]; simp [Pc.holds])] at hread
    exact (congrArg (s.ft.nextSeq + ·) hread).trans h.numbered
  last := by
    intro u slot hu hnum
    by_cases hut : u = t
    · subst hut
      rw [State.move_pc, update_self] at hu
      cases hu
    · rw [State.move_pc, update_of_ne hut] at hu hnum
      exact h.last u slot hu hnum
  order := h.order.call (by rw [hidle]; rfl) rfl
  full := fun hab => absurd (hrun.symm.trans hab) (by decide)

/-- Two threads do not take slots at the same time. -/
theorem Control.takes_alone (h : Control cap s log) {u : T} (htake : (s.pc t).takes ≠ [])
    (hu : () ∈ (s.pc u).holds) : u = t := by
  refine h.owned.unique hu ?_
  cases hpc : s.pc t <;> simp_all [Pc.takes, Pc.holds]

theorem Control.step_exec {ft : FetchTrace} {p : Pc} (h : Control cap s log)
    (hrun : s.aborted = false) (hen : (s.pc t).enabled (s.owner () = none) = true)
    (hexec : (s.pc t).exec s.ft = some (ft, p)) :
    Control cap (s.move t ft p) (log ++ (s.pc t).takes.map (.served t)) := by
  obtain ⟨hcap, hcount, hseq, hwait⟩ := Pc.exec_control hexec
  have hlock : ∀ c, s.pc t = .lock c → s.owner () = none := by
    intro c hpc
    rw [hpc] at hen
    simpa [Pc.enabled] using hen
  have htest : ∀ u c, (update s.pc t p) u = .take c → ft.count < cap := by
    intro u c hu
    by_cases hut : u = t
    · subst hut
      rw [update_self] at hu
      subst hu
      have hlt := Pc.exec_take hexec
      rwa [hcap, h.capacity] at hlt
    · rw [update_of_ne hut] at hu
      have hnone : (s.pc t).takes = [] := by
        by_contra htake
        exact hut (h.takes_alone htake (by rw [hu]; simp [Pc.holds]))
      rw [hcount, hnone]
      exact h.tested u c hu
  refine ⟨?_, hcap.trans h.capacity, ?_, ?_, htest, ?_, ?_, ?_, ?_⟩
  · refine h.owned.move fun l hl => ?_
    rcases Pc.exec_holds hexec hl with hheld | ⟨c, hpc⟩
    · exact Or.inr ((h.owned t l).2 hheld)
    · exact Or.inl (hlock c hpc)
  · rw [served_serve, List.length_append, List.length_map, ← h.count]
    exact hcount
  · show ft.count ≤ cap
    rw [hcount]
    cases hpc : s.pc t with
    | take c => exact h.tested t c hpc
    | _ => exact h.room
  · -- who holds the lock before or after the step has not numbered its slot
    have hread := readAt_move (f := fun p _ => p.unnumbered) h.owned
      (fun p l => unnumbered_of_not_holds) t p ()
    have hnum := h.numbered
    have hpos := hcount
    refine (congrArg (ft.nextSeq + ·) hread).trans ?_
    show ft.nextSeq + _ = ft.count + 1
    by_cases hheld : () ∈ (s.pc t).holds
    · rw [if_pos (Or.inr hheld)]
      rw [readAt_of_holds h.owned hheld] at hnum
      omega
    · by_cases hp : () ∈ p.holds
      · rw [if_pos (Or.inl hp)]
        rcases Pc.exec_holds hexec hp with hold | ⟨c, hpc⟩
        · exact absurd hold hheld
        · rw [readAt, hlock c hpc] at hnum
          have hzero := unnumbered_of_not_holds hheld
          dsimp only at hnum
          omega
      · rw [if_neg (not_or.2 ⟨hp, hheld⟩)]
        have hzero := unnumbered_of_not_holds hheld
        have hzero' := unnumbered_of_not_holds hp
        omega
  · intro u slot hu hnum
    by_cases hut : u = t
    · subst hut
      rw [State.move_pc, update_self] at hu hnum
      rcases Pc.exec_last hexec hu hnum with hlast | ⟨hslot, hold, hsame⟩
      · exact hlast
      · exact (h.last u slot hslot hold).trans hsame.symm
    · rw [State.move_pc, update_of_ne hut] at hu hnum
      have hnone : (s.pc t).takes = [] := by
        by_contra htake
        refine hut (h.takes_alone htake (by_contra fun hno => ?_))
        rw [unnumbered_of_not_holds hno] at hnum
        cases hnum
      show slot + 1 = ft.count
      rw [hcount, hnone]
      exact h.last u slot hu hnum
  · exact h.order.serve hwait
  · intro hab
    rw [State.move_aborted, hrun] at hab
    cases hab

theorem Control.step_abort {c : Call} (h : Control cap s log) (hpc : s.pc t = .check c)
    (hfull : s.ft.capacity ≤ s.ft.count) : Control cap { s with aborted := true } log :=
  { h with
    full := fun _ => by
      have hlt := h.order.length_lt (t := t) (by rw [hpc]; simp [Pc.waiting])
      have hcount := h.count
      have hcap := h.capacity
      omega }

theorem Control.step (h : Control cap s log) (hstep : step a s = some s') :
    Control cap s' (log ++ note a s s') := by
  obtain ⟨hrun, hmoves⟩ := moves_of_step hstep
  cases hmoves with
  | call hidle => exact h.step_call hrun hidle
  | exec hen hexec => exact h.step_exec hrun hen hexec
  | @abort t c hpc hfull =>
    have hnote : note (.exec t) s { s with aborted := true } = [] := by
      simp [note, hpc, Pc.takes]
    rw [hnote, List.append_nil]
    exact h.step_abort hpc hfull

theorem Filled.init (ft : FetchTrace) : Filled (tracing T ft).init [] :=
  ⟨fun t slot h => (by cases h), fun i t c h => (by cases h)⟩

theorem Filled.step_call {c : Call} (h : Filled s log) (hidle : s.pc t = .idle) :
    Filled (s.move t s.ft (.lock c)) (log ++ [.called t c]) where
  own := by
    intro u slot hu
    rw [served_call]
    by_cases hut : u = t
    · subst hut
      rw [State.move_pc, update_self] at hu
      cases hu
    · rw [State.move_pc, update_of_ne hut] at hu
      exact h.own u slot hu
  finish := by
    intro i u d hi
    rw [served_call] at hi
    have hold := h.finish i u d hi
    by_cases hut : u = t
    · subst hut
      rw [hidle] at hold
      rw [State.move_pc, update_self]
      exact hold
    · rw [State.move_pc, update_of_ne hut]
      exact hold

theorem Filled.step_exec {ft : FetchTrace} {p : Pc} (hc : Control cap s log) (h : Filled s log)
    (hexec : (s.pc t).exec s.ft = some (ft, p)) :
    Filled (s.move t ft p) (log ++ (s.pc t).takes.map (.served t)) := by
  have hgrow : ∀ {i : ℕ} {x : T × Call}, (served log)[i]? = some x →
      (served log ++ (s.pc t).takes.map (t, ·))[i]? = some x := by
    intro i x hi
    rw [List.getElem?_append_left (List.getElem?_eq_some_iff.1 hi).1]
    exact hi
  constructor
  · intro u slot hu
    rw [served_serve]
    by_cases hut : u = t
    · subst hut
      rw [State.move_pc, update_self] at hu
      rcases Pc.exec_slot hexec hu with hslot | ⟨htake, rfl⟩
      · rcases h.own u slot hslot with ⟨c, hown⟩
        exact ⟨c, hgrow hown⟩
      · cases hpc : s.pc u with
        | take c =>
          refine ⟨c, ?_⟩
          rw [hc.count, List.getElem?_append_right (Nat.le_refl _), Nat.sub_self]
          rfl
        | _ => simp [hpc, Pc.takes] at htake
    · rw [State.move_pc, update_of_ne hut] at hu
      rcases h.own u slot hu with ⟨c, hown⟩
      exact ⟨c, hgrow hown⟩
  · intro i u d hi
    rw [served_serve] at hi
    rw [State.move_pc, State.move_ft]
    by_cases hnew : i < (served log).length
    · rw [List.getElem?_append_left hnew] at hi
      have hold := h.finish i u d hi
      by_cases hut : u = t
      · subst hut
        rw [update_self]
        cases hpc : s.pc u with
        | take c =>
          rw [hpc] at hexec hold
          cases hexec
          have hne : s.ft.count ≠ i := by
            rw [hc.count]
            exact Nat.ne_of_gt hnew
          rw [Pc.finish, if_neg hne]
          exact hold
        | _ =>
          rw [← hold]
          refine Pc.exec_finish hexec (fun c slot hnum => ?_) (by rw [hpc]; rfl)
          have hlast := hc.last u slot (by rw [hnum]; rfl) (by rw [hnum]; rfl)
          have hseq := hc.numbered
          rw [readAt_of_holds hc.owned (t := u) (by rw [hnum]; simp [Pc.holds]), hnum] at hseq
          simp only [Pc.unnumbered] at hseq
          omega
      · -- the slot of another thread
        rw [update_of_ne hut, Pc.exec_records hexec, hold]
        intro hslot
        rcases h.own t i hslot with ⟨c, hown⟩
        rw [hi] at hown
        exact hut (congrArg Prod.fst (Option.some.inj hown))
    · rw [List.getElem?_append_right (Nat.le_of_not_lt hnew)] at hi
      cases hpc : s.pc t with
      | take c =>
        rw [hpc] at hexec hi
        cases hexec
        rcases List.getElem?_eq_some_iff.1 hi with ⟨hlt, heq⟩
        have hzero : i = s.ft.count := by
          rw [hc.count]
          simp only [Pc.takes, List.map_cons, List.map_nil, List.length_singleton] at hlt
          omega
        subst hzero
        have htc : (t, c) = (u, d) := by
          rw [← heq]
          simp [Pc.takes, hc.count]
        cases htc
        rw [update_self, Pc.finish, if_pos rfl]
      | _ => simp [hpc, Pc.takes] at hi

theorem Filled.step (hc : Control cap s log) (h : Filled s log) (hstep : step a s = some s') :
    Filled s' (log ++ note a s s') := by
  obtain ⟨-, hmoves⟩ := moves_of_step hstep
  cases hmoves with
  | call hidle => exact h.step_call hidle
  | exec hen hexec => exact Filled.step_exec hc h hexec
  | @abort t c hpc hfull =>
    have hnote : note (.exec t) s { s with aborted := true } = [] := by
      simp [note, hpc, Pc.takes]
    rw [hnote, List.append_nil]
    exact ⟨h.own, h.finish⟩

theorem Reachable.kept {ft : FetchTrace} (hft : fetchTraceOpen cap = some ft)
    (h : Reachable ((tracing T ft).recorded note) (s, log)) : Control cap s log ∧ Filled s log := by
  refine Reachable.recorded_invariant (I := fun s log => Control cap s log ∧ Filled s log)
    ⟨Control.init ft hft, Filled.init ft⟩ ?_ h
  intro a s s' log _ hI hstep
  exact ⟨hI.1.step hstep, hI.2.step hI.1 hstep⟩

end

/-! ## The file -/

section

variable [DecidableEq T] {s s' : State T} {a : Action T} {log : List (Event T Call)} {cap : ℕ} {t : T}

/-- The records of the calls that have a slot. -/
def written (log : List (Event T Call)) : List FetchTraceRecord :=
  (served log).mapIdx fun i e => e.2.record (i + 1)

/-- What `fetch_trace_flush` makes of the array. -/
structure Flushed (s : State T) (log : List (Event T Call)) (rets : List WriteRet) : Prop where
  returns : Accepting rets (FetchTraceRecord.packed.size * (called log).length) →
    ∃ file, fetchTraceFlush rets s.ft = some file
  complete : .failed ∉ rets → ∀ file, fetchTraceFlush rets s.ft = some file →
    FetchTraceRecord.packed.records file = written log
  cut : ∀ file, fetchTraceFlush rets s.ft = some file →
    FetchTraceRecord.packed.records file =
      (written log).take (file.length / FetchTraceRecord.packed.size)
  seq : ∀ file, fetchTraceFlush rets s.ft = some file → ∀ i r,
    (FetchTraceRecord.packed.records file)[i]? = some r → r.seq.toNat = i + 1

/-- When no call is in progress every slot that was taken holds the record of its call. -/
theorem Filled.records_eq (hc : Control cap s log) (h : Filled s log)
    (hidle : ∀ t, s.pc t = .idle) : (List.range s.ft.count).map s.ft.records = written log := by
  refine List.ext_getElem? fun i => ?_
  rw [written, List.getElem?_mapIdx, List.getElem?_map, hc.count]
  by_cases hi : i < (served log).length
  · have hserved : (served log)[i]? = some (served log)[i] := List.getElem?_eq_getElem hi
    have hfin : (s.pc (served log)[i].1).finish i (s.ft.records i) =
        (served log)[i].2.record (i + 1) := h.finish i _ _ hserved
    rw [hidle] at hfin
    rw [hserved, List.getElem?_range hi, Option.map_some, Option.map_some, ← hfin]
    rfl
  · rw [List.getElem?_eq_none (by simpa using hi), List.getElem?_eq_none (Nat.le_of_not_lt hi)]
    rfl

/-- Once all threads are gone the file has a record of every call, numbered in the order of the
slots, which is for every thread the order of its calls. -/
theorem flush_exact {ft : FetchTrace} (hft : fetchTraceOpen cap = some ft)
    (h : Reachable ((tracing T ft).recorded note) (s, log)) (hidle : ∀ t, s.pc t = .idle) :
    (∀ t, ofThread t (served log) = ofThread t (called log)) ∧ ∀ rets, Flushed s log rets := by
  obtain ⟨hc, hf⟩ := Reachable.kept hft h
  have horder : ∀ t, ofThread t (served log) = ofThread t (called log) := by
    intro t
    rw [hc.order t, hidle t]
    exact (List.append_nil _).symm
  have hlen : (called log).length = (served log).length :=
    (hc.order.perm fun t => by rw [hidle t]; rfl).length_eq
  have hflush : ∀ rets, fetchTraceFlush rets s.ft =
      flushLoop rets [] ((written log).flatMap FetchTraceRecord.packed.write) := by
    intro rets
    rw [fetchTraceFlush, hf.records_eq hc hidle]
  have hsize : cap < 2 ^ 64 := by
    unfold fetchTraceOpen at hft
    split at hft
    · rename_i hfits
      rw [FetchTraceRecord.packed_size] at hfits
      omega
    · cases hft
  refine ⟨horder, fun rets => ?_⟩
  obtain ⟨hreturns, hcomplete, hcut⟩ :=
    flushes (P := FetchTraceRecord.packed) (by decide) (written log) rets
  rw [written, List.length_mapIdx, ← written, ← hlen] at hreturns
  rw [← hflush] at hreturns hcomplete hcut
  refine ⟨hreturns, hcomplete, hcut, fun file h i r hi => ?_⟩
  rw [hcut file h] at hi
  rcases List.getElem?_eq_some_iff.1 hi with ⟨hlt, rfl⟩
  rw [List.length_take, written, List.length_mapIdx, ← hc.count] at hlt
  have hroom := hc.room
  simp only [written, List.getElem_take, List.getElem_mapIdx, Call.record]
  rw [UInt64.toNat_ofNat', Nat.mod_eq_of_lt (by omega)]

/-- A demand fetch by thread `false` and a prefetch by thread `true`. -/
def demandCall : Call := ⟨.doOneDemand 5 6, 3, 10, ⟨11, 12, 13⟩, 14, 4096⟩

def prefetchCall : Call := ⟨.doOnePrefetch, 4, 20, ⟨21, 22, 23⟩, 24, 4096⟩

/-- Thread `true` asks for a slot while thread `false` fills in the one before. -/
def overlapping : List (Action Bool) :=
  [.call false demandCall, .exec false, .exec false, .call true prefetchCall] ++ List.replicate 7 (.exec false) ++
    List.replicate 2 (.exec true)

/-- Both fill their slots in at the same time. -/
def interleaved : List (Action Bool) :=
  overlapping ++ List.replicate 8 (.exec true) ++ List.replicate 8 (.exec false) ++
    List.replicate 5 (.exec true)

def slots (capacity : ℕ) : FetchTrace := ⟨fun _ => .zero, capacity, 0, 1⟩

theorem flush_exact_twoThreads : ∃ (s : State Bool) (log : List (Event Bool Call)),
    called log = [(false, demandCall), (true, prefetchCall)] ∧
      (∀ t, ofThread t (served log) = ofThread t (called log)) ∧ ∀ rets, Flushed s log rets :=
  ⟨_, _, by decide +kernel, flush_exact (show fetchTraceOpen 3 = some (slots 3) from rfl)
    (reachable_get interleaved (by decide +kernel)) (by decide +kernel)⟩

/-! ## Too many calls -/

/-- The statements that a thread has before it. -/
def Pc.work : Pc → ℕ
  | idle => 0
  | lock c => c.stores.length + 7
  | check c => c.stores.length + 6
  | take c => c.stores.length + 5
  | clear c _ => c.stores.length + 4
  | number c _ => c.stores.length + 3
  | unlock c _ => c.stores.length + 2
  | fill stores _ => stores.length + 1

theorem Pc.exec_work {ft ft' : FetchTrace} {p p' : Pc} (h : p.exec ft = some (ft', p'))
    (hp : p ≠ .idle) : p'.work < p.work := by
  cases p with
  | idle => exact absurd rfl hp
  | check c =>
    rw [Pc.exec] at h
    split at h <;> cases h
    exact Nat.lt_succ_self _
  | fill stores slot =>
    cases stores <;> cases h <;> exact Nat.lt_succ_self _
  | _ =>
    cases h
    exact Nat.lt_succ_self _

/-- The steps that the threads can still take. -/
def State.work [Fintype T] (s : State T) : ℕ := if s.aborted then 0 else ∑ t, (s.pc t).work

theorem work_exec [Fintype T] (h : step (.exec t) s = some s') : s'.work < s.work := by
  obtain ⟨hrun, hmoves⟩ := moves_of_step h
  rw [State.work, State.work, hrun]
  cases hmoves with
  | @exec _ ft p hen hexec =>
    have hne : s.pc t ≠ .idle := by
      intro hpc
      rw [hpc] at hen
      cases hen
    rw [State.move_aborted, hrun]
    refine Finset.sum_lt_sum (fun u _ => ?_) ⟨t, Finset.mem_univ t, ?_⟩
    · rw [State.move_pc]
      by_cases hut : u = t
      · subst hut
        rw [update_self]
        exact (Pc.exec_work hexec hne).le
      · rw [update_of_ne hut]
    · rw [State.move_pc, update_self]
      exact Pc.exec_work hexec hne
  | @abort _ c hpc hfull =>
    refine Nat.lt_of_lt_of_le ?_ (Finset.single_le_sum (fun u _ => Nat.zero_le _)
      (Finset.mem_univ t))
    rw [hpc]
    exact Nat.succ_pos _

/-- Somebody can go on while a call is in progress. -/
theorem Control.progress (h : Control cap s log) (hrun : s.aborted = false)
    (hpc : s.pc t ≠ .idle) : ∃ u s', FetchTrace.step (.exec u) s = some s' := by
  have hgo : ∀ u, (s.pc u).enabled (s.owner () = none) = true →
      ∃ s', FetchTrace.step (.exec u) s = some s' := by
    intro u hen
    rw [FetchTrace.step, hrun, if_neg (by decide)]
    rw [if_pos hen]
    cases (s.pc u).exec s.ft with
    | none => exact ⟨_, rfl⟩
    | some q => exact ⟨_, rfl⟩
  cases howner : s.owner () with
  | none =>
    refine ⟨t, hgo t ?_⟩
    cases hp : s.pc t with
    | idle => exact absurd hp hpc
    | lock c => simp [Pc.enabled, howner]
    | _ => rfl
  | some u =>
    -- the holder does not wait
    refine ⟨u, hgo u ?_⟩
    have hheld : () ∈ (s.pc u).holds := (h.owned u ()).1 howner
    cases hp : s.pc u with
    | idle | lock | fill =>
      rw [hp] at hheld
      cases hheld
    | _ => rfl

/-- However the threads are scheduled, the calls that have begun come to their end, or the process
aborts; it aborts exactly when more calls have begun than there are slots. -/
theorem calls_end [Fintype T] {ft : FetchTrace} (hft : fetchTraceOpen cap = some ft)
    (h : Reachable ((tracing T ft).recorded note) (s, log)) :
    (∀ (ts : List T) s', run (tracing T ft) (ts.map Action.exec) s = some s' → ts.length ≤ s.work) ∧
      ((∀ t, step (.exec t) s = none) →
        s.aborted = true ∧ cap < (called log).length ∨
          s.aborted = false ∧ (∀ t, s.pc t = .idle) ∧ (called log).length ≤ cap) := by
  obtain ⟨hc, -⟩ := Reachable.kept hft h
  constructor
  · clear h hc
    intro ts
    induction ts generalizing s with
    | nil => exact fun s' _ => Nat.zero_le _
    | cons t ts ih =>
      intro s' hrun
      rcases Option.bind_eq_some_iff.1 hrun with ⟨s₁, hs₁, hrest⟩
      exact (Nat.succ_le_succ (ih s' hrest)).trans (work_exec hs₁)
  · intro hstuck
    by_cases hab : s.aborted = true
    · exact Or.inl ⟨hab, hc.full hab⟩
    · have hrun : s.aborted = false := by simpa using hab
      have hidle : ∀ t, s.pc t = .idle := by
        by_contra hno
        rcases not_forall.1 hno with ⟨t, ht⟩
        rcases hc.progress hrun ht with ⟨u, s', hs'⟩
        rw [hstuck u] at hs'
        cases hs'
      refine Or.inr ⟨hrun, hidle, ?_⟩
      rw [(hc.order.perm fun t => by rw [hidle t]; rfl).length_eq, ← hc.count]
      exact hc.room

theorem calls_end_oneSlot : ∃ (s : State Bool) (log : List (Event Bool Call)),
    s.aborted = true ∧ called log = [(false, demandCall), (true, prefetchCall)] ∧
      (∀ (ts : List Bool) s', run (tracing Bool (slots 1)) (ts.map Action.exec) s = some s' →
        ts.length ≤ s.work) ∧
      ((∀ t, step (.exec t) s = none) →
        s.aborted = true ∧ 1 < (called log).length ∨
          s.aborted = false ∧ (∀ t, s.pc t = .idle) ∧ (called log).length ≤ 1) :=
  ⟨_, _, by decide +kernel, by decide +kernel, calls_end
    (show fetchTraceOpen 1 = some (slots 1) from rfl) (reachable_get overlapping (by decide +kernel))⟩

end

end FetchTrace

end Residctl
