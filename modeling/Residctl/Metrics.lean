import Mathlib.Algebra.BigOperators.Group.List.Basic
import Mathlib.Data.Nat.Log
import Mathlib.Data.UInt
import Residctl.Lib.Calls
import Residctl.Lib.Mutex
import Residctl.Lib.Quantile
import Residctl.Lib.Runs

/-!
# The latency histogram

`metrics.c`. The workers of the pool record their latencies under the lock of the histogram, one
statement at a time. Whatever their order, the percentile that `main` prints is the upper edge of
the bucket of the latency that has this rank (`percentile_exact`).
-/

namespace Residctl

def METRICS_LATENCY_BUCKETS : ℕ := 48

def UINT64_MAX : UInt64 := 18446744073709551615

/-- `latency_hist_t`, without its lock. -/
structure LatencyHist where
  bucketCounts : ℕ → ℕ
  count : ℕ
  sumNs : UInt64
  minNs : UInt64
  maxNs : UInt64

/-- `while (v > 1) { v >>= 1; b++; }` -/
def bucketLoop (v b : ℕ) : ℕ := if v > 1 then bucketLoop (v / 2) (b + 1) else b
termination_by v

/-- `bucket_for`: the position of the highest bit, cut to the last bucket. -/
def bucketFor (ns : UInt64) : ℕ :=
  if ns = 0 then 0
  else
    let b := bucketLoop ns.toNat 0
    if b ≥ METRICS_LATENCY_BUCKETS then METRICS_LATENCY_BUCKETS - 1 else b

/-- `latency_hist_init`; the minimum of no latency is `UINT64_MAX`. -/
def latencyHistInit : LatencyHist where
  bucketCounts := fun _ => 0
  count := 0
  sumNs := 0
  minNs := UINT64_MAX
  maxNs := 0

/-- The upper edge of bucket `b`. -/
def upperEdge (b : ℕ) : UInt64 := if b = 0 then 1 else 1 <<< UInt64.ofNat (b + 1) - 1

/-- `latency_hist_percentile_ns`; `product` is what `p * (double)h->count` is cut to. -/
def latencyHistPercentileNs (h : LatencyHist) (product : ℕ) : UInt64 :=
  if h.count = 0 then 0
  else
    let target := if product = 0 then 1 else product
    match Quantile.search h.bucketCounts target METRICS_LATENCY_BUCKETS 0 0 with
    | some b => upperEdge b
    | none => h.maxNs

namespace LatencyHist

open Calls Function Mutex Runs

/-! ## Recording -/

/-- Where a thread is in `latency_hist_record`: a counter is read and then written. -/
inductive Pc
  | idle
  | lock (ns : UInt64)
  | loadBucket (ns : UInt64)
  | storeBucket (ns : UInt64) (n : ℕ)
  | loadCount (ns : UInt64)
  | storeCount (ns : UInt64) (n : ℕ)
  | loadSum (ns : UInt64)
  | storeSum (ns sum : UInt64)
  | testMin (ns : UInt64)
  | storeMin (ns : UInt64)
  | testMax (ns : UInt64)
  | storeMax (ns : UInt64)
  | unlock
deriving DecidableEq

/-- The one lock, from the first counter to the last. -/
def Pc.holds : Pc → List Unit
  | idle | lock _ => []
  | _ => [()]

/-- One statement of a thread. -/
def Pc.exec (h : LatencyHist) : Pc → LatencyHist × Pc
  | idle => (h, idle)
  | lock ns => (h, loadBucket ns)
  | loadBucket ns => (h, storeBucket ns (h.bucketCounts (bucketFor ns)))
  | storeBucket ns n =>
    ({ h with bucketCounts := update h.bucketCounts (bucketFor ns) (n + 1) }, loadCount ns)
  | loadCount ns => (h, storeCount ns h.count)
  | storeCount ns n => ({ h with count := n + 1 }, loadSum ns)
  | loadSum ns => (h, storeSum ns h.sumNs)
  | storeSum ns sum => ({ h with sumNs := sum + ns }, testMin ns)
  | testMin ns => (h, if ns < h.minNs then storeMin ns else testMax ns)
  | storeMin ns => ({ h with minNs := ns }, testMax ns)
  | testMax ns => (h, if ns > h.maxNs then storeMax ns else unlock)
  | storeMax ns => ({ h with maxNs := ns }, unlock)
  | unlock => (h, idle)

/-- The histogram, its lock and its threads. -/
structure State (T : Type*) where
  hist : LatencyHist
  owner : Unit → Option T
  pc : T → Pc

/-- A thread calls `latency_hist_record`, or executes its next statement. -/
inductive Action (T : Type*)
  | call (t : T) (ns : UInt64)
  | exec (t : T)

variable {T : Type*}

/-- A thread goes on to `p`. -/
def State.move [DecidableEq T] (s : State T) (t : T) (hist : LatencyHist) (p : Pc) : State T :=
  { hist, owner := moveOwner Pc.holds s.owner t p, pc := update s.pc t p }

/-- A thread that waits for the lock takes it as soon as it is free. -/
def step [DecidableEq T] (a : Action T) (s : State T) : Option (State T) :=
  match a with
  | .call t ns => if s.pc t = .idle then some (s.move t s.hist (.lock ns)) else none
  | .exec t =>
    match s.pc t with
    | .idle => none
    | .lock ns => if s.owner () = none then some (s.move t s.hist (.loadBucket ns)) else none
    | p => some (s.move t (p.exec s.hist).1 (p.exec s.hist).2)

/-- The threads of a process that share the histogram. -/
def recording (T : Type*) [DecidableEq T] : Machine (State T) (Action T) where
  init := ⟨latencyHistInit, fun _ => none, fun _ => .idle⟩
  step := step

/-- A call is served when it takes the lock. -/
def note : Action T → State T → State T → List (Event T UInt64)
  | .call t ns, _, _ => [.called t ns]
  | .exec t, s, _ => (match s.pc t with | .lock ns => [ns] | _ => []).map (.served t)

/-! ## One call as a whole -/

/-- The five updates of a call. -/
def addBucket (ns : UInt64) (h : LatencyHist) : LatencyHist :=
  { h with bucketCounts := update h.bucketCounts (bucketFor ns) (h.bucketCounts (bucketFor ns) + 1) }

def addCount (h : LatencyHist) : LatencyHist := { h with count := h.count + 1 }

def addSum (ns : UInt64) (h : LatencyHist) : LatencyHist := { h with sumNs := h.sumNs + ns }

def lower (ns : UInt64) (h : LatencyHist) : LatencyHist :=
  if ns < h.minNs then { h with minNs := ns } else h

def raise (ns : UInt64) (h : LatencyHist) : LatencyHist :=
  if ns > h.maxNs then { h with maxNs := ns } else h

/-- `latency_hist_record`, when nobody disturbs it. -/
def record (h : LatencyHist) (ns : UInt64) : LatencyHist :=
  raise ns (lower ns (addSum ns (addCount (addBucket ns h))))

/-- What is left of a call at this point. -/
def Pc.rest : Pc → LatencyHist → LatencyHist
  | loadBucket ns, h => h.record ns
  | storeBucket ns n, h =>
    raise ns (lower ns (addSum ns (addCount
      { h with bucketCounts := update h.bucketCounts (bucketFor ns) (n + 1) })))
  | loadCount ns, h => raise ns (lower ns (addSum ns (addCount h)))
  | storeCount ns n, h => raise ns (lower ns (addSum ns { h with count := n + 1 }))
  | loadSum ns, h => raise ns (lower ns (addSum ns h))
  | storeSum ns sum, h => raise ns (lower ns { h with sumNs := sum + ns })
  | testMin ns, h => raise ns (lower ns h)
  | storeMin ns, h => raise ns { h with minNs := ns }
  | testMax ns, h => raise ns h
  | storeMax ns, h => { h with maxNs := ns }
  | _, h => h

/-- The latency of a call that waits for the lock. -/
def Pc.waiting : Pc → List UInt64
  | lock ns => [ns]
  | _ => []

section

variable {p : Pc} {h : LatencyHist}

theorem Pc.rest_of_not_holds {l : Unit} (hp : l ∉ p.holds) : p.rest = id := by
  cases p with
  | idle | lock => rfl
  | _ => exact absurd List.mem_cons_self hp

theorem Pc.waiting_of_holds {l : Unit} (hp : l ∈ p.holds) : p.waiting = [] := by
  cases p with
  | lock => cases hp
  | _ => rfl

/-- A statement in the critical section is one less to do. -/
theorem Pc.rest_exec (hp : () ∈ p.holds) : (p.exec h).2.rest (p.exec h).1 = p.rest h := by
  cases p with
  | idle | lock => cases hp
  | testMin ns =>
    unfold Pc.exec Pc.rest lower
    by_cases hlt : ns < h.minNs
    · simp only [if_pos hlt]
    · simp only [if_neg hlt]
  | testMax ns =>
    unfold Pc.exec Pc.rest raise
    by_cases hlt : ns > h.maxNs
    · simp only [if_pos hlt]
    · simp only [if_neg hlt]
  | _ => rfl

theorem Pc.exec_waiting (hp : () ∈ p.holds) : (p.exec h).2.waiting = [] := by
  cases p with
  | idle | lock => cases hp
  | testMin ns =>
    show (if ns < h.minNs then storeMin ns else testMax ns).waiting = []
    split <;> rfl
  | testMax ns =>
    show (if ns > h.maxNs then storeMax ns else unlock).waiting = []
    split <;> rfl
  | _ => rfl

end

/-! ## What every run keeps -/

/-- The histogram, once the holder of the lock is done, is that of the calls that have taken it. -/
structure Recorded [DecidableEq T] (s : State T) (log : List (Event T UInt64)) : Prop where
  owned : Owned Pc.holds s.owner s.pc
  order : Ordered Pc.waiting s.pc log
  hist : readAt (fun p _ => p.rest) id s.owner s.pc () s.hist =
    ((served log).map Prod.snd).foldl record latencyHistInit

/-- What a step does. -/
inductive Moves [DecidableEq T] (s : State T) : Action T → State T → Prop
  | call {t ns} (hidle : s.pc t = .idle) : Moves s (.call t ns) (s.move t s.hist (.lock ns))
  | acquire {t ns} (hpc : s.pc t = .lock ns) (hfree : s.owner () = none) :
      Moves s (.exec t) (s.move t s.hist (.loadBucket ns))
  | exec {t} (hheld : () ∈ (s.pc t).holds) :
      Moves s (.exec t) (s.move t ((s.pc t).exec s.hist).1 ((s.pc t).exec s.hist).2)

theorem note_exec {s : State T} {t : T} (hheld : () ∈ (s.pc t).holds) (s' : State T) :
    note (.exec t) s s' = [] := by
  cases hpc : s.pc t with
  | lock =>
    rw [hpc] at hheld
    cases hheld
  | _ => simp [note, hpc]

section

variable [DecidableEq T] {s s' : State T} {a : Action T} {log : List (Event T UInt64)} {t : T}

theorem moves_of_step (h : step a s = some s') : Moves s a s' := by
  cases a with
  | call t ns =>
    rw [step] at h
    split at h
    · cases h
      exact .call ‹_›
    · cases h
  | exec t =>
    rw [step] at h
    cases hpc : s.pc t with
    | idle =>
      rw [hpc] at h
      cases h
    | lock ns =>
      rw [hpc] at h
      dsimp only at h
      split at h
      · cases h
        exact .acquire hpc ‹_›
      · cases h
    | _ =>
      rw [hpc] at h
      cases h
      have hheld : () ∈ (s.pc t).holds := by simp [hpc, Pc.holds]
      have hmove := Moves.exec hheld
      rw [hpc] at hmove
      exact hmove

theorem Recorded.init : Recorded (recording T).init [] :=
  ⟨fun t l => ⟨fun h => (by cases h), fun h => (by cases h)⟩, Ordered.init fun t => rfl, rfl⟩

theorem Recorded.step (h : Recorded s log) (hstep : step a s = some s') :
    Recorded s' (log ++ note a s s') := by
  have hread := fun t p => readAt_move (f := fun p _ => p.rest) h.owned
    (fun p l => Pc.rest_of_not_holds) t p ()
  cases moves_of_step hstep with
  | @call t ns hidle =>
    refine ⟨h.owned.move (t := t) (p := .lock ns) fun l hl => (by cases hl),
      h.order.call (by rw [hidle]; rfl) rfl, ?_⟩
    have hkept := hread t (.lock ns)
    rw [if_neg (by rw [hidle]; simp [Pc.holds])] at hkept
    refine (congrFun hkept s.hist).trans (h.hist.trans ?_)
    show _ = ((served (log ++ [.called t ns])).map Prod.snd).foldl record latencyHistInit
    rw [served_call]
  | @acquire t ns hpc hfree =>
    have hnote : note (.exec t) s (s.move t s.hist (.loadBucket ns)) = [ns].map (.served t) := by
      simp [note, hpc]
    rw [hnote]
    refine ⟨h.owned.move (t := t) (p := .loadBucket ns) fun l _ => Or.inl hfree,
      h.order.serve (by rw [hpc]; rfl), ?_⟩
    have htaken := hread t (.loadBucket ns)
    rw [if_pos (Or.inl (by simp [Pc.holds]))] at htaken
    -- until now nobody held the lock
    have hold := h.hist
    rw [readAt, hfree] at hold
    refine (congrFun htaken s.hist).trans ?_
    rw [served_serve, List.map_append, List.foldl_append, ← hold]
    rfl
  | @exec t hheld =>
    rw [note_exec hheld]
    have hserve := h.order.serve (t := t) (k := []) (p := ((s.pc t).exec s.hist).2)
      (by rw [Pc.waiting_of_holds hheld, Pc.exec_waiting hheld]; rfl)
    refine ⟨h.owned.move (t := t) (p := ((s.pc t).exec s.hist).2) fun l _ =>
      Or.inr ((h.owned t l).2 hheld), hserve, ?_⟩
    have hmoved := hread t ((s.pc t).exec s.hist).2
    rw [if_pos (Or.inr hheld)] at hmoved
    have hold := h.hist
    rw [readAt_of_holds h.owned hheld] at hold
    refine (congrFun hmoved _).trans ?_
    rw [List.append_nil, ← hold]
    exact Pc.rest_exec hheld

theorem Reachable.recorded (h : Reachable ((recording T).recorded note) (s, log)) :
    Recorded s log :=
  Reachable.recorded_invariant Recorded.init (fun _ _ _ _ _ hI hstep => hI.step hstep) h

end

/-! ## What the histogram says -/

/-- The bucket of a number of nanoseconds. -/
def bucketOf (x : ℕ) : ℕ := min (METRICS_LATENCY_BUCKETS - 1) (Nat.log 2 x)

theorem bucketLoop_eq (v b : ℕ) : bucketLoop v b = b + Nat.log 2 v := by
  fun_induction bucketLoop v b with
  | case1 v b hv ih =>
    rw [ih, Nat.log_of_one_lt_of_le Nat.one_lt_two hv]
    omega
  | case2 v b hv => rw [Nat.log_of_lt (by omega), Nat.add_zero]

theorem bucketFor_eq (ns : UInt64) : bucketFor ns = bucketOf ns.toNat := by
  unfold bucketFor bucketOf METRICS_LATENCY_BUCKETS
  by_cases hns : ns = 0
  · rw [if_pos hns, hns]
    rfl
  · rw [if_neg hns, bucketLoop_eq]
    dsimp only
    split <;> omega

theorem bucketOf_mono : Monotone bucketOf := by
  intro x y hxy
  have hlog : Nat.log 2 x ≤ Nat.log 2 y := Nat.log_mono_right hxy
  unfold bucketOf
  omega

/-- The fields of a histogram of the latencies `xs`. -/
structure Summarises (h : LatencyHist) (xs : List UInt64) : Prop where
  buckets : ∀ b, h.bucketCounts b = xs.countP (bucketFor · = b)
  count : h.count = xs.length
  sum : h.sumNs = xs.sum
  min : (∀ ns ∈ xs, h.minNs ≤ ns) ∧ (h.minNs ∈ xs ∨ xs = [] ∧ h.minNs = UINT64_MAX)
  max : (∀ ns ∈ xs, ns ≤ h.maxNs) ∧ (h.maxNs ∈ xs ∨ xs = [] ∧ h.maxNs = 0)

/-- What is printed for the rank `product`. -/
structure Percentile (h : LatencyHist) (xs : List UInt64) (product : ℕ) : Prop where
  empty : xs = [] → latencyHistPercentileNs h product = 0
  edge : ∀ x, (Quantile.sorted (xs.map UInt64.toNat))[product - 1]? = some x →
    latencyHistPercentileNs h product = upperEdge (bucketOf x)
  /-- a latency that has a bucket of its own is at most doubled -/
  close : ∀ x, (Quantile.sorted (xs.map UInt64.toNat))[product - 1]? = some x →
    x < 2 ^ METRICS_LATENCY_BUCKETS → x ≤ (latencyHistPercentileNs h product).toNat ∧
      (latencyHistPercentileNs h product).toNat ≤ max 1 (2 * x - 1)
  beyond : xs.length < product → latencyHistPercentileNs h product = h.maxNs

section

variable {h : LatencyHist} {xs ys : List UInt64}

theorem Summarises.init : Summarises latencyHistInit [] :=
  ⟨fun _ => rfl, rfl, rfl, ⟨fun _ hx => absurd hx List.not_mem_nil, Or.inr ⟨rfl, rfl⟩⟩,
    ⟨fun _ hx => absurd hx List.not_mem_nil, Or.inr ⟨rfl, rfl⟩⟩⟩

theorem record_eq (h : LatencyHist) (ns : UInt64) : h.record ns =
    { bucketCounts := update h.bucketCounts (bucketFor ns) (h.bucketCounts (bucketFor ns) + 1)
      count := h.count + 1
      sumNs := h.sumNs + ns
      minNs := if ns < h.minNs then ns else h.minNs
      maxNs := if ns > h.maxNs then ns else h.maxNs } := by
  have hlower : ∀ g : LatencyHist, lower ns g =
      { g with minNs := if ns < g.minNs then ns else g.minNs } := by
    intro g
    unfold lower
    split <;> rfl
  have hraise : ∀ g : LatencyHist, raise ns g =
      { g with maxNs := if ns > g.maxNs then ns else g.maxNs } := by
    intro g
    unfold raise
    split <;> rfl
  rw [LatencyHist.record, hraise, hlower]
  rfl

theorem Summarises.record (hs : Summarises h xs) (ns : UInt64) :
    Summarises (h.record ns) (xs ++ [ns]) := by
  obtain ⟨hbuckets, hcount, hsum, ⟨hminle, hmin⟩, hmaxle, hmax⟩ := hs
  rw [record_eq]
  refine ⟨fun b => ?_, ?_, ?_, ?_, ?_⟩
  · rw [List.countP_append, List.countP_singleton, ← hbuckets]
    by_cases hb : b = bucketFor ns
    · subst hb
      simp
    · simp [update_of_ne hb, Ne.symm hb]
  · rw [List.length_append, ← hcount]
    rfl
  · rw [List.sum_append, ← hsum, List.sum_singleton]
  · dsimp only
    by_cases hlt : ns < h.minNs
    · rw [if_pos hlt]
      refine ⟨fun x hx => ?_, Or.inl (by simp)⟩
      rcases List.mem_append.1 hx with hx | hx
      · exact UInt64.le_of_lt (UInt64.lt_of_lt_of_le hlt (hminle x hx))
      · rw [List.mem_singleton.1 hx]
        exact UInt64.le_refl ns
    · rw [if_neg hlt]
      refine ⟨fun x hx => ?_, Or.inl ?_⟩
      · rcases List.mem_append.1 hx with hx | hx
        · exact hminle x hx
        · rw [List.mem_singleton.1 hx]
          exact UInt64.not_lt.1 hlt
      · rcases hmin with hmem | ⟨rfl, heq⟩
        · exact List.mem_append_left _ hmem
        · -- the first latency is `UINT64_MAX` itself
          have hle : ns ≤ h.minNs := by
            rw [heq]
            exact UInt64.le_iff_toNat_le.2 (Nat.le_of_lt_succ ns.toNat_lt)
          rw [UInt64.le_antisymm (UInt64.not_lt.1 hlt) hle]
          simp
  · dsimp only
    by_cases hlt : ns > h.maxNs
    · rw [if_pos hlt]
      refine ⟨fun x hx => ?_, Or.inl (by simp)⟩
      rcases List.mem_append.1 hx with hx | hx
      · exact UInt64.le_of_lt (UInt64.lt_of_le_of_lt (hmaxle x hx) hlt)
      · rw [List.mem_singleton.1 hx]
        exact UInt64.le_refl ns
    · rw [if_neg hlt]
      refine ⟨fun x hx => ?_, Or.inl ?_⟩
      · rcases List.mem_append.1 hx with hx | hx
        · exact hmaxle x hx
        · rw [List.mem_singleton.1 hx]
          exact UInt64.not_lt.1 hlt
      · rcases hmax with hmem | ⟨rfl, heq⟩
        · exact List.mem_append_left _ hmem
        · have hle : h.maxNs ≤ ns := by
            rw [heq]
            exact UInt64.le_iff_toNat_le.2 (Nat.zero_le _)
          rw [UInt64.le_antisymm hle (UInt64.not_lt.1 hlt)]
          simp

theorem Summarises.foldl (hs : Summarises h xs) (ys : List UInt64) :
    Summarises (ys.foldl LatencyHist.record h) (xs ++ ys) := by
  induction ys generalizing h xs with
  | nil =>
    rw [List.append_nil]
    exact hs
  | cons y ys ih =>
    rw [List.append_cons]
    exact ih (hs.record y)

theorem Summarises.perm (hs : Summarises h xs) (hperm : xs.Perm ys) : Summarises h ys where
  buckets b := (hs.buckets b).trans (hperm.countP_eq _)
  count := hs.count.trans hperm.length_eq
  sum := hs.sum.trans hperm.sum_eq
  min := ⟨fun x hx => hs.min.1 x (hperm.mem_iff.2 hx),
    hs.min.2.imp hperm.mem_iff.1 fun hnil => ⟨(hnil.1 ▸ hperm).nil_eq.symm, hnil.2⟩⟩
  max := ⟨fun x hx => hs.max.1 x (hperm.mem_iff.2 hx),
    hs.max.2.imp hperm.mem_iff.1 fun hnil => ⟨(hnil.1 ▸ hperm).nil_eq.symm, hnil.2⟩⟩

theorem upperEdge_toNat {b : ℕ} (hb : b < METRICS_LATENCY_BUCKETS) :
    (upperEdge b).toNat = if b = 0 then 1 else 2 ^ (b + 1) - 1 := by
  have hall : ∀ b : Fin METRICS_LATENCY_BUCKETS,
      (upperEdge b).toNat = if b.1 = 0 then 1 else 2 ^ (b.1 + 1) - 1 := by
    decide +kernel
  exact hall ⟨b, hb⟩

/-- The upper edge of a bucket is less than twice what lies in it. -/
theorem upperEdge_bucketOf {x : ℕ} (hx : x < 2 ^ METRICS_LATENCY_BUCKETS) :
    x ≤ (upperEdge (bucketOf x)).toNat ∧
      (upperEdge (bucketOf x)).toNat ≤ max 1 (2 * x - 1) := by
  have hlog : Nat.log 2 x < METRICS_LATENCY_BUCKETS := by
    by_cases hzero : x = 0
    · rw [hzero]
      decide
    · exact Nat.log_lt_of_lt_pow hzero hx
  have hbucket : bucketOf x = Nat.log 2 x := by
    unfold bucketOf
    omega
  rw [hbucket, upperEdge_toNat hlog]
  by_cases hone : Nat.log 2 x = 0
  · rw [if_pos hone]
    have hlt := (Nat.log_eq_zero_iff.1 hone).resolve_right (by decide)
    omega
  · rw [if_neg hone]
    have hpow := Nat.pow_log_le_self 2 (x := x) (fun hzero => hone (by rw [hzero]; rfl))
    have hnext := Nat.lt_pow_succ_log_self (b := 2) (by decide) x
    rw [Nat.pow_succ] at *
    omega

theorem Summarises.percentile (hs : Summarises h xs) (product : ℕ) : Percentile h xs product := by
  have hcounts : ∀ b, h.bucketCounts b = (xs.map UInt64.toNat).countP (bucketOf · = b) := by
    intro b
    rw [hs.buckets, List.countP_map]
    refine List.countP_congr fun x _ => ?_
    simp [bucketFor_eq]
  have hbelow : 0 = (xs.map UInt64.toNat).countP (bucketOf · < 0) :=
    (List.countP_eq_zero.2 fun x _ => by simp).symm
  -- rank 0 is raised to 1
  have htarget : (if product = 0 then 1 else product) - 1 = product - 1 := by
    split <;> omega
  have hpos : 0 < if product = 0 then 1 else product := by
    split <;> omega
  have hedge : ∀ x, (Quantile.sorted (xs.map UInt64.toNat))[product - 1]? = some x →
      latencyHistPercentileNs h product = upperEdge (bucketOf x) := by
    intro x hx
    have hne : h.count ≠ 0 := by
      have hlt := (List.getElem?_eq_some_iff.1 hx).1
      rw [Quantile.length_sorted, List.length_map] at hlt
      rw [hs.count]
      omega
    have hsearch : Quantile.search h.bucketCounts (if product = 0 then 1 else product)
        METRICS_LATENCY_BUCKETS 0 0 = some (bucketOf x) :=
      Quantile.search_eq bucketOf_mono hcounts hbelow hpos (by rw [htarget]; exact hx)
        fun y _ => Nat.lt_succ_of_le (Nat.min_le_left _ _)
    unfold latencyHistPercentileNs
    rw [if_neg hne]
    dsimp only
    rw [hsearch]
  refine ⟨fun hnil => ?_, hedge, fun x hx hlt => ?_, fun hbeyond => ?_⟩
  · rw [latencyHistPercentileNs, if_pos (by rw [hs.count, hnil]; rfl)]
  · rw [hedge x hx]
    exact upperEdge_bucketOf hlt
  · unfold latencyHistPercentileNs
    by_cases hzero : h.count = 0
    · rw [if_pos hzero]
      rw [hs.count] at hzero
      rcases hs.max.2 with hmem | ⟨-, hmax⟩
      · rw [List.eq_nil_of_length_eq_zero hzero] at hmem
        cases hmem
      · exact hmax.symm
    · have hnone : Quantile.search h.bucketCounts (if product = 0 then 1 else product)
          METRICS_LATENCY_BUCKETS 0 0 = none := by
        refine Quantile.search_eq_none hcounts hbelow ?_
        rw [List.length_map]
        split <;> omega
      rw [if_neg hzero]
      dsimp only
      rw [hnone]

end

section

variable [DecidableEq T] {s : State T} {log : List (Event T UInt64)}

/-- When no call is in progress the histogram is that of all calls, however the threads took
turns, and a percentile is the edge of the bucket of the latency with its rank. -/
theorem percentile_exact (h : Reachable ((recording T).recorded note) (s, log))
    (hidle : ∀ t, s.pc t = .idle) :
    Summarises s.hist ((called log).map Prod.snd) ∧
      ∀ product, Percentile s.hist ((called log).map Prod.snd) product := by
  have hr := Reachable.recorded h
  have hhist : s.hist = ((served log).map Prod.snd).foldl record latencyHistInit := by
    rw [← hr.hist, readAt]
    cases howner : s.owner () with
    | none => rfl
    | some t =>
      have hheld := (hr.owned t ()).1 howner
      rw [hidle t] at hheld
      cases hheld
  have hserved : Summarises s.hist ((served log).map Prod.snd) := by
    rw [hhist]
    exact Summarises.init.foldl _
  have hcalled := hserved.perm ((hr.order.perm fun t => by rw [hidle t]; rfl).symm.map Prod.snd)
  exact ⟨hcalled, hcalled.percentile⟩

/-- Thread `true` waits for the lock while thread `false` writes a counter. -/
def twoLatencies : List (Action Bool) :=
  [.call false 1000, .exec false, .exec false, .call true 5] ++ List.replicate 10 (.exec false) ++
    List.replicate 11 (.exec true)

theorem twoLatencies_runs : (run ((recording Bool).recorded note) twoLatencies
    ((recording Bool).recorded note).init).isSome = true := by
  decide +kernel

theorem percentile_exact_twoLatencies : ∃ (s : State Bool) (log : List (Event Bool UInt64)),
    called log = [(false, 1000), (true, 5)] ∧ Summarises s.hist ((called log).map Prod.snd) ∧
      ∀ product, Percentile s.hist ((called log).map Prod.snd) product :=
  ⟨_, _, by decide +kernel, percentile_exact (reachable_get twoLatencies twoLatencies_runs)
    (by decide +kernel)⟩

end

end LatencyHist

end Residctl
