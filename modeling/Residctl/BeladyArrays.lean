import Residctl.BeladyHeap
import Residctl.Lib.Cells

/-!
# The arrays of the solver

`belady.c`: `belady_simulate` on the arrays that it allocates, with the heap of `BeladyHeap` and
`cache_size` in `uint32_t`. Every access is checked, and a loop that is still running after
`fuel` iterations is `none`.

`beladySimulate_eq`: this is `Belady.beladySimulate`, the solver over functions that its
optimality is proved for. `solver_exact`: what follows for the arrays.
-/

namespace Residctl.BeladyArrays

open Belady (HeapEntry INF)
open BeladyHeap (HeapT heapInit heapPush heapPopMax)
open Cells Function

/-! ## The function -/

/-- What `malloc` leaves in its blocks. -/
structure Garbage where
  word : ℕ → ℕ
  entry : ℕ → HeapEntry

/-- `malloc(count * sizeof(uint64_t))`: the product is a `size_t`. -/
def mallocWords (garbage : Garbage) (count : ℕ) : Array ℕ :=
  Array.ofFn fun i : Fin (count * 8 % 2 ^ 64 / 8) => garbage.word i

/-- The loop that counts the occurrences. -/
def countLoop (ref : List ℕ) (occCount : Array ℕ) : Option (Array ℕ) :=
  ref.foldlM (fun occCount c => do
    let k ← read occCount c
    write occCount c (k + 1)) occCount

/-- `occurrence`: one array for each chunk, `NULL` for a chunk that does not occur. -/
def mallocRows (garbage : Garbage) (occCount : Array ℕ) : Array (Array ℕ) :=
  occCount.map fun k => if k = 0 then #[] else mallocWords garbage k

/-- `occurrence[c][fill_idx[c]++] = i` -/
def fillStep (st : Array (Array ℕ) × Array ℕ) (p : ℕ × ℕ) : Option (Array (Array ℕ) × Array ℕ) := do
  let row ← read st.1 p.1
  let k ← read st.2 p.1
  let row ← write row k p.2
  let rows ← write st.1 p.1 row
  let fillIdx ← write st.2 p.1 (k + 1)
  return (rows, fillIdx)

/-- The loop that lists the positions of each chunk. -/
def fillLoop (ref : List ℕ) (rows : Array (Array ℕ)) (fillIdx : Array ℕ) :
    Option (Array (Array ℕ) × Array ℕ) :=
  ref.zipIdx.foldlM fillStep (rows, fillIdx)

/-- The local variables of the main loop. -/
structure Sim where
  misses : ℕ
  cacheSize : ℕ
  readPtr : Array ℕ
  currentPriority : Array ℕ
  inCache : Array Bool
  heap : HeapT

/-- The entry is the live entry of a cached chunk. -/
def isLive (s : Sim) (top : HeapEntry) : Option Bool := do
  let cached ← read s.inCache top.chunkId
  if cached then
    let priority ← read s.currentPriority top.chunkId
    return priority = top.priority
  else return false

/-- The eviction loop, with `pops` iterations left. -/
def evictLoop (fuel : ℕ) : ℕ → Sim → Option Sim
  | 0, _ => none
  | pops + 1, s => do
    let (out, heap) ← heapPopMax fuel s.heap
    match out with
    | none => return { s with heap := heap }
    | some top =>
      if ← isLive s top then
        let inCache ← write s.inCache top.chunkId false
        return { s with heap := heap, inCache := inCache,
                        cacheSize := (s.cacheSize + (2 ^ 32 - 1)) % 2 ^ 32 }
      else evictLoop fuel pops { s with heap := heap }

/-- `next_pos`. -/
def nextPos (occCount : Array ℕ) (rows : Array (Array ℕ)) (readPtr : Array ℕ) (c : ℕ) :
    Option ℕ := do
  let k ← read readPtr c
  let count ← read occCount c
  if k < count then
    let row ← read rows c
    read row k
  else return INF

/-- A miss makes room in a full cache. -/
def makeRoom (fuel capacity : ℕ) (s : Sim) : Option Sim :=
  if s.cacheSize = capacity then evictLoop fuel fuel s else some s

/-- A miss takes the room there is. -/
def load (fuel capacity next c : ℕ) (s : Sim) : Option Sim :=
  if s.cacheSize < capacity then do
    let inCache ← write s.inCache c true
    let currentPriority ← write s.currentPriority c next
    let heap ← heapPush fuel s.heap next c
    return { s with inCache := inCache, cacheSize := (s.cacheSize + 1) % 2 ^ 32,
                    currentPriority := currentPriority, heap := heap }
  else some s

/-- One iteration of the main loop, at a reference to `c`. -/
def simStep (fuel : ℕ) (occCount : Array ℕ) (rows : Array (Array ℕ)) (capacity : ℕ) (s : Sim)
    (c : ℕ) : Option Sim := do
  let k ← read s.readPtr c
  let readPtr ← write s.readPtr c (k + 1)
  let next ← nextPos occCount rows readPtr c
  let s := { s with readPtr := readPtr }
  let cached ← read s.inCache c
  if cached then
    let currentPriority ← write s.currentPriority c next
    let heap ← heapPush fuel s.heap next c
    return { s with currentPriority := currentPriority, heap := heap }
  else
    let s ← makeRoom fuel capacity { s with misses := s.misses + 1 }
    load fuel capacity next c s

/-- `belady_simulate(ref, ref.length, capacity)`. -/
def beladySimulate (garbage : Garbage) (fuel : ℕ) (ref : List ℕ) (capacity : ℕ) :
    Option Belady.Result :=
  if ref.length = 0 then some ⟨0, 0⟩
  else do
    let n := Belady.nChunks ref
    let occCount ← countLoop ref (Array.replicate n 0)
    let (rows, _) ← fillLoop ref (mallocRows garbage occCount) (Array.replicate n 0)
    let s ← ref.foldlM (simStep fuel occCount rows capacity)
      { misses := 0
        cacheSize := 0
        readPtr := Array.replicate n 0
        currentPriority := Array.replicate n 0
        inCache := Array.replicate n false
        heap := heapInit garbage.entry (ref.length + 1) }
    return ⟨s.misses, ref.length⟩

/-! ## The occurrence lists -/

variable {ref pre rest : List ℕ} {n cells c capacity fuel : ℕ} {occCount : Array ℕ}
  {rows : Array (Array ℕ)}

theorem countLoop_holds {f : ℕ → ℕ} (hocc : Holds occCount n f) (hids : ∀ c ∈ ref, c < n) :
    ∃ occCount', countLoop ref occCount = some occCount' ∧
      Holds occCount' n fun c => f c + ref.count c := by
  induction ref generalizing occCount f with
  | nil => exact ⟨occCount, rfl, hocc⟩
  | cons x ref ih =>
    have hx : x < n := hids x List.mem_cons_self
    rcases hocc.write hx (f x + 1) with ⟨occCount₁, hwrite, hocc₁⟩
    rcases ih hocc₁ fun c hc => hids c (List.mem_cons_of_mem x hc) with ⟨occCount', hrun, hocc'⟩
    refine ⟨occCount', ?_, hocc'.congr fun c _ => ?_⟩
    · rw [countLoop, List.foldlM_cons, hocc.read hx]
      simp only [Option.bind_eq_bind, Option.bind_some, hwrite]
      exact hrun
    · by_cases hc : c = x
      · subst hc
        rw [update_self, List.count_cons_self]
        omega
      · rw [update_of_ne hc, List.count_cons_of_ne (Ne.symm hc)]

/-- An id past the end of the array is where the loop leaves it. -/
theorem countLoop_eq_none {f : ℕ → ℕ} (hocc : Holds occCount n f) (hout : ∃ c ∈ ref, n ≤ c) :
    countLoop ref occCount = none := by
  induction ref generalizing occCount f with
  | nil =>
    rcases hout with ⟨c, hc, -⟩
    cases hc
  | cons x ref ih =>
    rw [countLoop, List.foldlM_cons]
    by_cases hx : x < n
    · rcases hocc.write hx (f x + 1) with ⟨occCount₁, hwrite, hocc₁⟩
      rw [hocc.read hx]
      simp only [Option.bind_eq_bind, Option.bind_some, hwrite]
      refine ih hocc₁ ?_
      rcases hout with ⟨c, hc, hle⟩
      rcases List.mem_cons.1 hc with rfl | hc
      · exact absurd hx (Nat.not_lt.2 hle)
      · exact ⟨c, hc, hle⟩
    · rw [hocc.read_eq_none (Nat.not_lt.1 hx)]
      rfl

/-- The array of a chunk lists its positions in `pre`, and has room for `m`. -/
structure Lists (row : Array ℕ) (m : ℕ) (l : List ℕ) : Prop where
  size : row.size = m
  listed : l <+: row.toList

theorem Lists.write {row : Array ℕ} {m : ℕ} {l : List ℕ} (h : Lists row m l) (hl : l.length < m)
    (x : ℕ) : ∃ row', Cells.write row l.length x = some row' ∧ Lists row' m (l ++ [x]) := by
  have hlt : l.length < row.size := by rwa [h.size]
  refine ⟨row.setIfInBounds l.length x, if_pos hlt, by simp [h.size], ?_⟩
  rcases h.listed with ⟨t, ht⟩
  cases t with
  | nil =>
    rw [List.append_nil] at ht
    rw [ht] at hlt
    exact absurd hlt (by simp)
  | cons y t =>
    refine ⟨t, ?_⟩
    rw [Array.toList_setIfInBounds, ← ht, List.set_append_right _ _ le_rfl]
    simp

/-- A full array is the list. -/
theorem Lists.eq {row : Array ℕ} {m : ℕ} {l : List ℕ} (h : Lists row m l) (hl : l.length = m) :
    row = l.toArray := by
  have hlist : l = row.toList := h.listed.eq_of_length (by rw [hl, Array.length_toList, h.size])
  rw [hlist]

/-- After the references `pre` of `ref`. -/
structure Filled (ref pre : List ℕ) (n : ℕ) (rows : Array (Array ℕ)) (fillIdx : Array ℕ) :
    Prop where
  rows : ∃ R, Holds rows n R ∧ ∀ c, Lists (R c) (ref.count c) (Belady.positionsFrom c 0 pre)
  fillIdx : Holds fillIdx n pre.count

theorem fillStep_filled {fillIdx : Array ℕ} (href : ref = pre ++ c :: rest) (hc : c < n)
    (h : Filled ref pre n rows fillIdx) :
    ∃ rows' fillIdx', fillStep (rows, fillIdx) (c, pre.length) = some (rows', fillIdx') ∧
      Filled ref (pre ++ [c]) n rows' fillIdx' := by
  rcases h.rows with ⟨R, hrows, hlists⟩
  have hlen : (Belady.positionsFrom c 0 pre).length = pre.count c :=
    Belady.length_positionsFrom c pre 0
  have hroom : (Belady.positionsFrom c 0 pre).length < ref.count c := by
    rw [hlen, href, List.count_append, List.count_cons_self]
    omega
  rcases (hlists c).write hroom pre.length with ⟨row, hrow, hlist⟩
  rcases hrows.write hc row with ⟨rows', hrows', hh⟩
  rcases h.fillIdx.write hc (pre.count c + 1) with ⟨fillIdx', hfill', hhf⟩
  rw [hlen] at hrow
  refine ⟨rows', fillIdx', ?_, ⟨_, hh, ?_⟩, hhf.congr ?_⟩
  · simp [fillStep, hrows.read hc, h.fillIdx.read hc, hrow, hrows', hfill']
  · intro x
    rw [Belady.positionsFrom_append, Nat.zero_add]
    by_cases hx : x = c
    · subst hx
      rw [update_self]
      simpa [Belady.positionsFrom] using hlist
    · rw [update_of_ne hx]
      simpa [Belady.positionsFrom, Ne.symm hx] using hlists x
  · intro x _
    by_cases hx : x = c
    · subst hx
      simp
    · have hnone : [c].count x = 0 := List.count_eq_zero_of_not_mem (by simpa using hx)
      rw [update_of_ne hx, List.count_append, hnone, Nat.add_zero]

theorem fillLoop_filled {fillIdx : Array ℕ} (href : ref = pre ++ rest) (hids : ∀ c ∈ ref, c < n)
    (h : Filled ref pre n rows fillIdx) :
    ∃ rows' fillIdx', (rest.zipIdx pre.length).foldlM fillStep (rows, fillIdx) =
      some (rows', fillIdx') ∧ Filled ref ref n rows' fillIdx' := by
  induction rest generalizing pre rows fillIdx with
  | nil =>
    rw [List.append_nil] at href
    subst href
    exact ⟨rows, fillIdx, rfl, h⟩
  | cons c rest ih =>
    have hc : c < n := hids c (by simp [href])
    rcases fillStep_filled href hc h with ⟨rows₁, fillIdx₁, hstep, h₁⟩
    rcases ih (by simpa using href) h₁ with ⟨rows', fillIdx', hrun, h'⟩
    refine ⟨rows', fillIdx', ?_, h'⟩
    rw [List.zipIdx_cons, List.foldlM_cons, hstep]
    simpa using hrun

theorem mallocWords_size (garbage : Garbage) {count : ℕ} (h : count * 8 < 2 ^ 64) :
    (mallocWords garbage count).size = count := by
  rw [mallocWords, Array.size_ofFn, Nat.mod_eq_of_lt h]
  exact Nat.mul_div_cancel count (by decide)

/-- The two loops before the main one leave the lists of the positions. -/
theorem fillLoop_holds (garbage : Garbage) (hocc : Holds occCount n ref.count)
    (hids : ∀ c ∈ ref, c < n) (hlen : ref.length * 8 < 2 ^ 64) :
    ∃ rows fillIdx, fillLoop ref (mallocRows garbage occCount) (Array.replicate n 0) =
      some (rows, fillIdx) ∧ Holds rows n fun c => (Belady.occurrence ref c).toArray := by
  have hrow : ∀ c, Lists (if ref.count c = 0 then #[] else mallocWords garbage (ref.count c))
      (ref.count c) (Belady.positionsFrom c 0 []) := by
    intro c
    refine ⟨?_, List.nil_prefix⟩
    split_ifs with h0
    · exact h0.symm
    · exact mallocWords_size garbage ((Nat.mul_le_mul_right 8 List.count_le_length).trans_lt hlen)
  have hinit : Filled ref [] n (mallocRows garbage occCount) (Array.replicate n 0) := by
    refine ⟨⟨_, holds_map hocc _, hrow⟩, (holds_replicate n 0).congr ?_⟩
    intro c _
    exact List.count_nil.symm
  rcases fillLoop_filled (List.nil_append ref).symm hids hinit with ⟨rows, fillIdx, hrun, hfilled⟩
  rcases hfilled.rows with ⟨R, hrows, hlists⟩
  refine ⟨rows, fillIdx, hrun, hrows.congr fun c _ => ?_⟩
  rw [Belady.occurrence_eq]
  exact (hlists c).eq (Belady.length_positionsFrom c ref 0)

/-! ## The main loop -/

variable {s : Sim} {a : Belady.Sim} {C : Finset ℕ}

/-- The arrays of `n` chunks, and the heap in its block, hold what the functions of `a` say. -/
structure Sim.Holds (s : Sim) (n cells : ℕ) (a : Belady.Sim) : Prop where
  misses : s.misses = a.misses
  cacheSize : s.cacheSize = a.cacheSize
  readPtr : Cells.Holds s.readPtr n a.readPtr
  currentPriority : Cells.Holds s.currentPriority n a.currentPriority
  inCache : Cells.Holds s.inCache n a.inCache
  heap : s.heap.Holds cells a.heap
  /-- What is popped indexes the arrays. -/
  ids : ∀ e ∈ a.heap.entries, e.chunkId < n

theorem isLive_holds {top : HeapEntry} (hh : s.Holds n cells a) (htop : top.chunkId < n) :
    isLive s top =
      some (decide (a.inCache top.chunkId = true ∧
        a.currentPriority top.chunkId = top.priority)) := by
  simp only [isLive, Option.bind_eq_bind, Option.bind_some, hh.inCache.read htop, hh.currentPriority.read htop]
  by_cases hcached : a.inCache top.chunkId = true <;> simp [hcached]

/-- The eviction loop pops one entry an iteration, and `cache_size--` does not wrap: a live entry
is that of a cached chunk. -/
theorem evictLoop_holds {pops : ℕ} (hh : s.Holds n cells a) (hord : a.heap.Ordered)
    (hcached : ∀ c, a.inCache c = true → 0 < a.cacheSize) (hsize : a.cacheSize < 2 ^ 32)
    (hfuel : cells < 2 ^ fuel) (hpops : a.heap.size < pops) :
    ∃ s', evictLoop fuel pops s = some s' ∧ s'.Holds n cells (Belady.evictVictim a) := by
  induction a using Belady.evictVictim.induct generalizing s pops with
  | case1 a hpop =>
    rcases Nat.exists_eq_succ_of_ne_zero (Nat.ne_zero_of_lt hpops) with ⟨pops, rfl⟩
    rw [Belady.evictVictim_of_empty hpop, evictLoop,
      BeladyHeap.heapPopMax_empty hh.heap (Belady.heapPopMax_eq_none.1 hpop)]
    exact ⟨s, rfl, hh⟩
  | case2 a top heap hpop hlive =>
    rcases Nat.exists_eq_succ_of_ne_zero (Nat.ne_zero_of_lt hpops) with ⟨pops, rfl⟩
    rcases BeladyHeap.heapPopMax_holds hh.heap hfuel hpop with ⟨h', hrun, hh'⟩
    rcases Belady.heapPopMax_spec hord hpop with ⟨hent, -, -⟩
    have htop : top.chunkId < n := hh.ids top (by simp [hent])
    rcases hh.inCache.write htop false with ⟨inCache, hwrite, hin⟩
    have hpos := hcached _ hlive.1
    have hdec : (s.cacheSize + (2 ^ 32 - 1)) % 2 ^ 32 = a.cacheSize - 1 := by
      rw [hh.cacheSize]
      omega
    rw [Belady.evictVictim_of_live hpop hlive]
    refine ⟨{ s with heap := h', inCache := inCache, cacheSize := a.cacheSize - 1 }, ?_,
      hh.misses, rfl, hh.readPtr, hh.currentPriority, hin, hh', ?_⟩
    · simp only [evictLoop, hrun, isLive_holds hh htop, hlive, hwrite, hdec, Option.bind_eq_bind,
        Option.bind_some, and_self, decide_true, if_true]
      rfl
    · intro e he
      exact hh.ids e (by simp [hent, he])
  | case3 a top heap hpop hstale ih =>
    rcases Nat.exists_eq_succ_of_ne_zero (Nat.ne_zero_of_lt hpops) with ⟨pops, rfl⟩
    rcases BeladyHeap.heapPopMax_holds hh.heap hfuel hpop with ⟨h', hrun, hh'⟩
    rcases Belady.heapPopMax_spec hord hpop with ⟨hent, hord', -⟩
    have htop : top.chunkId < n := hh.ids top (by simp [hent])
    have hless : heap.size + 1 = a.heap.size := by
      have hcard := congrArg Multiset.card hent
      simpa [Belady.Heap.entries, BinHeap.card_entries] using hcard.symm
    have hnext : Sim.Holds { s with heap := h' } n cells { a with heap := heap } :=
      ⟨hh.misses, hh.cacheSize, hh.readPtr, hh.currentPriority, hh.inCache, hh', fun e he =>
        hh.ids e (by simp [hent, he])⟩
    have hpops' : heap.size < pops := by omega
    rcases ih hnext hord' hcached hsize hpops' with ⟨s', hloop, hh''⟩
    rw [Belady.evictVictim_of_stale hpop hstale]
    refine ⟨s', ?_, hh''⟩
    rw [evictLoop, hrun]
    simpa [isLive_holds hh htop, hstale] using hloop

theorem nextPos_holds {readPtr : Array ℕ} {r : ℕ → ℕ} (hocc : Holds occCount n ref.count)
    (hrows : Holds rows n fun c => (Belady.occurrence ref c).toArray)
    (hread : Holds readPtr n r) (hc : c < n) :
    nextPos occCount rows readPtr c = some ((Belady.occurrence ref c).getD (r c) INF) := by
  have hlen : (Belady.occurrence ref c).length = ref.count c := by
    rw [Belady.occurrence_eq, Belady.length_positionsFrom]
  simp only [nextPos, hread.read hc, hocc.read hc, hrows.read hc, Option.bind_eq_bind,
    Option.bind_some, List.getD_eq_getElem?_getD]
  by_cases hk : r c < ref.count c
  · rw [if_pos hk]
    simp [Cells.read, hlen, hk]
  · rw [if_neg hk, List.getElem?_eq_none (by rw [hlen]; exact Nat.not_lt.1 hk)]
    rfl

/-- What the loop does to record a use of `c`. -/
theorem Sim.Holds.record (hh : s.Holds n cells a) (hc : c < n) (hroom : a.heap.size < cells)
    (hfuel : cells < 2 ^ fuel) (next : ℕ) :
    ∃ currentPriority heap, write s.currentPriority c next = some currentPriority ∧
      heapPush fuel s.heap next c = some heap ∧
      Sim.Holds { s with currentPriority := currentPriority, heap := heap } n cells
        { a with currentPriority := update a.currentPriority c next,
                 heap := Belady.heapPush a.heap next c } := by
  rcases hh.currentPriority.write hc next with ⟨currentPriority, hwrite, hprio⟩
  rcases BeladyHeap.heapPush_holds hh.heap hroom hfuel next c with ⟨heap, hpush, hheap⟩
  refine ⟨currentPriority, heap, hwrite, hpush, hh.misses, hh.cacheSize, hh.readPtr, hprio,
    hh.inCache, hheap, ?_⟩
  intro e he
  rw [Belady.heapPush_entries, Multiset.mem_cons] at he
  rcases he with rfl | he
  · exact hc
  · exact hh.ids e he

/-- The eviction loop only pops. -/
theorem makeRoom_holds (hh : s.Holds n cells a) (hord : a.heap.Ordered)
    (hcached : ∀ c, a.inCache c = true → 0 < a.cacheSize) (hsize : a.cacheSize < 2 ^ 32)
    (hfuel : cells < 2 ^ fuel) (hpops : a.heap.size < fuel) :
    ∃ s', makeRoom fuel capacity s = some s' ∧
      s'.Holds n cells (if a.cacheSize = capacity then Belady.evictVictim a else a) ∧
      (if a.cacheSize = capacity then Belady.evictVictim a else a).heap.size ≤ a.heap.size := by
  rw [makeRoom, hh.cacheSize]
  split_ifs
  · rcases evictLoop_holds hh hord hcached hsize hfuel hpops with ⟨s', hrun, hh'⟩
    exact ⟨s', hrun, hh', (BeladyHeap.evictVictim_calls a).size_le⟩
  · exact ⟨s, rfl, hh, le_rfl⟩

/-- `cache_size++` does not wrap. -/
theorem load_holds (hh : s.Holds n cells a) (hc : c < n) (hroom : a.heap.size < cells)
    (hfuel : cells < 2 ^ fuel) (hcap : capacity < 2 ^ 32) (next : ℕ) :
    ∃ s', load fuel capacity next c s = some s' ∧
      s'.Holds n cells (if a.cacheSize < capacity then
        { a with inCache := update a.inCache c true, cacheSize := a.cacheSize + 1,
                 currentPriority := update a.currentPriority c next,
                 heap := Belady.heapPush a.heap next c } else a) := by
  rw [load, hh.cacheSize]
  split_ifs with hless
  · rcases hh.record hc hroom hfuel next with ⟨currentPriority, heap, hprio, hpush, hh'⟩
    rcases hh.inCache.write hc true with ⟨inCache, hwrite, hin⟩
    have hinc : (a.cacheSize + 1) % 2 ^ 32 = a.cacheSize + 1 := Nat.mod_eq_of_lt (by omega)
    refine ⟨{ s with inCache := inCache, cacheSize := a.cacheSize + 1,
                     currentPriority := currentPriority, heap := heap }, ?_, hh'.misses, rfl,
      hh'.readPtr, hh'.currentPriority, hin, hh'.heap, hh'.ids⟩
    simp only [hwrite, hprio, hpush, hinc, Option.bind_eq_bind, Option.bind_some]
    rfl
  · exact ⟨s, rfl, hh⟩

/-- One iteration: the accesses are within the arrays, and the state is that of the functions. -/
theorem simStep_holds (hocc : Holds occCount n ref.count)
    (hrows : Holds rows n fun c => (Belady.occurrence ref c).toArray) (hh : s.Holds n cells a)
    (hinv : Belady.SimInv capacity pre rest C a) (hc : c < n) (hcap : capacity < 2 ^ 32)
    (hroom : a.heap.size < cells) (hfuel : cells < 2 ^ fuel) (hpops : cells ≤ fuel) :
    ∃ s', simStep fuel occCount rows capacity s c = some s' ∧
      s'.Holds n cells (Belady.simStep (Belady.occurrence ref) capacity a c) := by
  rcases hh.readPtr.write hc (a.readPtr c + 1) with ⟨readPtr, hwrite, hread⟩
  have hnext := nextPos_holds hocc hrows hread hc
  set next := (Belady.occurrence ref c).getD (update a.readPtr c (a.readPtr c + 1) c) INF
  have hcons : Sim.Holds { s with readPtr := readPtr } n cells
      { a with readPtr := update a.readPtr c (a.readPtr c + 1) } :=
    ⟨hh.misses, hh.cacheSize, hread, hh.currentPriority, hh.inCache, hh.heap, hh.ids⟩
  have hsmall : a.cacheSize < 2 ^ 32 := by
    rw [hinv.size]
    exact hinv.fits.trans_lt hcap
  have hpos : ∀ x, a.inCache x = true → 0 < a.cacheSize := by
    intro x hx
    rw [hinv.size]
    exact Finset.card_pos.2 ⟨x, (hinv.cached x).1 hx⟩
  simp only [simStep, Belady.simStep, hh.readPtr.read hc, hwrite, hnext, hh.inCache.read hc,
    Option.bind_eq_bind, Option.bind_some]
  by_cases hcached : a.inCache c = true
  · -- a hit
    rw [if_pos hcached, if_pos hcached]
    rcases hcons.record hc hroom hfuel next with ⟨currentPriority, heap, hprio, hpush, hh'⟩
    exact ⟨_, by simp [hprio, hpush], hh'⟩
  · -- a miss, which makes room first
    rw [if_neg hcached, if_neg hcached]
    have hmiss : Sim.Holds { s with readPtr := readPtr, misses := s.misses + 1 } n cells
        { a with readPtr := update a.readPtr c (a.readPtr c + 1), misses := a.misses + 1 } :=
      ⟨congrArg (· + 1) hh.misses, hcons.cacheSize, hread, hh.currentPriority, hh.inCache,
        hh.heap, hh.ids⟩
    rcases makeRoom_holds hmiss hinv.ordered hpos hsmall hfuel (hroom.trans_le hpops) with
      ⟨s₁, hrun, hh₁, hsize⟩
    rcases load_holds hh₁ hc (hsize.trans_lt hroom) hfuel hcap next with ⟨s', hload, hh'⟩
    refine ⟨s', ?_, hh'⟩
    rw [hrun]
    exact hload

/-- The main loop. -/
theorem foldlM_simStep_holds (hocc : Holds occCount n ref.count)
    (hrows : Holds rows n fun c => (Belady.occurrence ref c).toArray) (hids : ∀ c ∈ ref, c < n)
    (hlen : ref.length ≤ INF) (hcap : capacity < 2 ^ 32) (hfuel : cells < 2 ^ fuel)
    (hpops : cells ≤ fuel) (href : ref = pre ++ rest) (hh : s.Holds n cells a)
    (hinv : Belady.SimInv capacity pre rest C a) (hroom : a.heap.size + rest.length ≤ cells) :
    ∃ s', rest.foldlM (simStep fuel occCount rows capacity) s = some s' ∧
      s'.misses = (rest.foldl (Belady.simStep (Belady.occurrence ref) capacity) a).misses := by
  induction rest generalizing pre C s a with
  | nil => exact ⟨s, rfl, hh.misses⟩
  | cons c rest ih =>
    rw [List.length_cons] at hroom
    have hc : c < n := hids c (by simp [href])
    rcases simStep_holds hocc hrows hh hinv hc hcap (by omega) hfuel hpops with ⟨s₁, hstep, hh₁⟩
    rcases Belady.simStep_spec ref href hlen hinv with ⟨C₁, -, hinv₁, -⟩
    have hsize := (BeladyHeap.simStep_calls (Belady.occurrence ref) capacity a c).size_le
    rcases ih (by simpa using href) hh₁ hinv₁ (by omega) with ⟨s', hrun, hmisses⟩
    refine ⟨s', ?_, hmisses⟩
    rw [List.foldlM_cons, hstep]
    exact hrun

theorem Init_holds (garbage : ℕ → HeapEntry) (cap : ℕ)
    (hcap : cap * BeladyHeap.SIZEOF_HEAP_ENTRY < 2 ^ 64) :
    Sim.Holds
      { misses := 0
        cacheSize := 0
        readPtr := Array.replicate n 0
        currentPriority := Array.replicate n 0
        inCache := Array.replicate n false
        heap := heapInit garbage cap } n cap Belady.simInit where
  misses := rfl
  cacheSize := rfl
  readPtr := holds_replicate n 0
  currentPriority := holds_replicate n 0
  inCache := holds_replicate n false
  heap := by
    have hinit := BeladyHeap.heapInit_holds garbage cap
    rw [BeladyHeap.allocated_eq hcap] at hinit
    exact hinit
  ids e he := by
    simp [Belady.simInit, Belady.heapInit, Belady.Heap.entries, BinHeap.entries] at he

/-- The arrays of `belady_simulate` refine the functions of `Belady.beladySimulate`, for any
contents of the memory that `malloc` returns. -/
theorem beladySimulate_eq (garbage : Garbage) (ref : List ℕ) (capacity fuel : ℕ)
    (hlen : (ref.length + 1) * BeladyHeap.SIZEOF_HEAP_ENTRY < 2 ^ 64) (hcap : capacity < 2 ^ 32)
    (hfuel : ref.length + 1 ≤ fuel) :
    beladySimulate garbage fuel ref capacity = Belady.beladySimulate ref capacity := by
  have hsize : (ref.length + 1) * 16 < 2 ^ 64 := hlen
  rw [beladySimulate, Belady.beladySimulate]
  split_ifs with h0 hout
  · rfl
  · have hout' : ∃ c ∈ ref, Belady.nChunks ref ≤ c := by simpa using hout
    simp only [countLoop_eq_none (holds_replicate _ 0) hout']
    rfl
  · have hids : ∀ c ∈ ref, c < Belady.nChunks ref := by simpa using hout
    rcases countLoop_holds (holds_replicate (Belady.nChunks ref) 0) hids with
      ⟨occCount, hcount, hocc⟩
    have hocc' := hocc.congr fun c _ => Nat.zero_add (ref.count c)
    rcases fillLoop_holds garbage hocc' hids (by omega) with ⟨rows, fillIdx, hfill, hrows⟩
    have hpow : ref.length + 1 < 2 ^ fuel := hfuel.trans_lt Nat.lt_two_pow_self
    rcases foldlM_simStep_holds hocc' hrows hids (by unfold INF; omega) hcap hpow hfuel
      (List.nil_append ref).symm (Init_holds garbage.entry _ hlen)
      (Belady.simInit_inv capacity ref) (by simp [Belady.simInit, Belady.heapInit])
      with ⟨s, hrun, hmisses⟩
    simp only [hcount, hfill, hrun, hmisses, Option.bind_eq_bind, Option.bind_some]
    rfl

/-- `n_chunks` is a `uint32_t`. -/
theorem nChunks_le (ref : List ℕ) : Belady.nChunks ref ≤ 2 ^ 32 - 1 := by
  have hstep : ∀ k ≤ 2 ^ 32 - 1, ∀ c ∈ ref,
      (if (c + 1) % 2 ^ 32 > k then (c + 1) % 2 ^ 32 else k) ≤ 2 ^ 32 - 1 := by
    intro k hk c _
    have hmod : (c + 1) % 2 ^ 32 < 2 ^ 32 := Nat.mod_lt _ (by decide)
    split_ifs <;> omega
  exact List.foldlRecOn (motive := (· ≤ 2 ^ 32 - 1)) ref _ (Nat.zero_le _) hstep

/-- `n_chunks` wraps to 0 for the id `UINT32_MAX`, or stays below it. -/
theorem beladySimulate_max (garbage : Garbage)
    (hlen : (ref.length + 1) * BeladyHeap.SIZEOF_HEAP_ENTRY < 2 ^ 64) (hcap : capacity < 2 ^ 32)
    (hfuel : ref.length + 1 ≤ fuel) (hmax : 2 ^ 32 - 1 ∈ ref) :
    beladySimulate garbage fuel ref capacity = none := by
  have hne : ref.length ≠ 0 := (List.length_pos_of_mem hmax).ne'
  have hout : (ref.any fun c => decide (Belady.nChunks ref ≤ c)) = true :=
    List.any_eq_true.2 ⟨_, hmax, decide_eq_true (nChunks_le ref)⟩
  rw [beladySimulate_eq garbage ref capacity fuel hlen hcap hfuel, Belady.beladySimulate,
    if_neg hne, if_pos hout]

theorem beladySimulate_furthest (garbage : Garbage) (hids : ∀ c ∈ ref, c < 2 ^ 32)
    (hlen : (ref.length + 1) * BeladyHeap.SIZEOF_HEAP_ENTRY < 2 ^ 64) (hcap : capacity < 2 ^ 32)
    (hfuel : ref.length + 1 ≤ fuel) (hmax : 2 ^ 32 - 1 ∉ ref) :
    ∃ misses, beladySimulate garbage fuel ref capacity = some ⟨misses, ref.length⟩ ∧
      Paging.Furthest capacity (∅ : Finset ℕ) ref misses := by
  have hlen' : ref.length < 2 ^ 64 := by
    unfold BeladyHeap.SIZEOF_HEAP_ENTRY at hlen
    omega
  have hlt : ∀ c ∈ ref, c < 2 ^ 32 - 1 := by
    intro c hc
    have hne : c ≠ 2 ^ 32 - 1 := fun h => hmax (h ▸ hc)
    have := hids c hc
    omega
  rcases Belady.beladySimulate_furthest capacity hlt hlen' with ⟨r, hr, hfur⟩
  refine ⟨r.misses, ?_, hfur⟩
  rw [beladySimulate_eq garbage ref capacity fuel hlen hcap hfuel, hr]
  unfold Belady.beladySimulate at hr
  split_ifs at hr with h0
  · cases hr
    rw [h0]
  · cases hr
    rfl

/-- The solver leaves its arrays exactly when an id is `UINT32_MAX`. On any other string of ids
its loops end, it reads nothing that was not written, and its misses are the fewest of any
demand-paging schedule. -/
theorem solver_exact (garbage : Garbage) (ref : List ℕ) (capacity fuel : ℕ)
    (hids : ∀ c ∈ ref, c < 2 ^ 32)
    (hlen : (ref.length + 1) * BeladyHeap.SIZEOF_HEAP_ENTRY < 2 ^ 64) (hcap : capacity < 2 ^ 32)
    (hfuel : ref.length + 1 ≤ fuel) :
    (beladySimulate garbage fuel ref capacity = none ↔ 2 ^ 32 - 1 ∈ ref) ∧
    (2 ^ 32 - 1 ∉ ref → ∃ misses,
      beladySimulate garbage fuel ref capacity = some ⟨misses, ref.length⟩ ∧
      IsLeast {m | Paging.Demand (fun _ => 1) capacity (∅ : Finset ℕ) ref m} misses) := by
  have hsome := beladySimulate_furthest garbage hids hlen hcap hfuel
  refine ⟨⟨fun hnone => ?_, beladySimulate_max garbage hlen hcap hfuel⟩, fun hmax => ?_⟩
  · by_contra hmax
    rcases hsome hmax with ⟨misses, hrun, -⟩
    rw [hrun] at hnone
    cases hnone
  · rcases hsome hmax with ⟨misses, hrun, hfur⟩
    exact ⟨misses, hrun, hfur.isLeast⟩

theorem solver_exact_cyclic :
    (beladySimulate ⟨fun _ => 7, fun _ => ⟨9, 5⟩⟩ 7 [0, 1, 2, 0, 1, 2] 2 = none ↔
      2 ^ 32 - 1 ∈ [0, 1, 2, 0, 1, 2]) ∧
    (2 ^ 32 - 1 ∉ [0, 1, 2, 0, 1, 2] → ∃ misses,
      beladySimulate ⟨fun _ => 7, fun _ => ⟨9, 5⟩⟩ 7 [0, 1, 2, 0, 1, 2] 2 =
        some ⟨misses, [0, 1, 2, 0, 1, 2].length⟩ ∧
      IsLeast {m | Paging.Demand (fun _ => 1) 2 (∅ : Finset ℕ) [0, 1, 2, 0, 1, 2] m} misses) :=
  solver_exact ⟨fun _ => 7, fun _ => ⟨9, 5⟩⟩ [0, 1, 2, 0, 1, 2] 2 7 (by decide) (by decide)
    (by decide) (by decide)

/-- What `malloc` left in the arrays is never read. -/
example : beladySimulate ⟨fun _ => 7, fun _ => ⟨9, 5⟩⟩ 7 [0, 1, 2, 0, 1, 2] 2 = some ⟨4, 6⟩ := by
  decide +kernel

end Residctl.BeladyArrays
