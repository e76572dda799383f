import Mathlib.Data.List.Basic
import Residctl.Lib.Heap
import Residctl.Lib.Paging

/-!
# The offline optimal solver

`belady.c`: a forward pass over the reference string with a lazily deleted
max-heap keyed on each cached chunk's next occurrence. The arrays indexed by
chunk id are functions; `beladySimulate` returns `none` exactly when the source
would index them out of bounds (`n_chunks` is computed in 32 bits).

The solver is related to `Paging.Furthest`: a run of `simStep` over the rest of
the string is a furthest-in-future run from the current cache.
-/

namespace Residctl.Belady

open Function BinHeap Paging

/-- `UINT64_MAX`, the priority of a chunk never used again. -/
def INF : ℕ := 2 ^ 64 - 1

structure HeapEntry where
  priority : ℕ
  chunkId : ℕ
deriving DecidableEq, Repr

structure Heap where
  data : ℕ → HeapEntry
  size : ℕ

def heapInit : Heap := ⟨fun _ => ⟨0, 0⟩, 0⟩

def heapPush (h : Heap) (priority chunkId : ℕ) : Heap where
  data := siftUp HeapEntry.priority (update h.data h.size ⟨priority, chunkId⟩) h.size
  size := h.size + 1

/-- `none` for the return value 0 (empty heap). -/
def heapPopMax (h : Heap) : Option (HeapEntry × Heap) :=
  if h.size = 0 then none
  else some (h.data 0,
    { data := siftDown HeapEntry.priority (h.size - 1) (update h.data 0 (h.data (h.size - 1))) 0
      size := h.size - 1 })

/-- `occurrence[c]`: the positions of `c` in `ref`, in increasing order. -/
def occurrence (ref : List ℕ) : ℕ → List ℕ :=
  ref.zipIdx.foldl (fun occ p => update occ p.1 (occ p.1 ++ [p.2])) fun _ => []

/-- `n_chunks`: one past the largest id, in `uint32_t` arithmetic. -/
def nChunks (ref : List ℕ) : ℕ :=
  ref.foldl (fun n c => if (c + 1) % 2 ^ 32 > n then (c + 1) % 2 ^ 32 else n) 0

/-- The local variables of the main loop. -/
structure Sim where
  misses : ℕ
  cacheSize : ℕ
  readPtr : ℕ → ℕ
  currentPriority : ℕ → ℕ
  inCache : ℕ → Bool
  heap : Heap

def simInit : Sim where
  misses := 0
  cacheSize := 0
  readPtr := fun _ => 0
  currentPriority := fun _ => 0
  inCache := fun _ => false
  heap := heapInit

/-- The eviction loop: pop until the popped entry is live, then evict its chunk.
Stale entries (chunk evicted since, or priority changed by a hit) are dropped. -/
def evictVictim (s : Sim) : Sim :=
  match _h : heapPopMax s.heap with
  | none => s
  | some (top, heap) =>
    if s.inCache top.chunkId = true ∧ s.currentPriority top.chunkId = top.priority then
      { s with heap := heap, inCache := update s.inCache top.chunkId false,
               cacheSize := s.cacheSize - 1 }
    else evictVictim { s with heap := heap }
termination_by s.heap.size
decreasing_by
  unfold heapPopMax at _h
  split at _h
  · cases _h
  · cases _h
    show s.heap.size - 1 < s.heap.size
    omega

/-- One iteration of the main loop, at a reference to `c`. -/
def simStep (occ : ℕ → List ℕ) (capacity : ℕ) (s : Sim) (c : ℕ) : Sim :=
  let readPtr := update s.readPtr c (s.readPtr c + 1)
  let nextPos := (occ c).getD (readPtr c) INF
  let s := { s with readPtr := readPtr }
  if s.inCache c then
    { s with currentPriority := update s.currentPriority c nextPos,
             heap := heapPush s.heap nextPos c }
  else
    let s := { s with misses := s.misses + 1 }
    let s := if s.cacheSize = capacity then evictVictim s else s
    if s.cacheSize < capacity then
      { s with inCache := update s.inCache c true, cacheSize := s.cacheSize + 1,
               currentPriority := update s.currentPriority c nextPos,
               heap := heapPush s.heap nextPos c }
    else s

structure Result where
  misses : ℕ
  totalRefs : ℕ
deriving DecidableEq, Repr

/-- `(uint32_t)(budget_bytes / chunk_size)`, the capacity that the solver's callers pass. -/
def slots (budgetBytes chunkSize : ℕ) : ℕ := budgetBytes / chunkSize % 2 ^ 32

theorem slots_lt (budgetBytes chunkSize : ℕ) : slots budgetBytes chunkSize < 2 ^ 32 :=
  Nat.mod_lt _ (by decide)

theorem slots_of_lt {budgetBytes chunkSize : ℕ} (h : budgetBytes / chunkSize < 2 ^ 32) :
    slots budgetBytes chunkSize = budgetBytes / chunkSize := Nat.mod_eq_of_lt h

/-- `belady_simulate(ref, ref.length, capacity)`. -/
def beladySimulate (ref : List ℕ) (capacity : ℕ) : Option Result :=
  if ref.length = 0 then some ⟨0, 0⟩
  else if ref.any fun c => nChunks ref ≤ c then none
  else some ⟨(ref.foldl (simStep (occurrence ref) capacity) simInit).misses, ref.length⟩

/-! ## The heap -/

def Heap.entries (h : Heap) : Multiset HeapEntry := BinHeap.entries h.size h.data

def Heap.Ordered (h : Heap) : Prop := IsHeap HeapEntry.priority h.size h.data

theorem heapInit_ordered : heapInit.Ordered := fun _ _ hi => absurd hi (Nat.not_lt_zero _)

theorem Heap.ordered_of_size_eq_zero {h : Heap} (h0 : h.size = 0) : h.Ordered :=
  fun _ _ hi => absurd hi (by simp [h0])

theorem heapPush_entries (h : Heap) (p c : ℕ) :
    (heapPush h p c).entries = ⟨p, c⟩ ::ₘ h.entries := by
  rw [Heap.entries, heapPush, entries_siftUp _ _ (Nat.lt_succ_self _), entries_succ, update_self]
  congr 1
  exact entries_congr fun k hk => update_of_ne (Nat.ne_of_lt hk) _ _

theorem heapPush_ordered {h : Heap} (hh : h.Ordered) (p c : ℕ) : (heapPush h p c).Ordered := by
  have hup : UpTo HeapEntry.priority (h.size + 1) (update h.data h.size ⟨p, c⟩) h.size := by
    refine ⟨fun j hj hjs hne => ?_, fun j hj hjs hp hpos => ?_⟩
    · rw [update_of_ne hne, update_of_ne (by omega)]
      exact hh j hj (by omega)
    · omega
  exact siftUp_isHeap _ _ hup (Nat.lt_succ_self _)

theorem heapPopMax_eq_none {h : Heap} : heapPopMax h = none ↔ h.size = 0 := by
  unfold heapPopMax
  split_ifs with hs <;> simp [hs]

/-- A pop removes one entry, of maximal priority, and keeps the heap order. -/
theorem heapPopMax_spec {h h' : Heap} {top : HeapEntry} (hh : h.Ordered)
    (hpop : heapPopMax h = some (top, h')) :
    h.entries = top ::ₘ h'.entries ∧ h'.Ordered ∧ ∀ e ∈ h.entries, e.priority ≤ top.priority := by
  unfold heapPopMax at hpop
  split at hpop
  · cases hpop
  rename_i hsize
  obtain ⟨rfl, rfl⟩ := Prod.mk.inj (Option.some.inj hpop)
  obtain ⟨k, hk⟩ := Nat.exists_eq_succ_of_ne_zero hsize
  simp only [Heap.entries, Heap.Ordered] at *
  simp only [hk, Nat.succ_eq_add_one, Nat.add_sub_cancel] at *
  have hlast : ∀ i < k, BinHeap.swap h.data 0 k i = update h.data 0 (h.data k) i := by
    intro i hi
    rcases Nat.eq_zero_or_pos i with rfl | hpos
    · simp
    · rw [swap_of_ne _ (by omega) (by omega), update_of_ne (by omega)]
  refine ⟨?_, ?_, fun e he => ?_⟩
  · rw [← entries_swap h.data (Nat.succ_pos k) (Nat.lt_succ_self k), entries_succ, swap_right]
    congr 1
    rcases Nat.eq_zero_or_pos k with rfl | hpos
    · rfl
    · rw [entries_siftDown _ _ hpos, entries_congr hlast]
  · rcases Nat.eq_zero_or_pos k with rfl | hpos
    · exact fun i _ hi => absurd hi (Nat.not_lt_zero _)
    · refine siftDown_isHeap _ _ ⟨fun j hj hjs hne => ?_, fun j hj hjs hp hpos => ?_⟩ hpos
      · rw [update_of_ne (by omega), update_of_ne hne]
        exact hh j hj (by omega)
      · omega
  · obtain ⟨i, hi, rfl⟩ := mem_entries.1 he
    exact hh.le_root _ i hi

/-! ## Occurrence lists -/

/-- The positions of `c` in `refs`, counted from `k`. -/
def positionsFrom (c : ℕ) : ℕ → List ℕ → List ℕ
  | _, [] => []
  | k, x :: xs => if x = c then k :: positionsFrom c (k + 1) xs else positionsFrom c (k + 1) xs

theorem positionsFrom_append (c : ℕ) (xs ys : List ℕ) :
    ∀ k, positionsFrom c k (xs ++ ys) =
      positionsFrom c k xs ++ positionsFrom c (k + xs.length) ys := by
  induction xs with
  | nil => simp [positionsFrom]
  | cons x xs ih =>
    intro k
    simp only [List.cons_append, positionsFrom, ih, List.length_cons]
    have hk : k + 1 + xs.length = k + (xs.length + 1) := by omega
    split_ifs <;> simp [hk]

theorem length_positionsFrom (c : ℕ) (xs : List ℕ) :
    ∀ k, (positionsFrom c k xs).length = xs.count c := by
  induction xs with
  | nil => simp [positionsFrom]
  | cons x xs ih =>
    intro k
    by_cases hx : x = c
    · simp [positionsFrom, hx, ih]
    · simp [positionsFrom, hx, ih, List.count_cons_of_ne hx]

theorem positionsFrom_head (c : ℕ) (xs : List ℕ) :
    ∀ k, (positionsFrom c k xs).getD 0 INF = nextUse INF c k xs := by
  induction xs with
  | nil => simp [positionsFrom, nextUse]
  | cons x xs ih =>
    intro k
    by_cases hx : x = c
    · simp [positionsFrom, nextUse, hx]
    · have hk : k + 1 + xs.idxOf c = k + (xs.idxOf c + 1) := by omega
      rw [positionsFrom, if_neg hx, ih]
      simp [nextUse, List.idxOf_cons_ne _ hx, Ne.symm hx, hk]

theorem occurrence_eq (ref : List ℕ) (c : ℕ) : occurrence ref c = positionsFrom c 0 ref := by
  suffices h : ∀ (xs : List ℕ) (k : ℕ) (occ : ℕ → List ℕ),
      (xs.zipIdx k).foldl (fun (occ : ℕ → List ℕ) p => update occ p.1 (occ p.1 ++ [p.2])) occ c =
        occ c ++ positionsFrom c k xs by
    exact h ref 0 fun _ => []
  intro xs
  induction xs with
  | nil => simp [positionsFrom]
  | cons x xs ih =>
    intro k occ
    simp only [List.zipIdx_cons, List.foldl_cons, ih, positionsFrom]
    by_cases hx : x = c
    · subst hx; simp
    · rw [if_neg hx, update_of_ne (Ne.symm hx)]

/-- After the references `pre` and one to `c`, the next unconsumed occurrence of
`c` is its first use in the rest. -/
theorem occurrence_getD (pre rest : List ℕ) (c : ℕ) :
    (occurrence (pre ++ c :: rest) c).getD (pre.count c + 1) INF =
      nextUse INF c (pre.length + 1) rest := by
  have hcons : positionsFrom c pre.length (c :: rest) =
      pre.length :: positionsFrom c (pre.length + 1) rest := by simp [positionsFrom]
  rw [occurrence_eq, positionsFrom_append, Nat.zero_add, hcons,
    ← length_positionsFrom c pre 0, List.getD_eq_getElem?_getD,
    List.getElem?_append_right (Nat.le_succ _), ← positionsFrom_head]
  simp

/-! ## The eviction loop -/

section

variable {s : Sim} {top : HeapEntry} {heap : Heap}

theorem evictVictim_of_empty (hpop : heapPopMax s.heap = none) : evictVictim s = s := by
  rw [evictVictim]
  split
  · rfl
  · rename_i h
    rw [hpop] at h
    cases h

theorem evictVictim_of_live (hpop : heapPopMax s.heap = some (top, heap))
    (hlive : s.inCache top.chunkId = true ∧ s.currentPriority top.chunkId = top.priority) :
    evictVictim s = { s with heap := heap, inCache := update s.inCache top.chunkId false,
                             cacheSize := s.cacheSize - 1 } := by
  rw [evictVictim]
  split
  · rename_i h
    rw [hpop] at h
    cases h
  · rename_i h
    rw [hpop] at h
    cases h
    rw [if_pos hlive]

theorem evictVictim_of_stale (hpop : heapPopMax s.heap = some (top, heap))
    (hstale : ¬ (s.inCache top.chunkId = true ∧ s.currentPriority top.chunkId = top.priority)) :
    evictVictim s = evictVictim { s with heap := heap } := by
  rw [evictVictim]
  split
  · rename_i h
    rw [hpop] at h
    cases h
  · rename_i h
    rw [hpop] at h
    cases h
    rw [if_neg hstale]

end

/-! ## The simulation is a furthest-in-future run -/

/-- The loop invariant with `pre` consumed, `rest` ahead and cache `C`. -/
structure SimInv (capacity : ℕ) (pre rest : List ℕ) (C : Finset ℕ) (s : Sim) : Prop where
  cached : ∀ c, s.inCache c = true ↔ c ∈ C
  size : s.cacheSize = C.card
  fits : C.card ≤ capacity
  read : ∀ c, s.readPtr c = pre.count c
  prio : ∀ c ∈ C, s.currentPriority c = nextUse INF c pre.length rest
  ordered : s.heap.Ordered
  /-- Every cached chunk has a live heap entry. -/
  live : ∀ c ∈ C, ⟨s.currentPriority c, c⟩ ∈ s.heap.entries

theorem simInit_inv (capacity : ℕ) (ref : List ℕ) : SimInv capacity [] ref ∅ simInit where
  cached := by simp [simInit]
  size := rfl
  fits := by simp
  read := by simp [simInit]
  prio := by simp
  ordered := heapInit_ordered
  live := by simp

/-- The eviction loop evicts a cached chunk of maximal priority and keeps the
live entries of all others. -/
theorem evictVictim_spec (s : Sim) {C : Finset ℕ} (hC : C.Nonempty)
    (hcached : ∀ c, s.inCache c = true ↔ c ∈ C) (hord : s.heap.Ordered)
    (hlive : ∀ c ∈ C, ⟨s.currentPriority c, c⟩ ∈ s.heap.entries) :
    ∃ f ∈ C, ∃ heap : Heap, (∀ c ∈ C, s.currentPriority c ≤ s.currentPriority f) ∧
      evictVictim s = { s with heap := heap, inCache := update s.inCache f false,
                               cacheSize := s.cacheSize - 1 } ∧
      heap.Ordered ∧ ∀ c ∈ C.erase f, ⟨s.currentPriority c, c⟩ ∈ heap.entries := by
  induction s using evictVictim.induct with
  | case1 s hpop =>
    obtain ⟨c, hc⟩ := hC
    have hmem := hlive c hc
    rw [Heap.entries, heapPopMax_eq_none.1 hpop] at hmem
    exact absurd hmem (Multiset.notMem_zero _)
  | case2 s top heap hpop hvalid =>
    obtain ⟨hent, hord', hmax⟩ := heapPopMax_spec hord hpop
    refine ⟨top.chunkId, (hcached _).1 hvalid.1, heap, fun c hc => ?_,
      evictVictim_of_live hpop hvalid, hord', fun c hc => ?_⟩
    · rw [hvalid.2]
      exact hmax _ (hlive c hc)
    · have hmem := hlive c (Finset.mem_of_mem_erase hc)
      rw [hent, Multiset.mem_cons] at hmem
      rcases hmem with htop | hmem
      · exact absurd (congrArg HeapEntry.chunkId htop) (Finset.ne_of_mem_erase hc)
      · exact hmem
  | case3 s top heap hpop hstale ih =>
    obtain ⟨hent, hord', -⟩ := heapPopMax_spec hord hpop
    have hlive' : ∀ c ∈ C, ⟨s.currentPriority c, c⟩ ∈ heap.entries := by
      intro c hc
      have hmem := hlive c hc
      rw [hent, Multiset.mem_cons] at hmem
      rcases hmem with htop | hmem
      · exact absurd ⟨by rw [← htop]; exact (hcached c).2 hc, by rw [← htop]⟩ hstale
      · exact hmem
    obtain ⟨f, hf, heap', hmax, heq, hrest⟩ := ih hcached hord' hlive'
    exact ⟨f, hf, heap', hmax, (evictVictim_of_stale hpop hstale).trans heq, hrest⟩

/-- With nothing cached every entry is stale: the loop drains the heap. -/
theorem evictVictim_empty (s : Sim) (hcached : ∀ c, s.inCache c = true ↔ c ∈ (∅ : Finset ℕ)) :
    evictVictim s = { s with heap := (evictVictim s).heap } ∧ (evictVictim s).heap.size = 0 := by
  induction s using evictVictim.induct with
  | case1 s hpop =>
    rw [evictVictim_of_empty hpop]
    exact ⟨rfl, heapPopMax_eq_none.1 hpop⟩
  | case2 s top heap hpop hvalid => exact absurd ((hcached _).1 hvalid.1) (Finset.notMem_empty _)
  | case3 s top heap hpop hstale ih =>
    rw [evictVictim_of_stale hpop hstale]
    exact ih hcached

variable {capacity : ℕ} {pre rest : List ℕ} {c : ℕ} {C : Finset ℕ} {s : Sim}

theorem SimInv.read_cons (h : SimInv capacity pre (c :: rest) C s) {read' : ℕ → ℕ}
    (hread : read' = update s.readPtr c (s.readPtr c + 1)) (x : ℕ) :
    read' x = (pre ++ [c]).count x := by
  rw [hread]
  by_cases hx : x = c
  · subst hx; simp [h.read]
  · rw [update_of_ne hx, h.read, List.count_append,
      List.count_eq_zero_of_not_mem (l := [c]) (by simpa using hx), Nat.add_zero]

/-- Recording a use of `c`: priority set to its next use, and a heap entry pushed. -/
theorem SimInv.record {n : ℕ} (h : SimInv capacity pre (c :: rest) C s)
    (hfits : (insert c C).card ≤ capacity) {s' : Sim}
    (hcached : ∀ x, s'.inCache x = true ↔ x ∈ insert c C)
    (hsize : s'.cacheSize = (insert c C).card)
    (hread : s'.readPtr = update s.readPtr c (s.readPtr c + 1))
    (hn : n = nextUse INF c (pre.length + 1) rest)
    (hprio : s'.currentPriority = update s.currentPriority c n)
    (hheap : s'.heap = heapPush s.heap n c) :
    SimInv capacity (pre ++ [c]) rest (insert c C) s' where
  cached := hcached
  size := hsize
  fits := hfits
  read := h.read_cons hread
  prio x hx := by
    rw [hprio, List.length_append, List.length_singleton]
    by_cases hxc : x = c
    · subst hxc; rw [update_self, hn]
    · rw [update_of_ne hxc, h.prio x ((Finset.mem_insert.1 hx).resolve_left hxc),
        nextUse_cons_ne hxc]
  ordered := hheap ▸ heapPush_ordered h.ordered n c
  live x hx := by
    rw [hheap, heapPush_entries, hprio, Multiset.mem_cons]
    by_cases hxc : x = c
    · subst hxc; rw [update_self]; exact Or.inl rfl
    · rw [update_of_ne hxc]
      exact Or.inr (h.live x ((Finset.mem_insert.1 hx).resolve_left hxc))

/-- Loading `c` into a free slot. -/
theorem SimInv.load {n : ℕ} (h : SimInv capacity pre (c :: rest) C s) (hc : c ∉ C)
    (hroom : C.card < capacity) {s' : Sim} (hin : s'.inCache = update s.inCache c true)
    (hsize : s'.cacheSize = s.cacheSize + 1)
    (hread : s'.readPtr = update s.readPtr c (s.readPtr c + 1))
    (hn : n = nextUse INF c (pre.length + 1) rest)
    (hprio : s'.currentPriority = update s.currentPriority c n)
    (hheap : s'.heap = heapPush s.heap n c) :
    SimInv capacity (pre ++ [c]) rest (insert c C) s' := by
  have hcard : (insert c C).card = C.card + 1 := Finset.card_insert_of_notMem hc
  refine h.record (by omega) (fun x => ?_) (by rw [hsize, h.size, hcard]) hread hn hprio hheap
  rw [hin]
  by_cases hx : x = c
  · subst hx; simp
  · simp [h.cached, hx]

/-- Dropping a chunk from the cache, with the heap that is left after the pops. -/
theorem SimInv.evict (h : SimInv capacity pre rest C s) {f : ℕ} (hf : f ∈ C) {heap : Heap}
    (hord : heap.Ordered) (hlive : ∀ c ∈ C.erase f, ⟨s.currentPriority c, c⟩ ∈ heap.entries) :
    SimInv capacity pre rest (C.erase f)
      { s with heap := heap, inCache := update s.inCache f false,
               cacheSize := s.cacheSize - 1 } where
  cached x := by
    by_cases hx : x = f
    · subst hx; simp
    · simp [h.cached, hx]
  size := by
    show s.cacheSize - 1 = _
    rw [h.size, Finset.card_erase_of_mem hf]
  fits := (Finset.card_le_card (Finset.erase_subset f C)).trans h.fits
  read := h.read
  prio x hx := h.prio x (Finset.mem_of_mem_erase hx)
  ordered := hord
  live := hlive

/-- One iteration is one furthest-in-future move. -/
theorem simStep_spec (ref : List ℕ) (href : ref = pre ++ c :: rest) (hlen : ref.length ≤ INF)
    (h : SimInv capacity pre (c :: rest) C s) :
    ∃ C' k, SimInv capacity (pre ++ [c]) rest C' (simStep (occurrence ref) capacity s c) ∧
      (simStep (occurrence ref) capacity s c).misses = s.misses + k ∧
      ∀ m, Furthest capacity C' rest m → Furthest capacity C (c :: rest) (m + k) := by
  have hnext : (occurrence ref c).getD (update s.readPtr c (s.readPtr c + 1) c) INF =
      nextUse INF c (pre.length + 1) rest := by
    rw [update_self, h.read, href, occurrence_getD]
  have hrest : pre.length + 1 + rest.length ≤ INF := by
    rw [href] at hlen
    simp only [List.length_append, List.length_cons] at hlen
    omega
  unfold simStep
  simp only [hnext]
  by_cases hc : c ∈ C
  · -- hit
    rw [if_pos ((h.cached c).2 hc)]
    have hins : insert c C = C := Finset.insert_eq_of_mem hc
    refine ⟨insert c C, 0, h.record ?_ ?_ ?_ rfl rfl rfl rfl, rfl, fun m hm => ?_⟩
    · rw [hins]; exact h.fits
    · rw [hins]; exact h.cached
    · rw [hins]; exact h.size
    · rw [hins] at hm
      exact Furthest.hit hc hm
  rw [if_neg (fun hh => hc ((h.cached c).1 hh))]
  by_cases hfull : C.card = capacity
  · have hfull' : s.cacheSize = capacity := h.size.trans hfull
    simp only [if_pos hfull']
    rcases C.eq_empty_or_nonempty with rfl | hne
    · -- capacity 0: nothing is ever cached
      have hcap : capacity = 0 := hfull.symm.trans Finset.card_empty
      subst hcap
      obtain ⟨heq, hempty⟩ := evictVictim_empty
        { s with readPtr := update s.readPtr c (s.readPtr c + 1), misses := s.misses + 1 } h.cached
      rw [if_neg (Nat.not_lt_zero _), heq]
      refine ⟨∅, 1, ⟨h.cached, h.size, le_rfl, h.read_cons rfl, by simp,
        Heap.ordered_of_size_eq_zero hempty, by simp⟩, rfl,
        fun m hm => Furthest.bypass hc rfl hm⟩
    · obtain ⟨f, hf, heap, hmax, heq, hord, hlive⟩ :=
        evictVictim_spec { s with readPtr := update s.readPtr c (s.readPtr c + 1),
                                  misses := s.misses + 1 } hne h.cached h.ordered h.live
      have hcard := Finset.card_erase_of_mem hf
      have hpos := Finset.card_pos.2 hne
      have hce : c ∉ C.erase f := fun hh => hc (Finset.mem_of_mem_erase hh)
      have hev := h.evict hf hord hlive
      rw [heq, if_pos (by simp only [h.size]; omega)]
      refine ⟨insert c (C.erase f), 1, hev.load hce (by omega) rfl rfl rfl rfl rfl rfl, rfl,
        fun m hm => Furthest.evict hc hfull hf (fun e he => ?_) hm⟩
      have hef := hmax e he
      have hec : e ≠ c := fun hh => hc (hh ▸ he)
      have hfc : f ≠ c := fun hh => hc (hh ▸ hf)
      rw [h.prio e he, h.prio f hf, nextUse_cons_ne hec, nextUse_cons_ne hfc] at hef
      exact idxOf_le_of_nextUse_le hrest hef
  · -- a free slot
    have hroom : C.card < capacity := lt_of_le_of_ne h.fits hfull
    have hroom' : s.cacheSize < capacity := h.size ▸ hroom
    simp only [if_neg (Nat.ne_of_lt hroom'), if_pos hroom']
    exact ⟨insert c C, 1, h.load hc hroom rfl rfl rfl rfl rfl rfl, rfl,
      fun m hm => Furthest.fill hc hroom hm⟩

/-- The main loop from any point of the string is a furthest-in-future run. -/
theorem foldl_simStep_furthest (ref : List ℕ) (hlen : ref.length ≤ INF) :
    ∀ (rest pre : List ℕ) (C : Finset ℕ) (s : Sim), ref = pre ++ rest →
      SimInv capacity pre rest C s → ∃ m,
        (rest.foldl (simStep (occurrence ref) capacity) s).misses = s.misses + m ∧
        Furthest capacity C rest m := by
  intro rest
  induction rest with
  | nil => exact fun pre C s _ _ => ⟨0, rfl, Furthest.nil⟩
  | cons c rest ih =>
    intro pre C s href hinv
    obtain ⟨C', k, hinv', hk, hlift⟩ := simStep_spec ref href hlen hinv
    obtain ⟨m, hm, hfur⟩ := ih (pre ++ [c]) C' _ (by simpa using href) hinv'
    refine ⟨m + k, ?_, hlift m hfur⟩
    rw [List.foldl_cons, hm, hk]
    omega

/-! ## The size of the arrays -/

/-- With ids below `UINT32_MAX` the id bound does not wrap, so every id indexes
the arrays. -/
theorem lt_nChunks {ref : List ℕ} (h : ∀ c ∈ ref, c < 2 ^ 32 - 1) :
    ∀ c ∈ ref, c < nChunks ref := by
  have hmax : nChunks ref = ref.foldl (fun n c => max n (c + 1)) 0 := by
    refine List.foldl_ext _ _ _ fun n c hc => ?_
    have := h c hc
    rw [Nat.mod_eq_of_lt (by omega)]
    split_ifs <;> omega
  suffices hb : ∀ (xs : List ℕ) (n : ℕ), n ≤ xs.foldl (fun n c => max n (c + 1)) n ∧
      ∀ c ∈ xs, c < xs.foldl (fun n c => max n (c + 1)) n by
    rw [hmax]
    exact (hb ref 0).2
  intro xs
  induction xs with
  | nil => simp
  | cons x xs ih =>
    intro n
    obtain ⟨hle, hlt⟩ := ih (max n (x + 1))
    refine ⟨(le_max_left _ _).trans hle, fun c hc => ?_⟩
    rcases List.mem_cons.1 hc with rfl | hc
    · exact lt_of_lt_of_le (Nat.lt_succ_self c) ((le_max_right n (c + 1)).trans hle)
    · exact hlt c hc

/-- The solver stays in bounds and its misses are those of a furthest-in-future
run. -/
theorem beladySimulate_furthest {ref : List ℕ} (capacity : ℕ)
    (hids : ∀ c ∈ ref, c < 2 ^ 32 - 1) (hlen : ref.length < 2 ^ 64) :
    ∃ r, beladySimulate ref capacity = some r ∧ Furthest capacity ∅ ref r.misses := by
  obtain ⟨m, hm, hfur⟩ := foldl_simStep_furthest ref (Nat.le_sub_one_of_lt hlen) ref [] ∅ simInit
    rfl (simInit_inv capacity ref)
  unfold beladySimulate
  by_cases h0 : ref.length = 0
  · rw [List.length_eq_zero_iff] at h0
    subst h0
    exact ⟨⟨0, 0⟩, rfl, Furthest.nil⟩
  · have hin : (ref.any fun c => decide (nChunks ref ≤ c)) = false := by
      simpa using lt_nChunks hids
    rw [if_neg h0, hin]
    refine ⟨⟨_, ref.length⟩, rfl, ?_⟩
    have hzero : simInit.misses = 0 := rfl
    rw [hm, hzero, Nat.zero_add]
    exact hfur

/-- The solver's miss count is the minimum over all demand-paging schedules. -/
theorem beladySimulate_optimal (ref : List ℕ) (capacity : ℕ)
    (hids : ∀ c ∈ ref, c < 2 ^ 32 - 1) (hlen : ref.length < 2 ^ 64) :
    ∃ r, beladySimulate ref capacity = some r ∧
      IsLeast {m | Demand (fun _ => 1) capacity (∅ : Finset ℕ) ref m} r.misses := by
  obtain ⟨r, hr, hfur⟩ := beladySimulate_furthest capacity hids hlen
  exact ⟨r, hr, hfur.isLeast⟩

theorem beladySimulate_optimal_cyclic :
    ∃ r, beladySimulate [0, 1, 2, 0, 1, 2] 2 = some r ∧
      IsLeast {m | Demand (fun _ => 1) 2 (∅ : Finset ℕ) [0, 1, 2, 0, 1, 2] m} r.misses :=
  beladySimulate_optimal [0, 1, 2, 0, 1, 2] 2 (by decide) (by decide)

end Residctl.Belady
