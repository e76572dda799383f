import Residctl.Belady
import Residctl.Lib.MaxQueue

/-!
# The array of the solver's heap

`belady.c`: `heap_init`, `heap_push` and `heap_pop_max` on the block that `malloc` returned,
with the indices in `uint64_t`. An access outside the block is `none`, and so is a sift loop
that is still running after `fuel` iterations.

The cells in use are those of `Belady.Heap`, which the solver is proved with; over that
stands `MaxQueue`, what the heap is for. Calls beyond the capacity, and they alone, leave the
block (`calls_isSome_iff`); those of `belady_simulate` stay within it, so that its heap is the
one of the proved solver (`solver_within`).
-/

namespace Residctl.BeladyHeap

open Belady (HeapEntry Heap)
open BinHeap Function

/-! ## The block -/

/-- `sizeof(heap_entry_t)`: a `uint64_t`, a `uint32_t` and the padding after it. -/
def SIZEOF_HEAP_ENTRY : ℕ := 16

/-- What `data` points to. The size in bytes of an object is a `size_t`. -/
structure Block where
  cells : Array HeapEntry
  fits : cells.size * SIZEOF_HEAP_ENTRY < 2 ^ 64

/-- How many entries `malloc(cap * sizeof(heap_entry_t))` holds: the product is a `size_t`. -/
def allocated (cap : ℕ) : ℕ := cap * SIZEOF_HEAP_ENTRY % 2 ^ 64 / SIZEOF_HEAP_ENTRY

/-- They are `cap`, unless the product wraps. -/
theorem allocated_eq {cap : ℕ} (h : cap * SIZEOF_HEAP_ENTRY < 2 ^ 64) : allocated cap = cap := by
  rw [allocated, Nat.mod_eq_of_lt h]
  exact Nat.mul_div_cancel cap (by decide)

theorem allocated_fits (cap : ℕ) : allocated cap * SIZEOF_HEAP_ENTRY < 2 ^ 64 :=
  (Nat.div_mul_le_self _ _).trans_lt (Nat.mod_lt _ (by decide))

namespace Block

/-- The entries of a block, as many as one may index. -/
def size (b : Block) : ℕ := b.cells.size

def get (b : Block) (i : ℕ) : Option HeapEntry := b.cells[i]?

def set (b : Block) (i : ℕ) (e : HeapEntry) : Option Block :=
  if i < b.size then some ⟨b.cells.setIfInBounds i e, by simpa using b.fits⟩ else none

/-- `malloc` leaves the contents of the block open. -/
def malloc (garbage : ℕ → HeapEntry) (cap : ℕ) : Block where
  cells := Array.ofFn fun i : Fin (allocated cap) => garbage i
  fits := by simpa using allocated_fits cap

@[simp] theorem malloc_size (garbage : ℕ → HeapEntry) (cap : ℕ) :
    (malloc garbage cap).size = allocated cap := by
  simp [malloc, size]

theorem size_lt (b : Block) : b.size < 2 ^ 60 := by
  have hfits := b.fits
  unfold SIZEOF_HEAP_ENTRY at hfits
  unfold size
  omega

theorem get_eq_none {b : Block} {i : ℕ} : b.get i = none ↔ b.size ≤ i := by
  simp [get, size]

end Block

/-! ## The functions -/

/-- `heap_t` -/
structure HeapT where
  data : Block
  size : ℕ
  cap : ℕ

def heapInit (garbage : ℕ → HeapEntry) (cap : ℕ) : HeapT := ⟨Block.malloc garbage cap, 0, cap⟩

def heapSwap (h : HeapT) (i j : ℕ) : Option HeapT := do
  let a ← h.data.get i
  let b ← h.data.get j
  let data ← h.data.set i b
  let data ← data.set j a
  return { h with data := data }

/-- The loop of `heap_push`. -/
def siftUpLoop : ℕ → HeapT → ℕ → Option HeapT
  | 0, _, _ => none
  | fuel + 1, h, i =>
    if i > 0 then do
      let parent := (i - 1) / 2
      let above ← h.data.get parent
      let here ← h.data.get i
      if above.priority ≥ here.priority then return h
      let h ← heapSwap h parent i
      siftUpLoop fuel h parent
    else return h

def heapPush (fuel : ℕ) (h : HeapT) (priority chunkId : ℕ) : Option HeapT := do
  let i := h.size
  let data ← h.data.set i ⟨priority, chunkId⟩
  siftUpLoop fuel { h with data := data, size := (h.size + 1) % 2 ^ 64 } i

/-- `largest` after the comparison with the child `j`. -/
def larger (h : HeapT) (j largest : ℕ) : Option ℕ :=
  if j < h.size then do
    let child ← h.data.get j
    let best ← h.data.get largest
    return if child.priority > best.priority then j else largest
  else return largest

/-- The loop of `heap_pop_max`. -/
def siftDownLoop : ℕ → HeapT → ℕ → Option HeapT
  | 0, _, _ => none
  | fuel + 1, h, i => do
    let l := (2 * i + 1) % 2 ^ 64
    let r := (2 * i + 2) % 2 ^ 64
    let largest ← larger h l i
    let largest ← larger h r largest
    if largest = i then return h
    let h ← heapSwap h i largest
    siftDownLoop fuel h largest

/-- The entry is `none` for the return value 0. -/
def heapPopMax (fuel : ℕ) (h : HeapT) : Option (Option HeapEntry × HeapT) :=
  if h.size = 0 then return (none, h)
  else do
    let out ← h.data.get 0
    let size := h.size - 1
    let last ← h.data.get size
    let data ← h.data.set 0 last
    let h ← siftDownLoop fuel { h with data := data, size := size } 0
    return (some out, h)

/-! ## Sequences of calls -/

inductive Call
  | heapPush (priority chunkId : ℕ)
  | heapPopMax
deriving DecidableEq, Repr

/-- One call, and what it says as an event of the queue. -/
def call (fuel : ℕ) (h : HeapT) : Call → Option (MaxQueue.Event HeapEntry × HeapT)
  | .heapPush priority chunkId => do
    let h ← heapPush fuel h priority chunkId
    return (.push ⟨priority, chunkId⟩, h)
  | .heapPopMax => do
    let (out, h) ← heapPopMax fuel h
    return (.pop out, h)

def calls (fuel : ℕ) : HeapT → List Call → Option (List (MaxQueue.Event HeapEntry) × HeapT)
  | h, [] => some ([], h)
  | h, c :: cs => do
    let (ev, h) ← call fuel h c
    let (evs, h) ← calls fuel h cs
    return (ev :: evs, h)

/-- The call that an event is the answer to. -/
def Call.of : MaxQueue.Event HeapEntry → Call
  | .push e => .heapPush e.priority e.chunkId
  | .pop _ => .heapPopMax

/-- The entries in use after a call. -/
def Call.count : Call → ℕ → ℕ
  | .heapPush _ _, size => size + 1
  | .heapPopMax, size => size - 1

/-- From a heap of `size` entries on, no call takes the heap over `cells` entries. -/
def Within (cells : ℕ) : ℕ → List Call → Prop
  | _, [] => True
  | size, c :: cs => c.count size ≤ cells ∧ Within cells (c.count size) cs

instance Within.decide (cells : ℕ) : ∀ (size : ℕ) (cs : List Call), Decidable (Within cells size cs)
  | _, [] => isTrue trivial
  | size, c :: cs =>
    haveI := Within.decide cells (c.count size) cs
    inferInstanceAs (Decidable (_ ∧ _))

/-! ## What the array says -/

namespace HeapT

/-- The entries in the cells in use. -/
def stored (h : HeapT) : Multiset HeapEntry := h.data.cells.toList.take h.size

/-- Every cell in use but the first has a priority at most that of its parent. -/
def Ordered (h : HeapT) : Prop :=
  ∀ i, 0 < i → i < h.size →
    ∃ e ∈ h.data.get i, ∃ parent ∈ h.data.get ((i - 1) / 2), e.priority ≤ parent.priority

end HeapT

/-! ## The cells in use -/

namespace Block

/-- A store into the block succeeds, and updates one cell of what it holds. -/
theorem exists_set {b : Block} {i : ℕ} (hi : i < b.size) (e : HeapEntry) :
    ∃ b', b.set i e = some b' ∧ b'.size = b.size ∧
      ∀ (x : ℕ → HeapEntry) (k : ℕ), (k ≠ i → b.get k = some (x k)) →
        b'.get k = some (update x i e k) := by
  refine ⟨_, if_pos hi, by simp [size], ?_⟩
  intro x k hold
  have hi' : i < b.cells.size := hi
  by_cases hk : k = i
  · subst hk
    simp [get, hi']
  · rw [update_of_ne hk, ← hold hk]
    simp [get, Array.getElem?_setIfInBounds_ne (Ne.symm hk)]

end Block

variable {h : HeapT} {cells size fuel i j : ℕ} {x : ℕ → HeapEntry} {a : Heap} {cs : List Call}

/-- The block has `cells` entries, the first of which are those of `a`. -/
structure HeapT.Holds (h : HeapT) (cells : ℕ) (a : Heap) : Prop where
  cells : h.data.size = cells
  size : h.size = a.size
  get : ∀ k < a.size, h.data.get k = some (a.data k)

theorem HeapT.Holds.size_le (hh : h.Holds cells a) : a.size ≤ cells := by
  rcases Nat.eq_zero_or_pos a.size with h0 | hpos
  · omega
  · have hlast := hh.get (a.size - 1) (by omega)
    by_contra hlt
    rw [Block.get_eq_none.2 (by rw [hh.cells]; omega)] at hlast
    cases hlast

theorem HeapT.Holds.lt_cells (hh : h.Holds cells a) (hi : i < a.size) : i < h.data.size := by
  rw [hh.cells]
  exact hi.trans_le hh.size_le

theorem heapSwap_holds (hh : h.Holds cells ⟨x, size⟩) (hi : i < size) (hj : j < size) :
    ∃ h', heapSwap h i j = some h' ∧ h'.Holds cells ⟨swap x i j, size⟩ := by
  rcases Block.exists_set (hh.lt_cells hi) (x j) with ⟨b, hb, hbsize, hbget⟩
  have hjb : j < b.size := by
    rw [hbsize]
    exact hh.lt_cells hj
  rcases Block.exists_set hjb (x i) with ⟨b', hb', hb'size, hb'get⟩
  refine ⟨{ h with data := b' }, ?_, ?_, hh.size, ?_⟩
  · simp [heapSwap, hh.get i hi, hh.get j hj, hb, hb']
  · rw [hb'size, hbsize, hh.cells]
  · intro k hk
    show b'.get k = some (swap x i j k)
    rw [swap_eq_update]
    -- the second store is into what the first one left
    exact hb'get _ k fun _ => hbget x k fun _ => hh.get k hk

/-! ## The sift loops -/

/-- The loop of `heap_push` halves `i + 1`, and stays among the cells in use. -/
theorem siftUpLoop_holds (hh : h.Holds cells ⟨x, size⟩) (hi : i < size) (hfuel : i + 1 < 2 ^ fuel) :
    ∃ h', siftUpLoop fuel h i = some h' ∧
      h'.Holds cells ⟨siftUp HeapEntry.priority x i, size⟩ := by
  induction fuel generalizing h i x with
  | zero => exact absurd hfuel (by simp)
  | succ fuel ih =>
    rw [siftUpLoop, siftUp]
    by_cases hpos : 0 < i
    · have hparent : (i - 1) / 2 < size := by omega
      simp only [gt_iff_lt, hpos, if_true, hh.get _ hparent, hh.get _ hi, Option.bind_eq_bind,
        Option.bind_some]
      by_cases hge : (x ((i - 1) / 2)).priority ≥ (x i).priority
      · -- the parent is no smaller: `break`
        rw [if_pos hge, if_pos hge]
        exact ⟨h, rfl, hh⟩
      · rw [if_neg hge, if_neg hge]
        rcases heapSwap_holds hh hparent hi with ⟨h', hswap, hh'⟩
        have hhalf : (i - 1) / 2 + 1 < 2 ^ fuel := by
          rw [pow_succ] at hfuel
          omega
        rw [hswap]
        exact ih hh' hparent hhalf
    · rw [if_neg hpos, if_neg hpos]
      exact ⟨h, rfl, hh⟩

theorem larger_holds (hh : h.Holds cells ⟨x, size⟩) (hi : i < size) :
    larger h j i =
      some (if j < size ∧ (x j).priority > (x i).priority then j else i) := by
  have hsize : h.size = size := hh.size
  rw [larger, hsize]
  by_cases hj : j < size
  · simp [hj, hh.get j hj, hh.get i hi]
  · simp [hj]

/-- The two comparisons of an iteration. -/
theorem larger_largest (hh : h.Holds cells ⟨x, size⟩) (hi : i < size) :
    ∃ m, larger h (2 * i + 1) i = some m ∧
      larger h (2 * i + 2) m = some (largest HeapEntry.priority size x i) := by
  refine ⟨_, larger_holds hh hi, larger_holds hh ?_⟩
  split_ifs with hleft
  · exact hleft.1
  · exact hi

/-- The loop of `heap_pop_max` doubles `i + 1`, and stays among the cells in use. -/
theorem siftDownLoop_holds (hh : h.Holds cells ⟨x, size⟩) (hi : i < size)
    (hfuel : size < 2 ^ fuel * (i + 1)) :
    ∃ h', siftDownLoop fuel h i = some h' ∧
      h'.Holds cells ⟨siftDown HeapEntry.priority size x i, size⟩ := by
  induction fuel generalizing h i x with
  | zero => omega
  | succ fuel ih =>
    -- the indices of the children do not wrap
    have hcells : size < 2 ^ 60 := by
      have hle : size ≤ cells := hh.size_le
      have hlt := h.data.size_lt
      rw [hh.cells] at hlt
      omega
    have hl : (2 * i + 1) % 2 ^ 64 = 2 * i + 1 := Nat.mod_eq_of_lt (by omega)
    have hr : (2 * i + 2) % 2 ^ 64 = 2 * i + 2 := Nat.mod_eq_of_lt (by omega)
    rcases larger_largest hh hi with ⟨m, hfirst, hsecond⟩
    rw [siftDownLoop, siftDown, hl, hr]
    simp only [Option.bind_eq_bind, Option.bind_some, hfirst, hsecond]
    rcases largest_cases HeapEntry.priority size x i with hstop | ⟨hbelow, hm, hchild⟩
    · -- no child is larger: `break`
      rw [if_pos hstop, if_pos hstop]
      exact ⟨h, rfl, hh⟩
    · rw [if_neg hbelow.ne', if_neg hbelow.ne']
      rcases heapSwap_holds hh hi hm with ⟨h', hswap, hh'⟩
      have hdouble : size < 2 ^ fuel * (largest HeapEntry.priority size x i + 1) := by
        calc size < 2 ^ fuel * (2 * (i + 1)) := by rw [pow_succ] at hfuel; linarith
          _ ≤ 2 ^ fuel * (largest HeapEntry.priority size x i + 1) :=
            Nat.mul_le_mul_left _ (by omega)
      rw [hswap]
      exact ih hh' hm hdouble

/-! ## The calls -/

theorem heapPush_holds (hh : h.Holds cells a) (hroom : a.size < cells) (hfuel : cells < 2 ^ fuel)
    (p c : ℕ) :
    ∃ h', heapPush fuel h p c = some h' ∧ h'.Holds cells (Belady.heapPush a p c) := by
  have hroom' : a.size < h.data.size := by
    rw [hh.cells]
    exact hroom
  rcases Block.exists_set hroom' ⟨p, c⟩ with ⟨b, hb, hbsize, hbget⟩
  -- `size++` does not wrap: an index fits in 60 bits
  have hsize : (h.size + 1) % 2 ^ 64 = a.size + 1 := by
    have hlt := h.data.size_lt
    rw [hh.size]
    exact Nat.mod_eq_of_lt (by omega)
  have hstored : HeapT.Holds { h with data := b, size := a.size + 1 } cells
      ⟨update a.data a.size ⟨p, c⟩, a.size + 1⟩ := by
    refine ⟨hbsize.trans hh.cells, rfl, ?_⟩
    intro k hk
    exact hbget a.data k fun hne => hh.get k (lt_of_le_of_ne (Nat.lt_succ_iff.1 hk) hne)
  rcases siftUpLoop_holds hstored (Nat.lt_succ_self _) (hfuel.trans_le' hroom) with ⟨h', hloop, hh'⟩
  refine ⟨h', ?_, hh'⟩
  rw [heapPush, hsize, hh.size, hb]
  exact hloop

theorem heapPopMax_empty (hh : h.Holds cells a) (hempty : a.size = 0) :
    heapPopMax fuel h = some (none, h) := by
  rw [heapPopMax, hh.size, if_pos hempty]
  rfl

theorem heapPopMax_holds {top : HeapEntry} {a' : Heap} (hh : h.Holds cells a)
    (hfuel : cells < 2 ^ fuel) (hpop : Belady.heapPopMax a = some (top, a')) :
    ∃ h', heapPopMax fuel h = some (some top, h') ∧ h'.Holds cells a' := by
  have hne : a.size ≠ 0 := by
    intro h0
    rw [Belady.heapPopMax_eq_none.2 h0] at hpop
    cases hpop
  rw [Belady.heapPopMax, if_neg hne] at hpop
  cases hpop
  have hle := hh.size_le
  have hfirst := Nat.pos_of_ne_zero hne
  rcases Block.exists_set (hh.lt_cells hfirst) (a.data (a.size - 1)) with ⟨b, hb, hbsize, hbget⟩
  have hmoved : HeapT.Holds { h with data := b, size := a.size - 1 } cells
      ⟨update a.data 0 (a.data (a.size - 1)), a.size - 1⟩ := by
    refine ⟨hbsize.trans hh.cells, rfl, ?_⟩
    intro k hk
    exact hbget a.data k fun _ => hh.get k (hk.trans_le (Nat.sub_le _ _))
  have hloop : ∃ h', siftDownLoop fuel { h with data := b, size := a.size - 1 } 0 = some h' ∧
      h'.Holds cells ⟨siftDown HeapEntry.priority (a.size - 1)
        (update a.data 0 (a.data (a.size - 1))) 0, a.size - 1⟩ := by
    rcases Nat.eq_zero_or_pos (a.size - 1) with h0 | hpos
    · -- the last entry moved onto itself, and nothing is left to sift
      have hturn : fuel ≠ 0 := by
        intro hf
        rw [hf] at hfuel
        omega
      rcases Nat.exists_eq_succ_of_ne_zero hturn with ⟨fuel, rfl⟩
      rw [siftDown_of_le _ _ (by omega)]
      exact ⟨_, by simp [siftDownLoop, larger, h0], hmoved⟩
    · exact siftDownLoop_holds hmoved hpos (by omega)
  rcases hloop with ⟨h', hrun, hh'⟩
  refine ⟨h', ?_, hh'⟩
  simp only [heapPopMax, hh.size, if_neg hne, hh.get 0 hfirst, hh.get (a.size - 1) (by omega), hb,
    hrun, Option.bind_eq_bind, Option.bind_some]
  rfl

/-! ## Sequences of calls -/

/-- The call on the heap that the solver is proved with. -/
def Call.apply (a : Heap) : Call → Heap
  | .heapPush priority chunkId => Belady.heapPush a priority chunkId
  | .heapPopMax => (Belady.heapPopMax a).elim a Prod.snd

/-- One call is answered as a queue answers it. -/
theorem call_holds {c : Call} (hh : h.Holds cells a) (hord : a.Ordered)
    (hcap : c.count a.size ≤ cells) (hfuel : cells < 2 ^ fuel) :
    ∃ ev h', call fuel h c = some (ev, h') ∧ Call.of ev = c ∧ h'.Holds cells (c.apply a) ∧
      (c.apply a).Ordered ∧ (c.apply a).size = c.count a.size ∧
      MaxQueue.Step HeapEntry.priority a.entries ev (c.apply a).entries := by
  cases c with
  | heapPush p c =>
    rcases heapPush_holds hh (Nat.lt_of_succ_le hcap) hfuel p c with ⟨h', hpush, hh'⟩
    refine ⟨.push ⟨p, c⟩, h', by simp [call, hpush], rfl, hh', Belady.heapPush_ordered hord p c,
      rfl, ?_⟩
    rw [Call.apply, Belady.heapPush_entries]
    exact MaxQueue.Step.push _ _
  | heapPopMax =>
    cases hpop : Belady.heapPopMax a with
    | none =>
      have hempty := Belady.heapPopMax_eq_none.1 hpop
      have hsame : Call.apply a .heapPopMax = a := by simp [Call.apply, hpop]
      have hnone : a.entries = 0 := by simp [Heap.entries, entries, hempty]
      refine ⟨.pop none, h, by simp [call, heapPopMax_empty hh hempty], rfl, ?_⟩
      rw [hsame, hnone]
      exact ⟨hh, hord, by simp [Call.count, hempty], MaxQueue.Step.empty⟩
    | some top =>
      rcases top with ⟨top, a'⟩
      rcases heapPopMax_holds hh hfuel hpop with ⟨h', hrun, hh'⟩
      rcases Belady.heapPopMax_spec hord hpop with ⟨hent, hord', hmax⟩
      have hnext : Call.apply a .heapPopMax = a' := by simp [Call.apply, hpop]
      refine ⟨.pop (some top), h', by simp [call, hrun], rfl, ?_⟩
      rw [hnext]
      refine ⟨hh', hord', ?_, ?_⟩
      · have hcard := congrArg Multiset.card hent
        simp only [Heap.entries, card_entries, Multiset.card_cons] at hcard
        exact (Nat.sub_eq_of_eq_add hcard).symm
      · rw [hent] at hmax ⊢
        exact MaxQueue.Step.pop hmax

/-- A sequence of calls within the block is a run of the queue. -/
theorem calls_holds (hh : h.Holds cells a) (hord : a.Ordered) (hcap : Within cells a.size cs)
    (hfuel : cells < 2 ^ fuel) :
    ∃ evs h', calls fuel h cs = some (evs, h') ∧ evs.map Call.of = cs ∧
      h'.Holds cells (cs.foldl Call.apply a) ∧ (cs.foldl Call.apply a).Ordered ∧
      MaxQueue.Run HeapEntry.priority a.entries evs (cs.foldl Call.apply a).entries := by
  induction cs generalizing h a with
  | nil => exact ⟨[], h, rfl, rfl, hh, hord, MaxQueue.Run.nil _⟩
  | cons c cs ih =>
    rcases call_holds hh hord hcap.1 hfuel with ⟨ev, h₁, hcall, hof, hh₁, hord₁, hsize₁, hstep⟩
    have hrest : Within cells (c.apply a).size cs := by
      rw [hsize₁]
      exact hcap.2
    rcases ih hh₁ hord₁ hrest with ⟨evs, h', hcalls, hofs, hh', hord', hrun⟩
    refine ⟨ev :: evs, h', ?_, by simp [hof, hofs], hh', hord', MaxQueue.Run.cons hstep hrun⟩
    simp [calls, hcall, hcalls]

theorem heapInit_holds (garbage : ℕ → HeapEntry) (cap : ℕ) :
    (heapInit garbage cap).Holds (allocated cap) Belady.heapInit where
  cells := Block.malloc_size garbage cap
  size := rfl
  get _ hk := absurd hk (Nat.not_lt_zero _)

theorem HeapT.Holds.stored_eq (hh : h.Holds cells a) : h.stored = a.entries := by
  have hlist : h.data.cells.toList.take h.size = (List.range a.size).map a.data := by
    refine List.ext_getElem? fun k => ?_
    rw [hh.size]
    by_cases hk : k < a.size
    · have hget := hh.get k hk
      simp only [Block.get] at hget
      simp [List.getElem?_take_of_lt hk, hk, hget]
    · simp [hk]
  rw [HeapT.stored, hlist]
  rfl

theorem HeapT.Holds.ordered (hh : h.Holds cells a) (hord : a.Ordered) : h.Ordered := by
  intro i hpos hi
  rw [hh.size] at hi
  exact ⟨a.data i, hh.get i hi, a.data ((i - 1) / 2), hh.get _ (by omega), hord i hpos hi⟩

/-- The heap is a max-priority queue: any calls within the block succeed, every sift loop ends
after as many iterations as the block has levels, the array is a max-heap, and the answers are
those of a queue that holds what was pushed and not yet popped. -/
theorem heap_is_max_queue (garbage : ℕ → HeapEntry) (cap : ℕ) (cs : List Call)
    (hcap : Within (allocated cap) 0 cs) (hfuel : allocated cap < 2 ^ fuel) :
    ∃ evs h, calls fuel (heapInit garbage cap) cs = some (evs, h) ∧ evs.map Call.of = cs ∧
      h.Ordered ∧ h.stored + MaxQueue.popped evs = MaxQueue.pushed evs ∧
      MaxQueue.Run HeapEntry.priority 0 evs h.stored := by
  rcases calls_holds (heapInit_holds garbage cap) Belady.heapInit_ordered hcap hfuel with
    ⟨evs, h, hcalls, hof, hh, hord, hrun⟩
  have hnone : Belady.heapInit.entries = 0 := rfl
  rw [hnone, ← hh.stored_eq] at hrun
  refine ⟨evs, h, hcalls, hof, hh.ordered hord, ?_, hrun⟩
  rw [hrun.conserved, Multiset.zero_add]

theorem heap_is_max_queue_ties :
    ∃ evs h, calls 2 (heapInit (fun _ => ⟨0, 0⟩) 3) [.heapPush 5 0, .heapPush 5 1, .heapPopMax,
        .heapPush 7 2, .heapPopMax, .heapPopMax, .heapPopMax] = some (evs, h) ∧
      evs.map Call.of = [.heapPush 5 0, .heapPush 5 1, .heapPopMax, .heapPush 7 2, .heapPopMax,
        .heapPopMax, .heapPopMax] ∧
      h.Ordered ∧ h.stored + MaxQueue.popped evs = MaxQueue.pushed evs ∧
      MaxQueue.Run HeapEntry.priority 0 evs h.stored :=
  heap_is_max_queue (fun _ => ⟨0, 0⟩) 3 _ (by decide) (by decide)

/-- Entries of one priority are both kept, and the pop of the empty heap returns 0. -/
example : (calls 2 (heapInit (fun _ => ⟨0, 0⟩) 3) [.heapPush 5 0, .heapPush 5 1, .heapPopMax,
    .heapPush 7 2, .heapPopMax, .heapPopMax, .heapPopMax]).map Prod.fst =
      some [.push ⟨5, 0⟩, .push ⟨5, 1⟩, .pop (some ⟨5, 0⟩), .push ⟨7, 2⟩, .pop (some ⟨7, 2⟩),
        .pop (some ⟨5, 1⟩), .pop none] := by
  decide

/-! ## The bound is exact -/

theorem Block.set_eq_none {b : Block} (hi : b.size ≤ i) (e : HeapEntry) : b.set i e = none :=
  if_neg (Nat.not_lt.2 hi)

/-- A sequence of calls within the block is one that never leaves it. -/
theorem calls_isSome_iff (hh : h.Holds cells a) (hord : a.Ordered) (hfuel : cells < 2 ^ fuel) :
    (calls fuel h cs).isSome ↔ Within cells a.size cs := by
  induction cs generalizing h a with
  | nil => simp [calls, Within]
  | cons c cs ih =>
    by_cases hcap : c.count a.size ≤ cells
    · rcases call_holds hh hord hcap hfuel with ⟨ev, h₁, hcall, -, hh₁, hord₁, hsize₁, -⟩
      rw [Within, ← hsize₁, ← ih hh₁ hord₁, hsize₁, and_iff_right hcap]
      cases hrest : calls fuel h₁ cs <;> simp [calls, hcall, hrest]
    · have hover : calls fuel h (c :: cs) = none := by
        cases c with
        | heapPush p c =>
          have hfull : h.data.size ≤ h.size := by
            rw [hh.cells, hh.size]
            exact Nat.lt_succ_iff.1 (Nat.lt_of_not_le hcap)
          simp [calls, call, heapPush, Block.set_eq_none hfull]
        | heapPopMax => exact absurd ((Nat.sub_le _ _).trans hh.size_le) hcap
      rw [hover]
      exact iff_of_false (by simp) fun hw => hcap hw.1

/-! ## The heap of the solver -/

/-- 1 for a push. -/
def Call.pushes : Call → ℕ
  | .heapPush _ _ => 1
  | .heapPopMax => 0

/-- As many entries as calls that push are enough. -/
theorem within_of_pushes (h : size + (cs.map Call.pushes).sum ≤ cells) : Within cells size cs := by
  induction cs generalizing size with
  | nil => trivial
  | cons c cs ih =>
    rw [List.map_cons, List.sum_cons] at h
    cases c with
    | heapPush p c =>
      simp only [Call.pushes] at h
      exact ⟨by simp only [Call.count]; omega, ih (by simp only [Call.count]; omega)⟩
    | heapPopMax =>
      simp only [Call.pushes] at h
      exact ⟨by simp only [Call.count]; omega, ih (by simp only [Call.count]; omega)⟩

/-- `belady_simulate` goes from heap `a` to heap `a'` with at most `n` pushes. -/
def Calls (n : ℕ) (a a' : Heap) : Prop :=
  ∃ cs : List Call, (cs.map Call.pushes).sum ≤ n ∧ a' = cs.foldl Call.apply a

theorem Calls.refl (n : ℕ) (a : Heap) : Calls n a a := ⟨[], Nat.zero_le n, rfl⟩

theorem Calls.trans {m n : ℕ} {a a₁ a' : Heap} (h : Calls m a a₁) (h' : Calls n a₁ a') :
    Calls (m + n) a a' := by
  rcases h with ⟨cs, hcs, rfl⟩
  rcases h' with ⟨cs', hcs', rfl⟩
  refine ⟨cs ++ cs', ?_, (List.foldl_append ..).symm⟩
  rw [List.map_append, List.sum_append]
  exact Nat.add_le_add hcs hcs'

theorem Calls.push (a : Heap) (p c : ℕ) : Calls 1 a (Belady.heapPush a p c) :=
  ⟨[.heapPush p c], le_rfl, rfl⟩

theorem Calls.pop {a' : Heap} {top : HeapEntry} (h : Belady.heapPopMax a = some (top, a')) :
    Calls 0 a a' :=
  ⟨[.heapPopMax], le_rfl, by simp [Call.apply, h]⟩

theorem Call.size_apply (c : Call) (a : Heap) : (c.apply a).size ≤ a.size + c.pushes := by
  cases c with
  | heapPush p c => exact le_rfl
  | heapPopMax =>
    cases hpop : Belady.heapPopMax a with
    | none => simp [Call.apply, hpop]
    | some out =>
      rw [Belady.heapPopMax] at hpop
      split_ifs at hpop with h0
      cases hpop
      simp only [Call.apply, Belady.heapPopMax, if_neg h0, Option.elim_some]
      omega

/-- The heap grows by a push only. -/
theorem Calls.size_le {n : ℕ} {a a' : Heap} (h : Calls n a a') : a'.size ≤ a.size + n := by
  rcases h with ⟨cs, hcs, rfl⟩
  induction cs generalizing n a with
  | nil => exact Nat.le_add_right _ _
  | cons c cs ih =>
    rw [List.map_cons, List.sum_cons] at hcs
    have hfirst := c.size_apply a
    have hrest : (cs.foldl Call.apply (c.apply a)).size ≤
        (c.apply a).size + (cs.map Call.pushes).sum := ih le_rfl
    rw [List.foldl_cons]
    omega

/-- The eviction loop only pops. -/
theorem evictVictim_calls (s : Belady.Sim) : Calls 0 s.heap (Belady.evictVictim s).heap := by
  induction s using Belady.evictVictim.induct with
  | case1 s hpop =>
    rw [Belady.evictVictim_of_empty hpop]
    exact Calls.refl _ _
  | case2 s top heap hpop hlive =>
    rw [Belady.evictVictim_of_live hpop hlive]
    exact Calls.pop hpop
  | case3 s top heap hpop hstale ih =>
    rw [Belady.evictVictim_of_stale hpop hstale]
    exact (Calls.pop hpop).trans ih

/-- A reference pushes at most once. -/
theorem simStep_calls (occ : ℕ → List ℕ) (capacity : ℕ) (s : Belady.Sim) (c : ℕ) :
    Calls 1 s.heap (Belady.simStep occ capacity s c).heap := by
  unfold Belady.simStep
  dsimp only
  by_cases hc : s.inCache c = true
  · rw [if_pos hc]
    exact Calls.push _ _ _
  · rw [if_neg hc]
    by_cases hfull : s.cacheSize = capacity
    · -- a miss that runs the eviction loop first
      have hevict := evictVictim_calls
        { s with readPtr := update s.readPtr c (s.readPtr c + 1), misses := s.misses + 1 }
      simp only [if_pos hfull]
      split_ifs
      · exact hevict.trans (Calls.push _ _ _)
      · exact hevict.trans (Calls.refl 1 _)
    · simp only [if_neg hfull]
      split_ifs
      · exact Calls.push _ _ _
      · exact Calls.refl _ _

theorem foldl_simStep_calls (occ : ℕ → List ℕ) (capacity : ℕ) (pre : List ℕ) (s : Belady.Sim) :
    Calls pre.length s.heap (pre.foldl (Belady.simStep occ capacity) s).heap := by
  induction pre generalizing s with
  | nil => exact Calls.refl _ _
  | cons c pre ih =>
    rw [List.length_cons, Nat.add_comm]
    exact (simStep_calls occ capacity s c).trans (ih _)

/-- The `n_refs + 1` entries that `belady_simulate` allocates are enough: after any part of the
reference string its heap is in the array, reached by calls that stayed within the block. -/
theorem solver_within (garbage : ℕ → HeapEntry) {ref pre rest : List ℕ} (href : ref = pre ++ rest)
    (hlen : (ref.length + 1) * SIZEOF_HEAP_ENTRY < 2 ^ 64) (capacity : ℕ)
    (hfuel : ref.length + 1 < 2 ^ fuel) :
    ∃ cs evs h, Within (ref.length + 1) 0 cs ∧
      calls fuel (heapInit garbage (ref.length + 1)) cs = some (evs, h) ∧
      h.Holds (ref.length + 1)
        (pre.foldl (Belady.simStep (Belady.occurrence ref) capacity) Belady.simInit).heap := by
  rcases foldl_simStep_calls (Belady.occurrence ref) capacity pre Belady.simInit with
    ⟨cs, hpushes, hheap⟩
  have hwithin : Within (ref.length + 1) 0 cs := by
    refine within_of_pushes ?_
    rw [href, List.length_append]
    omega
  have hinit := heapInit_holds garbage (ref.length + 1)
  rw [allocated_eq hlen] at hinit
  rcases calls_holds hinit Belady.heapInit_ordered hwithin hfuel with ⟨evs, h, hcalls, -, hh, -⟩
  refine ⟨cs, evs, h, hwithin, hcalls, ?_⟩
  rw [hheap]
  exact hh

end Residctl.BeladyHeap
