import Mathlib.Data.List.Range
import Residctl.Belady
import Residctl.Policy

/-!
# The naive reference solver

`naive_belady` of `belady_main.c`, the linear-scan solver that the self-test compares
with the heap solver. Slots are found in `uint32_t` loops and kept in an `int`: a slot
number from `2 ^ 31` on reads as negative, that is as "not found". `mem` is what
`malloc` returns for the cache array.

Both solvers make furthest-in-future runs, so that they miss equally often although they
break ties differently. Beside it stands the entry discipline of the heap solver: every
cached chunk has one live heap entry.
-/

namespace Residctl.Belady

open Function Paging

/-- `naive_next_occurrence`. -/
def naiveNextOccurrence (ref : List ℕ) (start chunk : ℕ) : ℕ :=
  match (List.range' (start + 1) (ref.length - (start + 1))).find? fun j =>
    ref[j]? = some chunk with
  | some j => j
  | none => INF

/-- The local variables of `naive_belady`. -/
structure Naive where
  cache : ℕ → ℕ
  used : ℕ → Bool
  misses : ℕ

/-- The first slot with `p` as an `int`, -1 if there is none. -/
def findSlot (capacity : ℕ) (p : ℕ → Bool) : ℤ :=
  match (List.range capacity).find? p with
  | some k => toInt32 k
  | none => -1

/-- `(best_dist, best_slot)`: the first slot whose chunk has the furthest next use. -/
def bestSlot (ref : List ℕ) (capacity i : ℕ) (cache : ℕ → ℕ) : ℕ × ℤ :=
  (List.range capacity).foldl (fun best k =>
    if k = 0 ∨ naiveNextOccurrence ref i (cache k) > best.1 then
      (naiveNextOccurrence ref i (cache k), toInt32 k)
    else best) (0, 0)

/-- One iteration, at reference `p.2` to chunk `p.1`. `none` is a store in front of the
arrays. -/
def naiveStep (ref : List ℕ) (capacity : ℕ) (s : Naive) (p : ℕ × ℕ) : Option Naive :=
  if findSlot capacity (fun k => s.used k && s.cache k == p.1) ≥ 0 then some s
  else
    let free := findSlot capacity fun k => !s.used k
    let slot := if free < 0 then (bestSlot ref capacity p.2 s.cache).2 else free
    if slot < 0 then none
    else some
      { cache := update s.cache slot.toNat p.1
        used := update s.used slot.toNat true
        misses := s.misses + 1 }

/-- `naive_belady(ref, ref.length, capacity)`. -/
def naiveBelady (mem : ℕ → ℕ) (ref : List ℕ) (capacity : ℕ) : Option ℕ :=
  (ref.zipIdx.foldlM (naiveStep ref capacity) ⟨mem, fun _ => false, 0⟩).map Naive.misses

/-! ## The scans -/

theorem toInt32_neg {k : ℕ} (h : 2 ^ 31 ≤ k) (hk : k < 2 ^ 32) : toInt32 k < 0 := by
  unfold toInt32
  rw [Int.bmod_def]
  split
  · omega
  · omega

theorem naiveNextOccurrence_eq (pre rest : List ℕ) (c x : ℕ) :
    naiveNextOccurrence (pre ++ c :: rest) pre.length x = nextUse INF x (pre.length + 1) rest := by
  suffices h : ∀ (rest pre : List ℕ),
      ((List.range' pre.length rest.length).find? fun j => (pre ++ rest)[j]? = some x) =
        if x ∈ rest then some (pre.length + rest.idxOf x) else none by
    have happ : pre ++ c :: rest = (pre ++ [c]) ++ rest := by simp
    have hlen : (pre ++ [c]).length = pre.length + 1 := by simp
    have hcount : (pre ++ c :: rest).length - (pre.length + 1) = rest.length := by
      simp only [List.length_append, List.length_cons]
      omega
    have hfind := h rest (pre ++ [c])
    rw [hlen] at hfind
    rw [naiveNextOccurrence, hcount, happ, hfind, nextUse]
    split_ifs <;> rfl
  intro rest
  induction rest with
  | nil => simp
  | cons y ys ih =>
    intro pre
    have hhead : (pre ++ y :: ys)[pre.length]? = some y := by simp
    rw [List.length_cons, List.range'_succ, List.find?_cons]
    by_cases hy : y = x
    · subst hy
      simp
    · -- the scan passes another chunk
      have hnext := ih (pre ++ [y])
      have happ : (pre ++ [y]) ++ ys = pre ++ y :: ys := by simp
      have hlen : (pre ++ [y]).length = pre.length + 1 := by simp
      rw [happ, hlen] at hnext
      have hne : decide ((pre ++ y :: ys)[pre.length]? = some x) = false := by
        rw [hhead]
        simpa using hy
      have hidx : pre.length + 1 + ys.idxOf x = pre.length + (ys.idxOf x + 1) := by omega
      simp only [hne, hnext, List.mem_cons, Ne.symm hy, false_or, List.idxOf_cons_ne _ hy, hidx]

theorem findSlot_first {capacity k : ℕ} {p : ℕ → Bool} (hk : k < capacity) (hp : p k = true)
    (hfirst : ∀ j < k, p j = false) : findSlot capacity p = toInt32 k := by
  have hfind : (List.range capacity).find? p = some k :=
    List.find?_range_eq_some.2 ⟨hp, List.mem_range.2 hk, fun j hj => by rw [hfirst j hj]; rfl⟩
  rw [findSlot, hfind]

theorem findSlot_none {capacity : ℕ} {p : ℕ → Bool} (h : ∀ k < capacity, p k = false) :
    findSlot capacity p = -1 := by
  have hfind : (List.range capacity).find? p = none :=
    List.find?_range_eq_none.2 fun k hk => by rw [h k hk]; rfl
  rw [findSlot, hfind]

/-- The furthest-chunk scan visits every slot. -/
theorem bestSlot_spec (ref : List ℕ) (i : ℕ) (cache : ℕ → ℕ) {capacity : ℕ} (hpos : 0 < capacity) :
    ∃ k < capacity,
      bestSlot ref capacity i cache = (naiveNextOccurrence ref i (cache k), toInt32 k) ∧
      ∀ j < capacity,
        naiveNextOccurrence ref i (cache j) ≤ naiveNextOccurrence ref i (cache k) := by
  induction capacity with
  | zero => exact absurd hpos (Nat.lt_irrefl 0)
  | succ m ih =>
    have hstep : bestSlot ref (m + 1) i cache =
        if m = 0 ∨ naiveNextOccurrence ref i (cache m) > (bestSlot ref m i cache).1 then
          (naiveNextOccurrence ref i (cache m), toInt32 m)
        else bestSlot ref m i cache := by
      rw [bestSlot, List.range_succ, List.foldl_append]
      rfl
    rcases Nat.eq_zero_or_pos m with rfl | hm
    · refine ⟨0, Nat.one_pos, by rw [hstep, if_pos (Or.inl rfl)], fun j hj => ?_⟩
      rw [Nat.lt_one_iff.1 hj]
    · obtain ⟨k, hk, hbest, hmax⟩ := ih hm
      by_cases hgt : naiveNextOccurrence ref i (cache m) > naiveNextOccurrence ref i (cache k)
      · refine ⟨m, Nat.lt_succ_self m, by rw [hstep, hbest, if_pos (Or.inr hgt)], fun j hj => ?_⟩
        rcases Nat.lt_succ_iff_lt_or_eq.1 hj with hlt | rfl
        · exact (hmax j hlt).trans hgt.le
        · exact le_rfl
      · refine ⟨k, Nat.lt_succ_of_lt hk, ?_, fun j hj => ?_⟩
        · rw [hstep, hbest, if_neg]
          exact fun h => h.elim hm.ne' hgt
        · rcases Nat.lt_succ_iff_lt_or_eq.1 hj with hlt | rfl
          · exact hmax j hlt
          · exact Nat.le_of_not_lt hgt

/-! ## The naive solver makes a furthest-in-future run -/

/-- The cache `C` fills the first slots, each chunk in one of them. -/
structure NaiveInv (C : Finset ℕ) (s : Naive) : Prop where
  used : ∀ k, s.used k = true ↔ k < C.card
  mem : ∀ x, x ∈ C ↔ ∃ k < C.card, s.cache k = x
  inj : ∀ k l, k < C.card → l < C.card → s.cache k = s.cache l → k = l

variable {ref pre rest : List ℕ} {capacity c : ℕ} {C : Finset ℕ} {s : Naive}

theorem NaiveInv.init (mem : ℕ → ℕ) : NaiveInv ∅ ⟨mem, fun _ => false, 0⟩ where
  used := by simp
  mem := by simp
  inj := by simp

theorem NaiveInv.found (h : NaiveInv C s) (hc : c ∈ C) (hcap : C.card ≤ capacity)
    (hsmall : C.card ≤ 2 ^ 31) :
    findSlot capacity (fun k => s.used k && s.cache k == c) ≥ 0 := by
  obtain ⟨k, hk, rfl⟩ := (h.mem c).1 hc
  rw [findSlot_first (k := k) (by omega), toInt32_of_lt (by omega)]
  · exact Int.natCast_nonneg k
  · simp [(h.used k).2 hk]
  · intro j hj
    have hne : s.cache j ≠ s.cache k := fun he => hj.ne (h.inj j k (by omega) hk he)
    simp [hne]

theorem NaiveInv.notFound (h : NaiveInv C s) (hc : c ∉ C) :
    findSlot capacity (fun k => s.used k && s.cache k == c) = -1 := by
  refine findSlot_none fun k _ => ?_
  by_cases hk : k < C.card
  · have hne : s.cache k ≠ c := fun he => hc ((h.mem c).2 ⟨k, hk, he⟩)
    simp [hne]
  · have hused : s.used k = false := Bool.eq_false_iff.2 fun hu => hk ((h.used k).1 hu)
    simp [hused]

/-- The next chunk goes into the slot behind the used ones. -/
theorem NaiveInv.fill (h : NaiveInv C s) (hc : c ∉ C) (m : ℕ) :
    NaiveInv (insert c C)
      { cache := update s.cache C.card c, used := update s.used C.card true, misses := m } := by
  have hcard : (insert c C).card = C.card + 1 := Finset.card_insert_of_notMem hc
  have hold : ∀ k < C.card, update s.cache C.card c k = s.cache k :=
    fun k hk => update_of_ne hk.ne _ _
  refine ⟨fun k => ?_, fun x => ?_, fun k l hk hl heq => ?_⟩
  · rw [hcard]
    by_cases hk : k = C.card
    · subst hk
      simp
    · dsimp only
      rw [update_of_ne hk, h.used]
      omega
  · rw [hcard, Finset.mem_insert, h.mem]
    constructor
    · rintro (rfl | ⟨k, hk, rfl⟩)
      · exact ⟨C.card, Nat.lt_succ_self _, update_self _ _ _⟩
      · exact ⟨k, Nat.lt_succ_of_lt hk, hold k hk⟩
    · rintro ⟨k, hk, rfl⟩
      rcases Nat.lt_succ_iff_lt_or_eq.1 hk with hlt | rfl
      · exact Or.inr ⟨k, hlt, (hold k hlt).symm⟩
      · exact Or.inl (update_self _ _ _)
  · rw [hcard] at hk hl
    rcases Nat.lt_succ_iff_lt_or_eq.1 hk with hk | rfl
    · rcases Nat.lt_succ_iff_lt_or_eq.1 hl with hl | rfl
      · simp only [hold k hk, hold l hl] at heq
        exact h.inj k l hk hl heq
      · simp only [hold k hk, update_self] at heq
        exact absurd ((h.mem c).2 ⟨k, hk, heq⟩) hc
    · rcases Nat.lt_succ_iff_lt_or_eq.1 hl with hl | rfl
      · simp only [hold l hl, update_self] at heq
        exact absurd ((h.mem c).2 ⟨l, hl, heq.symm⟩) hc
      · rfl

/-- The chunk in slot `k` is replaced. -/
theorem NaiveInv.replace (h : NaiveInv C s) (hc : c ∉ C) {k : ℕ} (hk : k < C.card) (m : ℕ) :
    NaiveInv (insert c (C.erase (s.cache k)))
      { cache := update s.cache k c, used := update s.used k true, misses := m } := by
  have hf : s.cache k ∈ C := (h.mem _).2 ⟨k, hk, rfl⟩
  have hcard : (insert c (C.erase (s.cache k))).card = C.card := (card_replace hc hf).symm
  refine ⟨fun l => ?_, fun x => ?_, fun l l' hl hl' heq => ?_⟩
  · rw [hcard]
    by_cases hlk : l = k
    · subst hlk
      simp [hk]
    · dsimp only
      rw [update_of_ne hlk, h.used]
  · rw [hcard, Finset.mem_insert, Finset.mem_erase, h.mem]
    constructor
    · rintro (rfl | ⟨hne, l, hl, rfl⟩)
      · exact ⟨k, hk, update_self _ _ _⟩
      · have hlk : l ≠ k := by
          rintro rfl
          exact hne rfl
        exact ⟨l, hl, update_of_ne hlk _ _⟩
    · rintro ⟨l, hl, rfl⟩
      by_cases hlk : l = k
      · subst hlk
        exact Or.inl (update_self _ _ _)
      · dsimp only
        rw [update_of_ne hlk]
        exact Or.inr ⟨fun he => hlk (h.inj l k hl hk he), l, hl, rfl⟩
  · rw [hcard] at hl hl'
    dsimp only at heq
    by_cases hlk : l = k
    · by_cases hlk' : l' = k
      · rw [hlk, hlk']
      · rw [hlk, update_self, update_of_ne hlk'] at heq
        exact absurd ((h.mem c).2 ⟨l', hl', heq.symm⟩) hc
    · by_cases hlk' : l' = k
      · rw [hlk', update_self, update_of_ne hlk] at heq
        exact absurd ((h.mem c).2 ⟨l, hl, heq⟩) hc
      · rw [update_of_ne hlk, update_of_ne hlk'] at heq
        exact h.inj l l' hl hl' heq

/-- One iteration, while the slots in use have small numbers. -/
theorem naiveStep_spec (href : ref = pre ++ c :: rest) (hlen : ref.length ≤ INF)
    (h : NaiveInv C s) (hcap : C.card ≤ capacity) (hpos : 1 ≤ capacity)
    (hsmall : capacity ≤ 2 ^ 31 ∨ (insert c C).card ≤ 2 ^ 31) :
    ∃ C' s' k, naiveStep ref capacity s (c, pre.length) = some s' ∧ NaiveInv C' s' ∧
      C' ⊆ insert c C ∧ C'.card ≤ capacity ∧ s'.misses = s.misses + k ∧
      ∀ m, Furthest capacity C' rest m → Furthest capacity C (c :: rest) (m + k) := by
  by_cases hc : c ∈ C
  · -- hit
    have hCsmall : C.card ≤ 2 ^ 31 := by
      rw [Finset.insert_eq_of_mem hc] at hsmall
      omega
    refine ⟨C, s, 0, ?_, h, Finset.subset_insert c C, hcap, rfl, fun m hm => Furthest.hit hc hm⟩
    rw [naiveStep, if_pos (h.found hc hcap hCsmall)]
  have hcard : (insert c C).card = C.card + 1 := Finset.card_insert_of_notMem hc
  have hmiss : ¬ findSlot capacity (fun k => s.used k && s.cache k == c) ≥ 0 := by
    rw [h.notFound hc]
    decide
  by_cases hroom : C.card < capacity
  · -- a free slot
    have hfree : findSlot capacity (fun k => !s.used k) = (C.card : ℤ) := by
      rw [findSlot_first hroom, toInt32_of_lt (by omega)]
      · simpa using (h.used C.card).not.2 (Nat.lt_irrefl _)
      · intro j hj
        simp [(h.used j).2 hj]
    have hnn : ¬ (C.card : ℤ) < 0 := Int.not_lt.2 (Int.natCast_nonneg _)
    refine ⟨insert c C, _, 1, ?_, h.fill hc (s.misses + 1), subset_rfl, by omega, rfl,
      fun m hm => Furthest.fill hc hroom hm⟩
    simp only [naiveStep, if_neg hmiss, hfree, if_neg hnn, Int.toNat_natCast]
  · -- full: the furthest chunk makes room
    have hfull : C.card = capacity := le_antisymm hcap (Nat.le_of_not_lt hroom)
    have hfree : findSlot capacity (fun k => !s.used k) = -1 := by
      refine findSlot_none fun k hk => ?_
      simp [(h.used k).2 (hfull ▸ hk)]
    obtain ⟨k, hk, hbest, hmax⟩ := bestSlot_spec ref pre.length s.cache hpos
    have hkC : k < C.card := hfull ▸ hk
    have hf : s.cache k ∈ C := (h.mem _).2 ⟨k, hkC, rfl⟩
    have hnn : ¬ (k : ℤ) < 0 := Int.not_lt.2 (Int.natCast_nonneg _)
    have hrest : pre.length + 1 + rest.length ≤ INF := by
      rw [href] at hlen
      simp only [List.length_append, List.length_cons] at hlen
      omega
    rw [toInt32_of_lt (by omega)] at hbest
    refine ⟨insert c (C.erase (s.cache k)), _, 1, ?_, h.replace hc hkC (s.misses + 1),
      Finset.insert_subset_insert c (Finset.erase_subset _ C), (card_replace hc hf).symm.trans_le hcap,
      rfl, fun m hm => Furthest.evict hc hfull hf (fun e he => ?_) hm⟩
    · simp only [naiveStep, if_neg hmiss, hfree, hbest, if_pos (show (-1 : ℤ) < 0 by decide),
        if_neg hnn, Int.toNat_natCast]
    · obtain ⟨l, hl, rfl⟩ := (h.mem e).1 he
      have hle := hmax l (hfull ▸ hl)
      rw [href, naiveNextOccurrence_eq, naiveNextOccurrence_eq] at hle
      exact idxOf_le_of_nextUse_le hrest hle

/-- The main loop from any point of the string is a furthest-in-future run. -/
theorem foldlM_naiveStep_furthest (hlen : ref.length ≤ INF) (hpos : 1 ≤ capacity)
    (hsmall : capacity ≤ 2 ^ 31 ∨ ref.toFinset.card ≤ 2 ^ 31) (rest : List ℕ) :
    ∀ (pre : List ℕ) (C : Finset ℕ) (s : Naive), ref = pre ++ rest → C ⊆ ref.toFinset →
      C.card ≤ capacity → NaiveInv C s → ∃ s' m,
        (rest.zipIdx pre.length).foldlM (naiveStep ref capacity) s = some s' ∧
        s'.misses = s.misses + m ∧ Furthest capacity C rest m := by
  induction rest with
  | nil => exact fun pre C s _ _ _ _ => ⟨s, 0, rfl, rfl, Furthest.nil⟩
  | cons c rest ih =>
    intro pre C s href hsub hcap hinv
    have hmem : c ∈ ref.toFinset := by
      rw [href]
      simp
    have hins : insert c C ⊆ ref.toFinset := Finset.insert_subset hmem hsub
    obtain ⟨C', s₁, k, hs₁, hinv₁, hsub₁, hcap₁, hk, hlift⟩ :=
      naiveStep_spec href hlen hinv hcap hpos
        (hsmall.imp id fun h => (Finset.card_le_card hins).trans h)
    have hlen₁ : (pre ++ [c]).length = pre.length + 1 := by simp
    obtain ⟨s', m, hs', hm, hfur⟩ :=
      ih (pre ++ [c]) C' s₁ (by simpa using href) (hsub₁.trans hins) hcap₁ hinv₁
    rw [hlen₁] at hs'
    refine ⟨s', m + k, ?_, by omega, hlift m hfur⟩
    rw [List.zipIdx_cons, List.foldlM_cons, hs₁]
    exact hs'

/-- The two solvers agree. -/
theorem naiveBelady_eq (mem : ℕ → ℕ) (hids : ∀ c ∈ ref, c < 2 ^ 32 - 1)
    (hlen : ref.length < 2 ^ 64) (hpos : 1 ≤ capacity)
    (hsmall : capacity ≤ 2 ^ 31 ∨ ref.toFinset.card ≤ 2 ^ 31) :
    ∃ r, beladySimulate ref capacity = some r ∧ naiveBelady mem ref capacity = some r.misses := by
  obtain ⟨r, hr, hfur⟩ := beladySimulate_furthest capacity hids hlen
  obtain ⟨s, m, hs, hm, hfur'⟩ := foldlM_naiveStep_furthest (Nat.le_sub_one_of_lt hlen) hpos hsmall
    ref [] ∅ ⟨mem, fun _ => false, 0⟩ rfl (Finset.empty_subset _) (Nat.zero_le _) (NaiveInv.init mem)
  refine ⟨r, hr, ?_⟩
  rw [List.length_nil] at hs
  rw [naiveBelady, hs, Option.map_some, hm, hfur.cost_unique hfur', Nat.zero_add]

/-! ## Live heap entries -/

/-- The heap solver after the references `pre`. -/
def afterRefs (ref : List ℕ) (capacity : ℕ) (pre : List ℕ) : Sim :=
  pre.foldl (simStep (occurrence ref) capacity) simInit

/-- Each entry was pushed for a use of its own: a consumed one, or the next one ahead. -/
structure Fresh (pos : ℕ) (rest : List ℕ) (entries : Multiset HeapEntry) : Prop where
  nodup : entries.Nodup
  use : ∀ e ∈ entries, e.priority < pos ∨ e.priority = nextUse INF e.chunkId pos rest

/-- In a state `pos` references in, at a reference to `c` with `rest` behind it. -/
structure LiveEntries (capacity pos c : ℕ) (rest : List ℕ) (s : Sim) : Prop where
  /-- A cached chunk has one entry for its next use, … -/
  one : ∀ x, s.inCache x = true → s.heap.entries.count ⟨nextUse INF x pos (c :: rest), x⟩ = 1
  /-- … no other passes the test of the eviction loop, … -/
  only : ∀ e ∈ s.heap.entries, s.inCache e.chunkId = true →
    s.currentPriority e.chunkId = e.priority →
      e.priority = nextUse INF e.chunkId pos (c :: rest)
  /-- … and the loop of a miss in the full cache ends with a furthest cached chunk. -/
  victim : s.inCache c = false → s.cacheSize = capacity → ∃ f heap, s.inCache f = true ∧
    (∀ x, s.inCache x = true →
      nextUse INF x pos (c :: rest) ≤ nextUse INF f pos (c :: rest)) ∧
    evictVictim { s with readPtr := update s.readPtr c (s.readPtr c + 1), misses := s.misses + 1 } =
      { s with readPtr := update s.readPtr c (s.readPtr c + 1), misses := s.misses + 1,
               heap := heap, inCache := update s.inCache f false, cacheSize := s.cacheSize - 1 }

theorem Fresh.mono {pos : ℕ} {entries entries' : Multiset HeapEntry} (h : Fresh pos rest entries)
    (hle : entries' ≤ entries) : Fresh pos rest entries' where
  nodup := Multiset.nodup_of_le hle h.nodup
  use e he := h.use e (Multiset.mem_of_le hle he)

/-- A reference consumes the use of its chunk and pushes the next one. -/
theorem Fresh.push {pos : ℕ} {entries : Multiset HeapEntry} (h : Fresh pos (c :: rest) entries)
    (hpos : pos < INF) :
    Fresh (pos + 1) rest (⟨nextUse INF c (pos + 1) rest, c⟩ ::ₘ entries) := by
  have hahead : pos < nextUse INF c (pos + 1) rest := by
    rw [nextUse]
    split_ifs <;> omega
  constructor
  · refine Multiset.nodup_cons.2 ⟨fun hmem => ?_, h.nodup⟩
    rcases h.use _ hmem with hlt | heq
    · exact absurd hlt (Nat.not_lt.2 hahead.le)
    · rw [nextUse_cons_self] at heq
      exact hahead.ne' heq
  · intro e he
    rcases Multiset.mem_cons.1 he with rfl | he
    · exact Or.inr rfl
    · rcases h.use e he with hlt | heq
      · exact Or.inl (Nat.lt_succ_of_lt hlt)
      · by_cases hec : e.chunkId = c
        · rw [hec, nextUse_cons_self] at heq
          exact Or.inl (heq ▸ Nat.lt_succ_self pos)
        · exact Or.inr (heq.trans (nextUse_cons_ne hec pos rest))

/-- The eviction loop only removes entries. -/
theorem evictVictim_entries (s : Sim) (hord : s.heap.Ordered) :
    (evictVictim s).heap.entries ≤ s.heap.entries := by
  induction s using evictVictim.induct with
  | case1 s hpop =>
    rw [evictVictim_of_empty hpop]
  | case2 s top heap hpop hvalid =>
    obtain ⟨hent, -⟩ := heapPopMax_spec hord hpop
    rw [evictVictim_of_live hpop hvalid, hent]
    exact Multiset.le_cons_self _ _
  | case3 s top heap hpop hstale ih =>
    obtain ⟨hent, hord', -⟩ := heapPopMax_spec hord hpop
    rw [evictVictim_of_stale hpop hstale, hent]
    exact (ih hord').trans (Multiset.le_cons_self _ _)

theorem afterRefs_append (ref : List ℕ) (capacity : ℕ) (pre : List ℕ) (c : ℕ) :
    afterRefs ref capacity (pre ++ [c]) =
      simStep (occurrence ref) capacity (afterRefs ref capacity pre) c := by
  rw [afterRefs, List.foldl_append]
  rfl

/-- One iteration adds at most the entry for the next use of its chunk. -/
theorem simStep_entries (occ : ℕ → List ℕ) (capacity : ℕ) (s : Sim) (c : ℕ)
    (hord : s.heap.Ordered) : (simStep occ capacity s c).heap.entries ≤
      ⟨(occ c).getD (s.readPtr c + 1) INF, c⟩ ::ₘ s.heap.entries := by
  unfold simStep
  simp only [update_self]
  by_cases hc : s.inCache c = true
  · rw [if_pos hc]
    exact (heapPush_entries _ _ _).le
  · rw [if_neg hc]
    by_cases hfull : s.cacheSize = capacity
    · -- a miss that runs the eviction loop first
      have hle := evictVictim_entries
        { s with readPtr := update s.readPtr c (s.readPtr c + 1), misses := s.misses + 1 } hord
      simp only [if_pos hfull]
      split_ifs
      · rw [heapPush_entries]
        exact Multiset.cons_le_cons _ hle
      · exact hle.trans (Multiset.le_cons_self _ _)
    · simp only [if_neg hfull]
      split_ifs
      · exact (heapPush_entries _ _ _).le
      · exact Multiset.le_cons_self _ _

/-- The loop invariant and the entry discipline after any part of the string. -/
theorem afterRefs_inv (capacity : ℕ) (hlen : ref.length ≤ INF) (pre : List ℕ) :
    ∀ rest, ref = pre ++ rest → ∃ C, SimInv capacity pre rest C (afterRefs ref capacity pre) ∧
      Fresh pre.length rest (afterRefs ref capacity pre).heap.entries := by
  induction pre using List.reverseRecOn with
  | nil =>
    intro rest _
    refine ⟨∅, simInit_inv capacity rest, ?_⟩
    constructor <;> simp [afterRefs, simInit, heapInit, Heap.entries, BinHeap.entries]
  | append_singleton pre c ih =>
    intro rest href
    have href' : ref = pre ++ c :: rest := by simpa using href
    obtain ⟨C, hinv, hfresh⟩ := ih (c :: rest) href'
    obtain ⟨C', -, hinv', -⟩ := simStep_spec ref href' hlen hinv
    have hpos : pre.length < INF := by
      rw [href'] at hlen
      simp only [List.length_append, List.length_cons] at hlen
      omega
    have hle := simStep_entries (occurrence ref) capacity (afterRefs ref capacity pre) c hinv.ordered
    rw [hinv.read, href', occurrence_getD, ← href'] at hle
    rw [afterRefs_append, List.length_append, List.length_singleton]
    exact ⟨C', hinv', (hfresh.push hpos).mono hle⟩

/-- Every cached chunk has one live entry, and the eviction loop ends with one. -/
theorem afterRefs_live (hlen : ref.length ≤ INF) (hpos : 1 ≤ capacity)
    (href : ref = pre ++ c :: rest) :
    LiveEntries capacity pre.length c rest (afterRefs ref capacity pre) := by
  obtain ⟨C, hinv, hfresh⟩ := afterRefs_inv capacity hlen pre _ href
  have hprio : ∀ x, (afterRefs ref capacity pre).inCache x = true →
      (afterRefs ref capacity pre).currentPriority x = nextUse INF x pre.length (c :: rest) :=
    fun x hx => hinv.prio x ((hinv.cached x).1 hx)
  constructor
  · intro x hx
    rw [← hprio x hx]
    exact Multiset.count_eq_one_of_mem hfresh.nodup (hinv.live x ((hinv.cached x).1 hx))
  · intro e _ hcached heq
    rw [← heq, hprio _ hcached]
  · intro _ hfull
    have hne : C.Nonempty := by
      rw [← Finset.card_pos, ← hinv.size, hfull]
      exact hpos
    obtain ⟨f, hf, heap, hmax, heq, -⟩ := evictVictim_spec
      { afterRefs ref capacity pre with
        readPtr := update (afterRefs ref capacity pre).readPtr c
          ((afterRefs ref capacity pre).readPtr c + 1)
        misses := (afterRefs ref capacity pre).misses + 1 } hne hinv.cached hinv.ordered hinv.live
    refine ⟨f, heap, (hinv.cached f).2 hf, fun x hx => ?_, heq⟩
    rw [← hprio x hx, ← hprio f ((hinv.cached f).2 hf)]
    exact hmax x ((hinv.cached x).1 hx)

/-- What the self-test relies on: the two solvers agree, and the heap has one live entry for
each cached chunk. -/
structure Matches (mem : ℕ → ℕ) (ref : List ℕ) (capacity : ℕ) : Prop where
  misses : ∃ r, beladySimulate ref capacity = some r ∧ naiveBelady mem ref capacity = some r.misses
  live : ∀ pre c rest, ref = pre ++ c :: rest →
    LiveEntries capacity pre.length c rest (afterRefs ref capacity pre)

theorem Matches.of_slots (mem : ℕ → ℕ) (hids : ∀ c ∈ ref, c < 2 ^ 32 - 1)
    (hlen : ref.length < 2 ^ 64) (hpos : 1 ≤ capacity)
    (hsmall : capacity ≤ 2 ^ 31 ∨ ref.toFinset.card ≤ 2 ^ 31) : Matches mem ref capacity where
  misses := naiveBelady_eq mem hids hlen hpos hsmall
  live _ _ _ href := afterRefs_live (Nat.le_sub_one_of_lt hlen) hpos href

/-! ## Slots beyond `INT_MAX` -/

/-- A chunk that is not found counts as missed. -/
theorem naiveStep_miss {s s' : Naive} {p : ℕ × ℕ}
    (hmiss : findSlot capacity (fun k => s.used k && s.cache k == p.1) = -1)
    (h : naiveStep ref capacity s p = some s') : s'.misses = s.misses + 1 := by
  rw [naiveStep, hmiss, if_neg (by decide)] at h
  obtain ⟨-, hs⟩ := Option.ite_none_left_eq_some.1 h
  rw [← Option.some.inj hs]

theorem naiveStep_misses {s s' : Naive} {p : ℕ × ℕ} (h : naiveStep ref capacity s p = some s') :
    s.misses ≤ s'.misses := by
  rw [naiveStep] at h
  by_cases hfound : findSlot capacity (fun k => s.used k && s.cache k == p.1) ≥ 0
  · rw [if_pos hfound] at h
    exact (congrArg Naive.misses (Option.some.inj h)).le
  · rw [if_neg hfound] at h
    obtain ⟨-, hs⟩ := Option.ite_none_left_eq_some.1 h
    rw [← Option.some.inj hs]
    exact Nat.le_succ _

/-- A run through the first element of a list. -/
theorem foldlM_naiveStep_cons {p : ℕ × ℕ} {l : List (ℕ × ℕ)} {s s' : Naive}
    (h : (p :: l).foldlM (naiveStep ref capacity) s = some s') :
    ∃ s₁, naiveStep ref capacity s p = some s₁ ∧
      l.foldlM (naiveStep ref capacity) s₁ = some s' := by
  rw [List.foldlM_cons] at h
  exact Option.bind_eq_some_iff.1 h

theorem foldlM_naiveStep_append {l l' : List (ℕ × ℕ)} {s s' : Naive}
    (h : (l ++ l').foldlM (naiveStep ref capacity) s = some s') :
    ∃ s₁, l.foldlM (naiveStep ref capacity) s = some s₁ ∧
      l'.foldlM (naiveStep ref capacity) s₁ = some s' := by
  rw [List.foldlM_append] at h
  exact Option.bind_eq_some_iff.1 h

theorem foldlM_naiveStep_misses {l : List (ℕ × ℕ)} {s s' : Naive}
    (h : l.foldlM (naiveStep ref capacity) s = some s') : s.misses ≤ s'.misses := by
  induction l generalizing s with
  | nil =>
    cases h
    exact le_rfl
  | cons p l ih =>
    obtain ⟨s₁, hs₁, hrest⟩ := foldlM_naiveStep_cons h
    exact (naiveStep_misses hs₁).trans (ih hrest)

theorem foldlM_naiveStep_fixed {l : List (ℕ × ℕ)} {s : Naive}
    (h : ∀ p ∈ l, naiveStep ref capacity s p = some s) :
    l.foldlM (naiveStep ref capacity) s = some s := by
  induction l with
  | nil => rfl
  | cons p l ih =>
    rw [List.foldlM_cons, h p List.mem_cons_self]
    exact ih fun q hq => h q (List.mem_cons_of_mem p hq)

/-- The first `m` chunks are in the first `m` slots. -/
def filled (mem : ℕ → ℕ) (m : ℕ) : Naive :=
  ⟨fun k => if k < m then k else mem k, fun k => decide (k < m), m⟩

/-- Then chunk `k` has lost its slot to chunk `m`. -/
def displaced (mem : ℕ → ℕ) (m k : ℕ) : Naive :=
  ⟨update (filled mem m).cache k m, update (filled mem m).used k true, m + 1⟩

section

variable {mem : ℕ → ℕ} {i j k m : ℕ}

theorem filled_notFound (mem : ℕ → ℕ) (capacity m : ℕ) :
    findSlot capacity (fun k => (filled mem m).used k && (filled mem m).cache k == m) = -1 := by
  refine findSlot_none fun k _ => ?_
  by_cases hk : k < m
  · simp [filled, hk, hk.ne]
  · simp [filled, hk]

theorem filled_free (mem : ℕ → ℕ) (hm : m < capacity) :
    findSlot capacity (fun k => !(filled mem m).used k) = toInt32 m := by
  refine findSlot_first hm (by simp [filled]) fun j hj => ?_
  simp [filled, hj]

theorem naiveStep_filled (ref : List ℕ) (hm : m < capacity) (hsmall : m < 2 ^ 31) :
    naiveStep ref capacity (filled mem m) (m, i) = some (filled mem (m + 1)) := by
  have hfree := filled_free mem hm
  rw [toInt32_of_lt hsmall] at hfree
  have hnn : ¬ (m : ℤ) < 0 := Int.not_lt.2 (Int.natCast_nonneg _)
  have hcache : update (filled mem m).cache m m = (filled mem (m + 1)).cache := by
    funext k
    by_cases hk : k = m
    · subst hk
      simp [filled]
    · rw [update_of_ne hk]
      have hiff : k < m ↔ k < m + 1 := by omega
      simp only [filled, hiff]
  have hused : update (filled mem m).used m true = (filled mem (m + 1)).used := by
    funext k
    by_cases hk : k = m
    · subst hk
      simp [filled]
    · rw [update_of_ne hk]
      have hiff : k < m ↔ k < m + 1 := by omega
      simp only [filled, hiff]
  simp only [naiveStep, filled_notFound, hfree, if_neg (show ¬ (-1 : ℤ) ≥ 0 by decide), if_neg hnn,
    Int.toNat_natCast, hcache, hused]
  rfl

theorem foldlM_filled (ref : List ℕ) (hm : m ≤ capacity) (hsmall : m ≤ 2 ^ 31) :
    (List.range m).zipIdx.foldlM (naiveStep ref capacity) (filled mem 0) = some (filled mem m) := by
  induction m with
  | zero => rfl
  | succ m ih =>
    rw [List.range_succ, List.zipIdx_append, List.foldlM_append, ih (by omega) (by omega)]
    show (naiveStep ref capacity (filled mem m) (m, 0 + (List.range m).length)).bind some = _
    rw [naiveStep_filled ref (by omega) (by omega)]
    rfl

/-- The free slot `2 ^ 31` reads as "none": a chunk is evicted for nothing. -/
theorem naiveStep_beyond (ref : List ℕ) (hcap : 2 ^ 31 < capacity) (hcap' : capacity < 2 ^ 32) :
    naiveStep ref capacity (filled mem (2 ^ 31)) (2 ^ 31, i) = none ∨
      ∃ k < 2 ^ 31, naiveStep ref capacity (filled mem (2 ^ 31)) (2 ^ 31, i) =
        some (displaced mem (2 ^ 31) k) := by
  have hfree : findSlot capacity (fun k => !(filled mem (2 ^ 31)).used k) < 0 := by
    rw [filled_free mem hcap]
    exact toInt32_neg le_rfl (by norm_num)
  obtain ⟨k, hk, hbest, -⟩ := bestSlot_spec ref i (filled mem (2 ^ 31)).cache
    (show 0 < capacity by omega)
  have hstep : naiveStep ref capacity (filled mem (2 ^ 31)) (2 ^ 31, i) =
      if toInt32 k < 0 then none
      else some
        { cache := update (filled mem (2 ^ 31)).cache (toInt32 k).toNat (2 ^ 31)
          used := update (filled mem (2 ^ 31)).used (toInt32 k).toNat true
          misses := 2 ^ 31 + 1 } := by
    simp only [naiveStep, filled_notFound, hbest, if_pos hfree,
      if_neg (show ¬ (-1 : ℤ) ≥ 0 by decide)]
    rfl
  rcases Nat.lt_or_ge k (2 ^ 31) with hlt | hge
  · refine Or.inr ⟨k, hlt, ?_⟩
    rw [hstep, toInt32_of_lt hlt, if_neg (Int.not_lt.2 (Int.natCast_nonneg _)), Int.toNat_natCast]
    rfl
  · exact Or.inl (by rw [hstep, if_pos (toInt32_neg hge (by omega))])

theorem displaced_cache (hk : k < m) {l : ℕ} (hl : (displaced mem m k).used l = true) :
    l < m ∧ (displaced mem m k).cache l = if l = k then m else l := by
  by_cases hlk : l = k
  · subst hlk
    exact ⟨hk, by simp [displaced]⟩
  · have hlm : l < m := by simpa [displaced, filled, hlk] using hl
    exact ⟨hlm, by simp [displaced, filled, hlk, hlm]⟩

/-- The chunks in front of the lost one are still found. -/
theorem naiveStep_displaced_hit (ref : List ℕ) (hk : k < m) (hm : m ≤ 2 ^ 31) (hcap : m < capacity)
    (hj : j < k) : naiveStep ref capacity (displaced mem m k) (j, i) = some (displaced mem m k) := by
  have hfound : findSlot capacity (fun l => (displaced mem m k).used l &&
      (displaced mem m k).cache l == j) = (j : ℤ) := by
    rw [findSlot_first (k := j) (by omega), toInt32_of_lt (by omega)]
    · simp [displaced, filled, hj.ne, hj.trans hk]
    · intro l hl
      by_cases hu : (displaced mem m k).used l = true
      · obtain ⟨-, hcache⟩ := displaced_cache hk hu
        rw [if_neg (by omega)] at hcache
        simp [hcache, hl.ne]
      · simp [Bool.eq_false_iff.2 hu]
  have hnn : (j : ℤ) ≥ 0 := Int.natCast_nonneg j
  simp only [naiveStep, hfound, if_pos hnn]

/-- The lost chunk is missed again. -/
theorem naiveStep_displaced_miss {s : Naive} (hk : k < m)
    (h : naiveStep ref capacity (displaced mem m k) (k, i) = some s) : s.misses = m + 2 := by
  have hmiss : findSlot capacity (fun l => (displaced mem m k).used l &&
      (displaced mem m k).cache l == k) = -1 := by
    refine findSlot_none fun l _ => ?_
    by_cases hu : (displaced mem m k).used l = true
    · obtain ⟨-, hcache⟩ := displaced_cache hk hu
      by_cases hlk : l = k
      · rw [if_pos hlk] at hcache
        simp [hcache, hk.ne']
      · rw [if_neg hlk] at hcache
        simp [hcache, hlk]
    · simp [Bool.eq_false_iff.2 hu]
  exact naiveStep_miss hmiss h

end

/-- Two passes over `m + 1` chunks. -/
def twoPasses (m : ℕ) : List ℕ := List.range (m + 1) ++ List.range (m + 1)

theorem mem_twoPasses {m c : ℕ} : c ∈ twoPasses m ↔ c < m + 1 := by
  simp [twoPasses]

theorem length_twoPasses (m : ℕ) : (twoPasses m).length = m + 1 + (m + 1) := by
  simp [twoPasses]

theorem zipIdx_twoPasses (m : ℕ) : (twoPasses m).zipIdx =
    ((List.range m).zipIdx ++ [(m, m)]) ++ (List.range (m + 1)).zipIdx (m + 1) := by
  have hpass : (List.range (m + 1)).zipIdx = (List.range m).zipIdx ++ [(m, m)] := by
    rw [List.range_succ, List.zipIdx_append, List.length_range, Nat.zero_add]
    rfl
  rw [twoPasses, List.zipIdx_append, List.length_range, Nat.zero_add, hpass]

/-- The second pass after chunk `k` has lost its slot. -/
theorem displaced_pass {mem : ℕ → ℕ} {k m start : ℕ} {s : Naive} (hk : k < m) (hm : m ≤ 2 ^ 31)
    (hcap : m < capacity)
    (h : ((List.range (m + 1)).zipIdx start).foldlM (naiveStep ref capacity) (displaced mem m k) =
      some s) : m + 2 ≤ s.misses := by
  obtain ⟨rest, hrest⟩ : ∃ rest, List.range (m + 1) = List.range k ++ k :: rest := by
    obtain ⟨d, rfl⟩ := Nat.exists_eq_add_of_lt hk
    refine ⟨(List.range (d + 1)).map (k + 1 + ·), ?_⟩
    have hsum : k + d + 1 + 1 = k + 1 + (d + 1) := by omega
    rw [hsum, List.range_add, List.range_succ, List.append_assoc]
    rfl
  rw [hrest, List.zipIdx_append] at h
  obtain ⟨s₁, hs₁, hlast⟩ := foldlM_naiveStep_append h
  rw [foldlM_naiveStep_fixed] at hs₁
  · obtain rfl := Option.some.inj hs₁
    rw [List.zipIdx_cons] at hlast
    obtain ⟨s₂, hs₂, hend⟩ := foldlM_naiveStep_cons hlast
    rw [← naiveStep_displaced_miss hk hs₂]
    exact foldlM_naiveStep_misses hend
  · intro p hp
    have hmem := List.mem_map_of_mem (f := Prod.fst) hp
    rw [List.zipIdx_map_fst] at hmem
    exact naiveStep_displaced_hit ref hk hm hcap (List.mem_range.1 hmem)

/-- The naive solver miscounts the two passes, or writes in front of its arrays. -/
theorem naiveBelady_twoPasses {mem : ℕ → ℕ} {misses : ℕ} (hcap : 2 ^ 31 < capacity)
    (hcap' : capacity < 2 ^ 32) (h : naiveBelady mem (twoPasses (2 ^ 31)) capacity = some misses) :
    2 ^ 31 + 2 ≤ misses := by
  obtain ⟨s, hs, rfl⟩ := Option.map_eq_some_iff.1 h
  have hinit : (⟨mem, fun _ => false, 0⟩ : Naive) = filled mem 0 := by simp [filled]
  rw [hinit, zipIdx_twoPasses] at hs
  obtain ⟨s₁, hs₁, hpass⟩ := foldlM_naiveStep_append hs
  obtain ⟨s₂, hs₂, hone⟩ := foldlM_naiveStep_append hs₁
  rw [foldlM_filled _ hcap.le le_rfl] at hs₂
  obtain rfl := Option.some.inj hs₂
  obtain ⟨s₃, hs₃, hnil⟩ := foldlM_naiveStep_cons hone
  obtain rfl : s₃ = s₁ := Option.some.inj hnil
  rcases naiveStep_beyond _ hcap hcap' with hnone | ⟨k, hk, hsome⟩
  · rw [hnone] at hs₃
    cases hs₃
  · rw [hsome] at hs₃
    obtain rfl := Option.some.inj hs₃
    exact displaced_pass hk le_rfl hcap hpass

/-- With a slot for every chunk the optimum is one miss for each. -/
theorem beladySimulate_twoPasses {m : ℕ} {r : Result} (hm : m + 1 < 2 ^ 32 - 1)
    (hcap : m < capacity) (h : beladySimulate (twoPasses m) capacity = some r) :
    r.misses ≤ m + 1 := by
  have hset : (twoPasses m).toFinset = Finset.range (m + 1) := by
    ext x
    rw [List.mem_toFinset, mem_twoPasses, Finset.mem_range]
  have hids : ∀ c ∈ twoPasses m, c < 2 ^ 32 - 1 := by
    intro c hc
    have hlt := mem_twoPasses.1 hc
    omega
  have hlen : (twoPasses m).length < 2 ^ 64 := by
    rw [length_twoPasses]
    omega
  obtain ⟨r', hr', hfur⟩ := beladySimulate_furthest capacity hids hlen
  obtain rfl : r' = r := Option.some.inj (hr'.symm.trans h)
  have hroom := @Demand.of_room ℕ _ capacity (twoPasses m) ∅
    (by rw [hset]; simpa using hcap)
  have hle := hfur.isLeast.2 hroom
  rwa [hset, Finset.sdiff_empty, Finset.card_range] at hle

/-- Beyond `2 ^ 31` slots the solvers disagree on the two passes. -/
theorem naiveBelady_differs {mem : ℕ → ℕ} (hcap : 2 ^ 31 < capacity) (hcap' : capacity < 2 ^ 32) :
    ¬ ∃ r, beladySimulate (twoPasses (2 ^ 31)) capacity = some r ∧
      naiveBelady mem (twoPasses (2 ^ 31)) capacity = some r.misses := by
  rintro ⟨r, hr, hnaive⟩
  have hmany := naiveBelady_twoPasses hcap hcap' hnaive
  have hfew := beladySimulate_twoPasses (by norm_num) hcap hr
  omega

/-- The solvers agree on every string exactly up to the capacities whose slots fit an `int`,
and beyond them on the strings whose chunks do. -/
theorem naive_matches (hpos : 1 ≤ capacity) (hcap : capacity < 2 ^ 32) :
    ((∀ mem ref, (∀ c ∈ ref, c < 2 ^ 32 - 1) → ref.length < 2 ^ 64 → Matches mem ref capacity) ↔
      capacity ≤ 2 ^ 31) ∧
    ∀ mem ref, (∀ c ∈ ref, c < 2 ^ 32 - 1) → ref.length < 2 ^ 64 →
      capacity ≤ 2 ^ 31 ∨ ref.toFinset.card ≤ 2 ^ 31 → Matches mem ref capacity := by
  refine ⟨⟨fun h => ?_, fun hle mem ref hids hlen => .of_slots mem hids hlen hpos (Or.inl hle)⟩,
    fun mem ref hids hlen => .of_slots mem hids hlen hpos⟩
  by_contra hgt
  have hids : ∀ c ∈ twoPasses (2 ^ 31), c < 2 ^ 32 - 1 := by
    intro c hc
    have hlt := mem_twoPasses.1 hc
    omega
  have hlen : (twoPasses (2 ^ 31)).length < 2 ^ 64 := by
    rw [length_twoPasses]
    norm_num
  exact naiveBelady_differs (Nat.lt_of_not_le hgt) hcap
    (h (fun _ => 0) (twoPasses (2 ^ 31)) hids hlen).misses

theorem naive_matches_three :
    ((∀ mem ref, (∀ c ∈ ref, c < 2 ^ 32 - 1) → ref.length < 2 ^ 64 → Matches mem ref 3) ↔
      3 ≤ 2 ^ 31) ∧
    Matches (fun _ => 7) [0, 1, 2, 3, 0, 1] 3 := by
  obtain ⟨hiff, hsmall⟩ := @naive_matches 3 (by decide) (by decide)
  exact ⟨hiff, hsmall (fun _ => 7) [0, 1, 2, 3, 0, 1] (by decide) (by decide) (Or.inl (by decide))⟩

/-- Two passes over `2 ^ 31 + 1` chunks, with a slot for each. -/
theorem naive_mismatch :
    ¬ ∃ r, beladySimulate (twoPasses (2 ^ 31)) (2 ^ 31 + 1) = some r ∧
      naiveBelady (fun _ => 0) (twoPasses (2 ^ 31)) (2 ^ 31 + 1) = some r.misses :=
  naiveBelady_differs (Nat.lt_succ_self _) (by norm_num)

end Residctl.Belady
