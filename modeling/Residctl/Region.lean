import Mathlib.Algebra.BigOperators.Fin
import Mathlib.Algebra.Order.BigOperators.Group.Finset
import Mathlib.Data.Fintype.BigOperators
import Mathlib.Tactic.Linarith

/-!
# Chunks and the chunk table

`region.h`: the per-chunk record and the table of chunks that tile the region.
Chunk ids of a table of `n` chunks are `Fin n`; the parts of a chunk that never
change after startup are in `ChunkTable`, the rest in `Chunk`.
-/

namespace Residctl

def RESIDCTL_ALIGN : ℕ := 4096

def alignDown (v : ℕ) : ℕ := v / RESIDCTL_ALIGN * RESIDCTL_ALIGN

def alignUp (v : ℕ) : ℕ := alignDown (v + RESIDCTL_ALIGN - 1)

theorem alignDown_le (v : ℕ) : alignDown v ≤ v := Nat.div_mul_le_self _ _

theorem lt_alignDown_add (v : ℕ) : v < alignDown v + RESIDCTL_ALIGN :=
  Nat.lt_div_mul_add (by decide)

theorem alignDown_add_le {v w : ℕ} (h : alignDown v < alignDown w) :
    alignDown v + RESIDCTL_ALIGN ≤ alignDown w := by
  unfold alignDown at h ⊢
  have hdiv : v / RESIDCTL_ALIGN < w / RESIDCTL_ALIGN := lt_of_mul_lt_mul_right h (Nat.zero_le _)
  calc v / RESIDCTL_ALIGN * RESIDCTL_ALIGN + RESIDCTL_ALIGN
      = (v / RESIDCTL_ALIGN + 1) * RESIDCTL_ALIGN := (Nat.succ_mul _ _).symm
    _ ≤ w / RESIDCTL_ALIGN * RESIDCTL_ALIGN := Nat.mul_le_mul_right _ hdiv

theorem le_alignUp (v : ℕ) : v ≤ alignUp v := by
  have h := lt_alignDown_add (v + RESIDCTL_ALIGN - 1)
  unfold alignUp
  omega

def UINT32_MAX : ℕ := 2 ^ 32 - 1

/-- `UINT32_MAX`, the "no chunk" id. -/
def CHUNK_NONE : ℕ := 2 ^ 32 - 1

def INT64_MAX : ℤ := 2 ^ 63 - 1

/-- `uint64_t`. -/
def wrap64 (v : ℕ) : ℕ := v % 2 ^ 64

/-- `a - b` on `uint64_t`. -/
def sub64 (a b : ℕ) : ℕ := (a + 2 ^ 64 - b) % 2 ^ 64

theorem wrap64_of_lt {v : ℕ} (h : v < 2 ^ 64) : wrap64 v = v := Nat.mod_eq_of_lt h

theorem sub64_of_le {a b : ℕ} (hb : b ≤ a) (ha : a < 2 ^ 64) : sub64 a b = a - b := by
  have hsum : a + 2 ^ 64 - b = a - b + 2 ^ 64 := by omega
  rw [sub64, hsum, Nat.add_mod_right, Nat.mod_eq_of_lt (by omega)]

/-- `chunk_state_t`. -/
inductive ChunkState
  | absent
  | fetching
  | resident
deriving DecidableEq, Repr

/-- The mutable fields of `chunk_t`. -/
structure Chunk where
  state : ChunkState
  /-- positive: never evict -/
  pin : ℕ
  lastFaultSeq : ℕ
  /-- time of the transition to `fetching`, 0 in the other states -/
  fetchingSinceNs : ℕ
  declineUntilNs : ℕ
deriving DecidableEq, Repr

/-- A chunk as the table builders leave it. -/
def Chunk.init : Chunk := ⟨.absent, 0, 0, 0, 0⟩

abbrev Chunks (n : ℕ) := Fin n → Chunk

/-- What every victim scan looks for: `RESIDENT` and not pinned. -/
def Chunk.Evictable (c : Chunk) : Prop := c.state = .resident ∧ c.pin = 0

instance (c : Chunk) : Decidable c.Evictable := inferInstanceAs (Decidable (_ ∧ _))

/-! ## The chunk table -/

/-- The fixed fields of an accepted table: the chunks tile `[0, regionLen)` in
order, start on page boundaries, and map the file one to one (`file_off` equals
`region_off`). -/
structure ChunkTable (n : ℕ) where
  regionOff : Fin n → ℕ
  len : Fin n → ℕ
  regionLen : ℕ
  len_pos : ∀ c, 0 < len c
  aligned : ∀ c, regionOff c % RESIDCTL_ALIGN = 0
  regionOff_eq : ∀ c, regionOff c = ∑ i : Fin c.1, len ⟨i, i.2.trans c.2⟩
  regionLen_eq : regionLen = ∑ c, len c
  regionLen_lt : regionLen < 2 ^ 64

variable {n : ℕ} (T : ChunkTable n)

namespace ChunkTable

/-- The end of a chunk is the start of the next one. -/
theorem regionOff_succ (c : Fin n) (h : c.1 + 1 < n) :
    T.regionOff ⟨c.1 + 1, h⟩ = T.regionOff c + T.len c := by
  rw [T.regionOff_eq, T.regionOff_eq c, Fin.sum_univ_castSucc]
  rfl

theorem regionOff_add_len_le {c d : Fin n} (h : c < d) :
    T.regionOff c + T.len c ≤ T.regionOff d := by
  obtain ⟨d, hd⟩ := d
  induction d with
  | zero => exact absurd h (Nat.not_lt_zero _)
  | succ d ih =>
    rw [T.regionOff_succ ⟨d, by omega⟩ hd]
    rcases Nat.lt_succ_iff_lt_or_eq.1 (show c.1 < d + 1 from h) with hlt | heq
    · exact (ih (by omega) hlt).trans (Nat.le_add_right _ _)
    · have hc : c = ⟨d, by omega⟩ := Fin.ext heq
      rw [hc]

theorem end_last {c : Fin n} (h : ¬ c.1 + 1 < n) : T.regionOff c + T.len c = T.regionLen := by
  obtain ⟨m, rfl⟩ : ∃ m, n = m + 1 := ⟨n - 1, by have := c.2; omega⟩
  have hc : c = Fin.last m := Fin.ext (by have := c.2; rw [Fin.val_last]; omega)
  rw [hc, T.regionLen_eq, Fin.sum_univ_castSucc, T.regionOff_eq]
  rfl

theorem end_le_regionLen (c : Fin n) : T.regionOff c + T.len c ≤ T.regionLen := by
  by_cases hc : c.1 + 1 < n
  · have hlt : c < ⟨n - 1, by omega⟩ := Fin.lt_def.2 (by simp only; omega)
    have hlast := T.end_last (c := ⟨n - 1, by omega⟩) (by simp only; omega)
    have := T.regionOff_add_len_le hlt
    omega
  · exact (T.end_last hc).le

/-- In a region of whole pages every chunk has whole pages. -/
theorem len_mod (h : T.regionLen % RESIDCTL_ALIGN = 0) (c : Fin n) :
    T.len c % RESIDCTL_ALIGN = 0 := by
  have hoff := T.aligned c
  unfold RESIDCTL_ALIGN at *
  by_cases hc : c.1 + 1 < n
  · have hnext := T.aligned ⟨c.1 + 1, hc⟩
    rw [T.regionOff_succ c hc] at hnext
    unfold RESIDCTL_ALIGN at hnext
    omega
  · have hend := T.end_last hc
    omega

/-- A set of chunks never has more bytes than the region. -/
theorem sum_len_lt (s : Finset (Fin n)) : ∑ c ∈ s, T.len c < 2 ^ 64 :=
  (Finset.sum_le_sum_of_subset (Finset.subset_univ s)).trans_lt
    (T.regionLen_eq ▸ T.regionLen_lt)

/-- The chunk's bytes in the region. -/
def Covers (c : Fin n) (off : ℕ) : Prop := T.regionOff c ≤ off ∧ off < T.regionOff c + T.len c

instance (c : Fin n) (off : ℕ) : Decidable (T.Covers c off) := inferInstanceAs (Decidable (_ ∧ _))

theorem Covers.unique {T : ChunkTable n} {c d : Fin n} {off : ℕ} (hc : T.Covers c off)
    (hd : T.Covers d off) : c = d := by
  rcases lt_trichotomy c d with h | h | h
  · have := T.regionOff_add_len_le h
    have := hc.2
    have := hd.1
    omega
  · exact h
  · have := T.regionOff_add_len_le h
    have := hd.2
    have := hc.1
    omega

/-- The chunks leave no gap. -/
theorem exists_covers {off : ℕ} (h : off < T.regionLen) : ∃ c, T.Covers c off := by
  by_contra hnone
  rw [not_exists] at hnone
  -- from one chunk to the next, the offset is never before the end
  have hpast : ∀ i (hi : i < n), T.regionOff ⟨i, hi⟩ ≤ off := by
    intro i
    induction i with
    | zero =>
      intro hi
      rw [T.regionOff_eq]
      exact Nat.zero_le _
    | succ i ih =>
      intro hi
      have hprev := hnone ⟨i, Nat.lt_of_succ_lt hi⟩
      unfold Covers at hprev
      have hle := ih (Nat.lt_of_succ_lt hi)
      rw [T.regionOff_succ ⟨i, Nat.lt_of_succ_lt hi⟩ hi]
      omega
  obtain ⟨m, rfl⟩ : ∃ m, n = m + 1 := by
    refine ⟨n - 1, (Nat.succ_pred_eq_of_ne_zero fun hzero => ?_).symm⟩
    subst hzero
    rw [T.regionLen_eq, Finset.univ_eq_empty, Finset.sum_empty] at h
    exact Nat.not_lt_zero _ h
  have hlast := T.end_last (c := Fin.last m) (by simp)
  have hprev := hnone (Fin.last m)
  have hle := hpast m (Nat.lt_succ_self m)
  rw [show (⟨m, Nat.lt_succ_self m⟩ : Fin (m + 1)) = Fin.last m from rfl] at hle
  unfold Covers at hprev
  omega

end ChunkTable

theorem page_pos : 0 < 4096 := by decide

theorem page_aligned : 4096 % RESIDCTL_ALIGN = 0 := rfl

/-- `n` chunks of one size, the table of a region of `n` such chunks. -/
def ChunkTable.uniform (n chunkSize : ℕ) (hpos : 0 < chunkSize)
    (halign : chunkSize % RESIDCTL_ALIGN = 0) (hlt : n * chunkSize < 2 ^ 64) : ChunkTable n where
  regionOff i := i.1 * chunkSize
  len _ := chunkSize
  regionLen := n * chunkSize
  len_pos _ := hpos
  aligned i := by rw [Nat.mul_mod, halign, Nat.mul_zero, Nat.zero_mod]
  regionOff_eq i := by simp
  regionLen_eq := by simp
  regionLen_lt := hlt

/-! ## The lookup -/

/-- The binary search of `pager_lookup` on `[lo, hi)`, in chunks at `off` with lengths `len`. -/
def lookupIn (off len : Fin n → ℕ) (relOff lo hi : ℕ) (hhi : hi ≤ n) : Option (Fin n) :=
  if h : lo < hi then
    let mid : Fin n := ⟨lo + (hi - lo) / 2, by omega⟩
    if relOff < off mid then lookupIn off len relOff lo mid.1 (by omega)
    else if relOff ≥ wrap64 (off mid + len mid) then lookupIn off len relOff (mid.1 + 1) hi hhi
    else some mid
  else none
termination_by hi - lo
decreasing_by
  · omega
  · omega

/-- `pager_lookup`; `none` for `NULL`. -/
def pagerLookup (relOff : ℕ) : Option (Fin n) := lookupIn T.regionOff T.len relOff 0 n le_rfl

theorem ChunkTable.wrap64_end (c : Fin n) :
    wrap64 (T.regionOff c + T.len c) = T.regionOff c + T.len c :=
  wrap64_of_lt ((T.end_le_regionLen c).trans_lt T.regionLen_lt)

/-- The search returns only a chunk that covers the offset. -/
theorem lookupIn_covers {relOff lo hi : ℕ} {hhi : hi ≤ n} {c : Fin n}
    (h : lookupIn T.regionOff T.len relOff lo hi hhi = some c) : T.Covers c relOff := by
  fun_induction lookupIn T.regionOff T.len relOff lo hi hhi with
  | case1 lo hi hhi hlt mid hbelow ih => exact ih h
  | case2 lo hi hhi hlt mid hbelow habove ih => exact ih h
  | case3 lo hi hhi hlt mid hbelow habove =>
    obtain rfl : mid = c := Option.some.inj h
    rw [T.wrap64_end] at habove
    exact ⟨Nat.le_of_not_lt hbelow, Nat.lt_of_not_ge habove⟩
  | case4 lo hi hhi hlt => cases h

/-- The search finds the chunk that covers the offset, when it is in range. -/
theorem lookupIn_complete {relOff lo hi : ℕ} {hhi : hi ≤ n} {c : Fin n}
    (hc : T.Covers c relOff) (hlo : lo ≤ c.1) (hchi : c.1 < hi) :
    lookupIn T.regionOff T.len relOff lo hi hhi = some c := by
  fun_induction lookupIn T.regionOff T.len relOff lo hi hhi with
  | case1 lo hi hhi hlt mid hbelow ih =>
    refine ih hlo (lt_of_not_ge fun hge => ?_)
    rcases lt_or_eq_of_le (show mid ≤ c from hge) with hmid | hmid
    · have := T.regionOff_add_len_le hmid
      have := hc.1
      omega
    · have := hc.1
      rw [← hmid] at this
      omega
  | case2 lo hi hhi hlt mid hbelow habove ih =>
    rw [T.wrap64_end] at habove
    refine ih (Nat.succ_le_of_lt (lt_of_not_ge fun hge => ?_)) hchi
    rcases lt_or_eq_of_le (show c ≤ mid from hge) with hmid | hmid
    · have := T.regionOff_add_len_le hmid
      have := hc.2
      omega
    · have := hc.2
      rw [hmid] at this
      omega
  | case3 lo hi hhi hlt mid hbelow habove =>
    rw [T.wrap64_end] at habove
    have hmid : T.Covers mid relOff := ⟨Nat.le_of_not_lt hbelow, Nat.lt_of_not_ge habove⟩
    rw [hmid.unique hc]
  | case4 lo hi hhi hlt => omega

theorem pagerLookup_covers {relOff : ℕ} {c : Fin n} (h : pagerLookup T relOff = some c) :
    T.Covers c relOff := lookupIn_covers T h

theorem pagerLookup_of_covers {relOff : ℕ} {c : Fin n} (h : T.Covers c relOff) :
    pagerLookup T relOff = some c := lookupIn_complete T h (Nat.zero_le _) c.2

end Residctl
