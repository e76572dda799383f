import Mathlib.Data.Nat.Periodic
import Mathlib.Data.List.Basic
import Mathlib.Data.List.GetD

/-!
# Periodic reference streams

A finite reference string repeated for ever is a periodic function on positions.
`OccursBefore` orders items by their first occurrence; for a stream of period `n`
the first occurrence is found among the first `n` positions (`firstIn`).
-/

namespace Cyclic

open Function

variable {α : Type*}

/-- `x` occurs in the stream, and before any occurrence of `y`. -/
def OccursBefore (f : ℕ → α) (x y : α) : Prop := ∃ i, f i = x ∧ ∀ j ≤ i, f j ≠ y

/-- The string `seq` repeated for ever. -/
def repeated (seq : List α) (dflt : α) (i : ℕ) : α := seq.getD (i % seq.length) dflt

/-- The cyclic distance from `p` to `q`. -/
theorem cyclic_sub {n p q : ℕ} (hp : p < n) (hq : q < n) :
    (q + n - p) % n = if p ≤ q then q - p else q + n - p := by
  split_ifs with h
  · have hsum : q + n - p = q - p + n := by omega
    rw [hsum, Nat.add_mod_right, Nat.mod_eq_of_lt (by omega)]
  · exact Nat.mod_eq_of_lt (by omega)

/-- Going `j` positions ahead of `p` ends at `q` exactly when `j` is the cyclic distance. -/
theorem add_mod_eq_iff {n p q j : ℕ} (hp : p < n) (hq : q < n) (hj : j < n) :
    (p + j) % n = q ↔ (q + n - p) % n = j := by
  have hfwd : (p + j) % n = if p + j < n then p + j else p + j - n := by
    split_ifs with h
    · exact Nat.mod_eq_of_lt h
    · rw [Nat.mod_eq_sub_mod (by omega), Nat.mod_eq_of_lt (by omega)]
  rw [hfwd, cyclic_sub hp hq]
  split_ifs <;> omega

theorem repeated_periodic (seq : List α) (dflt : α) : Periodic (repeated seq dflt) seq.length :=
  fun i => by simp [repeated]

theorem repeated_mod (seq : List α) (dflt : α) (i : ℕ) :
    repeated seq dflt (i % seq.length) = repeated seq dflt i := by
  simp [repeated]

/-- The repeated string may be indexed modulo its length before an offset is added. -/
theorem repeated_mod_add (seq : List α) (dflt : α) (i j : ℕ) :
    repeated seq dflt (i % seq.length + j) = repeated seq dflt (i + j) := by
  simp [repeated]

theorem repeated_mem {seq : List α} (dflt : α) (hseq : seq ≠ []) (i : ℕ) :
    repeated seq dflt i ∈ seq := by
  have hi := Nat.mod_lt i (List.length_pos_of_ne_nil hseq)
  rw [repeated, List.getD_eq_getElem _ _ hi]
  exact List.getElem_mem hi

theorem repeated_of_lt {seq : List α} (dflt : α) {i : ℕ} (hi : i < seq.length) :
    repeated seq dflt i = seq[i] := by
  rw [repeated, Nat.mod_eq_of_lt hi, List.getD_eq_getElem _ _ hi]

/-- Every item of the string occurs within one period, whatever the start. -/
theorem exists_repeated_eq {seq : List α} (dflt : α) {x : α} (hx : x ∈ seq) (start : ℕ) :
    ∃ i < seq.length, repeated seq dflt (start + i) = x := by
  obtain ⟨p, hp, rfl⟩ := List.getElem_of_mem hx
  have hpos : 0 < seq.length := Nat.zero_lt_of_lt hp
  have hs := Nat.mod_lt start hpos
  -- walk from `start` to the next position congruent to `p`
  refine ⟨(p + (seq.length - start % seq.length)) % seq.length, Nat.mod_lt _ hpos, ?_⟩
  have hmod : (start + (p + (seq.length - start % seq.length)) % seq.length) % seq.length = p := by
    have hsum : start % seq.length + (p + (seq.length - start % seq.length)) =
        p + seq.length := by omega
    rw [Nat.add_mod_mod, ← Nat.mod_add_mod start, hsum, Nat.add_mod_right, Nat.mod_eq_of_lt hp]
  rw [← repeated_mod, hmod, repeated_of_lt dflt hp]

theorem getElem?_flatten_replicate (l : List α) {p i : ℕ} (hi : i < p * l.length) :
    (List.replicate p l).flatten[i]? = l[i % l.length]? := by
  induction p generalizing i with
  | zero => simp at hi
  | succ p ih =>
    rw [List.replicate_succ, List.flatten_cons]
    by_cases hlt : i < l.length
    · rw [List.getElem?_append_left hlt, Nat.mod_eq_of_lt hlt]
    · have hge : l.length ≤ i := Nat.le_of_not_lt hlt
      rw [List.getElem?_append_right hge, ih, ← Nat.mod_eq_sub_mod hge]
      rw [Nat.succ_mul] at hi
      omega

/-- A list with period `n` is its first `n` items repeated. -/
theorem eq_flatten_replicate {l : List α} {n p : ℕ} (hlen : l.length = p * n) (hp : 0 < p)
    (hper : ∀ i < l.length, l[i]? = l[i % n]?) : l = (List.replicate p (l.take n)).flatten := by
  have hn : (l.take n).length = n := by
    rw [List.length_take, hlen]
    exact Nat.min_eq_left (Nat.le_mul_of_pos_left n hp)
  have hlen' : (List.replicate p (l.take n)).flatten.length = p * n := by simp [hn]
  refine List.ext_getElem? fun i => ?_
  by_cases hi : i < p * n
  · have hmod : i % n < n := Nat.mod_lt _ (Nat.pos_of_mul_pos_left (Nat.zero_lt_of_lt hi))
    rw [getElem?_flatten_replicate _ (by rwa [hn]), hn, List.getElem?_take_of_lt hmod]
    exact hper i (by rwa [hlen])
  · rw [List.getElem?_eq_none (by omega), List.getElem?_eq_none (by omega)]

theorem occursBefore_some {f : ℕ → α} {x y : α} :
    OccursBefore (fun i => some (f i)) (some x) (some y) ↔ OccursBefore f x y := by
  simp [OccursBefore]

/-- Dropping the first position keeps the order of first occurrences exactly when
the second position repeats the first. -/
theorem occursBefore_tail_iff {f : ℕ → α} :
    (∀ x y, OccursBefore (fun i => f (1 + i)) x y ↔ OccursBefore f x y) ↔ f 1 = f 0 := by
  constructor
  · intro h
    by_contra hne
    obtain ⟨i, -, hbefore⟩ :=
      (h (f 0) (f 1)).2 ⟨0, rfl, fun j hj => by rw [Nat.le_zero.1 hj]; exact Ne.symm hne⟩
    exact hbefore 0 (Nat.zero_le i) rfl
  · intro h x y
    simp only [OccursBefore, Nat.add_comm 1]
    constructor
    · rintro ⟨i, hi, hy⟩
      refine ⟨i + 1, hi, fun j hj => ?_⟩
      cases j with
      | zero => rw [← h]; exact hy 0 (Nat.zero_le i)
      | succ j => exact hy j (Nat.le_of_succ_le_succ hj)
    · rintro ⟨i, hi, hy⟩
      cases i with
      | zero =>
        refine ⟨0, h.trans hi, fun j hj => ?_⟩
        rw [Nat.le_zero.1 hj, h]
        exact hy 0 le_rfl
      | succ i => exact ⟨i, hi, fun j hj => hy (j + 1) (Nat.succ_le_succ hj)⟩

/-- A new first item in front does not change who occurs before `y`, unless it is `y`. -/
theorem OccursBefore.cons {f : ℕ → α} {x y : α} (h : OccursBefore (fun i => f (1 + i)) x y)
    (h0 : f 0 ≠ y) : OccursBefore f x y := by
  rcases h with ⟨i, hi, hy⟩
  refine ⟨1 + i, hi, fun j hj => ?_⟩
  cases j with
  | zero => exact h0
  | succ j =>
    rw [Nat.add_comm j 1]
    exact hy j (by omega)

/-- The position to which item `i` of the longer list goes, when `n` items and `m - n` copies of the
first one are repeated for ever. -/
def stutter (n m i : ℕ) : ℕ := i / m * n + min (i % m) n

theorem stutter_eq {n m q r : ℕ} (hr : r < m) : stutter n m (m * q + r) = q * n + min r n := by
  rw [stutter, Nat.mul_add_div (Nat.zero_lt_of_lt hr), Nat.mul_add_mod, Nat.div_eq_of_lt hr,
    Nat.mod_eq_of_lt hr, Nat.add_zero]

theorem stutter_succ {n m : ℕ} (hm : 0 < m) (hle : n ≤ m) (i : ℕ) :
    stutter n m (i + 1) = stutter n m i + if i % m < n then 1 else 0 := by
  have hr := Nat.mod_lt i hm
  have hi : stutter n m i = i / m * n + min (i % m) n := rfl
  have hdiv := Nat.div_add_mod i m
  by_cases hlast : i % m + 1 < m
  · have hnext : i + 1 = m * (i / m) + (i % m + 1) := by omega
    rw [hnext, stutter_eq hlast, hi]
    split_ifs <;> omega
  · -- back to the first item
    have hnext : i + 1 = m * (i / m + 1) + 0 := by
      rw [Nat.mul_add]
      omega
    rw [hnext, stutter_eq hm, hi, Nat.add_mul]
    split_ifs <;> omega

variable [DecidableEq α]

/-- In a finite part of a stream first positions order items like first occurrences. -/
theorem occursBefore_of_idxOf_lt {f : ℕ → α} {l : List α} (hl : ∀ i x, l[i]? = some x → x = f i)
    {x y : α} (h : l.idxOf x < l.idxOf y) : OccursBefore f x y := by
  have hx : l.idxOf x < l.length := h.trans_le List.idxOf_le_length
  refine ⟨l.idxOf x, ?_, fun j hj hfy => ?_⟩
  · apply Eq.symm
    apply hl
    rw [List.getElem?_eq_getElem hx, List.getElem_idxOf hx]
  · have hj' : j < l.length := hj.trans_lt hx
    have hne : (l[j] == y) = false := List.not_of_lt_findIdx (hj.trans_lt h)
    exact ne_of_beq_false hne ((hl j _ (List.getElem?_eq_getElem hj')).trans hfy)

/-- The first of the positions `0 .. n-1` at which the stream is `x`. -/
def firstIn (f : ℕ → α) (n : ℕ) (x : α) : Option ℕ := (List.range n).find? fun i => f i = x

theorem firstIn_eq_some {f : ℕ → α} {n k : ℕ} {x : α} :
    firstIn f n x = some k ↔ k < n ∧ f k = x ∧ ∀ j < k, f j ≠ x := by
  rw [firstIn, List.find?_range_eq_some]
  simp only [decide_eq_true_eq, List.mem_range, Bool.not_eq_true', decide_eq_false_iff_not]
  tauto

theorem firstIn_eq_none {f : ℕ → α} {n : ℕ} {x : α} :
    firstIn f n x = none ↔ ∀ k < n, f k ≠ x := by
  rw [firstIn, List.find?_range_eq_none]
  simp

theorem firstIn_isSome {f : ℕ → α} {n i : ℕ} (hi : i < n) : ∃ k ≤ i, firstIn f n (f i) = some k := by
  cases h : firstIn f n (f i) with
  | none => exact absurd rfl (firstIn_eq_none.1 h i hi)
  | some k =>
    refine ⟨k, ?_, rfl⟩
    by_contra hlt
    exact (firstIn_eq_some.1 h).2.2 i (by omega) rfl

/-- In a periodic stream the order of first occurrences is decided by `firstIn`. -/
theorem occursBefore_iff {f : ℕ → α} {n : ℕ} (hf : Periodic f n) (hn : 0 < n) {x y : α} :
    OccursBefore f x y ↔
      ∃ k, firstIn f n x = some k ∧ ∀ k', firstIn f n y = some k' → k < k' := by
  constructor
  · rintro ⟨i, rfl, hy⟩
    -- reduce the witness to the first period
    have hper : f (i % n) = f i := hf.map_mod_nat i
    obtain ⟨k, hki, hk⟩ := firstIn_isSome (f := f) (Nat.mod_lt i hn)
    rw [hper] at hk
    refine ⟨k, hk, fun k' hk' => ?_⟩
    by_contra hlt
    have hle := Nat.mod_le i n
    exact hy k' (by omega) (firstIn_eq_some.1 hk').2.1
  · rintro ⟨k, hk, hlt⟩
    obtain ⟨hkn, hfk, -⟩ := firstIn_eq_some.1 hk
    refine ⟨k, hfk, fun j hj hjy => ?_⟩
    obtain ⟨k', hk'j, hk'⟩ := firstIn_isSome (f := f) (lt_of_le_of_lt hj hkn)
    rw [hjy] at hk'
    have := hlt k' hk'
    omega

end Cyclic
