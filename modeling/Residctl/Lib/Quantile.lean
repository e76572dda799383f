import Mathlib.Data.List.Sort
import Mathlib.Order.Monotone.Defs

/-!
# Quantiles from a histogram

Values are counted by bucket, and a bucket is a monotone function of the value. The first bucket
at which the counts add up to `k` is the bucket of the `k`-th smallest value (`search_eq`), in
whatever order the values have come.
-/

namespace Quantile

/-- The bucket, of `n` from `b` on, at which the counts reach `k`; those before `b` make `sum`. -/
def search (counts : ℕ → ℕ) (k : ℕ) : (n b sum : ℕ) → Option ℕ
  | 0, _, _ => none
  | n + 1, b, sum =>
    if k ≤ sum + counts b then some b else search counts k n (b + 1) (sum + counts b)

/-- The values, the smallest first. -/
def sorted {α : Type*} [LinearOrder α] (l : List α) : List α := l.mergeSort (· ≤ ·)

theorem countP_lt_succ {α : Type*} (bucket : α → ℕ) (l : List α) (b : ℕ) :
    l.countP (bucket · < b + 1) = l.countP (bucket · < b) + l.countP (bucket · = b) := by
  induction l with
  | nil => rfl
  | cons a l ih =>
    rw [List.countP_cons, List.countP_cons, List.countP_cons, ih]
    rcases Nat.lt_trichotomy (bucket a) b with h | h | h
    · simp [h, Nat.ne_of_lt h, Nat.lt_succ_of_lt h]
      omega
    · simp [h]
      omega
    · simp [Nat.not_lt_of_gt h, Nat.ne_of_gt h, Nat.not_lt.2 (Nat.succ_le_of_lt h)]

/-- The search fails when there are not `k` values. -/
theorem search_eq_none {α : Type*} {l : List α} {bucket : α → ℕ} {counts : ℕ → ℕ}
    {k n b sum : ℕ}
    (hcounts : ∀ b, counts b = l.countP (bucket · = b)) (hsum : sum = l.countP (bucket · < b))
    (hk : l.length < k) : search counts k n b sum = none := by
  induction n generalizing b sum with
  | zero => rfl
  | succ n ih =>
    have hnext : sum + counts b = l.countP (bucket · < b + 1) := by
      rw [countP_lt_succ, hsum, hcounts]
    have hle : l.countP (bucket · < b + 1) ≤ l.length := List.countP_le_length
    rw [search, if_neg (by omega)]
    exact ih hnext

section

variable {α : Type*} [LinearOrder α] {l : List α} {bucket : α → ℕ}

theorem sorted_perm (l : List α) : (sorted l).Perm l := List.mergeSort_perm l _

theorem sorted_pairwise (l : List α) : (sorted l).Pairwise (· ≤ ·) := by
  have h : (sorted l).Pairwise fun a b => decide (a ≤ b) = true :=
    List.pairwise_mergeSort (fun a b c => by simpa using le_trans)
      (fun a b => by simpa using le_total a b) l
  exact h.imp fun hab => by simpa using hab

@[simp] theorem length_sorted (l : List α) : (sorted l).length = l.length :=
  (sorted_perm l).length_eq

/-- In a sorted list the values up to bucket `b` come first. -/
theorem bucket_getElem_le_iff (hsorted : l.Pairwise (· ≤ ·)) (hbucket : Monotone bucket) {b i : ℕ}
    (hi : i < l.length) : bucket l[i] ≤ b ↔ i < l.countP (bucket · ≤ b) := by
  induction l generalizing i with
  | nil => exact absurd hi (Nat.not_lt_zero i)
  | cons a l ih =>
    have hrest := List.pairwise_cons.1 hsorted
    rw [List.countP_cons]
    cases i with
    | zero =>
      rw [List.getElem_cons_zero]
      by_cases ha : bucket a ≤ b
      · simp [ha]
      · -- nothing behind a value above `b` is below it
        have hnone : l.countP (bucket · ≤ b) = 0 := by
          refine List.countP_eq_zero.2 fun x hx => ?_
          have hax := hbucket (hrest.1 x hx)
          simp only [decide_eq_true_eq]
          omega
        simp [ha, hnone]
    | succ i =>
      have hlen : i < l.length := Nat.lt_of_succ_lt_succ hi
      rw [List.getElem_cons_succ, ih hrest.2 hlen]
      by_cases ha : bucket a ≤ b
      · simp [ha]
      · have hnone : ¬ bucket l[i] ≤ b := by
          have hax := hbucket (hrest.1 l[i] (List.getElem_mem hlen))
          omega
        rw [ih hrest.2 hlen] at hnone
        simp only [ha, decide_false, Bool.false_eq_true, if_false]
        omega

/-- The search finds the bucket of the `k`-th smallest value. -/
theorem search_eq (hbucket : Monotone bucket) {counts : ℕ → ℕ} {k n b sum : ℕ} {x : α}
    (hcounts : ∀ b, counts b = l.countP (bucket · = b)) (hsum : sum = l.countP (bucket · < b))
    (hlow : sum < k) (hx : (sorted l)[k - 1]? = some x) (hn : ∀ y ∈ l, bucket y < b + n) :
    search counts k n b sum = some (bucket x) := by
  rcases List.getElem?_eq_some_iff.1 hx with ⟨hi, rfl⟩
  have hlen : k - 1 < l.length := by rwa [length_sorted] at hi
  have hiff : ∀ b, bucket (sorted l)[k - 1] ≤ b ↔ k ≤ l.countP (bucket · < b + 1) := by
    intro b
    rw [bucket_getElem_le_iff (sorted_pairwise l) hbucket hi, (sorted_perm l).countP_eq]
    simp only [Nat.lt_succ_iff]
    omega
  clear hx
  induction n generalizing b sum with
  | zero =>
    -- all values are counted below `b`
    have hall : l.countP (bucket · < b) = l.length :=
      List.countP_eq_length.2 fun y hy => by simpa using hn y hy
    omega
  | succ n ih =>
    have hnext : sum + counts b = l.countP (bucket · < b + 1) := by
      rw [countP_lt_succ, hsum, hcounts]
    rw [search]
    by_cases hreach : k ≤ sum + counts b
    · rw [if_pos hreach]
      rw [hnext] at hreach
      have hle := (hiff b).2 hreach
      -- the counts before `b` do not reach `k`
      have hge : b ≤ bucket (sorted l)[k - 1] := by
        by_contra hlt
        have hpos : b - 1 + 1 = b := by omega
        have hbelow := (hiff (b - 1)).1 (by omega)
        rw [hpos] at hbelow
        omega
      exact congrArg some (Nat.le_antisymm hge hle)
    · rw [if_neg hreach]
      refine ih hnext (Nat.lt_of_not_le hreach) fun y hy => ?_
      have hlt := hn y hy
      omega

end

end Quantile
