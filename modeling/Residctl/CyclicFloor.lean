import Mathlib.Data.List.Perm.Basic
import Mathlib.Data.List.Range
import Residctl.Belady
import Residctl.Lib.Cyclic

/-!
# The cyclic-scan floor

`detect_cyclic_scan`, `cyclic_floor` and `check_cyclic_floor_or_abort` of `belady_main.c`.
The recogniser accepts the strings that repeat one permutation of `0 .. n-1`; on those a
counting argument, pass by pass, bounds the misses of every schedule from below. The `uint32_t`
results wrap where the source's do.
-/

namespace Residctl.Belady

open Function Paging Cyclic

/-- `max_id`. -/
def maxId (ref : List ℕ) : ℕ := ref.foldl (fun m c => if c > m then c else m) 0

/-- The `seen` loop over the first period. -/
def seenOk (n : ℕ) : List ℕ → (ℕ → Bool) → Bool
  | [], _ => true
  | c :: cs, seen => if c ≥ n ∨ seen c = true then false else seenOk n cs (update seen c true)

/-- `detect_cyclic_scan(ref, ref.length, ..)`: `(n, passes)`, or `none` for the return value
0. -/
def detectCyclicScan (ref : List ℕ) : Option (ℕ × ℕ) :=
  if ref.length = 0 then none
  else
    let nCandidate := (maxId ref + 1) % 2 ^ 32
    if nCandidate = 0 ∨ ref.length % nCandidate ≠ 0 then none
    else
      let passes := ref.length / nCandidate % 2 ^ 32
      if passes < 1 then none
      else if ∃ i < ref.length, ref[i]? ≠ ref[i % nCandidate]? then none
      else if seenOk nCandidate (ref.take nCandidate) fun _ => false then some (nCandidate, passes)
      else none

/-- `cyclic_floor`, with a `uint32_t` `passes - 1` and `n - k`. -/
def cyclicFloor (n passes k : ℕ) : ℕ :=
  let extraPerPass := if k < n then n - k else 0
  (n + (passes + 2 ^ 32 - 1) % 2 ^ 32 * extraPerPass) % 2 ^ 64

inductive FloorCheck where
  | notCyclic
  | ok
  | aborted
deriving DecidableEq, Repr

/-- `check_cyclic_floor_or_abort`. -/
def checkCyclicFloorOrAbort (ref : List ℕ) (capacity misses : ℕ) : FloorCheck :=
  match detectCyclicScan ref with
  | none => .notCyclic
  | some (n, passes) => if misses < cyclicFloor n passes capacity then .aborted else .ok

/-- One permutation of `0 .. n-1`, repeated `passes` times. -/
def CyclicScan (ref : List ℕ) (n passes : ℕ) : Prop :=
  1 ≤ n ∧ 1 ≤ passes ∧ ∃ perm : List ℕ, perm.Perm (List.range n) ∧
    ref = (List.replicate passes perm).flatten

variable {ref : List ℕ} {n passes : ℕ}

/-! ## The recogniser -/

/-- `max_id` is the largest id of a nonempty string. -/
theorem maxId_spec (hne : ref ≠ []) : maxId ref ∈ ref ∧ ∀ c ∈ ref, c ≤ maxId ref := by
  suffices h : ∀ (l : List ℕ) (m : ℕ),
      (l.foldl (fun m c => if c > m then c else m) m ∈ m :: l) ∧
      ∀ c ∈ m :: l, c ≤ l.foldl (fun m c => if c > m then c else m) m by
    obtain ⟨hmem, hle⟩ := h ref 0
    refine ⟨?_, fun c hc => hle c (List.mem_cons_of_mem 0 hc)⟩
    rcases List.mem_cons.1 hmem with hzero | hin
    · -- every id is 0
      obtain ⟨c, hc⟩ := List.exists_mem_of_ne_nil ref hne
      have hc0 := hle c (List.mem_cons_of_mem 0 hc)
      rw [hzero, Nat.le_zero] at hc0
      rw [maxId, hzero, ← hc0]
      exact hc
    · exact hin
  intro l
  induction l with
  | nil => simp
  | cons x l ih =>
    intro m
    rw [List.foldl_cons]
    obtain ⟨hmem, hle⟩ := ih (if x > m then x else m)
    have hnext := hle _ List.mem_cons_self
    constructor
    · rcases List.mem_cons.1 hmem with heq | hin
      · rw [heq]
        split_ifs <;> simp
      · exact List.mem_cons_of_mem m (List.mem_cons_of_mem x hin)
    · intro c hc
      rcases List.mem_cons.1 hc with rfl | hc
      · split_ifs at * <;> omega
      · rcases List.mem_cons.1 hc with rfl | hc
        · split_ifs at * <;> omega
        · exact hle c (List.mem_cons_of_mem _ hc)

theorem seenOk_iff {l : List ℕ} {seen : ℕ → Bool} :
    seenOk n l seen = true ↔ (∀ c ∈ l, c < n ∧ seen c = false) ∧ l.Nodup := by
  induction l generalizing seen with
  | nil => simp [seenOk]
  | cons c cs ih =>
    rw [seenOk, List.nodup_cons]
    by_cases hc : c ≥ n ∨ seen c = true
    · rw [if_pos hc]
      constructor
      · intro h
        cases h
      · rintro ⟨hall, -⟩
        obtain ⟨hlt, hseen⟩ := hall c List.mem_cons_self
        rcases hc with hge | hsc
        · omega
        · rw [hseen] at hsc
          cases hsc
    · obtain ⟨hlt, hseen⟩ := not_or.1 hc
      rw [if_neg hc, ih]
      constructor
      · rintro ⟨hall, hnd⟩
        have hne : c ∉ cs := fun hmem => by simpa using (hall c hmem).2
        refine ⟨fun x hx => ?_, hne, hnd⟩
        rcases List.mem_cons.1 hx with rfl | hx
        · exact ⟨Nat.lt_of_not_le hlt, Bool.eq_false_iff.2 hseen⟩
        · obtain ⟨hxn, hxs⟩ := hall x hx
          rw [update_of_ne (ne_of_mem_of_not_mem hx hne)] at hxs
          exact ⟨hxn, hxs⟩
      · rintro ⟨hall, hne, hnd⟩
        refine ⟨fun x hx => ?_, hnd⟩
        rw [update_of_ne (ne_of_mem_of_not_mem hx hne)]
        exact hall x (List.mem_cons_of_mem c hx)

theorem CyclicScan.length (h : CyclicScan ref n passes) : ref.length = passes * n := by
  obtain ⟨-, -, perm, hperm, rfl⟩ := h
  simp [hperm.length_eq]

theorem CyclicScan.mem_iff (h : CyclicScan ref n passes) (c : ℕ) : c ∈ ref ↔ c < n := by
  obtain ⟨-, hpasses, perm, hperm, rfl⟩ := h
  simp only [List.mem_flatten, List.mem_replicate]
  constructor
  · rintro ⟨_, ⟨-, rfl⟩, hc⟩
    exact List.mem_range.1 (hperm.mem_iff.1 hc)
  · intro hc
    exact ⟨perm, ⟨by omega, rfl⟩, hperm.mem_iff.2 (List.mem_range.2 hc)⟩

theorem CyclicScan.ne_nil (h : CyclicScan ref n passes) : ref ≠ [] := by
  obtain ⟨hn, -⟩ := id h
  exact List.ne_nil_of_mem ((h.mem_iff 0).2 hn)

theorem CyclicScan.maxId (h : CyclicScan ref n passes) : maxId ref + 1 = n := by
  obtain ⟨hmem, hle⟩ := maxId_spec h.ne_nil
  have hlt := (h.mem_iff _).1 hmem
  have hlast := hle (n - 1) ((h.mem_iff _).2 (by omega))
  omega

/-- A scan of fewer than `2 ^ 32` chunks is found, with its passes counted modulo `2 ^ 32`. -/
theorem CyclicScan.detect (h : CyclicScan ref n passes) (hn : n < 2 ^ 32)
    (hpasses : 1 ≤ passes % 2 ^ 32) : detectCyclicScan ref = some (n, passes % 2 ^ 32) := by
  obtain ⟨hn1, hp1, perm, hperm, href⟩ := id h
  have hlen := h.length
  have hpl : perm.length = n := by simpa using hperm.length_eq
  have hdiv : ref.length / n = passes := by
    rw [hlen]
    exact Nat.mul_div_cancel passes hn1
  have htake : ref.take n = perm := by
    obtain ⟨q, rfl⟩ := Nat.exists_eq_add_of_le' hp1
    rw [href, List.replicate_succ, List.flatten_cons, ← hpl, List.take_left]
  have hper : ¬ ∃ i < ref.length, ref[i]? ≠ ref[i % n]? := by
    rintro ⟨i, hi, hne⟩
    rw [hlen] at hi
    have hmod : i % n < passes * n := (Nat.mod_le i n).trans_lt hi
    rw [href, getElem?_flatten_replicate _ (by rwa [hpl]),
      getElem?_flatten_replicate _ (by rwa [hpl]), hpl, Nat.mod_mod] at hne
    exact hne rfl
  have hseen : seenOk n perm (fun _ => false) = true :=
    seenOk_iff.2 ⟨fun c hc => ⟨List.mem_range.1 (hperm.mem_iff.1 hc), rfl⟩,
      hperm.nodup_iff.2 List.nodup_range⟩
  have hne : ref.length ≠ 0 := by
    rw [hlen]
    exact (Nat.mul_pos hp1 hn1).ne'
  have hzero : ¬ (n = 0 ∨ ref.length % n ≠ 0) := by
    rintro (hn0 | hmod)
    · omega
    · exact hmod (by rw [hlen, Nat.mul_mod_left])
  simp only [detectCyclicScan, if_neg hne, h.maxId, Nat.mod_eq_of_lt hn, if_neg hzero, hdiv,
    if_neg (Nat.not_lt.2 hpasses), if_neg hper, htake, hseen, if_true]

/-- A string that is found is a scan. -/
theorem detectCyclicScan_some (h : detectCyclicScan ref = some (n, passes)) :
    n < 2 ^ 32 ∧ ∃ p, CyclicScan ref n p ∧ p % 2 ^ 32 = passes ∧ 1 ≤ passes := by
  simp only [detectCyclicScan] at h
  split_ifs at h with h0 hzero hpasses hper hseen
  obtain ⟨hn, hp⟩ := Prod.mk.inj (Option.some.inj h)
  rw [hn] at hzero hper hseen hp hpasses
  obtain ⟨hn0, hmod⟩ := not_or.1 hzero
  have hn1 : 1 ≤ n := Nat.one_le_iff_ne_zero.2 hn0
  have hlen : ref.length = ref.length / n * n :=
    (Nat.div_mul_cancel (Nat.dvd_of_mod_eq_zero (not_not.1 hmod))).symm
  have hpos : 0 < ref.length / n := by
    refine Nat.pos_of_ne_zero fun hq => ?_
    rw [hq, Nat.zero_mul] at hlen
    exact h0 hlen
  have hle : n ≤ ref.length := by
    rw [hlen]
    exact Nat.le_mul_of_pos_left n hpos
  obtain ⟨hall, hnd⟩ := seenOk_iff.1 hseen
  -- n distinct ids below n
  have hperm : (ref.take n).Perm (List.range n) := by
    refine List.Subperm.perm_of_length_le (hnd.subperm fun c hc => ?_) ?_
    · exact List.mem_range.2 (hall c hc).1
    · rw [List.length_range, List.length_take, Nat.min_eq_left hle]
  have hper' : ∀ i < ref.length, ref[i]? = ref[i % n]? := fun i hi =>
    not_not.1 fun hne => hper ⟨i, hi, hne⟩
  refine ⟨hn ▸ Nat.mod_lt _ (by norm_num), ref.length / n,
    ⟨hn1, hpos, ref.take n, hperm, eq_flatten_replicate hlen hpos hper'⟩, hp, ?_⟩
  rw [← hp]
  exact Nat.le_of_not_lt hpasses

/-! ## The floor -/

/-- The 32-bit and 64-bit arithmetic of the floor does not wrap. -/
theorem cyclicFloor_eq (hn : n < 2 ^ 32) (hpasses : 1 ≤ passes) (hpasses' : passes < 2 ^ 32)
    (k : ℕ) : cyclicFloor n passes k = n + (passes - 1) * (n - k) ∧
      n + (passes - 1) * (n - k) < 2 ^ 64 := by
  have hextra : (if k < n then n - k else 0) = n - k := by
    split_ifs <;> omega
  have hwrap : (passes + 2 ^ 32 - 1) % 2 ^ 32 = passes - 1 := by omega
  have hprod : (passes - 1) * (n - k) ≤ (2 ^ 32 - 2) * (2 ^ 32 - 1) :=
    Nat.mul_le_mul (by omega) (by omega)
  have hfit : n + (passes - 1) * (n - k) < 2 ^ 64 := by omega
  refine ⟨?_, hfit⟩
  simp only [cyclicFloor, hextra, hwrap]
  exact Nat.mod_eq_of_lt hfit

/-- The misses of any schedule of a scan, counted pass by pass. -/
theorem CyclicScan.misses_le (h : CyclicScan ref n passes) {k m : ℕ}
    (hm : Demand (fun _ => 1) k (∅ : Finset ℕ) ref m) : n + (passes - 1) * (n - k) ≤ m := by
  obtain ⟨-, hp1, perm, hperm, rfl⟩ := h
  obtain ⟨q, rfl⟩ := Nat.exists_eq_add_of_le' hp1
  have hcard : perm.toFinset.card = n := by
    rw [List.toFinset_card_of_nodup (hperm.nodup_iff.2 List.nodup_range), hperm.length_eq,
      List.length_range]
  have hle := (hm.serves (by simp)).passes_le
  rwa [hcard] at hle

/-- What a detected scan guarantees, at every capacity `k`. -/
structure FloorSound (ref : List ℕ) (n passes k : ℕ) : Prop where
  exact : cyclicFloor n passes k = n + (passes - 1) * (n - k)
  fits : n + (passes - 1) * (n - k) < 2 ^ 64
  schedules : ∀ m, Demand (fun _ => 1) k (∅ : Finset ℕ) ref m → cyclicFloor n passes k ≤ m
  solver : ∃ r, beladySimulate ref k = some r ∧ cyclicFloor n passes k ≤ r.misses ∧
    checkCyclicFloorOrAbort ref k r.misses = .ok

theorem FloorSound.of_detect (hlen : ref.length < 2 ^ 64)
    (h : detectCyclicScan ref = some (n, passes)) (k : ℕ) : FloorSound ref n passes k := by
  obtain ⟨hn, p, hscan, hp, hpasses⟩ := detectCyclicScan_some h
  have hlt : passes < 2 ^ 32 := hp ▸ Nat.mod_lt _ (by norm_num)
  obtain ⟨heq, hfits⟩ := cyclicFloor_eq hn hpasses hlt k
  -- a wrapped pass count only lowers the floor
  have hle : passes ≤ p := hp ▸ Nat.mod_le p _
  have hsched : ∀ m, Demand (fun _ => 1) k (∅ : Finset ℕ) ref m → cyclicFloor n passes k ≤ m := by
    intro m hm
    rw [heq]
    calc n + (passes - 1) * (n - k)
        ≤ n + (p - 1) * (n - k) :=
          Nat.add_le_add_left (Nat.mul_le_mul_right _ (Nat.sub_le_sub_right hle 1)) n
      _ ≤ m := hscan.misses_le hm
  have hsmall : ∀ c ∈ ref, c < 2 ^ 32 - 1 := by
    intro c hc
    have hcn := (hscan.mem_iff c).1 hc
    omega
  obtain ⟨r, hr, hfur⟩ := beladySimulate_furthest k hsmall hlen
  have hmiss := hsched r.misses hfur.isLeast.1
  refine ⟨heq, hfits, hsched, r, hr, hmiss, ?_⟩
  simp only [checkCyclicFloorOrAbort, h, if_neg (Nat.not_lt.2 hmiss)]

/-- The recogniser finds the scans of fewer than `2 ^ 32` chunks, and the floor check passes on
what it finds. -/
theorem cyclicFloor_sound (hlen : ref.length < 2 ^ 64) :
    (∀ n passes, ref.length / n < 2 ^ 32 →
      (detectCyclicScan ref = some (n, passes) ↔ n < 2 ^ 32 ∧ CyclicScan ref n passes)) ∧
    (∀ n passes k, detectCyclicScan ref = some (n, passes) → FloorSound ref n passes k) ∧
    ∀ k r, beladySimulate ref k = some r →
      checkCyclicFloorOrAbort ref k r.misses ≠ .aborted := by
  refine ⟨fun n passes hfew => ⟨fun h => ?_, fun ⟨hn, hscan⟩ => ?_⟩,
    fun n passes k h => .of_detect hlen h k, fun k r hr => ?_⟩
  · obtain ⟨hn, p, hscan, hp, -⟩ := detectCyclicScan_some h
    obtain ⟨hn1, -⟩ := id hscan
    rw [hscan.length, Nat.mul_div_cancel p hn1] at hfew
    rw [Nat.mod_eq_of_lt hfew] at hp
    exact ⟨hn, hp ▸ hscan⟩
  · obtain ⟨hn1, hp1, -⟩ := id hscan
    rw [hscan.length, Nat.mul_div_cancel passes hn1] at hfew
    have h := hscan.detect hn (by rwa [Nat.mod_eq_of_lt hfew])
    rwa [Nat.mod_eq_of_lt hfew] at h
  · cases hdet : detectCyclicScan ref with
    | none => simp [checkCyclicFloorOrAbort, hdet]
    | some found =>
      obtain ⟨r', hr', -, hok⟩ := (FloorSound.of_detect hlen hdet k).solver
      obtain rfl : r' = r := Option.some.inj (hr'.symm.trans hr)
      rw [hok]
      simp

theorem cyclicFloor_sound_swapped :
    detectCyclicScan [1, 0, 1, 0] = some (2, 2) ∧ FloorSound [1, 0, 1, 0] 2 2 1 := by
  have hdet : detectCyclicScan [1, 0, 1, 0] = some (2, 2) := by decide
  exact ⟨hdet, (@cyclicFloor_sound [1, 0, 1, 0] (by decide)).2.1 2 2 1 hdet⟩

/-- One pass over all `2 ^ 32` ids: the period wraps to 0 and is refused. -/
theorem detectCyclicScan_wraps :
    CyclicScan (List.range (2 ^ 32)) (2 ^ 32) 1 ∧ detectCyclicScan (List.range (2 ^ 32)) = none := by
  have hscan : CyclicScan (List.range (2 ^ 32)) (2 ^ 32) 1 :=
    ⟨by norm_num, le_rfl, List.range (2 ^ 32), .refl _, by
      rw [List.replicate_one, List.flatten_cons, List.flatten_nil, List.append_nil]⟩
  refine ⟨hscan, ?_⟩
  simp only [detectCyclicScan, hscan.maxId, Nat.mod_self, true_or, if_true, ite_self]

end Residctl.Belady
