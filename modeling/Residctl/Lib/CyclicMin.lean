import Residctl.Lib.Cyclic
import Residctl.Lib.Paging

/-!
# The optimum of a cyclic scan

`n` items in turn, for ever, over `k` slots. The furthest-in-future rule gives up the item that
has just been used. Its misses come in phases of `n - 1` references: `n - k` misses, and then
`k - 1` hits on what was kept from before (`Furthest.of_scan`). What is cached is described by the
distance of an item's next use (`ahead`).
-/

namespace Paging

open Cyclic

/-- The references to come, from reference `t` on. -/
def ScanFrom (n t : ℕ) (refs : List ℕ) : Prop := ∀ i x, refs[i]? = some x → x = (t + i) % n

/-- How many references come before the next use of `c`, at reference `t`. -/
def ahead (n t c : ℕ) : ℕ := (c + n - t % n) % n

/-- What is cached at reference `t`; with `k` references or more behind it, `r` references are over
in the current phase. -/
def scanCache (n k t : ℕ) : Finset ℕ :=
  (Finset.range n).filter fun c =>
    if t < k then c < t
    else
      let r := (t - k) % (n - 1)
      if r ≤ n - k then (n - k ≤ ahead n t c + r ∧ ahead n t c + r ≤ n - 2) ∨ ahead n t c = n - 1
      else ahead n t c + r ≤ n - 2 ∨ 2 * n - k - 1 ≤ ahead n t c + r

/-- The misses of the first `t` references. -/
def scanMisses (n k t : ℕ) : ℕ := min t k + stutter (n - k) (n - 1) (t - k)

variable {n k t c : ℕ} {refs : List ℕ}

/-! ## Distances -/

theorem ahead_lt (hn : 0 < n) : ahead n t c < n := Nat.mod_lt _ hn

theorem add_ahead (hc : c < n) : (t + ahead n t c) % n = c := by
  have ht := Nat.mod_lt t (Nat.zero_lt_of_lt hc)
  have hsum : t % n + (c + n - t % n) = c + n := by omega
  rw [ahead, Nat.add_mod_mod, ← Nat.mod_add_mod, hsum, Nat.add_mod_right, Nat.mod_eq_of_lt hc]

theorem ahead_unique (hc : c < n) {i : ℕ} (hi : i < n) : ahead n t c = i ↔ (t + i) % n = c := by
  constructor
  · rintro rfl
    exact add_ahead hc
  · intro h
    have hmod : (t + ahead n t c) % n = (t + i) % n := (add_ahead hc).trans h.symm
    have := Nat.ModEq.add_left_cancel' t hmod
    rwa [Nat.ModEq, Nat.mod_eq_of_lt (ahead_lt (Nat.zero_lt_of_lt hc)), Nat.mod_eq_of_lt hi] at this

theorem ahead_self (hn : 0 < n) : ahead n t (t % n) = 0 :=
  (ahead_unique (Nat.mod_lt t hn) hn).2 rfl

/-- Time passes. -/
theorem ahead_succ (hc : c < n) :
    ahead n (t + 1) c = if ahead n t c = 0 then n - 1 else ahead n t c - 1 := by
  have hn : 0 < n := Nat.zero_lt_of_lt hc
  have hlt := ahead_lt (t := t) (c := c) hn
  have hnow := add_ahead (t := t) hc
  split_ifs with h
  · rw [h, Nat.add_zero] at hnow
    rw [ahead_unique hc (by omega)]
    have hnext : t + 1 + (n - 1) = t + n := by omega
    rw [hnext, Nat.add_mod_right, hnow]
  · rw [ahead_unique hc (by omega)]
    have hnext : t + 1 + (ahead n t c - 1) = t + ahead n t c := by omega
    rw [hnext, hnow]

/-- In a finite part of the scan the order of the first uses is that of the distances. -/
theorem ScanFrom.idxOf_le (h : ScanFrom n t refs) {e f : ℕ} (he : e < n) (hf : f < n)
    (hle : ahead n t e ≤ ahead n t f) : refs.idxOf e ≤ refs.idxOf f := by
  by_contra hlt
  have hin : refs.idxOf f < refs.length := (not_le.1 hlt).trans_le List.idxOf_le_length
  have hat : f = (t + refs.idxOf f) % n :=
    h _ _ ((List.getElem?_eq_getElem hin).trans (congrArg some (List.getElem_idxOf hin)))
  have hfirst : ahead n t f ≤ refs.idxOf f := by
    rcases Nat.lt_or_ge (refs.idxOf f) n with hi | hi
    · exact ((ahead_unique hf hi).2 hat.symm).le
    · exact (ahead_lt (Nat.zero_lt_of_lt hf)).le.trans hi
  -- `e` comes no later
  have hlt' : ahead n t e < refs.length := by omega
  have hget : refs[ahead n t e] = e := by
    have := h _ _ (List.getElem?_eq_getElem hlt')
    rw [this, add_ahead he]
  have hbefore : ahead n t e < refs.idxOf e := by omega
  exact ne_of_beq_false (List.not_of_lt_findIdx hbefore) hget

/-! ## One reference -/

theorem mem_scanCache : c ∈ scanCache n k t ↔ c < n ∧
    if t < k then c < t
    else if (t - k) % (n - 1) ≤ n - k then
      (n - k ≤ ahead n t c + (t - k) % (n - 1) ∧ ahead n t c + (t - k) % (n - 1) ≤ n - 2) ∨
        ahead n t c = n - 1
    else ahead n t c + (t - k) % (n - 1) ≤ n - 2 ∨
      2 * n - k - 1 ≤ ahead n t c + (t - k) % (n - 1) := by
  rw [scanCache, Finset.mem_filter, Finset.mem_range]

theorem phase_succ (hn : 1 < n) (ht : k ≤ t) : (t + 1 - k) % (n - 1) =
    if (t - k) % (n - 1) + 1 = n - 1 then 0 else (t - k) % (n - 1) + 1 := by
  have hlt := Nat.mod_lt (t - k) (show 0 < n - 1 by omega)
  have hnext : t + 1 - k = t - k + 1 := by omega
  rw [hnext, ← Nat.mod_add_mod]
  split_ifs with h
  · rw [h, Nat.mod_self]
  · exact Nat.mod_eq_of_lt (by omega)

/-- The item that is referenced. -/
theorem eq_mod_iff (hc : c < n) : c = t % n ↔ ahead n t c = 0 := by
  rw [ahead_unique hc (Nat.zero_lt_of_lt hc), Nat.add_zero, eq_comm]

/-- Behind the first `k` references, the first `n - k` references of a phase miss. -/
theorem scan_hit_iff (hk : 0 < k) (hkn : k < n) :
    t % n ∈ scanCache n k t ↔ k ≤ t ∧ n - k ≤ (t - k) % (n - 1) := by
  have hn : 0 < n := by omega
  have hlt := Nat.mod_lt (t - k) (show 0 < n - 1 by omega)
  rw [mem_scanCache, ahead_self hn, and_iff_right (Nat.mod_lt t hn)]
  by_cases ht : t < k
  · rw [if_pos ht, Nat.mod_eq_of_lt (by omega)]
    omega
  · rw [if_neg ht]
    split_ifs <;> omega

theorem scanMisses_succ (hk : 0 < k) (hkn : k < n) :
    scanMisses n k (t + 1) = scanMisses n k t + if t % n ∈ scanCache n k t then 0 else 1 := by
  simp only [scanMisses, scan_hit_iff hk hkn]
  by_cases ht : t < k
  · have hnow : t - k = 0 := by omega
    have hnext : t + 1 - k = 0 := by omega
    rw [hnow, hnext, if_neg (by omega)]
    omega
  · have hnext : t + 1 - k = t - k + 1 := by omega
    rw [hnext, stutter_succ (by omega) (by omega)]
    split_ifs <;> omega

/-- A hit changes nothing. -/
theorem scanCache_hit (hk : 0 < k) (hkn : k < n) (h : t % n ∈ scanCache n k t) :
    scanCache n k (t + 1) = scanCache n k t := by
  rcases (scan_hit_iff hk hkn).1 h with ⟨ht, hphase⟩
  have hlt := Nat.mod_lt (t - k) (show 0 < n - 1 by omega)
  ext c
  rw [mem_scanCache, mem_scanCache, if_neg (show ¬ t + 1 < k by omega),
    if_neg (show ¬ t < k by omega), phase_succ (by omega) ht]
  refine and_congr_right fun hc => ?_
  have hd := ahead_lt (t := t) (c := c) (Nat.zero_lt_of_lt hc)
  rw [ahead_succ hc]
  by_cases hlast : (t - k) % (n - 1) + 1 = n - 1
  · rw [if_pos hlast]
    split_ifs <;> omega
  · rw [if_neg hlast]
    split_ifs <;> omega

/-- The first `k` references fill the slots. -/
theorem scanCache_fill (hkn : k < n) (ht : t < k) :
    scanCache n k (t + 1) = insert (t % n) (scanCache n k t) := by
  ext c
  rw [Finset.mem_insert, mem_scanCache, mem_scanCache, if_pos ht,
    Nat.mod_eq_of_lt (show t < n by omega)]
  by_cases hnext : t + 1 < k
  · rw [if_pos hnext]
    omega
  · -- the first phase begins
    have hk : t + 1 = k := by omega
    rw [hk, if_neg (by omega), Nat.sub_self, Nat.zero_mod, if_pos (Nat.zero_le _)]
    by_cases hc : c < n
    · have hahead : ahead n k c = if c < k then c + n - k else c - k := by
        rw [ahead_unique hc (by split_ifs <;> omega)]
        split_ifs with hck
        · have hsum : k + (c + n - k) = c + n := by omega
          rw [hsum, Nat.add_mod_right, Nat.mod_eq_of_lt hc]
        · have hsum : k + (c - k) = c := by omega
          rw [hsum, Nat.mod_eq_of_lt hc]
      rw [hahead]
      split_ifs <;> omega
    · omega

/-- A later miss replaces the item that has just been used. -/
theorem scanCache_miss (hk : 0 < k) (hkn : k < n) (ht : k ≤ t) (h : t % n ∉ scanCache n k t) :
    ∃ f ∈ scanCache n k t, ahead n t f = n - 1 ∧
      scanCache n k (t + 1) = insert (t % n) ((scanCache n k t).erase f) := by
  have hphase : (t - k) % (n - 1) < n - k := by
    rw [scan_hit_iff hk hkn] at h
    omega
  have hf : (t + (n - 1)) % n < n := Nat.mod_lt _ (by omega)
  have hlast : ahead n t ((t + (n - 1)) % n) = n - 1 := (ahead_unique hf (by omega)).2 rfl
  have hlt := Nat.mod_lt (t - k) (show 0 < n - 1 by omega)
  refine ⟨(t + (n - 1)) % n, ?_, hlast, ?_⟩
  · rw [mem_scanCache, if_neg (by omega), if_pos hphase.le]
    exact ⟨hf, Or.inr hlast⟩
  · ext c
    rw [Finset.mem_insert, Finset.mem_erase, mem_scanCache, mem_scanCache,
      if_neg (show ¬ t + 1 < k by omega), if_neg (show ¬ t < k by omega), phase_succ (by omega) ht,
      if_pos hphase.le]
    by_cases hc : c < n
    · have hd := ahead_lt (t := t) (c := c) (Nat.zero_lt_of_lt hc)
      have hne : c ≠ (t + (n - 1)) % n ↔ ahead n t c ≠ n - 1 := by
        rw [Ne, Ne, ahead_unique hc (by omega), eq_comm]
      rw [eq_mod_iff hc, hne, ahead_succ hc]
      by_cases hend : (t - k) % (n - 1) + 1 = n - 1
      · rw [if_pos hend]
        split_ifs <;> omega
      · rw [if_neg hend]
        split_ifs <;> omega
    · have hne : c ≠ t % n := fun heq => hc (heq ▸ Nat.mod_lt t (by omega))
      simp [hc, hne]

/-! ## The run -/

/-- The furthest-in-future rule on a part of the scan. -/
theorem Furthest.of_scanFrom (hk : 0 < k) (hkn : k < n) (h : ScanFrom n t refs)
    (hcard : (scanCache n k t).card = min t k) :
    ∃ m, Furthest k (scanCache n k t) refs m ∧
      m + scanMisses n k t = scanMisses n k (t + refs.length) := by
  induction refs generalizing t with
  | nil => exact ⟨0, Furthest.nil, Nat.zero_add _⟩
  | cons c refs ih =>
    have hc : c = t % n := h 0 c rfl
    subst hc
    have htail : ScanFrom n (t + 1) refs := by
      intro i x hx
      rw [Nat.add_assoc, Nat.add_comm 1 i]
      exact h (i + 1) x hx
    have hlength : t + 1 + refs.length = t + (t % n :: refs).length := by
      rw [List.length_cons]
      omega
    have hnext := scanMisses_succ (t := t) hk hkn
    by_cases hin : t % n ∈ scanCache n k t
    · have ht := ((scan_hit_iff hk hkn).1 hin).1
      have hsame := scanCache_hit hk hkn hin
      rcases ih htail (by rw [hsame, hcard]; omega) with ⟨m, hm, hcount⟩
      rw [hsame] at hm
      rw [hlength, if_pos hin] at *
      exact ⟨m, Furthest.hit hin hm, by omega⟩
    rw [if_neg hin] at hnext
    by_cases ht : t < k
    · have hfill := scanCache_fill hkn ht
      have hgrow := Finset.card_insert_of_notMem hin
      rcases ih htail (by rw [hfill, hgrow, hcard]; omega) with ⟨m, hm, hcount⟩
      rw [hfill] at hm
      rw [hlength] at hcount
      exact ⟨m + 1, Furthest.fill hin (by omega) hm, by omega⟩
    · rcases scanCache_miss hk hkn (by omega) hin with ⟨f, hf, hlast, hmiss⟩
      have hgrow := card_replace hin hf
      rcases ih htail (by rw [hmiss, ← hgrow, hcard]; omega) with ⟨m, hm, hcount⟩
      rw [hmiss] at hm
      rw [hlength] at hcount
      refine ⟨m + 1, Furthest.evict hin (by omega) hf (fun e he => ?_) hm, by omega⟩
      -- the next use of `f` is as far away as can be
      have hen := (mem_scanCache.1 he).1
      have hfn := (mem_scanCache.1 hf).1
      refine htail.idxOf_le hen hfn ?_
      have hlt := ahead_lt (t := t) (c := e) (Nat.zero_lt_of_lt hen)
      have hne : ahead n t e ≠ 0 := fun h0 => hin ((eq_mod_iff hen).2 h0 ▸ he)
      rw [ahead_succ hen, ahead_succ hfn, hlast, if_neg hne, if_neg (by omega)]
      omega

/-- With a slot for every item only the first uses miss. -/
theorem Furthest.of_room (hn : 0 < n) (hnk : n ≤ k) (h : ScanFrom n t refs) :
    ∃ m, Furthest k (Finset.range (min t n)) refs m ∧ m + min t n = min (t + refs.length) n := by
  induction refs generalizing t with
  | nil => exact ⟨0, Furthest.nil, Nat.zero_add _⟩
  | cons c refs ih =>
    have hc : c = t % n := h 0 c rfl
    subst hc
    have htail : ScanFrom n (t + 1) refs := by
      intro i x hx
      rw [Nat.add_assoc, Nat.add_comm 1 i]
      exact h (i + 1) x hx
    rcases ih htail with ⟨m, hm, hcount⟩
    rw [List.length_cons]
    by_cases ht : t < n
    · have hset : Finset.range (min (t + 1) n) = insert (t % n) (Finset.range (min t n)) := by
        rw [min_eq_left (by omega), min_eq_left ht.le, Nat.mod_eq_of_lt ht, Finset.range_add_one]
      rw [hset] at hm
      refine ⟨m + 1, Furthest.fill ?_ ?_ hm, by omega⟩
      · rw [Nat.mod_eq_of_lt ht, Finset.mem_range]
        omega
      · rw [Finset.card_range]
        omega
    · have hset : Finset.range (min (t + 1) n) = Finset.range (min t n) := by
        rw [min_eq_right (by omega), min_eq_right (by omega)]
      rw [hset] at hm
      refine ⟨m, Furthest.hit ?_ hm, by omega⟩
      rw [Finset.mem_range, min_eq_right (by omega)]
      exact Nat.mod_lt t hn

theorem Furthest.of_zero (refs : List ℕ) : Furthest 0 ∅ refs refs.length := by
  induction refs with
  | nil => exact Furthest.nil
  | cons c refs ih => exact Furthest.bypass (Finset.notMem_empty c) rfl ih

/-- The least number of misses of `t` references, over any number of slots. -/
def scanOptimum (n k t : ℕ) : ℕ :=
  if k = 0 then t else if n ≤ k then min t n else scanMisses n k t

theorem Furthest.of_scan (hn : 0 < n) (k : ℕ) (h : ScanFrom n 0 refs) :
    Furthest k ∅ refs (scanOptimum n k refs.length) := by
  rw [scanOptimum]
  split_ifs with hk hnk
  · rw [hk]
    exact Furthest.of_zero refs
  · rcases Furthest.of_room hn hnk h with ⟨m, hm, hcount⟩
    rw [Nat.zero_min, Nat.add_zero, Nat.zero_add] at hcount
    rw [Nat.zero_min, Finset.range_zero] at hm
    rwa [← hcount]
  · have hempty : scanCache n k 0 = ∅ := by
      refine Finset.eq_empty_of_forall_notMem fun c hc => ?_
      rw [mem_scanCache, if_pos (Nat.pos_of_ne_zero hk)] at hc
      exact Nat.not_lt_zero c hc.2
    rcases Furthest.of_scanFrom (Nat.pos_of_ne_zero hk) (Nat.lt_of_not_le hnk) h
      (by rw [hempty, Finset.card_empty, Nat.zero_min]) with ⟨m, hm, hcount⟩
    have hzero : scanMisses n k 0 = 0 := by simp [scanMisses, stutter]
    rw [hzero, Nat.add_zero, Nat.zero_add] at hcount
    rw [hempty] at hm
    rwa [← hcount]

/-! ## Other names -/

theorem idxOf_map {α β : Type*} [DecidableEq α] [DecidableEq β] {f : α → β}
    (hf : Function.Injective f) (l : List α) (x : α) : (l.map f).idxOf (f x) = l.idxOf x := by
  rw [List.idxOf, List.idxOf, List.findIdx_map]
  congr 1
  funext y
  exact decide_eq_decide.2 hf.eq_iff

/-- The rule does not depend on the names of the items. -/
theorem Furthest.map {α β : Type*} [DecidableEq α] [DecidableEq β] {f : α → β}
    (hf : Function.Injective f) {cap m : ℕ} {C : Finset α} {refs : List α}
    (h : Furthest cap C refs m) : Furthest cap (C.image f) (refs.map f) m := by
  have hmem : ∀ {C : Finset α} {c : α}, f c ∈ C.image f ↔ c ∈ C := hf.mem_finset_image
  induction h with
  | nil => exact Furthest.nil
  | hit hc _ ih => exact Furthest.hit (hmem.2 hc) ih
  | bypass hc hcap _ ih => exact Furthest.bypass (hmem.not.2 hc) hcap ih
  | fill hc hroom _ ih =>
    rw [Finset.image_insert] at ih
    exact Furthest.fill (hmem.not.2 hc) (by rwa [Finset.card_image_of_injective _ hf]) ih
  | evict hc hfull hfC hmax _ ih =>
    rw [Finset.image_insert, Finset.image_erase hf] at ih
    refine Furthest.evict (hmem.not.2 hc) (by rwa [Finset.card_image_of_injective _ hf])
      (hmem.2 hfC) (fun e he => ?_) ih
    rcases Finset.mem_image.1 he with ⟨e, heC, rfl⟩
    rw [idxOf_map hf, idxOf_map hf]
    exact hmax e heC

end Paging
