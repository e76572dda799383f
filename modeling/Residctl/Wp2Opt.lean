import Mathlib.Data.List.GetD
import Mathlib.Data.List.Range
import Residctl.Lib.Paging
import Residctl.Region

/-!
# The byte-budget optimum tool

`wp2_opt.c`: furthest-next-use eviction generalised to a byte budget and chunks
of different lengths. The model starts where the three input files have been
parsed; `wp2Opt` returns `none` on the error exits and where an id of the
sequence would index the chunk arrays out of bounds.

A run of the main loop is abstracted by `Greedy`: the sets of resident chunks,
with each eviction's guard. With equal lengths `Greedy` is the slot algorithm of
`Paging.Greedy`; with a budget that holds every chunk it never evicts.
-/

namespace Residctl.Wp2Opt

open Function Paging

def UINT64_MAX : ℕ := 2 ^ 64 - 1

/-- `len[c]`. -/
def lenOf (len : List ℕ) (c : ℕ) : ℕ := len.getD c 0

/-- `ref`: the pass repeated, `ref[i] = pass[i % pass_len]`. -/
def reference (pass : List ℕ) (passes : ℕ) : List ℕ :=
  (List.range (pass.length * passes % 2 ^ 64)).map fun i => pass.getD (i % pass.length) 0

/-- `next_use`, filled backwards together with `last_seen`. -/
def nextUseTable (ref : List ℕ) : (ℕ → ℕ) × List ℕ :=
  ref.zipIdx.foldr (fun p st => (update st.1 p.1 p.2, st.1 p.1 :: st.2)) (fun _ => UINT64_MAX, [])

/-- The local variables of the main loop. -/
structure Sim where
  resident : ℕ → Bool
  curNextuse : ℕ → ℕ
  residentBytes : ℕ
  missedBytes : ℕ
  misses : ℕ

def simInit : Sim := ⟨fun _ => false, fun _ => 0, 0, 0, 0⟩

/-- The victim scan over `0 .. n-1`: `(victim, best)`, the victim `UINT32_MAX` when
nothing is resident. The first of several furthest chunks wins. -/
def furthestResident (n : ℕ) (s : Sim) : ℕ × ℕ :=
  (List.range n).foldl (fun v k =>
    if s.resident k = true ∧ (v.1 = UINT32_MAX ∨ s.curNextuse k > v.2) then (k, s.curNextuse k)
    else v) (UINT32_MAX, 0)

/-- The eviction loop for a miss of `c`. Every iteration that continues clears one
resident flag, so `n + 1` units of fuel reach the exit. -/
def evictLoop (len : List ℕ) (budget c : ℕ) : ℕ → Sim → Sim
  | 0, s => s
  | fuel + 1, s =>
    if (s.residentBytes + lenOf len c) % 2 ^ 64 > budget then
      let victim := (furthestResident len.length s).1
      if victim = UINT32_MAX then s
      else
        evictLoop len budget c fuel
          { s with resident := update s.resident victim false,
                   residentBytes := (s.residentBytes + 2 ^ 64 - lenOf len victim) % 2 ^ 64 }
    else s

/-- One iteration of the main loop, at a reference to `c` with next use `nextUse`. -/
def step (len : List ℕ) (budget : ℕ) (s : Sim) (c nextUse : ℕ) : Sim :=
  if s.resident c then { s with curNextuse := update s.curNextuse c nextUse }
  else
    let s := { s with misses := s.misses + 1,
                      missedBytes := (s.missedBytes + lenOf len c) % 2 ^ 64 }
    if lenOf len c > budget then { s with curNextuse := update s.curNextuse c nextUse }
    else
      let s := evictLoop len budget c (len.length + 1) s
      { s with resident := update s.resident c true,
               residentBytes := (s.residentBytes + lenOf len c) % 2 ^ 64,
               curNextuse := update s.curNextuse c nextUse }

/-- The printed record, and the exit code of the sanity floors. -/
structure Result where
  nChunks : ℕ
  passes : ℕ
  totalRefs : ℕ
  budgetBytes : ℕ
  optMisses : ℕ
  optMissedBytes : ℕ
  sumChunkBytes : ℕ
  equalSize : Bool
  below : Bool
deriving DecidableEq, Repr

/-- The distinct chunks of a pass, in order of first appearance. -/
def seen (pass : List ℕ) : List ℕ :=
  pass.foldl (fun seen c => if c ∈ seen then seen else seen ++ [c]) []

/-- `all_equal`: the seen chunks of the table have one length. -/
def allEqual (len pass : List ℕ) : Bool :=
  ((List.range len.length).foldl (fun (st : Option ℕ × Bool) c =>
    if c ∈ seen pass then
      match st.1 with
      | none => (some (lenOf len c), st.2)
      | some first => (some first, st.2 && lenOf len c == first)
    else st) (none, true)).2

/-- `main` after parsing. -/
def wp2Opt (len : List ℕ) (budget passes : ℕ) (pass : List ℕ) : Option Result :=
  if len.length = 0 ∨ passes = 0 ∨ pass.length = 0 then none
  else if pass.any fun c => len.length ≤ c then none
  else
    let ref := reference pass passes
    let s := (ref.zip (nextUseTable ref).2).foldl (fun s p => step len budget s p.1 p.2) simInit
    let distinct := (seen pass).length
    let sumDistinct := ((seen pass).map (lenOf len)).sum % 2 ^ 64
    some
      { nChunks := len.length
        passes := passes
        totalRefs := pass.length * passes % 2 ^ 64
        budgetBytes := budget
        optMisses := s.misses
        optMissedBytes := s.missedBytes
        sumChunkBytes := sumDistinct
        equalSize := allEqual len pass
        below := s.misses < distinct || s.missedBytes < sumDistinct ||
          (allEqual len pass && s.missedBytes != s.misses * lenOf len 0 % 2 ^ 64) }

/-! ## The reference string and its next uses -/

theorem reference_eq {pass : List ℕ} {passes : ℕ} (h : pass.length * passes < 2 ^ 64) :
    reference pass passes = (List.replicate passes pass).flatten := by
  rw [reference, Nat.mod_eq_of_lt h]
  clear h
  induction passes with
  | zero => simp
  | succ k ih =>
    have hone : (List.range pass.length).map (fun i => pass.getD (i % pass.length) 0) = pass := by
      refine List.ext_getElem (by simp) fun i hi _ => ?_
      have hi' : i < pass.length := by simpa using hi
      simp [Nat.mod_eq_of_lt hi', hi']
    have hrest : (fun i => pass.getD ((pass.length + i) % pass.length) 0) =
        fun i => pass.getD (i % pass.length) 0 := by
      funext i
      rw [Nat.add_mod_left]
    rw [Nat.mul_succ, Nat.add_comm, List.range_add, List.map_append, hone, List.map_map]
    simp only [comp_def, hrest, ih]
    simp [List.replicate_succ]

/-- The next use of each reference when the string starts at position `k`. -/
def nextUses : ℕ → List ℕ → List ℕ
  | _, [] => []
  | k, c :: rest => nextUse UINT64_MAX c (k + 1) rest :: nextUses (k + 1) rest

theorem nextUseTable_eq (ref : List ℕ) : (nextUseTable ref).2 = nextUses 0 ref := by
  suffices h : ∀ (xs : List ℕ) (k : ℕ),
      (xs.zipIdx k).foldr (fun (p : ℕ × ℕ) (st : (ℕ → ℕ) × List ℕ) =>
        (update st.1 p.1 p.2, st.1 p.1 :: st.2)) (fun _ => UINT64_MAX, []) =
        (fun c => nextUse UINT64_MAX c k xs, nextUses k xs) by
    rw [nextUseTable, h ref 0]
  intro xs
  induction xs with
  | nil => intro k; simp [nextUse, nextUses]
  | cons x xs ih =>
    intro k
    rw [List.zipIdx_cons, List.foldr_cons, ih]
    refine Prod.ext (funext fun c => ?_) rfl
    by_cases hc : c = x
    · subst hc; simp
    · simp [update_of_ne hc, nextUse_cons_ne hc]

/-! ## The greedy run -/

/-- Evictions for a miss of `c`: a furthest resident chunk at a time, each made
because the bytes (as the source counts them) exceed the budget. -/
inductive Evicts (len : List ℕ) (budget c : ℕ) (rest : List ℕ) : Finset ℕ → Finset ℕ → Prop
  | refl {C} : Evicts len budget c rest C C
  | evict {C D f} (hover : budget < (weight (lenOf len) C + lenOf len c) % 2 ^ 64) (hf : f ∈ C)
      (hmax : ∀ e ∈ C, rest.idxOf e ≤ rest.idxOf f)
      (hrest : Evicts len budget c rest (C.erase f) D) : Evicts len budget c rest C D

/-- Runs of the main loop from the resident set `C`, with the bytes missed. -/
inductive ByteRun (len : List ℕ) (budget : ℕ) : Finset ℕ → List ℕ → ℕ → Prop
  | nil {C} : ByteRun len budget C [] 0
  | hit {C c rest m} (hc : c ∈ C) (hrest : ByteRun len budget C rest m) :
      ByteRun len budget C (c :: rest) m
  | miss {C D c rest m} (hc : c ∉ C) (hevicts : Evicts len budget c rest C D)
      (hrest : ByteRun len budget (insert c D) rest m) :
      ByteRun len budget C (c :: rest) (lenOf len c + m)

/-- The loop invariant at position `pos` with `rest` ahead and `C` resident. -/
structure SimInv (len : List ℕ) (pos : ℕ) (rest : List ℕ) (C : Finset ℕ) (s : Sim) : Prop where
  resident : ∀ c, s.resident c = true ↔ c ∈ C
  inTable : ∀ c ∈ C, c < len.length
  bytes : s.residentBytes = weight (lenOf len) C % 2 ^ 64
  missed : s.missedBytes < 2 ^ 64
  next : ∀ c ∈ C, s.curNextuse c = nextUse UINT64_MAX c pos rest

theorem simInit_inv (len ref : List ℕ) : SimInv len 0 ref ∅ simInit where
  resident := by simp [simInit]
  inTable := by simp
  bytes := by simp [simInit]
  missed := by simp [simInit]
  next := by simp

/-- The scan finds a resident chunk with the latest next use, if any is resident. -/
theorem furthestResident_spec (s : Sim) {n : ℕ} (hn : n ≤ UINT32_MAX) :
    (furthestResident n s = (UINT32_MAX, 0) ∧ ∀ k < n, s.resident k = false) ∨
      (∃ v < n, furthestResident n s = (v, s.curNextuse v) ∧ s.resident v = true ∧
        ∀ k < n, s.resident k = true → s.curNextuse k ≤ s.curNextuse v) := by
  induction n with
  | zero => exact Or.inl ⟨rfl, by simp⟩
  | succ n ih =>
    have hstep : furthestResident (n + 1) s =
        if s.resident n = true ∧ ((furthestResident n s).1 = UINT32_MAX ∨
            s.curNextuse n > (furthestResident n s).2) then (n, s.curNextuse n)
        else furthestResident n s := by
      rw [furthestResident, List.range_succ, List.foldl_append]
      rfl
    rcases ih (by omega) with ⟨hnone, hall⟩ | ⟨v, hv, hsome, hres, hmax⟩
    · by_cases hr : s.resident n = true
      · refine Or.inr ⟨n, Nat.lt_succ_self n, ?_, hr, fun k hk hkr => ?_⟩
        · rw [hstep, hnone, if_pos ⟨hr, Or.inl rfl⟩]
        · rcases Nat.lt_succ_iff_lt_or_eq.1 hk with hlt | rfl
          · rw [hall k hlt] at hkr; cases hkr
          · exact le_rfl
      · refine Or.inl ⟨?_, fun k hk => ?_⟩
        · rw [hstep, if_neg fun h => hr h.1, hnone]
        · rcases Nat.lt_succ_iff_lt_or_eq.1 hk with hlt | rfl
          · exact hall k hlt
          · simpa using hr
    · by_cases hbetter : s.resident n = true ∧ s.curNextuse n > s.curNextuse v
      · refine Or.inr ⟨n, Nat.lt_succ_self n, ?_, hbetter.1, fun k hk hkr => ?_⟩
        · rw [hstep, hsome, if_pos ⟨hbetter.1, Or.inr hbetter.2⟩]
        · rcases Nat.lt_succ_iff_lt_or_eq.1 hk with hlt | rfl
          · exact (hmax k hlt hkr).trans hbetter.2.le
          · exact le_rfl
      · refine Or.inr ⟨v, Nat.lt_succ_of_lt hv, ?_, hres, fun k hk hkr => ?_⟩
        · have hsent : v ≠ UINT32_MAX := by omega
          rw [hstep, hsome, if_neg]
          exact fun h => hbetter ⟨h.1, h.2.resolve_left hsent⟩
        · rcases Nat.lt_succ_iff_lt_or_eq.1 hk with hlt | rfl
          · exact hmax k hlt hkr
          · exact Nat.le_of_not_lt fun h => hbetter ⟨hkr, h⟩

variable {len : List ℕ} {budget c pos : ℕ} {rest : List ℕ} {C : Finset ℕ} {s : Sim}

/-- Clearing one resident flag. -/
theorem SimInv.clear (h : SimInv len pos rest C s) {f : ℕ} (hf : f ∈ C)
    (hlen : lenOf len f < 2 ^ 64) :
    SimInv len pos rest (C.erase f)
      { s with resident := update s.resident f false,
               residentBytes := (s.residentBytes + 2 ^ 64 - lenOf len f) % 2 ^ 64 } where
  resident x := by
    by_cases hx : x = f
    · subst hx; simp
    · simp [h.resident, hx]
  inTable x hx := h.inTable x (Finset.mem_of_mem_erase hx)
  bytes := by
    have hw := weight_erase_add (w := lenOf len) hf
    have hb := h.bytes
    simp only
    omega
  missed := h.missed
  next x hx := h.next x (Finset.mem_of_mem_erase hx)

/-- The eviction loop makes furthest evictions until the guard fails. -/
theorem evictLoop_spec (budget c : ℕ) (hn : len.length ≤ UINT32_MAX) (hlens : ∀ l ∈ len, l < 2 ^ 64)
    (hpos : pos + rest.length ≤ UINT64_MAX) (fuel : ℕ) (h : SimInv len pos rest C s) :
    ∃ D, Evicts len budget c rest C D ∧ SimInv len pos rest D (evictLoop len budget c fuel s) ∧
      (evictLoop len budget c fuel s).missedBytes = s.missedBytes ∧ D ⊆ C ∧
      (C.card < fuel → (weight (lenOf len) D + lenOf len c) % 2 ^ 64 ≤ budget ∨ D = ∅) := by
  induction fuel generalizing C s with
  | zero => exact ⟨C, Evicts.refl, h, rfl, subset_rfl, fun hlt => absurd hlt (Nat.not_lt_zero _)⟩
  | succ fuel ih =>
    have hguard : (s.residentBytes + lenOf len c) % 2 ^ 64 =
        (weight (lenOf len) C + lenOf len c) % 2 ^ 64 := by
      rw [h.bytes, Nat.mod_add_mod]
    rw [evictLoop, hguard]
    by_cases hover : (weight (lenOf len) C + lenOf len c) % 2 ^ 64 > budget
    · rw [if_pos hover]
      rcases furthestResident_spec s hn with ⟨hnone, hall⟩ | ⟨v, hv, hsome, hres, hmax⟩
      · -- nothing resident: the `break`
        have hC : C = ∅ := by
          refine Finset.eq_empty_of_forall_notMem fun x hx => ?_
          have := (h.resident x).2 hx
          rw [hall x (h.inTable x hx)] at this
          cases this
        have hsent : (furthestResident len.length s).1 = UINT32_MAX := by rw [hnone]
        dsimp only
        rw [if_pos hsent]
        exact ⟨C, Evicts.refl, h, rfl, subset_rfl, fun _ => Or.inr hC⟩
      · have hvC : v ∈ C := (h.resident v).1 hres
        have hlen : lenOf len v < 2 ^ 64 := by
          rw [lenOf, List.getD_eq_getElem _ _ hv]
          exact hlens _ (List.getElem_mem hv)
        have hfar : ∀ e ∈ C, rest.idxOf e ≤ rest.idxOf v := by
          intro e he
          have hle := hmax e (h.inTable e he) ((h.resident e).2 he)
          rw [h.next e he, h.next v hvC] at hle
          exact idxOf_le_of_nextUse_le hpos hle
        obtain ⟨D, hev, hinv, hmiss, hsub, hdone⟩ := ih (h.clear hvC hlen)
        have hne : v ≠ UINT32_MAX := by omega
        simp only [hsome, if_neg hne]
        refine ⟨D, Evicts.evict hover hvC hfar hev, hinv, hmiss,
          hsub.trans (Finset.erase_subset _ _), fun hlt => hdone ?_⟩
        have := Finset.card_pos.2 ⟨v, hvC⟩
        rw [Finset.card_erase_of_mem hvC]
        omega
    · rw [if_neg hover]
      exact ⟨C, Evicts.refl, h, rfl, subset_rfl, fun _ => Or.inl (Nat.le_of_not_lt hover)⟩

/-! ## One reference -/

/-- The counters at a miss of `c`, before any eviction. -/
def countMiss (len : List ℕ) (s : Sim) (c : ℕ) : Sim :=
  { s with misses := s.misses + 1, missedBytes := (s.missedBytes + lenOf len c) % 2 ^ 64 }

theorem SimInv.countMiss (h : SimInv len pos (c :: rest) C s) (hc : c ∉ C) :
    SimInv len (pos + 1) rest C (countMiss len s c) where
  resident := h.resident
  inTable := h.inTable
  bytes := h.bytes
  missed := Nat.mod_lt _ (by norm_num)
  next x hx := by
    have hxc : x ≠ c := fun he => hc (he ▸ hx)
    show s.curNextuse x = _
    rw [h.next x hx, nextUse_cons_ne hxc]

theorem step_hit (hc : s.resident c = true) (next : ℕ) :
    step len budget s c next = { s with curNextuse := update s.curNextuse c next } := by
  rw [step, if_pos hc]

theorem step_load (hc : s.resident c = false) (hfit : lenOf len c ≤ budget) (next : ℕ) :
    step len budget s c next =
      let t := evictLoop len budget c (len.length + 1) (countMiss len s c)
      { t with resident := update t.resident c true,
               residentBytes := (t.residentBytes + lenOf len c) % 2 ^ 64,
               curNextuse := update t.curNextuse c next } := by
  rw [step, if_neg (by rw [hc]; simp), if_neg (Nat.not_lt.2 hfit)]
  rfl

/-- The reference is passed and the next use of its chunk noted. -/
theorem SimInv.note {next : ℕ} (h : SimInv len pos (c :: rest) C s)
    (hnext : next = nextUse UINT64_MAX c (pos + 1) rest) :
    SimInv len (pos + 1) rest C { s with curNextuse := update s.curNextuse c next } where
  resident := h.resident
  inTable := h.inTable
  bytes := h.bytes
  missed := h.missed
  next x hx := by
    by_cases hxc : x = c
    · subst hxc
      simp only [update_self, hnext]
    · simp only [update_of_ne hxc]
      rw [h.next x hx, nextUse_cons_ne hxc]

/-- Chunk `c` comes in after its evictions. -/
theorem SimInv.enter {next : ℕ} (h : SimInv len pos rest C s) (hc : c < len.length) (hcC : c ∉ C)
    (hnext : next = nextUse UINT64_MAX c pos rest) :
    SimInv len pos rest (insert c C)
      { s with resident := update s.resident c true,
               residentBytes := (s.residentBytes + lenOf len c) % 2 ^ 64,
               curNextuse := update s.curNextuse c next } where
  resident x := by
    by_cases hxc : x = c
    · subst hxc
      simp
    · simp only [update_of_ne hxc, Finset.mem_insert, or_iff_right hxc]
      exact h.resident x
  inTable x hx := by
    rcases Finset.mem_insert.1 hx with rfl | hx
    · exact hc
    · exact h.inTable x hx
  bytes := by simp only [h.bytes, weight_insert hcC, Nat.mod_add_mod, Nat.add_comm]
  missed := h.missed
  next x hx := by
    by_cases hxc : x = c
    · subst hxc
      simp only [update_self, hnext]
    · simp only [update_of_ne hxc]
      exact h.next x ((Finset.mem_insert.1 hx).resolve_left hxc)

/-- One iteration is a hit, or a miss with its evictions. -/
theorem step_spec (hn : len.length ≤ UINT32_MAX) (hlens : ∀ l ∈ len, l < 2 ^ 64)
    (hpos : pos + (c :: rest).length ≤ UINT64_MAX) (hc : c < len.length)
    (hfit : lenOf len c ≤ budget) (h : SimInv len pos (c :: rest) C s) :
    ∃ C' m, SimInv len (pos + 1) rest C'
        (step len budget s c (nextUse UINT64_MAX c (pos + 1) rest)) ∧
      (step len budget s c (nextUse UINT64_MAX c (pos + 1) rest)).missedBytes =
        (s.missedBytes + m) % 2 ^ 64 ∧
      ∀ k, ByteRun len budget C' rest k → ByteRun len budget C (c :: rest) (m + k) := by
  by_cases hcC : c ∈ C
  · -- hit
    rw [step_hit ((h.resident c).2 hcC)]
    refine ⟨C, 0, h.note rfl, (Nat.mod_eq_of_lt h.missed).symm, fun k hk => ?_⟩
    rw [Nat.zero_add]
    exact ByteRun.hit hcC hk
  · -- evictions, then the load
    have hres : s.resident c = false := Bool.eq_false_iff.2 fun hr => hcC ((h.resident c).1 hr)
    rw [step_load hres hfit]
    obtain ⟨D, hev, hinv, hmiss, hsub, -⟩ := evictLoop_spec budget c hn hlens
      (by simp only [List.length_cons] at hpos; omega) (len.length + 1) (h.countMiss hcC)
    have hcD : c ∉ D := fun hh => hcC (hsub hh)
    exact ⟨insert c D, lenOf len c, hinv.enter hc hcD rfl, hmiss,
      fun k hk => ByteRun.miss hcC hev hk⟩

/-- The main loop from any position is a `ByteRun`. -/
theorem foldl_step_byteRun (hn : len.length ≤ UINT32_MAX) (hlens : ∀ l ∈ len, l < 2 ^ 64)
    (hrest : ∀ c ∈ rest, c < len.length ∧ lenOf len c ≤ budget)
    (hpos : pos + rest.length ≤ UINT64_MAX) (h : SimInv len pos rest C s) :
    ∃ m, ByteRun len budget C rest m ∧
      ((rest.zip (nextUses pos rest)).foldl (fun s p => step len budget s p.1 p.2) s).missedBytes =
        (s.missedBytes + m) % 2 ^ 64 := by
  induction rest generalizing pos C s with
  | nil => exact ⟨0, ByteRun.nil, (Nat.mod_eq_of_lt h.missed).symm⟩
  | cons c rest ih =>
    obtain ⟨hc, hfit⟩ := hrest c List.mem_cons_self
    obtain ⟨C', m, hinv, hmiss, hlift⟩ := step_spec hn hlens hpos hc hfit h
    obtain ⟨k, hk, hmiss'⟩ := ih (fun x hx => hrest x (List.mem_cons_of_mem c hx))
      (by simp only [List.length_cons] at hpos; omega) hinv
    refine ⟨m + k, hlift k hk, ?_⟩
    rw [nextUses, List.zip_cons_cons, List.foldl_cons, hmiss', hmiss, Nat.mod_add_mod,
      Nat.add_assoc]

/-! ## When the greedy run is a lower bound -/

/-- With equal lengths an eviction only happens while the budget's slots are full,
also when the byte counter wrapped. -/
theorem Evicts.drops {L : ℕ} (hL : 0 < L) (hbudget : budget < 2 ^ 64) {D : Finset ℕ}
    (h : Evicts len budget c rest C D) (hC : ∀ x ∈ C, lenOf len x = L) (hc : lenOf len c = L) :
    Drops (budget / L) rest C D := by
  induction h with
  | refl => exact Drops.refl
  | @evict C D f hover hf hmax _ ih =>
    refine Drops.evict ?_ hf hmax (ih fun x hx => hC x (Finset.mem_of_mem_erase hx))
    by_contra hlt
    have hslots : (C.card + 1) * L ≤ budget := (Nat.le_div_iff_mul_le hL).1 (by omega)
    rw [weight_const hC, hc, ← Nat.succ_mul, Nat.mod_eq_of_lt (hslots.trans_lt hbudget)] at hover
    exact absurd hslots (Nat.not_le.2 hover)

theorem Evicts.subset {D : Finset ℕ} (h : Evicts len budget c rest C D) : D ⊆ C := by
  induction h with
  | refl => exact subset_rfl
  | evict _ _ _ _ ih => exact ih.trans (Finset.erase_subset _ _)

theorem ByteRun.greedy {L m : ℕ} (hL : 0 < L) (hLb : L ≤ budget) (hbudget : budget < 2 ^ 64)
    (h : ByteRun len budget C rest m) (hC : ∀ x ∈ C, lenOf len x = L)
    (hrest : ∀ x ∈ rest, lenOf len x = L) :
    ∃ k, m = k * L ∧ Paging.Greedy (budget / L) C rest k := by
  induction h with
  | nil => exact ⟨0, by simp, Paging.Greedy.nil⟩
  | hit hc _ ih =>
    obtain ⟨k, hk, hg⟩ := ih hC fun x hx => hrest x (List.mem_cons_of_mem _ hx)
    exact ⟨k, hk, Paging.Greedy.hit hc hg⟩
  | @miss C D c rest m hc hev _ ih =>
    have hcL : lenOf len c = L := hrest c List.mem_cons_self
    have hD : ∀ x ∈ insert c D, lenOf len x = L := by
      intro x hx
      rcases Finset.mem_insert.1 hx with rfl | hx
      · exact hcL
      · exact hC x (hev.subset hx)
    obtain ⟨k, hk, hg⟩ := ih hD fun x hx => hrest x (List.mem_cons_of_mem _ hx)
    refine ⟨k + 1, ?_, Paging.Greedy.miss hc ?_ (hev.drops hL hbudget hC hcL) hg⟩
    · rw [hk, hcL, Nat.succ_mul, Nat.add_comm]
    · exact (Nat.one_le_div_iff hL).2 hLb

/-- With a budget that holds all chunks nothing is evicted: each is loaded once. -/
theorem ByteRun.compulsory {m : ℕ} (hbudget : budget < 2 ^ 64)
    (h : ByteRun len budget C rest m)
    (hall : weight (lenOf len) (C ∪ rest.toFinset) ≤ budget) :
    m = weight (lenOf len) (rest.toFinset \ C) := by
  induction h with
  | nil => simp
  | @hit C c rest m hc _ ih =>
    have hunion : C ∪ (c :: rest).toFinset = C ∪ rest.toFinset := by
      rw [List.toFinset_cons, Finset.union_insert,
        Finset.insert_eq_of_mem (Finset.mem_union_left _ hc)]
    rw [ih (hunion ▸ hall), List.toFinset_cons, Finset.insert_sdiff_of_mem _ hc]
  | @miss C D c rest m hc hev _ ih =>
    have hcons : C ∪ (c :: rest).toFinset = insert c C ∪ rest.toFinset := by
      rw [List.toFinset_cons, Finset.union_insert, Finset.insert_union]
    rw [hcons] at hall
    have hD : D = C := by
      cases hev with
      | refl => rfl
      | evict hover _ _ _ =>
        have hle : weight (lenOf len) C + lenOf len c ≤ budget := by
          rw [Nat.add_comm, ← weight_insert hc]
          exact (weight_mono Finset.subset_union_left).trans hall
        rw [Nat.mod_eq_of_lt (hle.trans_lt hbudget)] at hover
        omega
    rw [hD] at ih
    have hset : (c :: rest).toFinset \ C = insert c (rest.toFinset \ insert c C) := by
      ext x
      simp only [List.toFinset_cons, Finset.mem_sdiff, Finset.mem_insert]
      by_cases hx : x = c
      · subst hx; simp [hc]
      · simp [hx]
    rw [ih hall, hset, weight_insert (by simp)]

/-- The tool's total is a lower bound for every demand-paging schedule when the
chunks of the pass have one length, or the budget holds all of them at once. -/
theorem wp2Opt_lower_bound (len : List ℕ) (budget passes : ℕ) (pass : List ℕ)
    (hn : len.length < 2 ^ 32) (hlens : ∀ l ∈ len, l < 2 ^ 64) (hbudget : budget < 2 ^ 64)
    (htotal : pass.length * passes < 2 ^ 64) (hpass : pass ≠ []) (hpasses : passes ≠ 0)
    (hids : ∀ c ∈ pass, c < len.length)
    (hfit : ∀ c ∈ pass, 0 < lenOf len c ∧ lenOf len c ≤ budget)
    (hcase : (∃ L, ∀ c ∈ pass, lenOf len c = L) ∨ weight (lenOf len) pass.toFinset ≤ budget) :
    ∃ r, wp2Opt len budget passes pass = some r ∧
      ∀ m, Demand (lenOf len) budget ∅ (List.replicate passes pass).flatten m →
        r.optMissedBytes ≤ m := by
  have hmem : ∀ c ∈ (List.replicate passes pass).flatten, c ∈ pass := by
    intro c hc
    obtain ⟨l, hl, hcl⟩ := List.mem_flatten.1 hc
    rwa [(List.mem_replicate.1 hl).2] at hcl
  have hlenref : (List.replicate passes pass).flatten.length ≤ UINT64_MAX := by
    rw [List.length_flatten, List.map_replicate, List.sum_replicate, smul_eq_mul, Nat.mul_comm]
    exact Nat.le_sub_one_of_lt htotal
  obtain ⟨c₀, hc₀⟩ := List.exists_mem_of_ne_nil pass hpass
  have hn0 : len.length ≠ 0 := Nat.ne_of_gt (Nat.zero_lt_of_lt (hids c₀ hc₀))
  have hin : (pass.any fun c => decide (len.length ≤ c)) = false := by simpa using hids
  obtain ⟨k, hrun, hk⟩ := foldl_step_byteRun (Nat.le_sub_one_of_lt hn) hlens
    (fun c hc => ⟨hids c (hmem c hc), (hfit c (hmem c hc)).2⟩)
    (by simpa using hlenref) (simInit_inv len (List.replicate passes pass).flatten)
  unfold wp2Opt
  rw [if_neg (by simp [hn0, hpasses, hpass]), hin, reference_eq htotal]
  refine ⟨_, rfl, fun m hm => ?_⟩
  dsimp only
  rw [nextUseTable_eq, hk]
  refine (Nat.mod_le _ _).trans ((Nat.zero_add k).trans_le ?_)
  have hs := hm.serves (by simp)
  rcases hcase with ⟨L, hL⟩ | hall
  · -- one length: the slot argument
    have hL0 : 0 < L := hL c₀ hc₀ ▸ (hfit c₀ hc₀).1
    have hLref : ∀ x ∈ (List.replicate passes pass).flatten, lenOf len x = L :=
      fun x hx => hL x (hmem x hx)
    obtain ⟨a, rfl, ha⟩ := hrun.greedy hL0 (hL c₀ hc₀ ▸ (hfit c₀ hc₀).2) hbudget (by simp) hLref
    obtain ⟨b, rfl, hb⟩ := hs.to_slots hL0 (by simp) hLref
    exact Nat.mul_le_mul_right L (greedy_le ha hb)
  · -- everything fits: only compulsory misses
    rw [hrun.compulsory hbudget]
    · exact hs.compulsory
    · refine (weight_mono fun x hx => ?_).trans hall
      simpa using hmem x (by simpa using hx)

theorem wp2Opt_lower_bound_uniform :
    ∃ r, wp2Opt [3, 3, 3] 6 2 [0, 2, 1] = some r ∧
      ∀ m, Demand (lenOf [3, 3, 3]) 6 ∅ (List.replicate 2 [0, 2, 1]).flatten m →
        r.optMissedBytes ≤ m :=
  wp2Opt_lower_bound [3, 3, 3] 6 2 [0, 2, 1] (by decide) (by decide) (by decide) (by decide)
    (by decide) (by decide) (by decide) (by decide) (Or.inl ⟨3, by decide⟩)

/-- With unequal lengths the rule is only an approximation: on the lengths 1, 1, 3
and a budget of 4 it fetches 8 bytes where 7 suffice. -/
theorem wp2Opt_not_lower_bound :
    ¬ ∀ (len : List ℕ) (budget passes : ℕ) (pass : List ℕ), (∀ l ∈ len, 0 < l ∧ l < 2 ^ 64) →
      (∀ c ∈ pass, c < len.length ∧ lenOf len c ≤ budget) →
      ∀ r, wp2Opt len budget passes pass = some r →
        ∀ m, Demand (lenOf len) budget ∅ (List.replicate passes pass).flatten m →
          r.optMissedBytes ≤ m := by
  intro h
  have hrun : ∃ r, wp2Opt [1, 1, 3] 4 2 [0, 2, 1] = some r ∧ r.optMissedBytes = 8 :=
    ⟨_, rfl, by decide +kernel⟩
  obtain ⟨r, hr, h8⟩ := hrun
  have hsched : Demand (lenOf [1, 1, 3]) 4 ∅ [0, 2, 1, 0, 2, 1] (1 + (3 + (1 + (1 + (1 + 0))))) :=
    Demand.miss (D := {0}) (by decide) (by decide) (by decide) (by decide) <|
    Demand.miss (D := {0, 2}) (by decide) (by decide) (by decide) (by decide) <|
    Demand.miss (D := {2, 1}) (by decide) (by decide) (by decide) (by decide) <|
    Demand.miss (D := {2, 0}) (by decide) (by decide) (by decide) (by decide) <|
    Demand.hit (by decide) <|
    Demand.miss (D := {2, 1}) (by decide) (by decide) (by decide) (by decide) Demand.nil
  have h7 := h [1, 1, 3] 4 2 [0, 2, 1] (by decide) (by decide) r hr _ hsched
  omega

end Residctl.Wp2Opt
