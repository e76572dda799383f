import Residctl.Belady
import Residctl.Wp2Opt

/-!
# The byte-budget tool against the slot solver and its own checks

As long as the 64-bit counters do not overflow, the main loop of `wp2_opt.c` keeps exact
accounts for chunks of any lengths, also when some never fit. With one length for all chunks
its run is at once a demand-paging schedule and a greedy run over `budget / L` slots, so that
it misses exactly as often as `belady_simulate`.

The three checks at its end are then settled one by one. The compulsory floors always hold;
the equal-size check multiplies by `len[0]`, whether or not the sequence names chunk 0.
-/

namespace Residctl.Wp2Opt

open Function Paging

/-- The counters stay below `2 ^ 64`: `missed_bytes`, and with it everything that
`resident_bytes` is compared with. -/
def NoOverflow (len : List ℕ) (budget : ℕ) : Sim → List (ℕ × ℕ) → Prop
  | _, [] => True
  | s, p :: l => (s.resident p.1 = false → s.missedBytes + lenOf len p.1 < 2 ^ 64) ∧
      NoOverflow len budget (step len budget s p.1 p.2) l

instance NoOverflow.decidable (len : List ℕ) (budget : ℕ) (l : List (ℕ × ℕ)) :
    ∀ s, Decidable (NoOverflow len budget s l) := by
  induction l with
  | nil => exact fun _ => isTrue trivial
  | cons p l ih => exact fun s => @instDecidableAnd _ _ inferInstance (ih _)

/-- The references of the run with their next uses. -/
def schedule (passes : ℕ) (pass : List ℕ) : List (ℕ × ℕ) :=
  (reference pass passes).zip (nextUseTable (reference pass passes)).2

/-- How a reference to `c` turns the resident set `C` into another, with the misses and the
bytes it costs. -/
inductive Served (len : List ℕ) (budget c : ℕ) (rest : List ℕ) (C : Finset ℕ) :
    Finset ℕ → ℕ → ℕ → Prop
  | hit (hc : c ∈ C) : Served len budget c rest C C 0 0
  | tooBig (hc : c ∉ C) (hbig : budget < lenOf len c) : Served len budget c rest C C 1 (lenOf len c)
  | load {D} (hc : c ∉ C) (hfit : lenOf len c ≤ budget) (hevicts : Evicts len budget c rest C D)
      (hroom : weight (lenOf len) D + lenOf len c ≤ budget) :
      Served len budget c rest C (insert c D) 1 (lenOf len c)

/-- Runs without overflow, with their misses and missed bytes. -/
inductive Run (len : List ℕ) (budget : ℕ) : Finset ℕ → List ℕ → ℕ → ℕ → Prop
  | nil {C} : Run len budget C [] 0 0
  | cons {C C' c rest k b m n} (hserved : Served len budget c rest C C' k b)
      (hrest : Run len budget C' rest m n) : Run len budget C (c :: rest) (k + m) (b + n)

/-- The loop invariant without overflow. -/
structure ExactInv (len : List ℕ) (budget pos : ℕ) (rest : List ℕ) (C : Finset ℕ) (s : Sim) :
    Prop extends SimInv len pos rest C s where
  within : weight (lenOf len) C ≤ budget
  owed : weight (lenOf len) C ≤ s.missedBytes

variable {len : List ℕ} {budget c pos : ℕ} {rest : List ℕ} {C : Finset ℕ} {s : Sim}

theorem SimInv.exactBytes (h : SimInv len pos rest C s) (hw : weight (lenOf len) C < 2 ^ 64) :
    s.residentBytes = weight (lenOf len) C := by
  rw [h.bytes, Nat.mod_eq_of_lt hw]

theorem SimInv.card_le (h : SimInv len pos rest C s) : C.card ≤ len.length := by
  have hsub : C ⊆ Finset.range len.length := fun x hx => Finset.mem_range.2 (h.inTable x hx)
  simpa using Finset.card_le_card hsub

/-! ## The eviction loop -/

theorem evictLoop_misses (len : List ℕ) (budget c fuel : ℕ) (s : Sim) :
    (evictLoop len budget c fuel s).misses = s.misses := by
  induction fuel generalizing s with
  | zero => rfl
  | succ fuel ih =>
    rw [evictLoop]
    dsimp only
    split_ifs
    · rfl
    · rw [ih]
    · rfl

/-- Without overflow the loop makes the room it was started for. -/
theorem evictLoop_room (hn : len.length ≤ UINT32_MAX) (hlens : ∀ l ∈ len, l < 2 ^ 64)
    (hpos : pos + rest.length ≤ UINT64_MAX) (h : SimInv len pos rest C s)
    (hfit : lenOf len c ≤ budget) (hsum : weight (lenOf len) C + lenOf len c < 2 ^ 64) :
    ∃ D, Evicts len budget c rest C D ∧ D ⊆ C ∧ weight (lenOf len) D + lenOf len c ≤ budget ∧
      SimInv len pos rest D (evictLoop len budget c (len.length + 1) s) ∧
      (evictLoop len budget c (len.length + 1) s).missedBytes = s.missedBytes := by
  obtain ⟨D, hev, hinv, hbytes, hsub, hdone⟩ :=
    evictLoop_spec budget c hn hlens hpos (len.length + 1) h
  refine ⟨D, hev, hsub, ?_, hinv, hbytes⟩
  rcases hdone (Nat.lt_succ_of_le h.card_le) with hroom | rfl
  · have hle := weight_mono (w := lenOf len) hsub
    rwa [Nat.mod_eq_of_lt (by omega)] at hroom
  · rw [weight_empty]
    omega

/-! ## One reference -/

theorem step_tooBig (hc : s.resident c = false) (hbig : budget < lenOf len c) (next : ℕ) :
    step len budget s c next =
      { countMiss len s c with curNextuse := update s.curNextuse c next } := by
  rw [step, if_neg (by rw [hc]; simp), if_pos hbig]
  rfl

/-- One iteration serves its reference, and counts what that costs. -/
theorem step_served (hn : len.length ≤ UINT32_MAX) (hlens : ∀ l ∈ len, l < 2 ^ 64)
    (hpos : pos + (c :: rest).length ≤ UINT64_MAX) (hc : c < len.length)
    (h : ExactInv len budget pos (c :: rest) C s)
    (hno : s.resident c = false → s.missedBytes + lenOf len c < 2 ^ 64) :
    ∃ C' k b, Served len budget c rest C C' k b ∧
      ExactInv len budget (pos + 1) rest C'
        (step len budget s c (nextUse UINT64_MAX c (pos + 1) rest)) ∧
      (step len budget s c (nextUse UINT64_MAX c (pos + 1) rest)).misses = s.misses + k ∧
      (step len budget s c (nextUse UINT64_MAX c (pos + 1) rest)).missedBytes =
        s.missedBytes + b := by
  have hwithin := h.within
  have howed := h.owed
  by_cases hcC : c ∈ C
  · -- hit
    rw [step_hit ((h.resident c).2 hcC)]
    exact ⟨C, 0, 0, .hit hcC, ⟨h.toSimInv.note rfl, hwithin, howed⟩, rfl, rfl⟩
  have hres : s.resident c = false := Bool.eq_false_iff.2 fun hr => hcC ((h.resident c).1 hr)
  have hsum := hno hres
  have hbytes : (countMiss len s c).missedBytes = s.missedBytes + lenOf len c :=
    Nat.mod_eq_of_lt hsum
  by_cases hbig : budget < lenOf len c
  · -- a chunk that never fits
    rw [step_tooBig hres hbig]
    refine ⟨C, 1, lenOf len c, .tooBig hcC hbig, ⟨⟨h.resident, h.inTable, h.bytes,
      Nat.mod_lt _ (by norm_num), (h.toSimInv.note rfl).next⟩, hwithin, ?_⟩, rfl, hbytes⟩
    exact (howed.trans (Nat.le_add_right _ _)).trans_eq hbytes.symm
  · -- evictions, then the load
    have hfit := Nat.le_of_not_lt hbig
    rw [step_load hres hfit]
    obtain ⟨D, hev, hsub, hroom, hinv, hmiss⟩ := evictLoop_room hn hlens
      (by simp only [List.length_cons] at hpos; omega) (h.toSimInv.countMiss hcC) hfit (by omega)
    have hcD : c ∉ D := fun hh => hcC (hsub hh)
    have hle := weight_mono (w := lenOf len) hsub
    have hw := weight_insert (w := lenOf len) hcD
    rw [hbytes] at hmiss
    refine ⟨insert c D, 1, lenOf len c, .load hcC hfit hev hroom,
      ⟨hinv.enter hc hcD rfl, by omega, ?_⟩, evictLoop_misses _ _ _ _ _, hmiss⟩
    show _ ≤ (evictLoop len budget c (len.length + 1) (countMiss len s c)).missedBytes
    omega

/-- The main loop from any position. -/
theorem foldl_step_run (hn : len.length ≤ UINT32_MAX) (hlens : ∀ l ∈ len, l < 2 ^ 64)
    (hrest : ∀ c ∈ rest, c < len.length) (hpos : pos + rest.length ≤ UINT64_MAX)
    (h : ExactInv len budget pos rest C s)
    (hno : NoOverflow len budget s (rest.zip (nextUses pos rest))) :
    ∃ m n, Run len budget C rest m n ∧
      ((rest.zip (nextUses pos rest)).foldl (fun s p => step len budget s p.1 p.2) s).misses =
        s.misses + m ∧
      ((rest.zip (nextUses pos rest)).foldl (fun s p => step len budget s p.1 p.2) s).missedBytes =
        s.missedBytes + n := by
  induction rest generalizing pos C s with
  | nil => exact ⟨0, 0, Run.nil, rfl, rfl⟩
  | cons c rest ih =>
    rw [nextUses, List.zip_cons_cons] at hno
    obtain ⟨hone, hno⟩ := hno
    obtain ⟨C', k, b, hserved, hinv, hk, hb⟩ :=
      step_served hn hlens hpos (hrest c List.mem_cons_self) h hone
    obtain ⟨m, n, hrun, hm, hnn⟩ := ih (fun x hx => hrest x (List.mem_cons_of_mem c hx))
      (by simp only [List.length_cons] at hpos; omega) hinv hno
    refine ⟨k + m, b + n, Run.cons hserved hrun, ?_, ?_⟩
    · rw [nextUses, List.zip_cons_cons, List.foldl_cons, hm, hk, Nat.add_assoc]
    · rw [nextUses, List.zip_cons_cons, List.foldl_cons, hnn, hb, Nat.add_assoc]

/-! ## Runs as schedules -/

theorem Served.subset {C' : Finset ℕ} {k b : ℕ} (h : Served len budget c rest C C' k b) :
    C' ⊆ insert c C := by
  cases h with
  | hit hc => exact Finset.subset_insert c C
  | tooBig hc hbig => exact Finset.subset_insert c C
  | load hc hfit hevicts hroom => exact Finset.insert_subset_insert c hevicts.subset

theorem Served.demand {C' : Finset ℕ} {k b n : ℕ} (h : Served len budget c rest C C' k b)
    (hC : weight (lenOf len) C ≤ budget) (hrest : Demand (lenOf len) budget C' rest n) :
    weight (lenOf len) C' ≤ budget → Demand (lenOf len) budget C (c :: rest) (b + n) := by
  intro hC'
  cases h with
  | hit hc => exact (Nat.zero_add n).symm ▸ Demand.hit hc hrest
  | tooBig hc hbig =>
    exact Demand.miss hc (Finset.subset_insert c C) (fun hle => absurd hbig (Nat.not_lt.2 hle)) hC
      hrest
  | load hc hfit hevicts hroom =>
    exact Demand.miss hc (Finset.insert_subset_insert c hevicts.subset)
      (fun _ => Finset.mem_insert_self _ _) hC' hrest

theorem Served.within {C' : Finset ℕ} {k b : ℕ} (h : Served len budget c rest C C' k b)
    (hC : weight (lenOf len) C ≤ budget) : weight (lenOf len) C' ≤ budget := by
  cases h with
  | hit hc => exact hC
  | tooBig hc hbig => exact hC
  | load hc hfit hevicts hroom =>
    rw [weight_insert fun hD => hc (hevicts.subset hD)]
    omega

/-- A run is a demand-paging schedule that fetches its missed bytes. -/
theorem Run.demand {m n : ℕ} (h : Run len budget C rest m n) (hC : weight (lenOf len) C ≤ budget) :
    Demand (lenOf len) budget C rest n := by
  induction h with
  | nil => exact Demand.nil
  | cons hserved _ ih => exact hserved.demand hC (ih (hserved.within hC)) (hserved.within hC)

/-- Every chunk that is referenced and not resident is missed. -/
theorem Run.distinct_le {m n : ℕ} (h : Run len budget C rest m n) :
    (rest.toFinset \ C).card ≤ m := by
  induction h with
  | nil => simp
  | @cons C C' c rest k b m n hserved _ ih =>
    have hsub : (c :: rest).toFinset \ C ⊆ (rest.toFinset \ C') ∪ (if c ∈ C then ∅ else {c}) := by
      intro x hx
      rw [List.toFinset_cons, Finset.mem_sdiff, Finset.mem_insert] at hx
      rw [Finset.mem_union, Finset.mem_sdiff]
      by_cases hxc : x = c
      · subst hxc
        rw [if_neg hx.2]
        exact Or.inr (Finset.mem_singleton_self x)
      · refine Or.inl ⟨hx.1.resolve_left hxc, fun hC' => ?_⟩
        exact (Finset.mem_insert.1 (hserved.subset hC')).elim hxc hx.2
    have hone : (if c ∈ C then (∅ : Finset ℕ) else {c}).card ≤ k := by
      cases hserved with
      | hit hc => simp [hc]
      | tooBig hc hbig => simp [hc]
      | load hc hfit hevicts hroom => simp [hc]
    calc ((c :: rest).toFinset \ C).card
        ≤ _ := Finset.card_le_card hsub
      _ ≤ (rest.toFinset \ C').card + (if c ∈ C then (∅ : Finset ℕ) else {c}).card :=
          Finset.card_union_le _ _
      _ ≤ k + m := by omega

/-! ## One length for all chunks -/

section

variable {L m n : ℕ}

theorem Served.cost {C' : Finset ℕ} {k b : ℕ} (h : Served len budget c rest C C' k b)
    (hc : lenOf len c = L) : b = k * L := by
  cases h with
  | hit _ => exact (Nat.zero_mul L).symm
  | tooBig _ _ => rw [hc, Nat.one_mul]
  | load _ _ _ _ => rw [hc, Nat.one_mul]

theorem Run.bytes (h : Run len budget C rest m n) (hrest : ∀ c ∈ rest, lenOf len c = L) :
    n = m * L := by
  induction h with
  | nil => exact (Nat.zero_mul L).symm
  | cons hserved _ ih =>
    rw [hserved.cost (hrest _ List.mem_cons_self),
      ih fun x hx => hrest x (List.mem_cons_of_mem _ hx), Nat.add_mul]

/-- The run as a greedy one over `budget / L` slots, none when nothing fits. -/
theorem Run.greedy (hL : 0 < L) (hbudget : budget < 2 ^ 64) (h : Run len budget C rest m n)
    (hC : ∀ x ∈ C, lenOf len x = L) (hrest : ∀ c ∈ rest, lenOf len c = L) :
    Paging.Greedy (budget / L) C rest m := by
  induction h with
  | nil => exact Paging.Greedy.nil
  | @cons C C' c rest k b m n hserved _ ih =>
    have hcL := hrest c List.mem_cons_self
    have hC' : ∀ x ∈ C', lenOf len x = L := by
      intro x hx
      rcases Finset.mem_insert.1 (hserved.subset hx) with rfl | hx
      · exact hcL
      · exact hC x hx
    have hrun := ih hC' fun x hx => hrest x (List.mem_cons_of_mem c hx)
    cases hserved with
    | hit hc =>
      rw [Nat.zero_add]
      exact Paging.Greedy.hit hc hrun
    | tooBig hc hbig =>
      rw [Nat.add_comm]
      exact Paging.Greedy.bypass hc (Nat.div_eq_of_lt (hcL ▸ hbig)) hrun
    | load hc hfit hevicts hroom =>
      rw [Nat.add_comm]
      exact Paging.Greedy.miss hc ((Nat.one_le_div_iff hL).2 (hcL ▸ hfit))
        (hevicts.drops hL hbudget hC hcL) hrun

/-- The run misses as often as a furthest-in-future run over `budget / L` slots. -/
theorem Run.misses_eq (hL : 0 < L) (hbudget : budget < 2 ^ 64) (h : Run len budget ∅ rest m n)
    (hrest : ∀ c ∈ rest, lenOf len c = L) {k : ℕ} (hk : Furthest (budget / L) ∅ rest k) :
    m = k := by
  have hgreedy := h.greedy hL hbudget (by simp) hrest
  obtain ⟨j, hj, hslots⟩ := ((h.demand (by simp)).serves (by simp)).to_slots hL (by simp) hrest
  have hjm : j = m := by
    rw [h.bytes hrest] at hj
    exact (Nat.eq_of_mul_eq_mul_right hL hj).symm
  rw [hjm] at hslots
  have hle := greedy_le hgreedy ((hk.demand (by simp)).serves (by simp))
  exact le_antisymm hle (greedy_le (hk.greedy (by simp)) hslots)

end

/-! ## The tool and the slot solver -/

/-- The main loop over a prefix of the schedule. -/
def runLoop (len : List ℕ) (budget : ℕ) (refs : List (ℕ × ℕ)) : Sim :=
  refs.foldl (fun s p => step len budget s p.1 p.2) simInit

/-- What the tool prints for an input it accepts. -/
theorem wp2Opt_accepted (budget : ℕ) {passes : ℕ} {pass : List ℕ} (hpass : pass ≠ [])
    (hpasses : passes ≠ 0) (hids : ∀ c ∈ pass, c < len.length) :
    ∃ r, wp2Opt len budget passes pass = some r ∧
      r.optMisses = (runLoop len budget (schedule passes pass)).misses ∧
      r.optMissedBytes = (runLoop len budget (schedule passes pass)).missedBytes ∧
      r.below = (r.optMisses < (seen pass).length ||
        r.optMissedBytes < ((seen pass).map (lenOf len)).sum % 2 ^ 64 ||
        (allEqual len pass && r.optMissedBytes != r.optMisses * lenOf len 0 % 2 ^ 64)) := by
  obtain ⟨c, hc⟩ := List.exists_mem_of_ne_nil pass hpass
  have hn0 : len.length ≠ 0 := Nat.ne_of_gt (Nat.zero_lt_of_lt (hids c hc))
  have hin : (pass.any fun c => decide (len.length ≤ c)) = false := by simpa using hids
  rw [wp2Opt, if_neg (by simp [hn0, hpasses, hpass]), hin]
  exact ⟨_, rfl, rfl, rfl, rfl⟩

section

variable {passes : ℕ} {pass : List ℕ}

theorem mem_reference (htotal : pass.length * passes < 2 ^ 64) (hpasses : passes ≠ 0) (c : ℕ) :
    c ∈ reference pass passes ↔ c ∈ pass := by
  rw [reference_eq htotal, List.mem_flatten]
  constructor
  · rintro ⟨l, hl, hc⟩
    rwa [(List.mem_replicate.1 hl).2] at hc
  · intro hc
    exact ⟨pass, List.mem_replicate.2 ⟨hpasses, rfl⟩, hc⟩

theorem length_reference_le (pass : List ℕ) (passes : ℕ) :
    (reference pass passes).length ≤ UINT64_MAX := by
  rw [reference, List.length_map, List.length_range]
  exact Nat.le_sub_one_of_lt (Nat.mod_lt _ (by norm_num))

/-- The whole loop as a run from the empty set. -/
theorem runLoop_run (hn : len.length < 2 ^ 32) (hlens : ∀ l ∈ len, l < 2 ^ 64)
    (htotal : pass.length * passes < 2 ^ 64) (hpasses : passes ≠ 0)
    (hids : ∀ c ∈ pass, c < len.length)
    (hno : NoOverflow len budget simInit (schedule passes pass)) :
    Run len budget ∅ (reference pass passes) (runLoop len budget (schedule passes pass)).misses
      (runLoop len budget (schedule passes pass)).missedBytes := by
  rw [schedule, nextUseTable_eq] at hno ⊢
  have hinit : ExactInv len budget 0 (reference pass passes) ∅ simInit :=
    ⟨simInit_inv len _, by simp, by simp⟩
  obtain ⟨m, n, hrun, hm, hn'⟩ := foldl_step_run (Nat.le_sub_one_of_lt hn) hlens
    (fun c hc => hids c ((mem_reference htotal hpasses c).1 hc))
    (by simpa using length_reference_le pass passes) hinit hno
  rw [runLoop, hm, hn']
  simpa [simInit] using hrun

/-- With one length `L` for all chunks the byte-budget tool and the slot solver with
`budget / L` slots miss equally often. -/
theorem wp2Opt_eq_belady {L : ℕ} (hL : 0 < L) (hlen : ∀ l ∈ len, l = L) (hL64 : L < 2 ^ 64)
    (hn : len.length < 2 ^ 32) (hbudget : budget < 2 ^ 64) (hslots : budget / L < 2 ^ 32)
    (htotal : pass.length * passes < 2 ^ 64) (hpass : pass ≠ []) (hpasses : passes ≠ 0)
    (hids : ∀ c ∈ pass, c < len.length)
    (hno : NoOverflow len budget simInit (schedule passes pass)) :
    ∃ r b, wp2Opt len budget passes pass = some r ∧
      Belady.beladySimulate (List.replicate passes pass).flatten (Belady.slots budget L) = some b ∧
      r.optMisses = b.misses ∧ r.optMissedBytes = r.optMisses * L := by
  have hlens : ∀ l ∈ len, l < 2 ^ 64 := fun l hl => hlen l hl ▸ hL64
  have hLref : ∀ c ∈ reference pass passes, lenOf len c = L := by
    intro c hc
    have hlt := hids c ((mem_reference htotal hpasses c).1 hc)
    rw [lenOf, List.getD_eq_getElem _ _ hlt]
    exact hlen _ (List.getElem_mem hlt)
  have hrun := runLoop_run hn hlens htotal hpasses hids hno
  obtain ⟨r, hr, hm, hb, -⟩ := wp2Opt_accepted budget hpass hpasses hids
  have hsmall : ∀ c ∈ reference pass passes, c < 2 ^ 32 - 1 := by
    intro c hc
    have hlt := hids c ((mem_reference htotal hpasses c).1 hc)
    omega
  obtain ⟨b, hbel, hfur⟩ := Belady.beladySimulate_furthest (budget / L) hsmall
    ((length_reference_le pass passes).trans_lt (by norm_num [UINT64_MAX]))
  rw [← Belady.slots_of_lt hslots] at hbel
  refine ⟨r, b, hr, reference_eq htotal ▸ hbel, ?_, ?_⟩
  · rw [hm]
    exact hrun.misses_eq hL hbudget hLref hfur
  · rw [hb, hm]
    exact hrun.bytes hLref

theorem wp2Opt_eq_belady_two :
    ∃ r b, wp2Opt [5, 5, 5] 11 2 [2, 1, 0] = some r ∧
      Belady.beladySimulate (List.replicate 2 [2, 1, 0]).flatten (Belady.slots 11 5) = some b ∧
      r.optMisses = b.misses ∧ r.optMissedBytes = r.optMisses * 5 :=
  wp2Opt_eq_belady (by decide) (by decide) (by decide) (by decide) (by decide) (by decide)
    (by decide) (by decide) (by decide) (by decide) (by decide +kernel)

/-- The budget counts bytes in 64 bits, the slots are counted in 32: with `2 ^ 32` chunks of one
byte the slot solver has none. -/
theorem wp2Opt_capacity_cut :
    ¬ ∀ (len : List ℕ) (budget passes L : ℕ) (pass : List ℕ), 0 < L → (∀ l ∈ len, l = L) →
      budget < 2 ^ 64 → (∀ c ∈ pass, c < len.length) →
      NoOverflow len budget simInit (schedule passes pass) →
      ∀ r b, wp2Opt len budget passes pass = some r →
        Belady.beladySimulate (List.replicate passes pass).flatten (Belady.slots budget L) = some b →
        r.optMisses = b.misses := by
  intro hall
  have hrun : (wp2Opt [1] 4294967296 2 [0]).map (fun r => r.optMisses) = some 1 := by
    decide +kernel
  have hslots : Belady.beladySimulate (List.replicate 2 [0]).flatten (Belady.slots 4294967296 1) =
      some ⟨2, 2⟩ := by
    decide +kernel
  obtain ⟨r, hr, hone⟩ := Option.map_eq_some_iff.1 hrun
  have htwo := hall [1] 4294967296 2 1 [0] (by decide) (by decide) (by decide) (by decide)
    (by decide +kernel) r ⟨2, 2⟩ hr hslots
  rw [hone] at htwo
  cases htwo

/-! ## The sanity floors and the cross-check -/

theorem seen_spec (pass : List ℕ) : (seen pass).Nodup ∧ ∀ c, c ∈ seen pass ↔ c ∈ pass := by
  suffices h : ∀ (l acc : List ℕ), acc.Nodup →
      (l.foldl (fun seen c => if c ∈ seen then seen else seen ++ [c]) acc).Nodup ∧
      ∀ c, c ∈ l.foldl (fun seen c => if c ∈ seen then seen else seen ++ [c]) acc ↔
        c ∈ acc ∨ c ∈ l by
    obtain ⟨hnd, hmem⟩ := h pass [] List.nodup_nil
    exact ⟨hnd, fun c => (hmem c).trans (by simp)⟩
  intro l
  induction l with
  | nil => exact fun acc hacc => ⟨hacc, by simp⟩
  | cons x l ih =>
    intro acc hacc
    rw [List.foldl_cons]
    by_cases hx : x ∈ acc
    · rw [if_pos hx]
      obtain ⟨hnd, hmem⟩ := ih acc hacc
      refine ⟨hnd, fun c => (hmem c).trans ?_⟩
      rw [List.mem_cons]
      constructor
      · exact Or.imp_right Or.inr
      · rintro (hc | rfl | hc)
        · exact Or.inl hc
        · exact Or.inl hx
        · exact Or.inr hc
    · rw [if_neg hx]
      obtain ⟨hnd, hmem⟩ := ih (acc ++ [x])
        (List.nodup_append'.2 ⟨hacc, List.nodup_singleton x, by simpa using hx⟩)
      refine ⟨hnd, fun c => (hmem c).trans ?_⟩
      rw [List.mem_append, List.mem_singleton, List.mem_cons, or_assoc]

theorem seen_toFinset (pass : List ℕ) : (seen pass).toFinset = pass.toFinset := by
  ext c
  rw [List.mem_toFinset, List.mem_toFinset, (seen_spec pass).2]

theorem length_seen (pass : List ℕ) : (seen pass).length = pass.toFinset.card := by
  rw [← seen_toFinset, List.toFinset_card_of_nodup (seen_spec pass).1]

theorem sum_seen (len pass : List ℕ) :
    ((seen pass).map (lenOf len)).sum = weight (lenOf len) pass.toFinset := by
  rw [← seen_toFinset, weight, List.sum_toFinset _ (seen_spec pass).1]

/-- A scan of `0 .. n-1` that compares the items of `S` with the first of them. -/
theorem foldl_compare {S : ℕ → Prop} {w : ℕ → ℕ} {g : Option ℕ × Bool → ℕ → Option ℕ × Bool}
    (hskip : ∀ st c, ¬ S c → g st c = st)
    (hfirst : ∀ ok c, S c → g (none, ok) c = (some (w c), ok))
    (hnext : ∀ f ok c, S c → g (some f, ok) c = (some f, ok && w c == f)) (n : ℕ) :
    ((List.range n).foldl g (none, true) = (none, true) ∧ ∀ c < n, ¬ S c) ∨
      ∃ f ok, (List.range n).foldl g (none, true) = (some f, ok) ∧ (∃ c < n, S c ∧ w c = f) ∧
        (ok = true ↔ ∀ c < n, S c → w c = f) := by
  induction n with
  | zero => exact Or.inl ⟨rfl, by simp⟩
  | succ n ih =>
    rw [List.range_succ, List.foldl_append, List.foldl_cons, List.foldl_nil]
    by_cases hn : S n
    · rcases ih with ⟨heq, hnone⟩ | ⟨f, ok, heq, ⟨c, hc, hSc, hwc⟩, hok⟩
      · -- the first item
        refine Or.inr ⟨w n, true, by rw [heq, hfirst _ _ hn], ⟨n, Nat.lt_succ_self n, hn, rfl⟩, ?_⟩
        refine iff_of_true rfl fun c hc hSc => ?_
        rcases Nat.lt_succ_iff_lt_or_eq.1 hc with hlt | rfl
        · exact absurd hSc (hnone c hlt)
        · rfl
      · refine Or.inr ⟨f, ok && w n == f, by rw [heq, hnext _ _ _ hn],
          ⟨c, Nat.lt_succ_of_lt hc, hSc, hwc⟩, ?_⟩
        rw [Bool.and_eq_true, hok, beq_iff_eq]
        constructor
        · rintro ⟨hall, hwn⟩ d hd hSd
          rcases Nat.lt_succ_iff_lt_or_eq.1 hd with hlt | rfl
          · exact hall d hlt hSd
          · exact hwn
        · intro hall
          exact ⟨fun d hd => hall d (Nat.lt_succ_of_lt hd), hall n (Nat.lt_succ_self n) hn⟩
    · -- not of the scan
      have hout : ∀ P : ℕ → Prop, (∀ c < n + 1, S c → P c) ↔ ∀ c < n, S c → P c := by
        intro P
        refine ⟨fun h c hc => h c (Nat.lt_succ_of_lt hc), fun h c hc hSc => ?_⟩
        rcases Nat.lt_succ_iff_lt_or_eq.1 hc with hlt | rfl
        · exact h c hlt hSc
        · exact absurd hSc hn
      rw [hskip _ _ hn]
      rcases ih with ⟨heq, hnone⟩ | ⟨f, ok, heq, ⟨c, hc, hSc, hwc⟩, hok⟩
      · exact Or.inl ⟨heq, (hout fun _ => False).2 hnone⟩
      · exact Or.inr ⟨f, ok, heq, ⟨c, Nat.lt_succ_of_lt hc, hSc, hwc⟩, by rw [hok, hout]⟩

theorem foldl_compare_iff {S : ℕ → Prop} {w : ℕ → ℕ}
    {g : Option ℕ × Bool → ℕ → Option ℕ × Bool} {n : ℕ} (hskip : ∀ st c, ¬ S c → g st c = st)
    (hfirst : ∀ ok c, S c → g (none, ok) c = (some (w c), ok))
    (hnext : ∀ f ok c, S c → g (some f, ok) c = (some f, ok && w c == f)) :
    ((List.range n).foldl g (none, true)).2 = true ↔
      ∀ c < n, S c → ∀ d < n, S d → w c = w d := by
  rcases foldl_compare hskip hfirst hnext n with ⟨heq, hnone⟩ | ⟨f, ok, heq, ⟨c, hc, hSc, hwc⟩, hok⟩
  · rw [heq]
    exact iff_of_true rfl fun c hc hSc => absurd hSc (hnone c hc)
  · rw [heq]
    refine hok.trans ⟨fun hall x hx hSx y hy hSy => ?_, fun hall x hx hSx => ?_⟩
    · rw [hall x hx hSx, hall y hy hSy]
    · rw [← hwc]
      exact hall x hx hSx c hc hSc

/-- `all_equal` says that the chunks of the pass have one length. -/
theorem allEqual_iff (hids : ∀ c ∈ pass, c < len.length) :
    allEqual len pass = true ↔ ∀ c ∈ pass, ∀ d ∈ pass, lenOf len c = lenOf len d := by
  have hmem := (seen_spec pass).2
  rw [allEqual]
  refine (@foldl_compare_iff (fun c => c ∈ seen pass) (lenOf len) _ len.length ?_ ?_ ?_).trans ?_
  · exact fun st c hc => if_neg hc
  · exact fun ok c hc => if_pos hc
  · exact fun f ok c hc => if_pos hc
  · constructor
    · intro h c hc d hd
      exact h c (hids c hc) ((hmem c).2 hc) d (hids d hd) ((hmem d).2 hd)
    · intro h c _ hc d _ hd
      exact h c ((hmem c).1 hc) d ((hmem d).1 hd)

/-- `resident_bytes` is the sum of the resident chunks' lengths. -/
def Accounted (len : List ℕ) (s : Sim) : Prop :=
  s.residentBytes = ∑ c ∈ (Finset.range len.length).filter (fun c => s.resident c = true), lenOf len c

/-- What the tool checks about itself, and what the checks are for. -/
structure SelfChecks (len : List ℕ) (budget passes : ℕ) (pass : List ℕ) : Prop where
  accounts : ∀ done left, schedule passes pass = done ++ left →
    Accounted len (runLoop len budget done) ∧ (runLoop len budget done).residentBytes ≤ budget
  /-- The eviction loop of a miss keeps the account and ends through its guard. -/
  loops : ∀ done p left, schedule passes pass = done ++ p :: left →
    (runLoop len budget done).resident p.1 = false → lenOf len p.1 ≤ budget →
      (∀ fuel, Accounted len
        (evictLoop len budget p.1 fuel (countMiss len (runLoop len budget done) p.1))) ∧
      (evictLoop len budget p.1 (len.length + 1)
        (countMiss len (runLoop len budget done) p.1)).residentBytes + lenOf len p.1 ≤ budget
  exit : ∃ r, wp2Opt len budget passes pass = some r ∧ r.below = false

theorem SimInv.accounted (h : SimInv len pos rest C s) (hw : weight (lenOf len) C < 2 ^ 64) :
    Accounted len s := by
  have hres : (Finset.range len.length).filter (fun c => s.resident c = true) = C := by
    ext x
    rw [Finset.mem_filter, Finset.mem_range, h.resident]
    exact ⟨fun hx => hx.2, fun hx => ⟨h.inTable x hx, hx⟩⟩
  rw [Accounted, hres, h.exactBytes hw, weight]

theorem ExactInv.small (h : ExactInv len budget pos rest C s) :
    weight (lenOf len) C < 2 ^ 64 := h.owed.trans_lt h.missed

/-- The invariant between any two references of the run. -/
theorem ExactInv.along (hn : len.length ≤ UINT32_MAX) (hlens : ∀ l ∈ len, l < 2 ^ 64)
    {done left : List (ℕ × ℕ)} (hrest : ∀ c ∈ rest, c < len.length)
    (hpos : pos + rest.length ≤ UINT64_MAX) (h : ExactInv len budget pos rest C s)
    (hcut : rest.zip (nextUses pos rest) = done ++ left)
    (hno : NoOverflow len budget s (done ++ left)) :
    ∃ pos' rest' C', left = rest'.zip (nextUses pos' rest') ∧ (∀ c ∈ rest', c < len.length) ∧
      pos' + rest'.length ≤ UINT64_MAX ∧
      ExactInv len budget pos' rest' C' (done.foldl (fun s p => step len budget s p.1 p.2) s) ∧
      NoOverflow len budget (done.foldl (fun s p => step len budget s p.1 p.2) s) left := by
  induction done generalizing pos rest C s with
  | nil => exact ⟨pos, rest, C, hcut.symm, hrest, hpos, h, hno⟩
  | cons p done ih =>
    cases rest with
    | nil => simp [nextUses] at hcut
    | cons c rest =>
      rw [nextUses, List.zip_cons_cons, List.cons_append] at hcut
      obtain ⟨rfl, htail⟩ := List.cons.inj hcut
      obtain ⟨hone, hno⟩ := hno
      obtain ⟨C', k, b, -, hinv, -⟩ := step_served hn hlens hpos (hrest c List.mem_cons_self) h hone
      exact ih (fun x hx => hrest x (List.mem_cons_of_mem c hx))
        (by simp only [List.length_cons] at hpos; omega) hinv htail hno

/-- The account holds along the whole run. -/
theorem runLoop_exact (hn : len.length < 2 ^ 32) (hlens : ∀ l ∈ len, l < 2 ^ 64)
    (htotal : pass.length * passes < 2 ^ 64) (hpasses : passes ≠ 0)
    (hids : ∀ c ∈ pass, c < len.length)
    (hno : NoOverflow len budget simInit (schedule passes pass)) {done left : List (ℕ × ℕ)}
    (hcut : schedule passes pass = done ++ left) :
    ∃ pos rest C, left = rest.zip (nextUses pos rest) ∧ (∀ c ∈ rest, c < len.length) ∧
      pos + rest.length ≤ UINT64_MAX ∧ ExactInv len budget pos rest C (runLoop len budget done) ∧
      NoOverflow len budget (runLoop len budget done) left := by
  have hinit : ExactInv len budget 0 (reference pass passes) ∅ simInit :=
    ⟨simInit_inv len _, by simp, by simp⟩
  rw [hcut] at hno
  rw [schedule, nextUseTable_eq] at hcut
  exact hinit.along (Nat.le_sub_one_of_lt hn) hlens
    (fun c hc => hids c ((mem_reference htotal hpasses c).1 hc))
    (by simpa using length_reference_le pass passes) hcut hno

/-- The two compulsory floors hold of every run. -/
theorem Run.floors {m n : ℕ} (h : Run len budget ∅ rest m n)
    (hset : rest.toFinset = pass.toFinset) :
    (seen pass).length ≤ m ∧ ((seen pass).map (lenOf len)).sum % 2 ^ 64 ≤ n := by
  have hdistinct := h.distinct_le
  have hbytes := ((h.demand (by simp)).serves (by simp)).compulsory
  rw [hset, Finset.sdiff_empty] at hdistinct hbytes
  rw [length_seen, sum_seen]
  exact ⟨hdistinct, (Nat.mod_le _ _).trans hbytes⟩

/-- A miss of a chunk that fits, in the middle of a run. -/
theorem ExactInv.loop (hn : len.length ≤ UINT32_MAX) (hlens : ∀ l ∈ len, l < 2 ^ 64)
    (hpos : pos + (c :: rest).length ≤ UINT64_MAX) (h : ExactInv len budget pos (c :: rest) C s)
    (hres : s.resident c = false) (hfit : lenOf len c ≤ budget)
    (hsum : s.missedBytes + lenOf len c < 2 ^ 64) :
    (∀ fuel, Accounted len (evictLoop len budget c fuel (countMiss len s c))) ∧
      (evictLoop len budget c (len.length + 1) (countMiss len s c)).residentBytes + lenOf len c ≤
        budget := by
  have hcC : c ∉ C := fun hc => by
    rw [(h.resident c).2 hc] at hres
    cases hres
  have hrest : pos + 1 + rest.length ≤ UINT64_MAX := by
    simp only [List.length_cons] at hpos
    omega
  have howed := h.owed
  have hinv := h.toSimInv.countMiss hcC
  have hsmall : ∀ D ⊆ C, weight (lenOf len) D < 2 ^ 64 := fun D hD =>
    (weight_mono hD).trans_lt h.small
  constructor
  · intro fuel
    obtain ⟨D, -, hinvD, -, hsub, -⟩ := evictLoop_spec budget c hn hlens hrest fuel hinv
    exact hinvD.accounted (hsmall D hsub)
  · obtain ⟨D, -, hsub, hroom, hinvD, -⟩ := evictLoop_room hn hlens hrest hinv hfit (by omega)
    rwa [hinvD.exactBytes (hsmall D hsub)]

/-- The exit status, once the floors are known to hold. -/
theorem Run.exit_iff {m n : ℕ} (h : Run len budget ∅ (reference pass passes) m n)
    (hset : (reference pass passes).toFinset = pass.toFinset) (hpass : pass ≠ [])
    (hids : ∀ c ∈ pass, c < len.length) (hcross : m * lenOf len 0 < 2 ^ 64) :
    (m < (seen pass).length || n < ((seen pass).map (lenOf len)).sum % 2 ^ 64 ||
        (allEqual len pass && n != m * lenOf len 0 % 2 ^ 64)) = false ↔
      (∃ c ∈ pass, ∃ d ∈ pass, lenOf len c ≠ lenOf len d) ∨
        ∀ c ∈ pass, lenOf len c = lenOf len 0 := by
  obtain ⟨hm, hn⟩ := h.floors hset
  have hall := @allEqual_iff len pass hids
  rw [Nat.mod_eq_of_lt hcross, decide_eq_false (Nat.not_lt.2 hm), decide_eq_false (Nat.not_lt.2 hn),
    Bool.false_or, Bool.false_or]
  by_cases hmix : ∃ c ∈ pass, ∃ d ∈ pass, lenOf len c ≠ lenOf len d
  · -- two lengths: nothing is compared
    obtain ⟨c, hc, d, hd, hne⟩ := id hmix
    have hoff : allEqual len pass = false :=
      Bool.eq_false_iff.2 fun heq => hne (hall.1 heq c hc d hd)
    rw [hoff]
    exact iff_of_true rfl (Or.inl hmix)
  · -- one length `L`: the run missed `m * L` bytes
    have hone : ∀ c ∈ pass, ∀ d ∈ pass, lenOf len c = lenOf len d := by
      intro c hc d hd
      by_contra hne
      exact hmix ⟨c, hc, d, hd, hne⟩
    obtain ⟨c, hc⟩ := List.exists_mem_of_ne_nil pass hpass
    have hbytes : n = m * lenOf len c := h.bytes fun d hd => by
      have hd' : d ∈ pass := by rwa [← List.mem_toFinset, ← hset, List.mem_toFinset]
      exact hone d hd' c hc
    have hpos : 0 < m := by
      refine Nat.lt_of_lt_of_le ?_ hm
      rw [length_seen]
      exact Finset.card_pos.2 ⟨c, List.mem_toFinset.2 hc⟩
    rw [hall.2 hone, Bool.true_and, bne_eq_false_iff_eq, hbytes, or_iff_right hmix,
      Nat.mul_right_inj hpos.ne']
    exact ⟨fun heq d hd => (hone d hd c hc).trans heq, fun heq => heq c hc⟩

/-- The self-checks pass exactly when the equal-size check has nothing to compare, or `len[0]`
is the length it compares with. -/
theorem selfChecks_iff (hn : len.length < 2 ^ 32) (hlens : ∀ l ∈ len, 0 < l ∧ l < 2 ^ 64)
    (htotal : pass.length * passes < 2 ^ 64) (hpass : pass ≠ []) (hpasses : passes ≠ 0)
    (hids : ∀ c ∈ pass, c < len.length)
    (hno : NoOverflow len budget simInit (schedule passes pass))
    (hcross : (runLoop len budget (schedule passes pass)).misses * lenOf len 0 < 2 ^ 64) :
    SelfChecks len budget passes pass ↔
      (∃ c ∈ pass, ∃ d ∈ pass, lenOf len c ≠ lenOf len d) ∨
        ∀ c ∈ pass, lenOf len c = lenOf len 0 := by
  have hlens' : ∀ l ∈ len, l < 2 ^ 64 := fun l hl => (hlens l hl).2
  have hn' : len.length ≤ UINT32_MAX := Nat.le_sub_one_of_lt hn
  have hset : (reference pass passes).toFinset = pass.toFinset := by
    ext c
    rw [List.mem_toFinset, List.mem_toFinset, mem_reference htotal hpasses]
  obtain ⟨r, hr, hm, hb, hbelow⟩ := wp2Opt_accepted budget hpass hpasses hids
  have hexit := (runLoop_run hn hlens' htotal hpasses hids hno).exit_iff hset hpass hids hcross
  rw [← hm, ← hb, ← hbelow] at hexit
  rw [← hexit]
  constructor
  · rintro ⟨-, -, r', hr', hzero⟩
    obtain rfl : r' = r := Option.some.inj (hr'.symm.trans hr)
    exact hzero
  · intro hzero
    refine ⟨fun done left hcut => ?_, fun done p left hcut hres hfit => ?_, r, hr, hzero⟩
    · obtain ⟨pos, rest, C, -, -, -, hinv, -⟩ :=
        runLoop_exact hn hlens' htotal hpasses hids hno hcut
      exact ⟨hinv.accounted hinv.small, (hinv.exactBytes hinv.small).trans_le hinv.within⟩
    · obtain ⟨pos, rest, C, hleft, -, hpos, hinv, hone, -⟩ :=
        runLoop_exact hn hlens' htotal hpasses hids hno hcut
      cases rest with
      | nil => simp [nextUses] at hleft
      | cons c rest =>
        rw [nextUses, List.zip_cons_cons] at hleft
        obtain ⟨rfl, -⟩ := List.cons.inj hleft
        exact hinv.loop hn' hlens' hpos hres hfit (hone hres)

theorem selfChecks_iff_mixed :
    SelfChecks [2, 1, 9] 3 2 [1, 0, 2] ↔
      (∃ c ∈ [1, 0, 2], ∃ d ∈ [1, 0, 2], lenOf [2, 1, 9] c ≠ lenOf [2, 1, 9] d) ∨
        ∀ c ∈ [1, 0, 2], lenOf [2, 1, 9] c = lenOf [2, 1, 9] 0 :=
  selfChecks_iff (by decide) (by decide) (by decide) (by decide) (by decide) (by decide)
    (by decide +kernel) (by decide +kernel)

/-- A short header chunk 0 that the sequence leaves out fails the equal-size check. -/
theorem selfChecks_header : NoOverflow [1, 2, 2] 4 simInit (schedule 1 [1, 2]) ∧
    ¬ SelfChecks [1, 2, 2] 4 1 [1, 2] := by
  refine ⟨by decide +kernel, ?_⟩
  rintro ⟨-, -, r, hr, hbelow⟩
  have hrun : ∃ r, wp2Opt [1, 2, 2] 4 1 [1, 2] = some r ∧ r.below = true :=
    ⟨_, rfl, by decide +kernel⟩
  obtain ⟨r', hr', hfail⟩ := hrun
  obtain rfl : r' = r := Option.some.inj (hr'.symm.trans hr)
  rw [hbelow] at hfail
  cases hfail

end

end Residctl.Wp2Opt
