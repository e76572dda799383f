import Residctl.Lib.Orbit
import Residctl.Policy

/-!
# The learned chain

The walk of `lo_learned_compute_dist` numbers the chunks of the successor chain from 1 on, and
`dist` doubles as its visited marker. It ends at an unknown successor or at the first chunk that
repeats, whatever the chain closes on, so that the hop limit cuts nothing off. A chunk
`UINT32_MAX` hops away is taken for one that is never reached (`learned_exact_iff`).
-/

namespace Residctl

open Function Orbit

variable {n : ℕ} {st : LoLearned n} {c i v node next : Fin n} {k d : ℕ} {dist : Fin n → ℕ}

/-- The hops from the last fetched chunk to the next fetch of `c`. -/
noncomputable def LoLearned.hops (st : LoLearned n) (c : Fin n) : ℕ∞ :=
  hitTime st.successor st.lastFetched c

/-- The walk counts hops, and the victim is as many hops away as any other. -/
structure LearnedExact (st : LoLearned n) : Prop where
  known : ∀ c, loLearnedComputeDist st c ≠ CHUNK_NONE →
    IsLeast (hits st.successor st.lastFetched c) (loLearnedComputeDist st c)
  unknown : ∀ c, loLearnedComputeDist st c = CHUNK_NONE ↔
    ∀ k, k ∉ hits st.successor st.lastFetched c
  victim : ∀ chunks v, loLearnedSelectVictim st chunks = some v →
    (chunks v).Evictable ∧ ∀ i, (chunks i).Evictable → st.hops i ≤ st.hops v
  noVictim : ∀ chunks, loLearnedSelectVictim st chunks = none ↔ ∀ i, ¬ (chunks i).Evictable

/-! ## The walk -/

/-- `dist` holds the first hits before step `d`. -/
structure Numbered (st : LoLearned n) (d : ℕ) (dist : Fin n → ℕ) : Prop where
  hit : ∀ x k, IsLeast (hits st.successor st.lastFetched x) k → k < d → dist x = k
  other : ∀ x, (∀ k, IsLeast (hits st.successor st.lastFetched x) k → d ≤ k) →
    dist x = CHUNK_NONE

/-- When the chain has closed the numbers are final. -/
theorem Numbered.of_closed (h : Numbered st d dist)
    (hclosed : ∀ x k, IsLeast (hits st.successor st.lastFetched x) k → k < d) {m : ℕ} (hm : d ≤ m) :
    Numbered st m dist where
  hit x k hk _ := h.hit x k hk (hclosed x k hk)
  other x hx := h.other x fun k hk => hm.trans (hx k hk)

/-- A numbered chunk has been passed. -/
theorem Numbered.passed (h : Numbered st d dist) (hc : dist c ≠ CHUNK_NONE) :
    ∃ k < d, IsLeast (hits st.successor st.lastFetched c) k := by
  by_contra hnot
  push Not at hnot
  exact hc (h.other c fun k hk => Nat.le_of_not_lt fun hlt => hnot k hlt hk)

/-- One hop to a chunk without a number. -/
theorem Numbered.step (h : Numbered st d dist)
    (hnext : IsLeast (hits st.successor st.lastFetched next) d) :
    Numbered st (d + 1) (update dist next d) where
  hit x k hk hkd := by
    rcases Nat.lt_succ_iff_lt_or_eq.1 hkd with hlt | rfl
    · have hne : x ≠ next := by
        rintro rfl
        exact absurd (hk.unique hnext) (Nat.ne_of_lt hlt)
      rw [update_of_ne hne]
      exact h.hit x k hk hlt
    · rw [eq_of_isLeast hk hnext, update_self]
  other x hx := by
    have hne : x ≠ next := by
      rintro rfl
      exact absurd (hx d hnext) (by omega)
    rw [update_of_ne hne]
    exact h.other x fun k hk => (Nat.le_succ d).trans (hx k hk)

theorem loLearnedWalk_numbered {hops : ℕ} (hn : n ≤ CHUNK_NONE) (hhops : d + 1 + hops = n + 1)
    (hnode : follow st.successor st.lastFetched d = some node) (h : Numbered st (d + 1) dist) :
    Numbered st (n + 1) (loLearnedWalk st hops node (d + 1) dist) := by
  induction hops generalizing d node dist with
  | zero => exact hhops ▸ h
  | succ hops ih =>
    have hfollow : follow st.successor st.lastFetched (d + 1) = st.successor node := by
      rw [follow, hnode]
      rfl
    cases hnext : st.successor node with
    -- the chain ends here: nothing is hit from now on
    | none =>
      simp only [loLearnedWalk, hnext]
      refine h.of_closed (fun x k hk => ?_) (by omega)
      by_contra hle
      have hend := follow_eq_none (hfollow.trans hnext) (Nat.le_of_not_lt hle)
      simp [hk.1.2] at hend
    | some next =>
      have hat : follow st.successor st.lastFetched (d + 1) = some next := hfollow.trans hnext
      by_cases hseen : dist next ≠ CHUNK_NONE
      · -- the chain comes back to a chunk that it has passed
        simp only [loLearnedWalk, hnext, if_pos hseen]
        obtain ⟨j, hj, hfirst⟩ := h.passed hseen
        exact h.of_closed (fun x k hk =>
          lt_of_repeats hk hfirst.1.1 hj (hfirst.1.2.trans hat.symm)) (by omega)
      · -- an unmarked chunk is hit for the first time
        simp only [loLearnedWalk, hnext, if_neg hseen]
        obtain ⟨j, hj, hfirst⟩ := exists_isLeast (f := st.successor) ⟨Nat.succ_pos d, hat⟩
        have hlast : j = d + 1 := by
          refine hj.antisymm (Nat.le_of_not_lt fun hlt => hseen ?_)
          rw [h.hit next j hfirst hlt]
          omega
        exact ih (by omega) hat (h.step (hlast ▸ hfirst))

theorem loLearnedComputeDist_numbered (hn : n ≤ CHUNK_NONE) (st : LoLearned n) :
    Numbered st (n + 1) (loLearnedComputeDist st) := by
  cases hlast : st.lastFetched with
  | none =>
    have hclosed : ∀ x k, ¬ IsLeast (hits st.successor st.lastFetched x) k := by
      intro x k hk
      rw [hlast, hits_none] at hk
      exact hk.1
    simp only [loLearnedComputeDist, hlast]
    exact ⟨fun x k hk => absurd hk (hclosed x k), fun _ _ => rfl⟩
  | some node =>
    simp only [loLearnedComputeDist, hlast]
    refine loLearnedWalk_numbered (d := 0) hn (by omega) hlast
      ⟨fun x k hk hk1 => absurd hk.1.1 (by omega), fun _ _ => rfl⟩

theorem loLearnedComputeDist_of_isLeast (hn : n ≤ CHUNK_NONE)
    (hk : IsLeast (hits st.successor st.lastFetched c) k) : loLearnedComputeDist st c = k := by
  have hcard := le_card hk
  rw [Fintype.card_fin] at hcard
  exact (loLearnedComputeDist_numbered hn st).hit c k hk (Nat.lt_succ_of_le hcard)

theorem loLearnedComputeDist_of_unreached (hn : n ≤ CHUNK_NONE)
    (hc : ∀ k, k ∉ hits st.successor st.lastFetched c) :
    loLearnedComputeDist st c = CHUNK_NONE :=
  (loLearnedComputeDist_numbered hn st).other c fun k hk => absurd hk.1 (hc k)

/-- A number that reads as unknown is the number of all chunks, and the chain passes all. -/
theorem reaches_all_of_isLeast (hn : n ≤ CHUNK_NONE)
    (hk : IsLeast (hits st.successor st.lastFetched c) CHUNK_NONE) :
    n = CHUNK_NONE ∧ ∀ i, (hits st.successor st.lastFetched i).Nonempty := by
  have hcard := le_card hk
  rw [Fintype.card_fin] at hcard
  have hall : n = CHUNK_NONE := hn.antisymm hcard
  have hcount : Fintype.card (Fin n) = CHUNK_NONE := (Fintype.card_fin n).trans hall
  refine ⟨hall, (forall_hits_iff ?_).2 ⟨c, ?_⟩⟩
  · exact Fintype.card_pos_iff.2 ⟨c⟩
  · rwa [hcount]

/-! ## Victims -/

/-- The walk orders the chunks by hops. -/
theorem LoLearned.hops_le (hn : n ≤ CHUNK_NONE)
    (h : loLearnedComputeDist st i ≤ loLearnedComputeDist st v) : st.hops i ≤ st.hops v := by
  rcases (hits st.successor st.lastFetched v).eq_empty_or_nonempty with hv | ⟨m, hm⟩
  · rw [LoLearned.hops, LoLearned.hops, hitTime_eq_top hv]
    exact le_top
  · obtain ⟨k, -, hk⟩ := exists_isLeast hm
    rw [loLearnedComputeDist_of_isLeast hn hk] at h
    have hreached : (hits st.successor st.lastFetched i).Nonempty := by
      by_contra hi
      rw [Set.not_nonempty_iff_eq_empty, Set.eq_empty_iff_forall_notMem] at hi
      rw [loLearnedComputeDist_of_unreached hn hi] at h
      have hcard := le_card hk
      rw [Fintype.card_fin] at hcard
      obtain rfl : CHUNK_NONE = k := h.antisymm (hcard.trans hn)
      obtain ⟨j, hj⟩ := (reaches_all_of_isLeast hn hk).2 i
      exact hi j hj
    obtain ⟨j, -, hj⟩ := exists_isLeast hreached.some_mem
    rw [loLearnedComputeDist_of_isLeast hn hj] at h
    rw [LoLearned.hops, LoLearned.hops, hitTime_eq hj, hitTime_eq hk]
    exact Nat.cast_le.2 h

theorem loLearnedSelectVictim_farthest (hn : n ≤ CHUNK_NONE) {chunks : Chunks n}
    (h : loLearnedSelectVictim st chunks = some v) :
    (chunks v).Evictable ∧ ∀ i, (chunks i).Evictable → st.hops i ≤ st.hops v := by
  obtain ⟨hv, hfar⟩ := scanVictim_some (loLearnedComputeDist st) (fun _ _ => Iff.rfl) h
  exact ⟨hv, fun i hi => LoLearned.hops_le hn (hfar i hi)⟩

theorem loLearnedSelectVictim_none_iff {chunks : Chunks n} :
    loLearnedSelectVictim st chunks = none ↔ ∀ i, ¬ (chunks i).Evictable := by
  constructor
  · exact fun h i => scanVictim_none (loLearnedComputeDist st) (fun _ _ => Iff.rfl) h i
  · intro h
    rw [← Option.not_isSome_iff_eq_none, Option.isSome_iff_exists]
    rintro ⟨v, hv⟩
    exact h v (scanVictim_some (loLearnedComputeDist st) (fun _ _ => Iff.rfl) hv).1

/-! ## When the numbers are exact -/

theorem learnedExact_iff (hn : n ≤ CHUNK_NONE) (st : LoLearned n) :
    LearnedExact st ↔ n < CHUNK_NONE ∨ ∃ c, ∀ k, k ∉ hits st.successor st.lastFetched c := by
  constructor
  · intro h
    by_contra hnot
    obtain ⟨hfull, hall⟩ := not_or.1 hnot
    push Not at hall
    have hcard : Fintype.card (Fin n) = CHUNK_NONE := by
      rw [Fintype.card_fin]
      omega
    -- the last chunk of the turn gets the number of the unknown ones
    obtain ⟨c, hc⟩ := (forall_hits_iff (by rw [hcard]; decide)).1 hall
    rw [hcard] at hc
    obtain ⟨k, hk⟩ := hall c
    exact (h.unknown c).1 (loLearnedComputeDist_of_isLeast hn hc) k hk
  · intro h
    -- no chunk is as far away as the mark of an unknown one
    have hnear : ∀ c, ¬ IsLeast (hits st.successor st.lastFetched c) CHUNK_NONE := by
      intro c hc
      obtain ⟨hfull, hall⟩ := reaches_all_of_isLeast hn hc
      rcases h with hlt | ⟨i, hi⟩
      · omega
      · obtain ⟨k, hk⟩ := hall i
        exact hi k hk
    have hreached : ∀ c k, k ∈ hits st.successor st.lastFetched c →
        IsLeast (hits st.successor st.lastFetched c) (loLearnedComputeDist st c) := by
      intro c k hk
      obtain ⟨j, -, hj⟩ := exists_isLeast hk
      rwa [loLearnedComputeDist_of_isLeast hn hj]
    refine ⟨fun c hc => ?_, fun c => ⟨fun hc k hk => ?_, loLearnedComputeDist_of_unreached hn⟩,
      fun chunks v hv => loLearnedSelectVictim_farthest hn hv,
      fun chunks => loLearnedSelectVictim_none_iff⟩
    · by_contra hnot
      exact hc (loLearnedComputeDist_of_unreached hn fun k hk => hnot (hreached c k hk))
    · exact hnear c (hc ▸ hreached c k hk)

/-- After every sequence of faults. -/
theorem learned_exact_iff (hn : n ≤ CHUNK_NONE) (faults : List (Fin n)) :
    LearnedExact (faults.foldl loLearnedOnFault (LoLearned.init n)) ↔
      n < CHUNK_NONE ∨ ∃ c, ∀ k, k ∉ hits
        (faults.foldl loLearnedOnFault (LoLearned.init n)).successor
        (faults.foldl loLearnedOnFault (LoLearned.init n)).lastFetched c :=
  learnedExact_iff hn _

/-- Three chunks in turn, and chunk 1 again: the chain closes on a cycle that leaves out chunk 0. -/
theorem learned_exact_iff_rho :
    3 ≤ CHUNK_NONE ∧
      LearnedExact (([0, 1, 2, 1] : List (Fin 3)).foldl loLearnedOnFault (LoLearned.init 3)) :=
  have hn : 3 ≤ CHUNK_NONE := by decide
  ⟨hn, (learned_exact_iff hn [0, 1, 2, 1]).2 (Or.inl (by decide))⟩

/-! ## One chain through all chunks -/

section

variable [NeZero n]

/-- The chunks in turn, starting over at the end. -/
theorem foldl_turn {m : ℕ} (hm : m ≤ n) :
    (((List.range (m + 1)).map (Fin.ofNat n)).foldl loLearnedOnFault (.init n)).lastFetched =
        some (Fin.ofNat n m) ∧
      ∀ i < m, (((List.range (m + 1)).map (Fin.ofNat n)).foldl loLearnedOnFault
        (.init n)).successor (Fin.ofNat n i) = some (Fin.ofNat n (i + 1)) := by
  induction m with
  | zero => exact ⟨rfl, fun i hi => absurd hi (Nat.not_lt_zero i)⟩
  | succ m ih =>
    obtain ⟨hlast, hsucc⟩ := ih (Nat.le_of_succ_le hm)
    rw [List.range_succ, List.map_append, List.map_singleton, List.foldl_concat]
    refine ⟨rfl, fun i hi => ?_⟩
    simp only [loLearnedOnFault, hlast]
    -- the fault sets the successor of the chunk before it only
    rcases Nat.lt_succ_iff_lt_or_eq.1 hi with hlt | rfl
    · have hne : Fin.ofNat n i ≠ Fin.ofNat n m := by
        intro heq
        have hval := congrArg Fin.val heq
        simp only [Fin.val_ofNat, Nat.mod_eq_of_lt (show i < n by omega),
          Nat.mod_eq_of_lt (show m < n by omega)] at hval
        omega
      rw [update_of_ne hne]
      exact hsucc i hlt
    · exact update_self ..

theorem foldl_turn_reaches (c : Fin n) :
    (hits (((List.range (n + 1)).map (Fin.ofNat n)).foldl loLearnedOnFault (.init n)).successor
      (((List.range (n + 1)).map (Fin.ofNat n)).foldl loLearnedOnFault (.init n)).lastFetched
      c).Nonempty := by
  obtain ⟨hlast, hsucc⟩ := foldl_turn (n := n) le_rfl
  have hfollow : ∀ k ≤ n, follow
      (((List.range (n + 1)).map (Fin.ofNat n)).foldl loLearnedOnFault (.init n)).successor
      (((List.range (n + 1)).map (Fin.ofNat n)).foldl loLearnedOnFault (.init n)).lastFetched k =
        some (Fin.ofNat n k) := by
    intro k hk
    induction k with
    | zero =>
      rw [follow, hlast]
      exact congrArg some (Fin.ext (by simp))
    | succ k ih =>
      rw [follow, ih (Nat.le_of_succ_le hk)]
      exact hsucc k hk
  -- chunk 0 is the one at the end of the turn
  rcases Nat.eq_zero_or_pos c.1 with hzero | hpos
  · refine ⟨n, Nat.pos_of_neZero n, (hfollow n le_rfl).trans (congrArg some (Fin.ext ?_))⟩
    simp [hzero]
  · exact ⟨c.1, hpos, (hfollow c.1 c.2.le).trans (congrArg some (Fin.ext (by simp)))⟩

end

instance : NeZero CHUNK_NONE := ⟨by decide⟩

/-- All the chunks that there can be, in turn and from chunk 0 on again: chunk 0 is reached, as
far away as an unknown one. -/
theorem learned_farthest_unknown :
    ¬ LearnedExact (((List.range (CHUNK_NONE + 1)).map (Fin.ofNat CHUNK_NONE)).foldl
      loLearnedOnFault (LoLearned.init CHUNK_NONE)) := by
  intro h
  rcases (learnedExact_iff le_rfl _).1 h with hlt | ⟨c, hc⟩
  · exact absurd hlt (lt_irrefl _)
  · obtain ⟨k, hk⟩ := foldl_turn_reaches c
    exact hc k hk

end Residctl
