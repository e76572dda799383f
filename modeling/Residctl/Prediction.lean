import Residctl.Declared
import Residctl.Pager

/-!
# What the declared policy predicts

`predict_next` of `layer_order_declared` looks up a table with one successor for each chunk,
that of its last occurrence in the declared pass; the position plays no part. The distance
looks at the position and at every occurrence. The two tell the same future when all
occurrences of a chunk have the same successor, and then `prefetch_pool_top_up` walks the
references to come, nearest first.
-/

namespace Residctl

open Cyclic Pager

/-- Reference `i` of a workload that repeats `seq`. -/
def refAt (seq : List ℕ) (i : ℕ) : ℕ := repeated seq CHUNK_NONE i

/-- `i` rounds of `predict_next`, each a chunk of the region, from chunk `x`. -/
def predictChain (st : LoDeclared) : ℕ → ℕ → Option ℕ
  | 0, x => some x
  | i + 1, x =>
    let p := loDeclaredPredictNext st x
    if p < 0 ∨ p.toNat ≥ st.nChunks then none else predictChain st i p.toNat

/-- All occurrences of a chunk have the same cyclic successor. -/
def SameSuccessor (seq : List ℕ) : Prop :=
  ∀ p < seq.length, ∀ q < seq.length, refAt seq p = refAt seq q →
    refAt seq (p + 1) = refAt seq (q + 1)

/-- What the prediction tells after `k + 1` signals, when the position is at reference `k`. -/
structure Foretells (g : LoSettings) (n : ℕ) (seq : List ℕ) (k : ℕ) : Prop where
  next : loDeclaredPredictNext (declaredAfter n seq (k + 1)) (refAt seq k) = refAt seq (k + 1)
  chain : ∀ i, predictChain (declaredAfter n seq (k + 1)) i (refAt seq k) =
    some (refAt seq (k + i))
  /-- A chunk that is not among the first `i` of the chain is further away than these. The
  chunk being consumed, and with the protection heuristic the one before it, are no
  candidates. -/
  nearest : ∀ i y, 1 ≤ i → y ≠ refAt seq k →
    (g.protectCurrent = true → y ≠ refAt seq (k + (seq.length - 1))) →
    (∀ j, 1 ≤ j → j ≤ i → y ≠ refAt seq (k + j)) →
      loDeclaredDist g (declaredAfter n seq (k + 1)) (refAt seq (k + i)) <
        loDeclaredDist g (declaredAfter n seq (k + 1)) y
  /-- The loop of the top-up goes from each chunk of the chain to the next, up to the chunk
  it started at. -/
  topUp : ∀ (cfg : Config n LoDeclared) (sh : Shared n LoDeclared) (j : Job n) (need i : ℕ)
    (cursor next : Fin n), cfg.policy = some (policyLayerOrderDeclared n g) →
    sh.region.policyState = declaredAfter n seq (k + 1) → cursor.1 = refAt seq (k + i) →
    next.1 = refAt seq (k + i + 1) →
      topPredict cfg sh j need i cursor =
        if next = j.target then .next sh (.job j .unpin)
        else .next sh (.job j (.topEnqueue need i next))

variable {g : LoSettings} {n k : ℕ} {seq : List ℕ}

/-! ## The successor table -/

@[simp] theorem consume_nextInSeq (st : LoDeclared) (k : ℕ) :
    (consume st k).nextInSeq = st.nextInSeq := by
  induction k with
  | zero => rfl
  | succ k ih => rw [consume, loDeclaredOnAccess_nextInSeq, ih]

@[simp] theorem consume_nChunks (st : LoDeclared) (k : ℕ) :
    (consume st k).nChunks = st.nChunks := by
  induction k with
  | zero => rfl
  | succ k ih => rw [consume, loDeclaredOnAccess_nChunks, ih]

theorem declaredAfter_nChunks : (declaredAfter n seq k).nChunks = n := consume_nChunks _ k

/-- The forward pass leaves the successor of the last occurrence. -/
theorem declaredAfter_nextInSeq {p : ℕ} (hp : p < seq.length) (hid : refAt seq p < n)
    (hlast : ∀ q < seq.length, p < q → refAt seq q ≠ refAt seq p) :
    (declaredAfter n seq k).nextInSeq (refAt seq p) = refAt seq (p + 1) := by
  have hfold : ∀ m, p < m → m ≤ seq.length →
      (List.range m).foldl (fun next q =>
        if repeated seq CHUNK_NONE q < n then
          Function.update next (repeated seq CHUNK_NONE q) (repeated seq CHUNK_NONE (q + 1))
        else next) (fun _ => CHUNK_NONE) (refAt seq p) = refAt seq (p + 1) := by
    intro m
    induction m with
    | zero => exact fun h => absurd h (Nat.not_lt_zero p)
    | succ m ih =>
      intro hpm hm
      rw [List.range_succ, List.foldl_append, List.foldl_cons, List.foldl_nil]
      rcases Nat.lt_succ_iff_lt_or_eq.1 hpm with hlt | rfl
      · -- a later position holds another chunk
        have hne : refAt seq p ≠ repeated seq CHUNK_NONE m := Ne.symm (hlast m hm hlt)
        rw [apply_ite (fun f : ℕ → ℕ => f (refAt seq p)), Function.update_of_ne hne,
          ih hlt (by omega), ite_self]
      · rw [if_pos (show repeated seq CHUNK_NONE p < n from hid)]
        exact Function.update_self _ _ _
  rw [declaredAfter, consume_nextInSeq]
  exact hfold seq.length hp le_rfl

/-- The prediction for a chunk of the sequence is the successor of its last occurrence, wherever
the position is. -/
theorem predictNext_last (hn : n ≤ 2 ^ 31) (hids : ∀ c ∈ seq, c < n) {p : ℕ}
    (hp : p < seq.length) (hlast : ∀ q < seq.length, p < q → refAt seq q ≠ refAt seq p) :
    loDeclaredPredictNext (declaredAfter n seq k) (refAt seq p) = refAt seq (p + 1) := by
  have hseq : seq ≠ [] := List.ne_nil_of_length_pos (Nat.zero_lt_of_lt hp)
  have hid : refAt seq p < n := hids _ (repeated_mem CHUNK_NONE hseq p)
  have hnext : refAt seq (p + 1) < n := hids _ (repeated_mem CHUNK_NONE hseq (p + 1))
  have hnone : refAt seq (p + 1) ≠ CHUNK_NONE := by
    rw [CHUNK_NONE]
    omega
  rw [loDeclaredPredictNext, declaredAfter_nChunks, declaredAfter_nextInSeq hp hid hlast,
    if_neg (Nat.not_le.2 hid), if_neg hnone, toInt32_of_lt (by omega)]

/-! ## Prediction and successor -/

theorem refAt_mod (seq : List ℕ) (i : ℕ) : refAt seq (i % seq.length) = refAt seq i :=
  repeated_mod seq CHUNK_NONE i

theorem refAt_mod_succ (seq : List ℕ) (i : ℕ) :
    refAt seq (i % seq.length + 1) = refAt seq (i + 1) :=
  repeated_mod_add seq CHUNK_NONE i 1

/-- Every chunk of the sequence has a last occurrence. -/
theorem exists_last (hseq : seq ≠ []) (i : ℕ) : ∃ p < seq.length, refAt seq p = refAt seq i ∧
    ∀ q < seq.length, p < q → refAt seq q ≠ refAt seq p := by
  have hlt := Nat.mod_lt i (List.length_pos_of_ne_nil hseq)
  obtain ⟨p, hp, hmax⟩ := ((Finset.range seq.length).filter
    fun q => refAt seq q = refAt seq i).exists_max_image id
      ⟨i % seq.length, Finset.mem_filter.2 ⟨Finset.mem_range.2 hlt, refAt_mod seq i⟩⟩
  obtain ⟨hps, hpi⟩ := Finset.mem_filter.1 hp
  refine ⟨p, Finset.mem_range.1 hps, hpi, fun q hq hpq heq => ?_⟩
  have hle := hmax q (Finset.mem_filter.2 ⟨Finset.mem_range.2 hq, heq.trans hpi⟩)
  exact absurd hpq (Nat.not_lt.2 hle)

/-- With one successor for each chunk the prediction is the next reference. -/
theorem SameSuccessor.next (h : SameSuccessor seq) (hn : n ≤ 2 ^ 31) (hseq : seq ≠ [])
    (hids : ∀ c ∈ seq, c < n) (i : ℕ) :
    loDeclaredPredictNext (declaredAfter n seq k) (refAt seq i) = refAt seq (i + 1) := by
  obtain ⟨p, hp, hpi, hlast⟩ := exists_last hseq i
  have hlt := Nat.mod_lt i (List.length_pos_of_ne_nil hseq)
  rw [← hpi, predictNext_last hn hids hp hlast,
    h p hp (i % seq.length) hlt (hpi.trans (refAt_mod seq i).symm), refAt_mod_succ]

/-- Conversely a prediction that is always right leaves a chunk one successor. -/
theorem SameSuccessor.of_next
    (h : ∀ k, loDeclaredPredictNext (declaredAfter n seq (k + 1)) (refAt seq k) = refAt seq (k + 1)) :
    SameSuccessor seq := by
  intro p _ q _ heq
  have htable : ∀ k x, loDeclaredPredictNext (declaredAfter n seq k) x =
      loDeclaredPredictNext (declaredAfter n seq 0) x := by
    intro k x
    rw [loDeclaredPredictNext, loDeclaredPredictNext, declaredAfter_nChunks, declaredAfter_nChunks,
      declaredAfter, declaredAfter, consume_nextInSeq, consume_nextInSeq]
  have hp := h p
  rw [htable, heq, ← htable (q + 1), h q] at hp
  exact (Nat.cast_injective hp).symm

/-- In a sequence without repeats every chunk occurs once. -/
theorem SameSuccessor.of_nodup (h : seq.Nodup) : SameSuccessor seq := by
  intro p hp q hq heq
  rw [refAt, refAt, repeated_of_lt _ hp, repeated_of_lt _ hq] at heq
  rw [h.getElem_inj_iff.1 heq]

theorem predictChain_eq {st : LoDeclared} {i : ℕ} {x : ℕ → ℕ} (hx : ∀ i, x i < st.nChunks)
    (hnext : ∀ i, loDeclaredPredictNext st (x i) = x (i + 1)) (k : ℕ) :
    predictChain st i (x k) = some (x (k + i)) := by
  induction i generalizing k with
  | zero => rfl
  | succ i ih =>
    have hgo : ¬ ((x (k + 1) : ℤ) < 0 ∨ (x (k + 1) : ℤ).toNat ≥ st.nChunks) := by
      rintro (hneg | hge)
      · omega
      · rw [Int.toNat_natCast] at hge
        exact absurd (hx (k + 1)) (Nat.not_lt.2 hge)
    have hsum : k + 1 + i = k + (i + 1) := by omega
    rw [predictChain, hnext, if_neg hgo, Int.toNat_natCast, ih, hsum]

/-! ## Distance and prediction -/

theorem loDeclaredDist_nonneg (g : LoSettings) (st : LoDeclared) (x : ℕ) :
    0 ≤ loDeclaredDist g st x := by
  unfold loDeclaredDist
  split_ifs
  · decide
  · exact le_rfl
  · exact le_rfl
  · split
    · exact Int.natCast_nonneg _
    · decide

/-- The protection heuristic brings chunks nearer, … -/
theorem loDeclaredDist_protect_le (g : LoSettings) (st : LoDeclared) (x : ℕ) :
    loDeclaredDist g st x ≤ loDeclaredDist ⟨false, g.signalPre⟩ st x := by
  have hnn := loDeclaredDist_nonneg ⟨false, g.signalPre⟩ st x
  by_cases hcur : g.protectCurrent = true ∧ st.seqAt st.base = x
  · by_cases hlen : st.seq.length = 0
    · simp [loDeclaredDist, hlen]
    · rwa [loDeclaredDist, if_neg hlen, if_pos hcur]
  · by_cases hprev : g.protectCurrent = true ∧ st.base > 0 ∧ st.seqAt (st.base - 1) = x
    · by_cases hlen : st.seq.length = 0
      · simp [loDeclaredDist, hlen]
      · rwa [loDeclaredDist, if_neg hlen, if_neg hcur, if_pos hprev]
    · simp only [loDeclaredDist, hcur, hprev, if_false, Bool.false_eq_true, false_and]
      exact le_rfl

/-- … but only the two it protects. -/
theorem loDeclaredDist_protect_eq {st : LoDeclared} {x : ℕ} (hcur : x ≠ st.seqAt st.base)
    (hprev : g.protectCurrent = true → st.base > 0 → x ≠ st.seqAt (st.base - 1)) :
    loDeclaredDist g st x = loDeclaredDist ⟨false, g.signalPre⟩ st x := by
  have hcur' : ¬ (g.protectCurrent = true ∧ st.seqAt st.base = x) := fun h => hcur h.2.symm
  have hprev' : ¬ (g.protectCurrent = true ∧ st.base > 0 ∧ st.seqAt (st.base - 1) = x) :=
    fun h => hprev h.1 h.2.1 h.2.2.symm
  simp only [loDeclaredDist, hcur', hprev', if_false, Bool.false_eq_true, false_and]
  rfl

/-- The next `i` references are nearer than every other candidate. -/
theorem upcoming_nearest (hseq : seq ≠ []) (hlen : seq.length < 2 ^ 32) {i y : ℕ} (hi : 1 ≤ i)
    (hcur : y ≠ refAt seq k)
    (hprev : g.protectCurrent = true → y ≠ refAt seq (k + (seq.length - 1)))
    (hy : ∀ j, 1 ≤ j → j ≤ i → y ≠ refAt seq (k + j)) :
    loDeclaredDist g (declaredAfter n seq (k + 1)) (refAt seq (k + i)) <
      loDeclaredDist g (declaredAfter n seq (k + 1)) y := by
  have hbase : (declaredAfter n seq (k + 1)).base = k % seq.length := declaredAfter_base hseq
  have hat : ∀ j, (declaredAfter n seq (k + 1)).seqAt j = refAt seq j := fun j => by
    rw [LoDeclared.seqAt, declaredAfter_seq]
    rfl
  -- the heuristic does not bring `y` nearer
  have hyeq : loDeclaredDist g (declaredAfter n seq (k + 1)) y =
      loDeclaredDist ⟨false, g.signalPre⟩ (declaredAfter n seq (k + 1)) y := by
    apply loDeclaredDist_protect_eq
    · rw [hat, hbase, refAt_mod]
      exact hcur
    · intro hp hpos
      have hback : refAt seq (k % seq.length - 1) = refAt seq (k + (seq.length - 1)) := by
        rw [hbase] at hpos
        have hlen := List.length_pos_of_ne_nil hseq
        have hsum : k % seq.length - 1 + seq.length = k % seq.length + (seq.length - 1) := by omega
        have hshift : refAt seq (k % seq.length - 1) = refAt seq (k % seq.length - 1 + seq.length) :=
          (repeated_periodic seq CHUNK_NONE _).symm
        rw [hshift, hsum]
        exact repeated_mod_add seq CHUNK_NONE k _
      rw [hat, hbase, hback]
      exact hprev hp
  -- the scan meets reference `k + i` before `y`
  have hbefore : OccursBefore ((declaredAfter n seq (k + 1)).ahead ⟨false, g.signalPre⟩)
      (refAt seq (k + i)) y := by
    rw [funext (declaredAfter_ahead g.signalPre hseq)]
    cases g.signalPre with
    | true =>
      refine ⟨i, rfl, fun j hj hjy => ?_⟩
      rcases Nat.eq_zero_or_pos j with rfl | hpos
      · exact hcur hjy.symm
      · exact hy j hpos hj hjy.symm
    | false =>
      obtain ⟨i, rfl⟩ := Nat.exists_eq_add_of_le' hi
      refine ⟨i, ?_, fun j hj hjy => hy (j + 1) (by omega) (by omega) ?_⟩
      · simp only [Bool.false_eq_true, if_false, Nat.add_eq_zero_iff, one_ne_zero, and_false]
        rw [refAt]
        congr 1
        omega
      · rw [← hjy]
        simp only [Bool.false_eq_true, if_false, Nat.add_eq_zero_iff, one_ne_zero, and_false]
        rw [refAt]
        congr 1
        omega
  have hlt := (loDeclaredDist_lt_iff rfl (by rwa [declaredAfter_seq])
    (by rwa [declaredAfter_seq]) _ y).2 hbefore
  rw [hyeq]
  exact (loDeclaredDist_protect_le g _ _).trans_lt hlt

/-! ## The walk of the top-up -/

/-- A correct prediction takes the loop to the chunk it names. -/
theorem topPredict_next {cfg : Config n LoDeclared} {sh : Shared n LoDeclared} {j : Job n}
    {need i : ℕ} {cursor next : Fin n} (hpolicy : cfg.policy = some (policyLayerOrderDeclared n g))
    (hnext : loDeclaredPredictNext sh.region.policyState cursor.1 = (next.1 : ℤ)) :
    topPredict cfg sh j need i cursor =
      if next = j.target then .next sh (.job j .unpin)
      else .next sh (.job j (.topEnqueue need i next)) := by
  have hpred : predictNext cfg sh cursor = (next.1 : ℤ) := by
    rw [← hnext, predictNext, hpolicy]
    rfl
  have hnn : ¬ ((next.1 : ℤ) < 0) := Int.not_lt.2 (Int.natCast_nonneg _)
  simp only [topPredict, hpred, if_neg hnn, Int.toNat_natCast, next.2, dif_pos]

/-- With one successor for each chunk prediction, chain, distance and top-up agree on the
references to come. -/
theorem SameSuccessor.foretells (h : SameSuccessor seq) (hn : n ≤ 2 ^ 31)
    (hlen : seq.length < 2 ^ 32) (hseq : seq ≠ []) (hids : ∀ c ∈ seq, c < n) (k : ℕ) :
    Foretells g n seq k where
  next := h.next hn hseq hids k
  chain i := by
    have hin : ∀ i, refAt seq i < (declaredAfter n seq (k + 1)).nChunks := fun i => by
      rw [declaredAfter_nChunks]
      exact hids _ (repeated_mem CHUNK_NONE hseq i)
    exact predictChain_eq hin (h.next hn hseq hids) k
  nearest i y hi hcur hprev hy := upcoming_nearest hseq hlen hi hcur hprev hy
  topUp cfg sh j need i cursor next hpolicy hstate hcursor hnext := by
    apply topPredict_next hpolicy
    rw [hstate, hcursor, hnext]
    exact h.next hn hseq hids (k + i)

/-- The prediction is the successor of a chunk's last occurrence. It is the next reference, and
its chain the nearest chunks in order, at every position exactly when all occurrences of a
chunk have the same successor, in particular when no chunk occurs twice. -/
theorem predictNext_foretells (g : LoSettings) (hn : n ≤ 2 ^ 31) (hlen : seq.length < 2 ^ 32)
    (hseq : seq ≠ []) (hids : ∀ c ∈ seq, c < n) :
    (∀ k, ∀ p < seq.length, (∀ q < seq.length, p < q → refAt seq q ≠ refAt seq p) →
      loDeclaredPredictNext (declaredAfter n seq k) (refAt seq p) = refAt seq (p + 1)) ∧
    ((∀ k, Foretells g n seq k) ↔ SameSuccessor seq) ∧
    (seq.Nodup → ∀ k, Foretells g n seq k) :=
  ⟨fun _ _ hp hlast => predictNext_last hn hids hp hlast,
    ⟨fun h => .of_next fun k => (h k).next, fun h k => h.foretells hn hlen hseq hids k⟩,
    fun hnd k => (SameSuccessor.of_nodup hnd).foretells hn hlen hseq hids k⟩

theorem predictNext_foretells_swapped :
    (∀ k, Foretells ⟨true, false⟩ 3 [2, 0, 1] k) ∧ SameSuccessor [2, 0, 1] := by
  obtain ⟨-, hiff, hnd⟩ := @predictNext_foretells 3 [2, 0, 1] ⟨true, false⟩ (by decide) (by decide)
    (by decide) (by decide)
  have hall := hnd (by decide)
  exact ⟨hall, hiff.1 hall⟩

/-- The irregular sequence of the accounting test: after the first signal the position is at
chunk 0, which chunk 3 follows, but the prediction is chunk 2. -/
theorem predictNext_irregular :
    loDeclaredPredictNext
        (declaredAfter 8 [0, 3, 1, 7, 2, 6, 0, 5, 4, 3, 7, 1, 6, 0, 2] 1)
        (refAt [0, 3, 1, 7, 2, 6, 0, 5, 4, 3, 7, 1, 6, 0, 2] 0) ≠
      refAt [0, 3, 1, 7, 2, 6, 0, 5, 4, 3, 7, 1, 6, 0, 2] 1 := by
  decide

end Residctl
