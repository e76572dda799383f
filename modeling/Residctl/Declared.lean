import Residctl.Policy

/-!
# The declared order under in-order consumption signals

What `layer_order_declared` knows after `k` signals delivered in the declared
order, compared with the references that are really still to come. The two agree
except before the first signal in post-consumption mode, where the distance scan
starts one reference too late.
-/

namespace Residctl

open Cyclic

/-- `k` signals delivered in the declared order. -/
def consume (st : LoDeclared) : ℕ → LoDeclared
  | 0 => st
  | k + 1 => loDeclaredOnAccess (consume st k) ((consume st k).seqAt k)

/-- The state after declaring `seq` to a fresh policy and `k` signals in order. -/
def declaredAfter (nChunks : ℕ) (seq : List ℕ) (k : ℕ) : LoDeclared :=
  consume (loDeclaredDeclareSequence (loDeclaredInit nChunks) seq) k

/-- The references still to come after `k` signals: in pre-consumption mode the last
signalled reference has not been read yet. -/
def remaining (signalPre : Bool) (seq : List ℕ) (k i : ℕ) : Option ℕ :=
  seq[((if signalPre then k - 1 else k) + i) % seq.length]?

/-- The position is the last signalled reference, and the distances order the chunks
like the references still to come. -/
structure RanksFuture (signalPre : Bool) (nChunks : ℕ) (seq : List ℕ) (k : ℕ) : Prop where
  pos : (declaredAfter nChunks seq k).pos =
    if k = 0 then -1 else (((k - 1) % seq.length : ℕ) : ℤ)
  order : ∀ x y : ℕ,
    loDeclaredDist ⟨false, signalPre⟩ (declaredAfter nChunks seq k) x <
        loDeclaredDist ⟨false, signalPre⟩ (declaredAfter nChunks seq k) y ↔
      OccursBefore (remaining signalPre seq k) (some x) (some y)
  absent : ∀ x ∉ seq,
    loDeclaredDist ⟨false, signalPre⟩ (declaredAfter nChunks seq k) x = INT64_MAX

/-! ## The position -/

@[simp] theorem loDeclaredOnAccess_seq (st : LoDeclared) (idx : ℕ) :
    (loDeclaredOnAccess st idx).seq = st.seq := by
  unfold loDeclaredOnAccess
  dsimp only
  split <;> rfl

@[simp] theorem loDeclaredOnAccess_nextInSeq (st : LoDeclared) (idx : ℕ) :
    (loDeclaredOnAccess st idx).nextInSeq = st.nextInSeq := by
  unfold loDeclaredOnAccess
  dsimp only
  split <;> rfl

@[simp] theorem loDeclaredOnAccess_nChunks (st : LoDeclared) (idx : ℕ) :
    (loDeclaredOnAccess st idx).nChunks = st.nChunks := by
  unfold loDeclaredOnAccess
  dsimp only
  split <;> rfl

/-- The slot the forward scan starts from. -/
def LoDeclared.start (st : LoDeclared) : ℕ := if st.pos < 0 then 0 else (st.pos + 1).toNat

/-- A signal for the very next reference of the sequence advances by one. -/
theorem loDeclaredOnAccess_next {st : LoDeclared} (hseq : st.seq ≠ []) :
    (loDeclaredOnAccess st (st.seqAt st.start)).pos = ((st.start % st.seq.length : ℕ) : ℤ) := by
  have hpos := List.length_pos_of_ne_nil hseq
  have hfirst : firstIn (fun k => st.seqAt (st.start + k)) st.seq.length (st.seqAt st.start) =
      some 0 := firstIn_eq_some.2 ⟨hpos, rfl, fun j hj => absurd hj (Nat.not_lt_zero j)⟩
  unfold loDeclaredOnAccess
  rw [LoDeclared.start] at hfirst ⊢
  simp only [hfirst, Nat.add_zero]

/-- In a sequence without repeats the stream is at a chunk exactly at its slot. -/
theorem seqAt_eq_iff {st : LoDeclared} (hnd : st.seq.Nodup) {p x : ℕ} (hp : st.seq[p]? = some x)
    (i : ℕ) : st.seqAt i = x ↔ i % st.seq.length = p := by
  obtain ⟨hlt, rfl⟩ := List.getElem?_eq_some_iff.1 hp
  have hi := Nat.mod_lt i (Nat.zero_lt_of_lt hlt)
  rw [LoDeclared.seqAt, ← repeated_mod, repeated_of_lt _ hi]
  exact hnd.getElem_inj_iff

/-- A signal for a chunk that occurs once moves the position to that occurrence. -/
theorem loDeclaredOnAccess_pos {st : LoDeclared} (hnd : st.seq.Nodup) {p x : ℕ}
    (hp : st.seq[p]? = some x) : (loDeclaredOnAccess st x).pos = ((p : ℕ) : ℤ) := by
  obtain ⟨i, hi, hfound⟩ := exists_repeated_eq CHUNK_NONE (List.mem_of_getElem? hp) st.start
  obtain ⟨k, hki, hk⟩ := firstIn_isSome (f := fun k => st.seqAt (st.start + k)) hi
  have hfound' : st.seqAt (st.start + i) = x := hfound
  simp only [hfound'] at hk
  have hmod : (st.start + k) % st.seq.length = p :=
    (seqAt_eq_iff hnd hp _).1 (firstIn_eq_some.1 hk).2.1
  unfold loDeclaredOnAccess
  rw [LoDeclared.start] at hk hmod
  simp only [hk, hmod]

@[simp] theorem consume_seq (st : LoDeclared) (k : ℕ) : (consume st k).seq = st.seq := by
  induction k with
  | zero => rfl
  | succ k ih => rw [consume, loDeclaredOnAccess_seq, ih]

/-- Position `k - 1` means that the scan for the next signal starts at reference `k`. -/
theorem LoDeclared.start_mod {st : LoDeclared} {k : ℕ}
    (hpos : st.pos = if k = 0 then -1 else (((k - 1) % st.seq.length : ℕ) : ℤ)) :
    st.start % st.seq.length = k % st.seq.length := by
  rw [LoDeclared.start, hpos]
  by_cases hk : k = 0
  · simp [hk]
  · have hnn : ¬ ((((k - 1) % st.seq.length : ℕ) : ℤ) < 0) := by omega
    have hto : ((((k - 1) % st.seq.length : ℕ) : ℤ) + 1).toNat = (k - 1) % st.seq.length + 1 := by
      omega
    rw [if_neg hk, if_neg hnn, hto, Nat.mod_add_mod,
      Nat.sub_add_cancel (Nat.one_le_iff_ne_zero.2 hk)]

theorem consume_pos {st : LoDeclared} (hseq : st.seq ≠ []) (hpos : st.pos = -1) (k : ℕ) :
    (consume st k).pos = if k = 0 then -1 else (((k - 1) % st.seq.length : ℕ) : ℤ) := by
  induction k with
  | zero => exact hpos
  | succ k ih =>
    have hseq' : (consume st k).seq ≠ [] := by rwa [consume_seq]
    have hmod : (consume st k).start % (consume st k).seq.length = k % (consume st k).seq.length :=
      LoDeclared.start_mod (by rwa [consume_seq])
    have hnext : (consume st k).seqAt k = (consume st k).seqAt (consume st k).start := by
      rw [LoDeclared.seqAt, ← repeated_mod, ← hmod, repeated_mod]
    rw [consume, hnext, loDeclaredOnAccess_next hseq', hmod, consume_seq]
    simp

/-! ## Distance and future -/

section

variable {nChunks : ℕ} {seq : List ℕ} {k : ℕ}

theorem declaredAfter_seq : (declaredAfter nChunks seq k).seq = seq := by
  rw [declaredAfter, consume_seq]
  rfl

theorem declaredAfter_pos (hseq : seq ≠ []) :
    (declaredAfter nChunks seq k).pos = if k = 0 then -1 else (((k - 1) % seq.length : ℕ) : ℤ) := by
  have hdecl : (loDeclaredDeclareSequence (loDeclaredInit nChunks) seq).seq ≠ [] := hseq
  exact consume_pos hdecl rfl k

theorem declaredAfter_base (hseq : seq ≠ []) :
    (declaredAfter nChunks seq k).base = (k - 1) % seq.length := by
  rw [LoDeclared.base, declaredAfter_pos hseq]
  by_cases hk : k = 0
  · simp [hk]
  · rw [if_neg hk, if_neg (by omega), Int.toNat_natCast]

theorem remaining_eq (signalPre : Bool) (hseq : seq ≠ []) (i : ℕ) :
    remaining signalPre seq k i =
      some (repeated seq CHUNK_NONE ((if signalPre then k - 1 else k) + i)) := by
  have hlt := Nat.mod_lt ((if signalPre then k - 1 else k) + i) (List.length_pos_of_ne_nil hseq)
  rw [remaining, repeated, List.getD_eq_getElem _ _ hlt, List.getElem?_eq_getElem hlt]

/-- The stream the policy looks at: the true future, except that before the first
signal in post-consumption mode the scan starts at the second reference. -/
theorem declaredAfter_ahead (signalPre : Bool) (hseq : seq ≠ []) (i : ℕ) :
    (declaredAfter nChunks seq k).ahead ⟨false, signalPre⟩ i =
      repeated seq CHUNK_NONE
        ((if signalPre then k - 1 else if k = 0 then 1 else k) + i) := by
  rw [LoDeclared.ahead, LoDeclared.seqAt, declaredAfter_seq, declaredAfter_base hseq,
    repeated_mod_add]
  congr 1
  cases signalPre with
  | true => simp [LoSettings.d0]
  | false =>
    simp only [LoSettings.d0, Bool.false_eq_true, if_false]
    split <;> omega

/-- The distances are the true future order exactly when the mode is
pre-consumption, a signal was delivered, or skipping the first reference of the
sequence changes nothing. -/
theorem ranksFuture_iff (signalPre : Bool) (nChunks : ℕ) (seq : List ℕ) (k : ℕ)
    (hlen : seq.length < 2 ^ 32) (hk : seq = [] → k = 0) :
    RanksFuture signalPre nChunks seq k ↔
      signalPre = true ∨ 0 < k ∨ seq.length ≤ 1 ∨ seq[1]? = seq[0]? := by
  by_cases hseq : seq = []
  · -- nothing declared: every distance is infinite and no reference remains
    subst hseq
    obtain rfl := hk rfl
    have hdist : ∀ x, loDeclaredDist ⟨false, signalPre⟩ (declaredAfter nChunks [] 0) x =
        INT64_MAX := fun x => loDeclaredDist_of_notMem rfl (by rw [declaredAfter_seq]; simp)
    have hranks : RanksFuture signalPre nChunks [] 0 := by
      refine ⟨rfl, fun x y => ?_, fun x _ => hdist x⟩
      simp [hdist, OccursBefore, remaining]
    exact iff_of_true hranks (by simp)
  have hbefore : ∀ x y, OccursBefore (remaining signalPre seq k) (some x) (some y) ↔
      OccursBefore (fun i => repeated seq CHUNK_NONE ((if signalPre then k - 1 else k) + i)) x y := by
    intro x y
    rw [funext (remaining_eq signalPre hseq), occursBefore_some]
  have hdist : ∀ x y, loDeclaredDist ⟨false, signalPre⟩ (declaredAfter nChunks seq k) x <
        loDeclaredDist ⟨false, signalPre⟩ (declaredAfter nChunks seq k) y ↔
      OccursBefore (fun i => repeated seq CHUNK_NONE
        ((if signalPre then k - 1 else if k = 0 then 1 else k) + i)) x y := by
    intro x y
    rw [loDeclaredDist_lt_iff rfl (by rwa [declaredAfter_seq]) (by rwa [declaredAfter_seq]),
      funext (declaredAfter_ahead signalPre hseq)]
  have habsent : ∀ x ∉ seq,
      loDeclaredDist ⟨false, signalPre⟩ (declaredAfter nChunks seq k) x = INT64_MAX :=
    fun x hx => loDeclaredDist_of_notMem rfl (by rwa [declaredAfter_seq])
  have hranks : RanksFuture signalPre nChunks seq k ↔ ∀ x y,
      (OccursBefore (fun i => repeated seq CHUNK_NONE
        ((if signalPre then k - 1 else if k = 0 then 1 else k) + i)) x y ↔
      OccursBefore (fun i => repeated seq CHUNK_NONE ((if signalPre then k - 1 else k) + i)) x y) :=
    ⟨fun h x y => by rw [← hdist, ← hbefore]; exact h.order x y,
      fun h => ⟨declaredAfter_pos hseq, fun x y => by rw [hdist, hbefore]; exact h x y, habsent⟩⟩
  rw [hranks]
  cases signalPre with
  | true => simp
  | false =>
    by_cases hk0 : k = 0
    · -- before the first signal the scan has lost reference 0
      subst hk0
      have hfirst : repeated seq CHUNK_NONE 1 = repeated seq CHUNK_NONE 0 ↔
          seq.length ≤ 1 ∨ seq[1]? = seq[0]? := by
        rcases Nat.lt_or_ge 1 seq.length with h1 | h1
        · rw [repeated_of_lt _ h1, repeated_of_lt _ (by omega), List.getElem?_eq_getElem h1,
            List.getElem?_eq_getElem (by omega), Option.some.injEq]
          constructor
          · exact Or.inr
          · exact fun h => h.resolve_left (by omega)
        · have h1' : seq.length = 1 := le_antisymm h1 (List.length_pos_of_ne_nil hseq)
          have hone : repeated seq CHUNK_NONE 1 = repeated seq CHUNK_NONE 0 := by
            simpa [h1'] using repeated_periodic seq CHUNK_NONE 0
          exact iff_of_true hone (Or.inl h1)
      have htail := occursBefore_tail_iff (f := repeated seq CHUNK_NONE)
      simp only [Bool.false_eq_true, if_false, if_true, Nat.zero_add, lt_irrefl, false_or]
      rw [htail, hfirst]
    · have hpos : 0 < k := Nat.pos_of_ne_zero hk0
      simp [hk0, hpos]

theorem ranksFuture_iff_pair : RanksFuture false 2 [0, 1] 1 ↔
    false = true ∨ 0 < 1 ∨ [0, 1].length ≤ 1 ∨ [0, 1][1]? = [0, 1][0]? :=
  ranksFuture_iff false 2 [0, 1] 1 (by decide) (by decide)

/-- Before the first signal, post-consumption mode ranks the very first reference
behind the second one. -/
theorem ranksFuture_initial_post :
    ¬ ∀ (signalPre : Bool) (nChunks : ℕ) (seq : List ℕ) (k : ℕ), seq.length < 2 ^ 32 →
      (seq = [] → k = 0) → RanksFuture signalPre nChunks seq k := by
  intro h
  have horder := (h false 2 [0, 1] 0 (by decide) (by decide)).order 0 1
  have hbefore : OccursBefore (remaining false [0, 1] 0) (some 0) (some 1) :=
    ⟨0, rfl, by decide⟩
  have hlt := horder.2 hbefore
  revert hlt
  decide

end

end Residctl
