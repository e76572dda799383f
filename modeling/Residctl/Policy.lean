import Residctl.Lib.Cyclic
import Residctl.Lib.Scan
import Residctl.Region

/-!
# Eviction policies

`policy.c`. `Policy` is the hook table with the contract every live policy meets:
a selected victim is `RESIDENT` and not pinned. The live policies are `lru`,
`layer_order_learned` and `layer_order_declared`; without a policy the budget
code falls back to `defaultSelectVictim`.

The distance of `layer_order_declared` orders chunks by their first occurrence in
the declared sequence repeated for ever (`loDeclaredDist_lt_iff`).
-/

namespace Residctl

open Cyclic Scan

variable {n : ℕ}

/-! ## Victim scans -/

/-- The loop shared by the policies: the first evictable chunk that no later one is
`better` than. -/
def scanVictim (better : Fin n → Fin n → Prop) [DecidableRel better] (chunks : Chunks n) :
    Option (Fin n) :=
  scanBest (fun i => (chunks i).Evictable) better (List.finRange n)

/-- The first evictable chunk. -/
def defaultSelectVictim (chunks : Chunks n) : Option (Fin n) :=
  (List.finRange n).find? fun i => (chunks i).Evictable

theorem scanVictim_some {β : Type*} [LinearOrder β] (key : Fin n → β)
    {better : Fin n → Fin n → Prop} [DecidableRel better]
    (hbetter : ∀ i b, better i b ↔ key b < key i) {chunks : Chunks n} {v : Fin n}
    (h : scanVictim better chunks = some v) :
    (chunks v).Evictable ∧ ∀ i, (chunks i).Evictable → key i ≤ key v := by
  obtain ⟨hv, -, hmax⟩ := scanBest_some key hbetter h
  exact ⟨hv, fun i hi => hmax i (List.mem_finRange i) hi⟩

theorem scanVictim_none {β : Type*} [LinearOrder β] (key : Fin n → β)
    {better : Fin n → Fin n → Prop} [DecidableRel better]
    (hbetter : ∀ i b, better i b ↔ key b < key i) {chunks : Chunks n}
    (h : scanVictim better chunks = none) (i : Fin n) : ¬ (chunks i).Evictable :=
  scanBest_none key hbetter h i (List.mem_finRange i)

theorem defaultSelectVictim_evictable {chunks : Chunks n} {v : Fin n}
    (h : defaultSelectVictim chunks = some v) : (chunks v).Evictable := by
  simpa using List.find?_some h

/-! ## The hook table -/

/-- A `uint32_t` read as an `int32_t`. -/
def toInt32 (x : ℕ) : ℤ := (x : ℤ).bmod (2 ^ 32)

theorem toInt32_of_lt {x : ℕ} (h : x < 2 ^ 31) : toInt32 x = x := by
  unfold toInt32
  exact Int.bmod_eq_of_le (by omega) (by omega)

theorem toInt32_lt (x : ℕ) : toInt32 x < 2 ^ 31 := by
  unfold toInt32
  rw [Int.bmod_def]
  split
  · omega
  · omega

/-- `struct policy` over a private state `σ`; `none` for a `NULL` hook. Hooks run
under `budget_lock`, `onResident` excepted. -/
structure Policy (n : ℕ) (σ : Type) where
  onFault : Option (σ → Fin n → σ)
  onResident : Option (σ → Fin n → σ)
  selectVictim : σ → Chunks n → Option (Fin n)
  /-- negative: no prediction -/
  predictNext : Option (σ → Fin n → ℤ)
  nextUseDistance : Option (σ → Chunks n → Fin n → ℤ)
  onAccess : Option (σ → Fin n → σ)
  selectVictim_evictable : ∀ {s chunks v}, selectVictim s chunks = some v → (chunks v).Evictable
  /-- the prediction is an `int32_t` -/
  predictNext_lt : ∀ {predict s c}, predictNext = some predict → predict s c < 2 ^ 31

/-! ## lru -/

/-- The oldest `lastFaultSeq`. -/
def lruSelectVictim (chunks : Chunks n) : Option (Fin n) :=
  scanVictim (fun i b => (chunks i).lastFaultSeq < (chunks b).lastFaultSeq) chunks

theorem lruSelectVictim_some {chunks : Chunks n} {v : Fin n} (h : lruSelectVictim chunks = some v) :
    (chunks v).Evictable ∧
      ∀ i, (chunks i).Evictable → (chunks v).lastFaultSeq ≤ (chunks i).lastFaultSeq := by
  obtain ⟨hv, hmin⟩ := scanVictim_some (fun i => OrderDual.toDual (chunks i).lastFaultSeq)
    (fun _ _ => Iff.rfl) h
  exact ⟨hv, hmin⟩

/-- `policy_lru_create`: no state, no prediction, every chunk equally far. -/
def policyLru (n : ℕ) : Policy n Unit where
  onFault := some fun s _ => s
  onResident := some fun s _ => s
  selectVictim _ chunks := lruSelectVictim chunks
  predictNext := some fun _ _ => -1
  nextUseDistance := some fun _ _ _ => INT64_MAX
  onAccess := none
  selectVictim_evictable h := (lruSelectVictim_some h).1
  predictNext_lt h := by
    cases h
    exact show (-1 : ℤ) < 2 ^ 31 by decide

/-! ## layer_order_learned -/

/-- `lo_learned_state_t`. -/
structure LoLearned (n : ℕ) where
  /-- `none` until the first fetch -/
  lastFetched : Option (Fin n)
  /-- the chunk observed to follow -/
  successor : Fin n → Option (Fin n)

/-- Nothing observed yet. -/
def LoLearned.init (n : ℕ) : LoLearned n := ⟨none, fun _ => none⟩

/-- The fault follows the one before it; an older successor is forgotten. -/
def loLearnedOnFault (st : LoLearned n) (idx : Fin n) : LoLearned n where
  lastFetched := some idx
  successor :=
    match st.lastFetched with
    | none => st.successor
    | some last => Function.update st.successor last (some idx)

/-- The successor walk: at most `hops` hops, numbering the chunks from `d`, until the
chain is unknown or closes on itself. -/
def loLearnedWalk (st : LoLearned n) : ℕ → Fin n → ℕ → (Fin n → ℕ) → Fin n → ℕ
  | 0, _, _, dist => dist
  | hops + 1, node, d, dist =>
    match st.successor node with
    | none => dist
    | some next =>
      if dist next ≠ CHUNK_NONE then dist
      else loLearnedWalk st hops next (d + 1) (Function.update dist next d)

/-- `dist`, `UINT32_MAX` for a chunk the walk does not reach. -/
def loLearnedComputeDist (st : LoLearned n) : Fin n → ℕ :=
  match st.lastFetched with
  | none => fun _ => CHUNK_NONE
  | some node => loLearnedWalk st n node 1 fun _ => CHUNK_NONE

/-- The chunk that the walk reaches last, or never. -/
def loLearnedSelectVictim (st : LoLearned n) (chunks : Chunks n) : Option (Fin n) :=
  scanVictim (fun i b => loLearnedComputeDist st i > loLearnedComputeDist st b) chunks

/-- Hops on the walk, `INT64_MAX` for a chunk that it does not reach. -/
def loLearnedNextUseDistance (st : LoLearned n) (idx : Fin n) : ℤ :=
  if loLearnedComputeDist st idx = CHUNK_NONE then INT64_MAX else loLearnedComputeDist st idx

/-- The successor as an `int32_t`, -1 without one. -/
def loLearnedPredictNext (st : LoLearned n) (idx : Fin n) : ℤ :=
  match st.successor idx with
  | none => -1
  | some next => toInt32 next.1

theorem loLearnedPredictNext_lt (st : LoLearned n) (idx : Fin n) :
    loLearnedPredictNext st idx < 2 ^ 31 := by
  unfold loLearnedPredictNext
  split
  · decide
  · exact toInt32_lt _

/-- `policy_layer_order_learned_create`. -/
def policyLayerOrderLearned (n : ℕ) : Policy n (LoLearned n) where
  onFault := some loLearnedOnFault
  onResident := some fun st _ => st
  selectVictim := loLearnedSelectVictim
  predictNext := some loLearnedPredictNext
  nextUseDistance := some fun st _ idx => loLearnedNextUseDistance st idx
  onAccess := none
  selectVictim_evictable h :=
    (scanVictim_some (loLearnedComputeDist _) (fun _ _ => Iff.rfl) h).1
  predictNext_lt h := by
    cases h
    exact loLearnedPredictNext_lt _ _

/-! ## layer_order_declared -/

/-- The two global switches of `layer_order_declared`. -/
structure LoSettings where
  protectCurrent : Bool
  /-- the signal fires before the read it announces -/
  signalPre : Bool
deriving DecidableEq, Repr

/-- `lo_declared_state_t`. -/
structure LoDeclared where
  nChunks : ℕ
  /-- the declared reference string of one pass -/
  seq : List ℕ
  /-- position of the most recently consumed reference, negative before the first -/
  pos : ℤ
  /-- the chunk after the last occurrence in one cyclic pass, or `CHUNK_NONE` -/
  nextInSeq : ℕ → ℕ

/-- `st->seq[i % st->seq_len]`. -/
def LoDeclared.seqAt (st : LoDeclared) : ℕ → ℕ := repeated st.seq CHUNK_NONE

/-- The origin of the distance scan. -/
def LoDeclared.base (st : LoDeclared) : ℕ := if st.pos < 0 then 0 else st.pos.toNat

/-- Where the distance scan begins: at the position itself if the signal precedes the use. -/
def LoSettings.d0 (g : LoSettings) : ℕ := if g.signalPre then 0 else 1

/-- Cyclic distance from the consumption position to the next use of `x`. -/
def loDeclaredDist (g : LoSettings) (st : LoDeclared) (x : ℕ) : ℤ :=
  if st.seq.length = 0 then INT64_MAX
  else if g.protectCurrent = true ∧ st.seqAt st.base = x then 0
  else if g.protectCurrent = true ∧ st.base > 0 ∧ st.seqAt (st.base - 1) = x then 0
  else
    match firstIn (fun k => st.seqAt (st.base + (g.d0 + k))) st.seq.length x with
    | some k => (g.d0 + k : ℕ)
    | none => INT64_MAX

/-- Advance the position to the chunk's next slot, scanning forward cyclically. -/
def loDeclaredOnAccess (st : LoDeclared) (idx : ℕ) : LoDeclared :=
  let start := if st.pos < 0 then 0 else (st.pos + 1).toNat
  match firstIn (fun k => st.seqAt (start + k)) st.seq.length idx with
  | some k => { st with pos := ((start + k) % st.seq.length : ℕ) }
  | none => st

/-- The successor in the declared sequence as an `int32_t`, -1 for a chunk outside of it. -/
def loDeclaredPredictNext (st : LoDeclared) (idx : ℕ) : ℤ :=
  if idx ≥ st.nChunks then -1
  else if st.nextInSeq idx = CHUNK_NONE then -1
  else toInt32 (st.nextInSeq idx)

theorem loDeclaredPredictNext_lt (st : LoDeclared) (idx : ℕ) :
    loDeclaredPredictNext st idx < 2 ^ 31 := by
  unfold loDeclaredPredictNext
  split
  · decide
  · split
    · decide
    · exact toInt32_lt _

/-- The chunk whose next use is the farthest. -/
def loDeclaredSelectVictim (g : LoSettings) (st : LoDeclared) (chunks : Chunks n) :
    Option (Fin n) :=
  scanVictim (fun i b => loDeclaredDist g st i.1 > loDeclaredDist g st b.1) chunks

/-- Before a sequence is declared. -/
def loDeclaredInit (nChunks : ℕ) : LoDeclared := ⟨nChunks, [], -1, fun _ => CHUNK_NONE⟩

/-- `lo_declared_declare_sequence`: the last occurrence of a chunk decides its successor. -/
def loDeclaredDeclareSequence (st : LoDeclared) (ids : List ℕ) : LoDeclared where
  nChunks := st.nChunks
  seq := ids
  pos := -1
  nextInSeq :=
    (List.range ids.length).foldl (fun next p =>
      if repeated ids CHUNK_NONE p < st.nChunks then
        Function.update next (repeated ids CHUNK_NONE p) (repeated ids CHUNK_NONE (p + 1))
      else next) fun _ => CHUNK_NONE

theorem loDeclaredSelectVictim_some {g : LoSettings} {st : LoDeclared} {chunks : Chunks n}
    {v : Fin n} (h : loDeclaredSelectVictim g st chunks = some v) :
    (chunks v).Evictable ∧
      ∀ i, (chunks i).Evictable → loDeclaredDist g st i.1 ≤ loDeclaredDist g st v.1 :=
  scanVictim_some (fun i => loDeclaredDist g st i.1) (fun _ _ => Iff.rfl) h

theorem loDeclaredSelectVictim_none {g : LoSettings} {st : LoDeclared} {chunks : Chunks n}
    (h : loDeclaredSelectVictim g st chunks = none) (i : Fin n) : ¬ (chunks i).Evictable :=
  scanVictim_none (fun i => loDeclaredDist g st i.1) (fun _ _ => Iff.rfl) h i

/-- `policy_layer_order_declared_create`. -/
def policyLayerOrderDeclared (n : ℕ) (g : LoSettings) : Policy n LoDeclared where
  onFault := some fun st _ => st
  onResident := some fun st _ => st
  selectVictim := loDeclaredSelectVictim g
  predictNext := some fun st idx => loDeclaredPredictNext st idx.1
  nextUseDistance := some fun st _ idx => loDeclaredDist g st idx.1
  onAccess := some fun st idx => loDeclaredOnAccess st idx.1
  selectVictim_evictable h := (loDeclaredSelectVictim_some h).1
  predictNext_lt h := by
    cases h
    exact loDeclaredPredictNext_lt _ _

/-! ## The declared distance is the order of future references -/

variable {g : LoSettings} {st : LoDeclared}

/-- The stream the distance scan walks: the repeated sequence from the scan origin. -/
def LoDeclared.ahead (st : LoDeclared) (g : LoSettings) (k : ℕ) : ℕ :=
  st.seqAt (st.base + (g.d0 + k))

theorem LoDeclared.ahead_periodic (st : LoDeclared) (g : LoSettings) :
    Function.Periodic (st.ahead g) st.seq.length := by
  intro k
  have hk : st.base + (g.d0 + (k + st.seq.length)) =
      st.base + (g.d0 + k) + st.seq.length := by omega
  rw [LoDeclared.ahead, hk]
  exact repeated_periodic st.seq CHUNK_NONE _

theorem LoSettings.d0_le (g : LoSettings) : g.d0 ≤ 1 := by
  unfold LoSettings.d0
  split <;> omega

/-- Without the protection heuristic the distance is the first occurrence ahead. -/
theorem loDeclaredDist_eq (hp : g.protectCurrent = false) (hseq : st.seq ≠ []) (x : ℕ) :
    loDeclaredDist g st x =
      match firstIn (st.ahead g) st.seq.length x with
      | some k => (g.d0 + k : ℕ)
      | none => INT64_MAX := by
  have hlen : st.seq.length ≠ 0 := by simpa using hseq
  simp only [loDeclaredDist, hlen, hp, if_false, Bool.false_eq_true, false_and]
  rfl

theorem loDeclaredDist_of_notMem (hp : g.protectCurrent = false) {x : ℕ} (hx : x ∉ st.seq) :
    loDeclaredDist g st x = INT64_MAX := by
  by_cases hseq : st.seq = []
  · simp [loDeclaredDist, hseq]
  · have hnone : firstIn (st.ahead g) st.seq.length x = none :=
      firstIn_eq_none.2 fun k _ hk => hx (hk ▸ repeated_mem CHUNK_NONE hseq _)
    rw [loDeclaredDist_eq hp hseq, hnone]

/-- Nearer is sooner: distances compare like first occurrences in the stream ahead. -/
theorem loDeclaredDist_lt_iff (hp : g.protectCurrent = false) (hseq : st.seq ≠ [])
    (hlen : st.seq.length < 2 ^ 32) (x y : ℕ) :
    loDeclaredDist g st x < loDeclaredDist g st y ↔ OccursBefore (st.ahead g) x y := by
  have hd0 := g.d0_le
  rw [occursBefore_iff (st.ahead_periodic g) (List.length_pos_of_ne_nil hseq),
    loDeclaredDist_eq hp hseq, loDeclaredDist_eq hp hseq]
  cases hx : firstIn (st.ahead g) st.seq.length x with
  | none =>
    cases hy : firstIn (st.ahead g) st.seq.length y with
    | none => simp
    | some k =>
      have hk := (firstIn_eq_some.1 hy).1
      simp only [INT64_MAX, reduceCtorEq, false_and, exists_false, iff_false]
      omega
  | some i =>
    have hi := (firstIn_eq_some.1 hx).1
    cases hy : firstIn (st.ahead g) st.seq.length y with
    | none =>
      simp only [INT64_MAX, reduceCtorEq, Option.some.injEq, exists_eq_left', IsEmpty.forall_iff,
        implies_true, iff_true]
      omega
    | some k =>
      simp only [Option.some.injEq, exists_eq_left', forall_eq']
      omega

end Residctl
