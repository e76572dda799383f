import Mathlib.Data.Nat.Bitwise
import Residctl.Attempts
import Residctl.Counters
import Residctl.FetchTrace

/-!
# The policy trace

`policy_trace.c` and `record_policy_trace` of `budget.c`. In the pager every victim of a policy is
recorded, under the lock of the budget and before its eviction; a chunk whose pin is broken is
not. The record is made after the choice and one chunk at a time, while workers set chunks
`RESIDENT` under the locks of these chunks alone. On every run the victims are evicted in the order
in which they were chosen, one at a time, and the resident set of a record lies between the one
that the policy chose from and the one at the end of the scan (`policyTrace_exact`).
-/

namespace Residctl

variable {n : ℕ} {σ : Type}

/-! ## Layout -/

/-- `policy_trace_record_t`. -/
structure PolicyTraceRecord where
  seq : UInt64
  victimChunk : UInt32
  cursorChunk : UInt32
  victimNextUseDistance : Int64
  nResident : UInt32
  residentSetBitmapLo : UInt32
  residentSetBitmapHi : UInt32
deriving DecidableEq

/-- Two's complement. -/
def packedInt64 : Packed Int64 :=
  Packed.uint64.map ⟨UInt64.toInt64, Int64.toUInt64, fun _ => rfl, fun _ => rfl⟩

def PolicyTraceRecord.packed : Packed PolicyTraceRecord :=
  (Packed.uint64.seq <| .seq .uint32 <| .seq .uint32 <| .seq packedInt64 <| .seq .uint32 <|
    .seq .uint32 .uint32).map
    { toFun := fun (seq, victim, cursor, dist, count, lo, hi) =>
        ⟨seq, victim, cursor, dist, count, lo, hi⟩
      invFun := fun r => (r.seq, r.victimChunk, r.cursorChunk, r.victimNextUseDistance,
        r.nResident, r.residentSetBitmapLo, r.residentSetBitmapHi)
      left_inv := fun _ => rfl
      right_inv := fun _ => rfl }

@[simp] theorem PolicyTraceRecord.packed_size : PolicyTraceRecord.packed.size = 36 := rfl

/-- `policy_trace_t`; `count` is the length of `records`. -/
structure PolicyTrace where
  records : List PolicyTraceRecord
  capacity : ℕ
  nextSeq : ℕ

/-- `policy_trace_open`. -/
def policyTraceOpen (capacity : ℕ) : Option PolicyTrace :=
  if capacity * PolicyTraceRecord.packed.size < 2 ^ 64 then
    some { records := [], capacity, nextSeq := 1 }
  else none

/-- `policy_trace_flush` to a file it could open. -/
def policyTraceFlush (rets : List WriteRet) (pt : PolicyTrace) : Option (List UInt8) :=
  flushLoop rets [] (pt.records.flatMap PolicyTraceRecord.packed.write)

/-! ## The resident set -/

/-- The locals of the loop in `record_policy_trace`. -/
structure ResidentSet where
  nResident : ℕ
  bitmapLo : ℕ
  bitmapHi : ℕ

/-- One round of the loop. -/
def ResidentSet.round (chunks : Chunks n) (set : ResidentSet) (i : Fin n) : ResidentSet :=
  if (chunks i).state ≠ .resident then set
  else
    let set := { set with nResident := set.nResident + 1 }
    if i.1 < 32 then { set with bitmapLo := set.bitmapLo ||| 1 <<< i.1 }
    else if i.1 < 64 then { set with bitmapHi := set.bitmapHi ||| 1 <<< (i.1 - 32) }
    else set

/-- The loop has found the chunks `S`. -/
structure ResidentSet.Shows (set : ResidentSet) (S : Finset (Fin n)) : Prop where
  count : set.nResident = S.card
  lo : ∀ b, set.bitmapLo.testBit b ↔ b < 32 ∧ ∃ c ∈ S, c.1 = b
  hi : ∀ b, set.bitmapHi.testBit b ↔ b < 32 ∧ ∃ c ∈ S, c.1 = b + 32

theorem ResidentSet.shows_empty : ResidentSet.Shows ⟨0, 0, 0⟩ (∅ : Finset (Fin n)) :=
  ⟨rfl, fun b => by simp, fun b => by simp⟩

theorem ResidentSet.round_of_ne {chunks : Chunks n} {set : ResidentSet} {i : Fin n}
    (h : (chunks i).state ≠ .resident) : set.round chunks i = set := if_pos h

/-- A chunk that is `RESIDENT` when the loop comes to it is added. -/
theorem ResidentSet.Shows.round {chunks : Chunks n} {S : Finset (Fin n)} {set : ResidentSet}
    (h : set.Shows S) {i : Fin n} (hi : i ∉ S) (hst : (chunks i).state = .resident) :
    (set.round chunks i).Shows (insert i S) := by
  obtain ⟨hcount, hlo, hhi⟩ := h
  have hlast : ∀ d, (∃ c ∈ insert i S, c.1 = d) ↔ (∃ c ∈ S, c.1 = d) ∨ i.1 = d := by
    intro d
    simp [or_and_right, exists_or, or_comm]
  have hcount' : set.nResident + 1 = (insert i S).card := by
    rw [Finset.card_insert_of_notMem hi, hcount]
  have hbit : ∀ b, (1 <<< b : ℕ) = 2 ^ b := Nat.one_shiftLeft
  unfold ResidentSet.round
  rw [if_neg (not_not.2 hst)]
  dsimp only
  by_cases hlow : i.1 < 32
  · rw [if_pos hlow]
    refine ⟨hcount', fun b => ?_, fun b => ?_⟩
    · rw [hlast, hbit, Nat.testBit_or, Nat.testBit_two_pow, Bool.or_eq_true, hlo]
      grind
    · rw [hlast, hhi]
      grind
  · rw [if_neg hlow]
    by_cases hhigh : i.1 < 64
    · rw [if_pos hhigh]
      refine ⟨hcount', fun b => ?_, fun b => ?_⟩
      · rw [hlast, hlo]
        grind
      · rw [hlast, hbit, Nat.testBit_or, Nat.testBit_two_pow, Bool.or_eq_true, hhi]
        grind
    · -- a chunk that the bitmaps have no bit for is counted all the same
      rw [if_neg hhigh]
      refine ⟨hcount', fun b => ?_, fun b => ?_⟩
      · rw [hlast, hlo]
        grind
      · rw [hlast, hhi]
        grind

/-- The `RESIDENT` chunks. -/
def Region.residents (r : Region n σ) : Finset (Fin n) :=
  Finset.univ.filter fun c => (r.chunks c).state = .resident

@[simp] theorem Region.mem_residents {r : Region n σ} {c : Fin n} :
    c ∈ r.residents ↔ (r.chunks c).state = .resident := by
  simp [Region.residents]

/-! ## Recording a victim -/

/-- `lo_declared_trace_cursor`. -/
def loDeclaredTraceCursor (st : LoDeclared) : ℕ :=
  if st.pos < 0 ∨ st.seq.length = 0 then CHUNK_NONE else st.seq.getD st.pos.toNat CHUNK_NONE

/-- What is stored as `cursor_chunk`; `cursor` is the hook `trace_cursor`. -/
def Config.traceCursor (cfg : Config n σ) (cursor : Option (σ → ℕ)) (r : Region n σ) : ℕ :=
  match cfg.policy, cursor with
  | some _, some f => f r.policyState
  | _, _ => CHUNK_NONE

/-- What can be read off a record about the chunks that the loop has found. -/
structure Describes (rec : PolicyTraceRecord) (v : Fin n) (S : Finset (Fin n)) : Prop where
  victim : rec.victimChunk.toNat = v.1
  count : rec.nResident.toNat = S.card
  lo : ∀ b, rec.residentSetBitmapLo.toNat.testBit b ↔ b < 32 ∧ ∃ c ∈ S, c.1 = b
  hi : ∀ b, rec.residentSetBitmapHi.toNat.testBit b ↔ b < 32 ∧ ∃ c ∈ S, c.1 = b + 32

/-- A number without bits from 32 on is a `uint32_t`. -/
theorem lt_of_testBit {x : ℕ} {P : ℕ → Prop} (h : ∀ b, x.testBit b ↔ b < 32 ∧ P b) :
    x < 2 ^ 32 := by
  refine Nat.lt_pow_two_of_testBit x fun b hb => ?_
  by_contra hbit
  have hlt := ((h b).1 (by simpa using hbit)).1
  omega

/-- `on_resident` changes nothing and `next_use_distance` does not look at the chunks, as in every
policy of `policy.c`. -/
structure Config.Plain (cfg : Config n σ) : Prop where
  onResident : ∀ f, cfg.policy.bind Policy.onResident = some f → ∀ p c, f p c = p
  nextUseDistance : ∀ f, cfg.policy.bind Policy.nextUseDistance = some f →
    ∀ p chunks chunks' c, f p chunks c = f p chunks' c

theorem Config.Plain.of_none {cfg : Config n σ} (h : cfg.policy = none) : cfg.Plain := by
  constructor
  · simp [h]
  · simp [h]

theorem Config.Plain.of_lru {cfg : Config n Unit} (h : cfg.policy = some (policyLru n)) :
    cfg.Plain := by
  constructor
  · simp [h, policyLru]
  · simp [h, policyLru]

theorem Config.Plain.of_layerOrderLearned {cfg : Config n (LoLearned n)}
    (h : cfg.policy = some (policyLayerOrderLearned n)) : cfg.Plain := by
  constructor
  · simp [h, policyLayerOrderLearned]
  · simp [h, policyLayerOrderLearned]

theorem Config.Plain.of_layerOrderDeclared {cfg : Config n LoDeclared} {g : LoSettings}
    (h : cfg.policy = some (policyLayerOrderDeclared n g)) : cfg.Plain := by
  constructor
  · simp [h, policyLayerOrderDeclared]
  · simp [h, policyLayerOrderDeclared]

theorem Config.Plain.nextUseDistance_congr {cfg : Config n σ} (h : cfg.Plain) {r r' : Region n σ}
    (hp : r.policyState = r'.policyState) (v : Fin n) :
    cfg.nextUseDistance r v = cfg.nextUseDistance r' v := by
  unfold Config.nextUseDistance
  split
  · rename_i dist hdist
    rw [hp]
    exact h.nextUseDistance dist hdist _ _ _ _
  · rfl

namespace Pager

open Mutex Function Runs

/-- A call of `record_policy_trace`: what it has stored before its loop, and the locals of the
loop. -/
structure RecordCall (n : ℕ) where
  victim : Fin n
  cursor : ℕ
  distance : ℤ
  i : ℕ
  set : ResidentSet

def RecordCall.start (cfg : Config n σ) (cursor : Option (σ → ℕ)) (r : Region n σ) (v : Fin n) :
    RecordCall n where
  victim := v
  cursor := cfg.traceCursor cursor r
  distance := cfg.nextUseDistance r v
  i := 0
  set := ⟨0, 0, 0⟩

/-- The loop looks at chunk `i`. -/
def RecordCall.scan (call : RecordCall n) (chunks : Chunks n) (h : call.i < n) : RecordCall n :=
  { call with i := call.i + 1, set := call.set.round chunks ⟨call.i, h⟩ }

/-- The finished record. -/
def RecordCall.record (call : RecordCall n) (seq : ℕ) : PolicyTraceRecord where
  seq := .ofNat seq
  victimChunk := .ofNat call.victim.1
  cursorChunk := .ofNat call.cursor
  victimNextUseDistance := .ofInt call.distance
  nResident := .ofNat call.set.nResident
  residentSetBitmapLo := .ofNat call.set.bitmapLo
  residentSetBitmapHi := .ofNat call.set.bitmapHi

theorem RecordCall.record_describes {call : RecordCall n} {S : Finset (Fin n)}
    (h : call.set.Shows S) (hn : n < 2 ^ 32) (seq : ℕ) :
    Describes (call.record seq) call.victim S := by
  obtain ⟨hcount, hlo, hhi⟩ := h
  have hle : S.card ≤ n := (Finset.card_le_univ S).trans (Fintype.card_fin n).le
  have hv := call.victim.2
  refine ⟨?_, ?_, fun b => ?_, fun b => ?_⟩
  · show (UInt32.ofNat call.victim.1).toNat = _
    rw [UInt32.toNat_ofNat', Nat.mod_eq_of_lt (by omega)]
  · show (UInt32.ofNat _).toNat = _
    rw [UInt32.toNat_ofNat', hcount, Nat.mod_eq_of_lt (by omega)]
  · show (UInt32.ofNat _).toNat.testBit b = true ↔ _
    rw [UInt32.toNat_ofNat', Nat.mod_eq_of_lt (lt_of_testBit hlo), hlo]
  · show (UInt32.ofNat _).toNat.testBit b = true ↔ _
    rw [UInt32.toNat_ofNat', Nat.mod_eq_of_lt (lt_of_testBit hhi), hhi]

/-- A thread that has a victim: `select_victim` has returned it, or it is being recorded. -/
inductive RecordStage (n : ℕ)
  | chosen (v : Fin n)
  | scanning (call : RecordCall n)

/-! ## The pager with the trace -/

structure Traced (n : ℕ) (σ : Type) where
  pager : State n σ
  trace : PolicyTrace
  /-- the thread in `record_policy_trace` -/
  recording : Option (Tid × RecordStage n)

/-- A step of the pager, or one of the thread that records its victim. -/
inductive TracedAction (n : ℕ)
  | pager (a : Action n)
  | record

/-- The victim that a policy chooses in the step, and the thread that it chooses it for. -/
def chosenVictim (cfg : Config n σ) (s : State n σ) : Action n → Option (Tid × Fin n)
  | .exec t _ =>
    match s.pc t with
    | .go (.job j (.fit _)) =>
      match decision cfg s.sh.region j with
      | .evict v => some (t, v)
      | _ => none
    | _ => none
  | _ => none

/-- The next step of `record_policy_trace`: reserve a record and store what does not depend on the
loop, look at one more chunk, or complete the record. Its slot in `records` is left out until
then: nobody looks at the array before the run has ended. -/
def recordPolicyTrace (cfg : Config n σ) (cursor : Option (σ → ℕ)) (s : Traced n σ) (t : Tid) :
    RecordStage n → Option (Traced n σ)
  | .chosen v =>
    -- the `abort` of `policy_trace_reserve`
    if s.trace.records.length ≥ s.trace.capacity then none
    else some { s with recording := some (t, .scanning (.start cfg cursor s.pager.sh.region v)) }
  | .scanning call =>
    if h : call.i < n then
      some { s with recording := some (t, .scanning (call.scan s.pager.sh.region.chunks h)) }
    else
      some { s with
        trace := { s.trace with
          records := s.trace.records ++ [call.record s.trace.nextSeq]
          nextSeq := s.trace.nextSeq + 1 }
        recording := none }

def tracedStep (cfg : Config n σ) (cursor : Option (σ → ℕ)) (a : TracedAction n) (s : Traced n σ) :
    Option (Traced n σ) :=
  match a with
  | .pager a =>
    -- a thread that records does nothing else
    if s.recording.any fun x => a.thread = some x.1 then none
    else
      (step cfg a s.pager).map fun s' =>
        { s with
          pager := s'
          recording := ((chosenVictim cfg s.pager a).map fun x => (x.1, .chosen x.2)).or s.recording }
  | .record => s.recording.bind fun x => recordPolicyTrace cfg cursor s x.1 x.2

def tracedPager (cfg : Config n σ) (cursor : Option (σ → ℕ)) (p : σ) (pt : PolicyTrace) :
    Machine (Traced n σ) (TracedAction n) where
  init := ⟨(pager cfg p).init, pt, none⟩
  step := tracedStep cfg cursor

/-! ## History -/

/-- What happens to victims: a policy chooses one, and its record is completed, each with the
region at that time; a pin is broken to get one; `evict_chunk` evicts it. -/
inductive VictimEvent (n : ℕ) (σ : Type)
  | chosen (v : Fin n) (r : Region n σ)
  | ended (r : Region n σ)
  | broken (v : Fin n)
  | evicted (v : Fin n)

def decisionEvents (r : Region n σ) : Decision n → List (VictimEvent n σ)
  | .evict v => [.chosen v r]
  | .breakPin v => [.broken v]
  | _ => []

def Point.victimEvents (cfg : Config n σ) (r : Region n σ) : Point n → List (VictimEvent n σ)
  | .job j (.fit _) => decisionEvents r (decision cfg r j)
  | .job _ (.evict _ v) => [.evicted v]
  | _ => []

theorem victimEvents_fit (cfg : Config n σ) (r : Region n σ) (j : Job n) (a : ℕ) :
    (Point.job j (.fit a)).victimEvents cfg r = decisionEvents r (decision cfg r j) := rfl

/-- The events of a step of the pager. -/
def pagerEvents (cfg : Config n σ) (s : State n σ) : Action n → List (VictimEvent n σ)
  | .exec t _ =>
    match s.pc t with
    | .go k => k.victimEvents cfg s.sh.region
    | .acq _ => []
  | _ => []

def RecordStage.events (r : Region n σ) : RecordStage n → List (VictimEvent n σ)
  | .chosen _ => []
  | .scanning call => if call.i < n then [] else [.ended r]

def victimNote (cfg : Config n σ) (a : TracedAction n) (s _ : Traced n σ) :
    List (VictimEvent n σ) :=
  match a with
  | .pager a => pagerEvents cfg s.pager a
  | .record => (s.recording.map fun x => x.2.events s.pager.sh.region).getD []

/-- The victims, in the order in which they were found. -/
def found (log : List (VictimEvent n σ)) : List (Fin n) :=
  log.filterMap fun
    | .chosen v _ => some v
    | .broken v => some v
    | _ => none

/-- Those that a policy chose, each with the region that it chose from. -/
def chosen (log : List (VictimEvent n σ)) : List (Fin n × Region n σ) :=
  log.filterMap fun
    | .chosen v r => some (v, r)
    | _ => none

/-- The regions in which records were completed. -/
def ended (log : List (VictimEvent n σ)) : List (Region n σ) :=
  log.filterMap fun
    | .ended r => some r
    | _ => none

def broken (log : List (VictimEvent n σ)) : List (Fin n) :=
  log.filterMap fun
    | .broken v => some v
    | _ => none

def evicted (log : List (VictimEvent n σ)) : List (Fin n) :=
  log.filterMap fun
    | .evicted v => some v
    | _ => none

@[simp] theorem found_append (l l' : List (VictimEvent n σ)) : found (l ++ l') = found l ++ found l' :=
  List.filterMap_append

@[simp] theorem chosen_append (l l' : List (VictimEvent n σ)) :
    chosen (l ++ l') = chosen l ++ chosen l' := List.filterMap_append

@[simp] theorem ended_append (l l' : List (VictimEvent n σ)) :
    ended (l ++ l') = ended l ++ ended l' := List.filterMap_append

@[simp] theorem broken_append (l l' : List (VictimEvent n σ)) :
    broken (l ++ l') = broken l ++ broken l' := List.filterMap_append

@[simp] theorem evicted_append (l l' : List (VictimEvent n σ)) :
    evicted (l ++ l') = evicted l ++ evicted l' := List.filterMap_append

/-! ## What a step finds and evicts -/

section

variable {cfg : Config n σ} {t : Tid} {io : Input n} {sh sh' : Shared n σ} {k k' : Point n}
  {j : Job n} {i : Instr n}

/-- `stat_evictions` and `stat_pin_broken`. -/
def Shared.victimStats (sh : Shared n σ) : ℕ × ℕ :=
  (sh.region.stats.evictions, sh.region.stats.pinBroken)

theorem hook_victimStats (sh : Shared n σ) (f : Option (σ → Fin n → σ)) (c : Fin n) :
    (sh.hook f c).victimStats = sh.victimStats := by
  cases f <;> rfl

theorem release_victimStats (sh : Shared n σ) (c : Fin n) :
    (sh.setRegion (prefetchRetainRelease sh.region c)).victimStats = sh.victimStats := by
  unfold prefetchRetainRelease
  split <;> rfl

theorem countFailed_victimStats (sh : Shared n σ) (j : Job n) :
    (countFailed sh j).victimStats = sh.victimStats := by
  cases j <;> rfl

theorem ensured_victim (cfg : Config n σ) (a : ℕ) (ok : Bool) (j : Job n) :
    (Point.job j (ensured cfg a ok j)).victim = none := by
  cases hv : (Point.job j (ensured cfg a ok j)).victim with
  | none => rfl
  | some v =>
    have hmem := Point.budget_mem_base_of_victim hv
    rw [Point.base_job, (ensured_plain cfg a ok j).1] at hmem
    cases j <;> simp [Job.locks] at hmem

/-- A step finds the victim that its thread evicts next. -/
theorem exec_found (hexec : exec cfg t io sh k = .next sh' k') :
    found (k.victimEvents cfg sh.region) = k'.victim.toList ∧
      evicted (k.victimEvents cfg sh.region) = k.victim.toList := by
  by_cases hfit : ∃ j a, k = .job j (.fit a)
  · rcases hfit with ⟨j, a, rfl⟩
    cases exec_branch hexec with
    | job h =>
      cases h with
      | choose hdecide | breakPin hdecide =>
        rw [victimEvents_fit, hdecide]
        exact ⟨rfl, rfl⟩
      | reserve hdecide | infeasible hdecide | decline hdecide =>
        rw [victimEvents_fit, hdecide, ensured_victim]
        exact ⟨rfl, rfl⟩
  · -- only the head of the loop is followed by an eviction
    have hnone : k'.victim = none := by
      cases hv : k'.victim with
      | none => rfl
      | some v => exact absurd ((exec_flow hexec).victim v hv) hfit
    rw [hnone]
    cases k with
    | job j i =>
      cases i with
      | fit a => exact absurd ⟨j, a, rfl⟩ hfit
      | _ => exact ⟨rfl, rfl⟩
    | _ => exact ⟨rfl, rfl⟩

/-- The statistics count what is evicted and what is broken. -/
theorem exec_victimStats (hexec : exec cfg t io sh k = .next sh' k') : sh'.victimStats =
    (sh.region.stats.evictions + (evicted (k.victimEvents cfg sh.region)).length,
      sh.region.stats.pinBroken + (broken (k.victimEvents cfg sh.region)).length) := by
  cases exec_branch hexec with
  | job h =>
    cases h with
    | breakPin hdecide =>
      rw [victimEvents_fit, hdecide]
      exact congrArg (fun x : ℕ × ℕ => (x.1, x.2 + 1)) (release_victimStats sh _)
    | choose hdecide | reserve hdecide | infeasible hdecide | decline hdecide =>
      rw [victimEvents_fit, hdecide]
      rfl
    | pad =>
      unfold padTail
      split <;> rfl
    | commit => split <;> rfl
    | mark =>
      unfold markResident
      split
      · rfl
      · exact hook_victimStats _ _ _
    | abandon => exact countFailed_victimStats _ _
    | retain =>
      unfold prefetchRetainOnResident
      split
      · split <;> rfl
      · rfl
    | finishPrefetch _ => exact hook_victimStats _ _ _
    | topEnqueue =>
      unfold Pager.topEnqueue
      split <;> rfl
    | _ => rfl
  | onFault | onAccess => exact hook_victimStats _ _ _
  | release => exact release_victimStats _ _
  | _ => rfl

end

/-! ## While a victim is recorded -/

section

variable {cfg : Config n σ} {cursor : Option (σ → ℕ)} {s s' : State n σ} {a : Action n} {t u : Tid}
  {io : Input n} {sh sh' : Shared n σ} {k k' : Point n} {V V' : View n} {v v' d : Fin n}
  {r now now' : Region n σ} {call : RecordCall n} {stage : RecordStage n}

theorem onResident_policyState (hplain : cfg.Plain) (sh : Shared n σ) (c : Fin n) :
    (sh.hook (cfg.policy.bind Policy.onResident) c).region.policyState =
      sh.region.policyState := by
  cases hf : cfg.policy.bind Policy.onResident with
  | none => rfl
  | some f => exact hplain.onResident f hf _ _

theorem countFailed_policyState (sh : Shared n σ) (j : Job n) :
    (countFailed sh j).region.policyState = sh.region.policyState := by
  cases j <;> rfl

/-- The other hooks are called with the budget. -/
theorem exec_policyState (hplain : cfg.Plain)
    (hexec : exec cfg t io sh k = .next sh' k') (hk : .budget ∉ k.holds) :
    sh'.region.policyState = sh.region.policyState := by
  cases exec_branch hexec with
  | job h =>
    cases h with
    | mark =>
      unfold markResident
      split
      · rfl
      · exact onResident_policyState hplain _ _
    | finishPrefetch _ => exact onResident_policyState hplain _ _
    | breakPin _ | retain | commit => exact absurd List.mem_cons_self hk
    | pad =>
      unfold padTail
      split <;> rfl
    | abandon => exact countFailed_policyState _ _
    | topEnqueue =>
      unfold Pager.topEnqueue
      split <;> rfl
    | _ => rfl
  | onFault | onAccess | release => exact absurd List.mem_cons_self hk
  | _ => rfl

/-- Only an eviction takes a chunk out of `RESIDENT`. -/
theorem Deed.resident_mono (h : Deed cfg k k' V V') (hvictim : k.victim = none)
    (habandon : ∀ j, k = .job j .abandon → ¬ V.Resident j.target) (hd : V.Resident d) :
    V'.Resident d := by
  cases h with
  | begin hst _ _ _ _ => exact (resident_setPhase (by simp) (by simp [hst]) d).2 hd
  | reclaim hst _ _ => exact (resident_setPhase (by simp) (by simp [hst]) d).2 hd
  | @abandon j _ => exact (resident_setPhase (by simp) (habandon j rfl) d).2 hd
  | evict _ => cases hvictim
  | @mark j _ =>
    by_cases hdj : d = j.target
    · rw [hdj, View.resident_setPhase_self]
    · exact (View.resident_setPhase_of_ne V hdj _ _).2 hd
  | _ => exact hd

/-- A thread about to evict holds the budget. -/
theorem Sound.budget_notMem (h : Sound cfg s) (hu : (s.pc u).point.victim = some v) (htu : t ≠ u) :
    .budget ∉ (s.pc t).holds := by
  intro hmem
  exact htu (h.owned.unique hmem
    ((s.pc u).base_subset_holds (Point.budget_mem_base_of_victim hu)))

/-- What the steps of other threads leave alone, while `u` is about to evict `v`. -/
structure Kept (cfg : Config n σ) (s s' : State n σ) : Prop where
  residents : s.sh.region.residents ⊆ s'.sh.region.residents
  policyState : cfg.Plain →
    s'.sh.region.policyState = s.sh.region.policyState

theorem Kept.of_region (h : s'.sh.region = s.sh.region) : Kept cfg s s' :=
  ⟨by rw [h], fun _ => by rw [h]⟩

theorem Sound.kept (h : Sound cfg s) (hu : (s.pc u).point.victim = some v)
    (ha : a.thread ≠ some u) (hstep : Pager.step cfg a s = some s') : Kept cfg s s' := by
  cases moves_of_step hstep with
  | @exec _ t io k sh k' hpc hexec =>
    have htu : t ≠ u := fun htu => ha (congrArg some htu)
    have hbudget := h.budget_notMem hu htu
    rw [hpc] at hbudget
    have hvictim : k.victim = none := by
      cases hk : k.victim with
      | none => rfl
      | some w => exact absurd (h.victim_unique (u := w) (by rw [hpc]; exact hk) hu) htu
    have habandon : ∀ j, k = .job j .abandon → ¬ s.sh.view.Resident j.target := by
      rintro j rfl
      exact h.not_resident hpc (show Role.Fits _ _ from rfl) (by simp [Instr.role])
    refine ⟨fun d hd => ?_, fun hplain => exec_policyState hplain hexec hbudget⟩
    rw [Region.mem_residents] at hd ⊢
    exact (h.deed hpc hexec).resident_mono hvictim habandon hd
  | _ => exact Kept.of_region rfl

theorem Sound.chosenVictim_eq_none (h : Sound cfg s) (hu : (s.pc u).point.victim = some v)
    (ha : a.thread ≠ some u) : chosenVictim cfg s a = none := by
  cases hv : chosenVictim cfg s a with
  | none => rfl
  | some x =>
    unfold chosenVictim at hv
    split at hv
    · rename_i t io
      split at hv
      · rename_i hpc
        have hbudget := h.budget_notMem (t := t) hu fun htu => ha (congrArg some htu)
        rw [hpc] at hbudget
        exact absurd List.mem_cons_self hbudget
      · cases hv
    · cases hv

/-! ## A call of `record_policy_trace` -/

/-- How far the call for the victim `v`, chosen from the region `r`, has got. -/
structure RecordCall.Follows (cfg : Config n σ) (cursor : Option (σ → ℕ)) (v : Fin n)
    (r now : Region n σ) (call : RecordCall n) : Prop where
  victim : call.victim = v
  cursor : cfg.Plain → call.cursor = cfg.traceCursor cursor r
  distance : cfg.Plain → call.distance = cfg.nextUseDistance r v
  /-- the loop has found what was `RESIDENT` at first, and perhaps more -/
  found : ∃ S : Finset (Fin n), call.set.Shows S ∧ (∀ c ∈ r.residents, c.1 < call.i → c ∈ S) ∧
    S ⊆ now.residents ∧ ∀ c ∈ S, c.1 < call.i

def RecordStage.Follows (cfg : Config n σ) (cursor : Option (σ → ℕ)) (v : Fin n)
    (r now : Region n σ) : RecordStage n → Prop
  | .chosen u => u = v
  | .scanning call => call.Follows cfg cursor v r now

/-- The thread `t` records the victim `v`, which was chosen from the region `r`. -/
structure Recording (cfg : Config n σ) (cursor : Option (σ → ℕ)) (s : State n σ) (t : Tid)
    (stage : RecordStage n) (v : Fin n) (r : Region n σ) : Prop where
  victim : (s.pc t).point.victim = some v
  residents : r.residents ⊆ s.sh.region.residents
  policyState : cfg.Plain → s.sh.region.policyState = r.policyState
  stage : stage.Follows cfg cursor v r s.sh.region

theorem RecordStage.Follows.mono (h : stage.Follows cfg cursor v r now)
    (hnow : now.residents ⊆ now'.residents) : stage.Follows cfg cursor v r now' := by
  cases stage with
  | chosen u => exact h
  | scanning call =>
    obtain ⟨hv, hcursor, hdist, S, hshows, hold, hS, hlt⟩ := h
    exact ⟨hv, hcursor, hdist, S, hshows, hold, hS.trans hnow, hlt⟩

theorem Recording.kept (h : Recording cfg cursor s t stage v r) (hs : Sound cfg s)
    (ha : a.thread ≠ some t) (hstep : step cfg a s = some s') :
    Recording cfg cursor s' t stage v r := by
  obtain ⟨hresidents, hpolicy⟩ := hs.kept h.victim ha hstep
  refine ⟨?_, h.residents.trans hresidents, fun hplain => ?_, h.stage.mono hresidents⟩
  · rw [step_pc_of_ne hstep ha]
    exact h.victim
  · exact (hpolicy hplain).trans (h.policyState hplain)

theorem Recording.start (h : Recording cfg cursor s t (.chosen v') v r) :
    Recording cfg cursor s t (.scanning (.start cfg cursor s.sh.region v')) v r := by
  obtain ⟨hvictim, hresidents, hpolicy, hstage⟩ := h
  obtain rfl : v' = v := hstage
  refine ⟨hvictim, hresidents, hpolicy, rfl, fun hplain => ?_, fun hplain => ?_, ∅,
    ResidentSet.shows_empty, ?_, Finset.empty_subset _, by simp⟩
  · show cfg.traceCursor cursor s.sh.region = _
    unfold Config.traceCursor
    rw [hpolicy hplain]
  · exact hplain.nextUseDistance_congr (hpolicy hplain) _
  · intro c _ hc
    cases hc

theorem Recording.scan (h : Recording cfg cursor s t (.scanning call) v r) (hi : call.i < n) :
    Recording cfg cursor s t (.scanning (call.scan s.sh.region.chunks hi)) v r := by
  obtain ⟨hvictim, hresidents, hpolicy, hv, hcursor, hdist, S, hshows, hold, hS, hlt⟩ := h
  refine ⟨hvictim, hresidents, hpolicy, hv, hcursor, hdist, ?_⟩
  show ∃ S', (call.set.round s.sh.region.chunks ⟨call.i, hi⟩).Shows S' ∧
    (∀ c ∈ r.residents, c.1 < call.i + 1 → c ∈ S') ∧ S' ⊆ s.sh.region.residents ∧
      ∀ c ∈ S', c.1 < call.i + 1
  by_cases hst : (s.sh.region.chunks ⟨call.i, hi⟩).state = .resident
  · have hnew : (⟨call.i, hi⟩ : Fin n) ∉ S := fun hmem => (hlt _ hmem).false
    refine ⟨insert ⟨call.i, hi⟩ S, hshows.round hnew hst, fun c hc hci => ?_, ?_, fun c hc => ?_⟩
    · rcases Nat.lt_succ_iff_lt_or_eq.1 hci with hlow | heq
      · exact Finset.mem_insert_of_mem (hold c hc hlow)
      · exact Finset.mem_insert.2 (Or.inl (Fin.ext heq))
    · exact Finset.insert_subset (Region.mem_residents.2 hst) hS
    · rcases Finset.mem_insert.1 hc with rfl | hc
      · exact Nat.lt_succ_self _
      · exact (hlt c hc).trans (Nat.lt_succ_self _)
  · rw [ResidentSet.round_of_ne hst]
    refine ⟨S, hshows, fun c hc hci => ?_, hS, fun c hc => (hlt c hc).trans (Nat.lt_succ_self _)⟩
    rcases Nat.lt_succ_iff_lt_or_eq.1 hci with hlow | heq
    · exact hold c hc hlow
    · -- it would still be `RESIDENT`
      obtain rfl : c = ⟨call.i, hi⟩ := Fin.ext heq
      exact absurd (Region.mem_residents.1 (hresidents hc)) hst

/-- What a record says about its victim `v`, chosen from `r`, when it is completed in `r'`. -/
structure Recorded (cfg : Config n σ) (cursor : Option (σ → ℕ)) (v : Fin n) (r r' : Region n σ)
    (rec : PolicyTraceRecord) : Prop where
  described : ∃ S, Describes rec v S ∧ r.residents ⊆ S ∧ S ⊆ r'.residents
  cursor : cfg.Plain → rec.cursorChunk = .ofNat (cfg.traceCursor cursor r)
  distance : cfg.Plain →
    rec.victimNextUseDistance = .ofInt (cfg.nextUseDistance r v)

theorem Recording.recorded (h : Recording cfg cursor s t (.scanning call) v r) (hn : n < 2 ^ 32)
    (hi : ¬ call.i < n) (seq : ℕ) : Recorded cfg cursor v r s.sh.region (call.record seq) := by
  obtain ⟨-, -, -, hv, hcursor, hdist, S, hshows, hold, hS, -⟩ := h
  refine ⟨⟨S, ?_, fun c hc => hold c hc (c.2.trans_le (Nat.le_of_not_lt hi)), hS⟩,
    fun hplain => ?_, fun hplain => ?_⟩
  · rw [← hv]
    exact RecordCall.record_describes hshows hn seq
  · exact congrArg UInt32.ofNat (hcursor hplain)
  · exact congrArg Int64.ofInt (hdist hplain)

end

/-! ## What every run keeps -/

/-- The order of the evictions, and the statistics. -/
structure Evictions (s : State n σ) (log : List (VictimEvent n σ)) : Prop where
  /-- at most one victim has been found and not evicted -/
  order : (∀ t, (s.pc t).point.victim = none) ∧ found log = evicted log ∨
    ∃ t v, (s.pc t).point.victim = some v ∧ found log = evicted log ++ [v]
  stats : s.sh.victimStats = ((evicted log).length, (broken log).length)

section

variable {cfg : Config n σ} {s s' : State n σ} {a : Action n} {log : List (VictimEvent n σ)}

theorem pagerEvents_go {t : Tid} {io : Input n} {k : Point n} (hpc : s.pc t = .go k) :
    pagerEvents cfg s (.exec t io) = k.victimEvents cfg s.sh.region := by
  simp [pagerEvents, hpc]

theorem Evictions.init (cfg : Config n σ) (p : σ) : Evictions (pager cfg p).init [] := by
  refine ⟨Or.inl ⟨fun t => ?_, rfl⟩, rfl⟩
  exact init_point (P := fun k => k.victim = none) rfl rfl rfl rfl cfg p t

/-- A step that evicts nothing and finds nothing. -/
theorem Evictions.order_same (h : Evictions s log)
    (hpc : ∀ t, (s'.pc t).point.victim = (s.pc t).point.victim) :
    (∀ t, (s'.pc t).point.victim = none) ∧ found log = evicted log ∨
      ∃ t v, (s'.pc t).point.victim = some v ∧ found log = evicted log ++ [v] := by
  rcases h.order with ⟨hnone, horder⟩ | ⟨t, v, ht, horder⟩
  · exact Or.inl ⟨fun t => (hpc t).trans (hnone t), horder⟩
  · exact Or.inr ⟨t, v, (hpc t).trans ht, horder⟩

/-- Who is at the head of the budget loop, or evicts, is alone there. -/
theorem Evictions.order_exec {t : Tid} {io : Input n} {k k' : Point n} {sh : Shared n σ}
    (h : Evictions s log) (hs : Sound cfg s) (hpc : s.pc t = .go k)
    (hexec : exec cfg t io s.sh k = .next sh k') :
    (∀ u, ((s.arrive t sh k').pc u).point.victim = none) ∧
        found (log ++ k.victimEvents cfg s.sh.region) =
          evicted (log ++ k.victimEvents cfg s.sh.region) ∨
      ∃ u v, ((s.arrive t sh k').pc u).point.victim = some v ∧
        found (log ++ k.victimEvents cfg s.sh.region) =
          evicted (log ++ k.victimEvents cfg s.sh.region) ++ [v] := by
  obtain ⟨hfound, hevicted⟩ := exec_found hexec
  have hself : ((s.arrive t sh k').pc t).point.victim = k'.victim := by
    rw [point_arrive_self]
  have hother : ∀ u, u ≠ t →
      ((s.arrive t sh k').pc u).point.victim = (s.pc u).point.victim := by
    intro u hu
    rw [point_arrive_of_ne hu]
  have hold : (s.pc t).point.victim = k.victim := by
    rw [hpc]
    rfl
  rw [found_append, evicted_append, hfound, hevicted]
  cases hk : k.victim with
  | some v =>
    -- `t` evicts `v`
    rw [hk] at hold
    have hnone : k'.victim = none := by
      cases hk' : k'.victim with
      | none => rfl
      | some w =>
        rcases (exec_flow hexec).victim w hk' with ⟨j, a, rfl⟩
        cases hk
    rcases h.order with ⟨hall, -⟩ | ⟨u, w, hu, horder⟩
    · rw [hall t] at hold
      cases hold
    · obtain rfl := hs.victim_unique hu hold
      rw [hold] at hu
      cases hu
      refine Or.inl ⟨fun x => ?_, by rw [hnone, horder]; simp⟩
      by_cases hx : x = u
      · rw [hx, hself, hnone]
      · rw [hother x hx]
        cases hv : (s.pc x).point.victim with
        | none => rfl
        | some w => exact absurd (hs.victim_unique hv hold) hx
  | none =>
    rw [hk] at hold
    cases hk' : k'.victim with
    | some v =>
      -- `t` holds the budget, so nobody else has found a victim
      rcases (exec_flow hexec).victim v hk' with ⟨j, b, rfl⟩
      have hbudget : .budget ∈ (s.pc t).holds := by
        rw [hpc]
        exact List.mem_append_right _ List.mem_cons_self
      rcases h.order with ⟨-, horder⟩ | ⟨u, w, hu, -⟩
      · refine Or.inr ⟨t, v, hself.trans hk', ?_⟩
        rw [horder]
        simp
      · by_cases htu : t = u
        · rw [← htu, hold] at hu
          cases hu
        · exact absurd hbudget (hs.budget_notMem hu htu)
    | none =>
      simp only [Option.toList_none, List.append_nil]
      refine h.order_same fun u => ?_
      by_cases hu : u = t
      · rw [hu, hself, hk', hold]
      · exact hother u hu

theorem Evictions.step (h : Evictions s log) (hs : Sound cfg s)
    (hstep : Pager.step cfg a s = some s') : Evictions s' (log ++ pagerEvents cfg s a) := by
  -- most steps have nothing to do with victims
  have hquiet : pagerEvents cfg s a = [] → s'.sh.victimStats = s.sh.victimStats →
      (∀ t, (s'.pc t).point.victim = (s.pc t).point.victim) →
      Evictions s' (log ++ pagerEvents cfg s a) := by
    intro hnote hstats hpc
    rw [hnote, List.append_nil]
    exact ⟨h.order_same hpc, hstats.trans h.stats⟩
  cases moves_of_step hstep with
  | acquire hpc _ _ => exact hquiet rfl rfl fun t => congrArg Point.victim (acquire_point hpc t)
  | @giveUp _ now c hpc =>
    refine hquiet rfl rfl fun t => ?_
    show (update s.pc .handler (enter (.watch now (c.1 + 1))) t).point.victim =
      (s.pc t).point.victim
    by_cases ht : t = .handler
    · rw [ht, update_self, enter_point, hpc]
      rfl
    · rw [update_of_ne ht]
  | @exec _ t io k sh k' hpc hexec =>
    rw [pagerEvents_go hpc]
    refine ⟨h.order_exec hs hpc hexec, ?_⟩
    have hstats := exec_victimStats hexec
    obtain ⟨hevictions, hbroken⟩ := Prod.mk.inj h.stats
    rw [evicted_append, broken_append, List.length_append, List.length_append, ← hevictions,
      ← hbroken]
    exact hstats
  | _ => exact hquiet rfl rfl fun _ => rfl

/-- A choice is noted with its region, and nothing ends. -/
theorem chosen_pagerEvents (cfg : Config n σ) (s : State n σ) (a : Action n) :
    chosen (pagerEvents cfg s a) =
        (chosenVictim cfg s a).toList.map (fun x => (x.2, s.sh.region)) ∧
      ended (pagerEvents cfg s a) = [] := by
  cases a with
  | exec t io =>
    cases hpc : s.pc t with
    | acq k => simp [pagerEvents, chosenVictim, hpc, chosen, ended]
    | go k =>
      rw [pagerEvents_go hpc]
      cases k with
      | job j i =>
        cases i with
        | fit a =>
          rw [victimEvents_fit]
          cases hdecide : decision cfg s.sh.region j <;>
            simp [chosenVictim, hpc, hdecide, decisionEvents, chosen, ended]
        | _ => simp [chosenVictim, hpc, Point.victimEvents, chosen, ended]
      | _ => simp [chosenVictim, hpc, Point.victimEvents, chosen, ended]
  | _ => exact ⟨rfl, rfl⟩

/-- The step that chooses a victim changes nothing else. -/
theorem chosenVictim_some {t : Tid} {v : Fin n} (h : chosenVictim cfg s a = some (t, v))
    (hstep : Pager.step cfg a s = some s') :
    cfg.selectVictim s.sh.region = some v ∧ s'.sh = s.sh ∧
      (s'.pc t).point.victim = some v := by
  unfold chosenVictim at h
  split at h
  · rename_i u io
    split at h
    · rename_i j b hpc
      split at h
      · rename_i w hdecide
        cases h
        refine ⟨decision_evict hdecide, ?_⟩
        cases moves_of_step hstep with
        | exec hpc' hexec =>
          rw [hpc] at hpc'
          cases hpc'
          cases exec_branch hexec with
          | job hbranch =>
            cases hbranch with
            | choose hdecide' =>
              rw [hdecide] at hdecide'
              cases hdecide'
              refine ⟨rfl, ?_⟩
              rw [point_arrive_self]
              rfl
            | breakPin hdecide' | reserve hdecide' | infeasible hdecide' | decline hdecide' =>
              rw [hdecide] at hdecide'
              cases hdecide'
      · cases h
    · cases h
  · cases h

end

/-- What remains of the choices when the recorded ones are left out. -/
def Pending (cfg : Config n σ) (cursor : Option (σ → ℕ)) (s : State n σ) :
    Option (Tid × RecordStage n) → List (Fin n × Region n σ) → Prop
  | none, rest => rest = []
  | some (t, stage), rest => ∃ v r, rest = [(v, r)] ∧ Recording cfg cursor s t stage v r

/-- The records are numbered from 1, and there is room for them. -/
structure Numbered (cap : ℕ) (pt : PolicyTrace) : Prop where
  nextSeq : pt.nextSeq = pt.records.length + 1
  seq : ∀ (i : ℕ) (rec : PolicyTraceRecord), pt.records[i]? = some rec → rec.seq = .ofNat (i + 1)
  capacity : pt.capacity = cap
  room : pt.records.length ≤ cap

/-- The trace of a run. -/
structure TraceLog (cfg : Config n σ) (cursor : Option (σ → ℕ)) (cap : ℕ) (s : Traced n σ)
    (log : List (VictimEvent n σ)) : Prop where
  evictions : Evictions s.pager log
  numbered : Numbered cap s.trace
  /-- a record that is being filled has its place -/
  reserved : ∀ t call, s.recording = some (t, .scanning call) → s.trace.records.length < cap
  selected : ∀ e ∈ chosen log, cfg.selectVictim e.2 = some e.1
  ended : (ended log).length = s.trace.records.length
  book : ∃ done rest, chosen log = done ++ rest ∧
    List.Forall₂ (fun e f => Recorded cfg cursor e.1 e.2 f.2 f.1) done
      (s.trace.records.zip (Pager.ended log)) ∧
    Pending cfg cursor s.pager s.recording rest

section

variable {cfg : Config n σ} {cursor : Option (σ → ℕ)} {cap : ℕ} {s s' : Traced n σ} {a : Action n}
  {log : List (VictimEvent n σ)} {p : σ} {pt : PolicyTrace}

theorem TraceLog.init (cfg : Config n σ) (cursor : Option (σ → ℕ)) (p : σ)
    (hpt : policyTraceOpen cap = some pt) :
    TraceLog cfg cursor cap (tracedPager cfg cursor p pt).init [] := by
  unfold policyTraceOpen at hpt
  split at hpt
  · cases hpt
    exact ⟨Evictions.init cfg p, ⟨rfl, by simp [tracedPager], rfl, Nat.zero_le _⟩, nofun, nofun, rfl,
      [], [], rfl, .nil, rfl⟩
  · cases hpt

/-- A step of the pager is one of a thread that records nothing. -/
theorem tracedStep_pager (h : tracedStep cfg cursor (.pager a) s = some s') :
    (∀ t stage, s.recording = some (t, stage) → a.thread ≠ some t) ∧
      step cfg a s.pager = some s'.pager ∧ s'.trace = s.trace ∧
      s'.recording = ((chosenVictim cfg s.pager a).map fun x => (x.1, .chosen x.2)).or
        s.recording := by
  unfold tracedStep at h
  dsimp only at h
  split at h
  · cases h
  · rename_i hany
    rcases Option.map_eq_some_iff.1 h with ⟨q, hq, rfl⟩
    refine ⟨fun t stage hrec ha => hany ?_, hq, rfl, rfl⟩
    rw [hrec, ha]
    exact decide_eq_true rfl

/-- What a step of `record_policy_trace` does. -/
theorem tracedStep_record (h : tracedStep cfg cursor .record s = some s') :
    ∃ t stage, s.recording = some (t, stage) ∧ s'.pager = s.pager ∧
      ((∃ v, stage = .chosen v ∧ s.trace.records.length < s.trace.capacity ∧ s'.trace = s.trace ∧
          s'.recording = some (t, .scanning (.start cfg cursor s.pager.sh.region v))) ∨
        (∃ call, ∃ hi : call.i < n, stage = .scanning call ∧ s'.trace = s.trace ∧
          s'.recording = some (t, .scanning (call.scan s.pager.sh.region.chunks hi))) ∨
        ∃ call, ¬ call.i < n ∧ stage = .scanning call ∧ s'.recording = none ∧
          s'.trace = { s.trace with
            records := s.trace.records ++ [call.record s.trace.nextSeq]
            nextSeq := s.trace.nextSeq + 1 }) := by
  rcases Option.bind_eq_some_iff.1 h with ⟨⟨t, stage⟩, hrec, hstep⟩
  refine ⟨t, stage, hrec, ?_⟩
  cases stage with
  | chosen v =>
    simp only [recordPolicyTrace] at hstep
    split at hstep
    · cases hstep
    · rename_i hroom
      cases hstep
      exact ⟨rfl, Or.inl ⟨v, rfl, Nat.lt_of_not_le hroom, rfl, rfl⟩⟩
  | scanning call =>
    simp only [recordPolicyTrace] at hstep
    split at hstep
    · rename_i hi
      cases hstep
      exact ⟨rfl, Or.inr (Or.inl ⟨call, hi, rfl, rfl, rfl⟩)⟩
    · rename_i hi
      cases hstep
      exact ⟨rfl, Or.inr (Or.inr ⟨call, hi, rfl, rfl, rfl⟩)⟩

theorem Reachable.of_traced (h : Reachable (tracedPager cfg cursor p pt) s) :
    Reachable (pager cfg p) s.pager := by
  induction h with
  | init => exact Reach.init
  | @step a s s' _ _ hstep ih =>
    cases a with
    | pager a =>
      have hstep' : tracedStep cfg cursor (.pager a) s = some s' := hstep
      exact Reach.step ih trivial (tracedStep_pager hstep').2.1
    | record =>
      rcases tracedStep_record hstep with ⟨t, stage, -, hpager, -⟩
      rw [hpager]
      exact ih

/-- A step that leaves the records alone. -/
theorem TraceLog.keep {l : List (VictimEvent n σ)} (h : TraceLog cfg cursor cap s log)
    (hevictions : Evictions s'.pager (log ++ l)) (htrace : s'.trace = s.trace)
    (hended : Pager.ended l = [])
    (hreserved : ∀ t call, s'.recording = some (t, .scanning call) →
      s.recording = some (t, .scanning call))
    (hselected : ∀ e ∈ Pager.chosen l, cfg.selectVictim e.2 = some e.1)
    (hpending : ∀ rest, Pending cfg cursor s.pager s.recording rest →
      Pending cfg cursor s'.pager s'.recording (rest ++ Pager.chosen l)) :
    TraceLog cfg cursor cap s' (log ++ l) := by
  obtain ⟨done, rest, hdone, hbook, hrest⟩ := h.book
  refine ⟨hevictions, ?_, fun t call hrec => ?_, fun e he => ?_, ?_, done,
    rest ++ Pager.chosen l, ?_, ?_, hpending rest hrest⟩
  · rw [htrace]
    exact h.numbered
  · rw [htrace]
    exact h.reserved t call (hreserved t call hrec)
  · rw [chosen_append] at he
    rcases List.mem_append.1 he with he | he
    · exact h.selected e he
    · exact hselected e he
  · rw [ended_append, hended, List.append_nil, htrace]
    exact h.ended
  · rw [chosen_append, hdone, List.append_assoc]
  · rw [ended_append, hended, List.append_nil, htrace]
    exact hbook

/-- While a victim is recorded nobody else chooses one: its thread has the budget. -/
theorem Pending.chosenVictim_eq_none {t : Tid} {stage : RecordStage n}
    {rest : List (Fin n × Region n σ)} {q : State n σ}
    (h : Pending cfg cursor q (some (t, stage)) rest) (hs : Sound cfg q)
    (ha : a.thread ≠ some t) : chosenVictim cfg q a = none := by
  obtain ⟨v, r, -, hr⟩ := h
  exact hs.chosenVictim_eq_none hr.victim ha

/-- The records are not touched, and the victim of the step is the next to be recorded. -/
theorem TraceLog.pager_step (h : TraceLog cfg cursor cap s log) (hs : Sound cfg s.pager)
    (hstep : tracedStep cfg cursor (.pager a) s = some s') :
    TraceLog cfg cursor cap s' (log ++ pagerEvents cfg s.pager a) := by
  obtain ⟨hthread, hpager, htrace, hrecording⟩ := tracedStep_pager hstep
  obtain ⟨hchosen, hended⟩ := chosen_pagerEvents cfg s.pager a
  refine h.keep (h.evictions.step hs hpager) htrace hended ?_ ?_ ?_
  · intro t call hrec
    rw [hrecording] at hrec
    cases hv : chosenVictim cfg s.pager a with
    | none =>
      rw [hv] at hrec
      exact hrec
    | some x =>
      rw [hv] at hrec
      cases hrec
  · intro e he
    rw [hchosen] at he
    obtain ⟨⟨t, v⟩, hx, rfl⟩ := List.mem_map.1 he
    exact (chosenVictim_some (Option.mem_toList.1 hx) hpager).1
  · intro rest hrest
    rw [hchosen, hrecording]
    cases hrec : s.recording with
    | none =>
      rw [hrec] at hrest
      obtain rfl : rest = [] := hrest
      cases hv : chosenVictim cfg s.pager a with
      | none => exact rfl
      | some x =>
        obtain ⟨t, v⟩ := x
        obtain ⟨-, hsh, hvictim⟩ := chosenVictim_some hv hpager
        refine ⟨v, s.pager.sh.region, rfl, hvictim, ?_, fun _ => ?_, rfl⟩
        · rw [hsh]
        · rw [hsh]
    | some x =>
      obtain ⟨t, stage⟩ := x
      rw [hrec] at hrest
      rw [hrest.chosenVictim_eq_none hs (hthread t stage hrec)]
      obtain ⟨v, r, rfl, hr⟩ := hrest
      exact ⟨v, r, rfl, hr.kept hs (hthread t stage hrec) hpager⟩

/-- The number of the record that is filled next. -/
theorem Numbered.record (h : Numbered cap pt) (hroom : pt.records.length < cap)
    (call : RecordCall n) : Numbered cap { pt with
      records := pt.records ++ [call.record pt.nextSeq]
      nextSeq := pt.nextSeq + 1 } := by
  have hlen : (pt.records ++ [call.record pt.nextSeq]).length = pt.records.length + 1 := by
    rw [List.length_append]
    rfl
  constructor
  · show pt.nextSeq + 1 = (pt.records ++ [call.record pt.nextSeq]).length + 1
    rw [hlen, h.nextSeq]
  · intro i rec hi
    rcases Nat.lt_or_ge i pt.records.length with hlt | hge
    · rw [List.getElem?_append_left hlt] at hi
      exact h.seq i rec hi
    · rw [List.getElem?_append_right hge] at hi
      obtain ⟨hlast, hrec⟩ := List.getElem?_eq_some_iff.1 hi
      have hi' : i = pt.records.length := by
        have hlt : i - pt.records.length < 1 := hlast
        omega
      subst hi'
      rw [← hrec, ← h.nextSeq]
      simp [RecordCall.record]
  · exact h.capacity
  · show (pt.records ++ [call.record pt.nextSeq]).length ≤ cap
    rw [hlen]
    exact hroom

/-- Until its last step a call of `record_policy_trace` changes only its own stage. -/
theorem TraceLog.stage_step {t : Tid} {stage stage' : RecordStage n}
    (h : TraceLog cfg cursor cap s log) (hrec : s.recording = some (t, stage))
    (hnext : ∀ v r, Recording cfg cursor s.pager t stage v r →
      Recording cfg cursor s.pager t stage' v r)
    (hroom : s.trace.records.length < cap) :
    TraceLog cfg cursor cap { s with recording := some (t, stage') } log := by
  obtain ⟨done, rest, hdone, hbook, hpending⟩ := h.book
  refine ⟨h.evictions, h.numbered, fun _ _ _ => hroom, h.selected, h.ended, done, rest, hdone,
    hbook, ?_⟩
  rw [hrec] at hpending
  rcases hpending with ⟨v, r, hrest, hr⟩
  exact ⟨v, r, hrest, hnext v r hr⟩

theorem Evictions.events_stage {q : State n σ} {r : Region n σ} (h : Evictions q log)
    (stage : RecordStage n) : Evictions q (log ++ stage.events r) := by
  have hnothing : found (stage.events r) = [] ∧ evicted (stage.events r) = [] ∧
      broken (stage.events r) = [] := by
    unfold RecordStage.events
    split
    · exact ⟨rfl, rfl, rfl⟩
    · split
      · exact ⟨rfl, rfl, rfl⟩
      · exact ⟨rfl, rfl, rfl⟩
  obtain ⟨hfound, hevicted, hbroken⟩ := hnothing
  obtain ⟨horder, hstats⟩ := h
  constructor
  · rw [found_append, evicted_append, hfound, hevicted, List.append_nil, List.append_nil]
    exact horder
  · rw [evicted_append, broken_append, hevicted, hbroken, List.append_nil, List.append_nil]
    exact hstats

theorem TraceLog.record_step (h : TraceLog cfg cursor cap s log) (hn : n < 2 ^ 32)
    (hstep : tracedStep cfg cursor .record s = some s') :
    TraceLog cfg cursor cap s' (log ++ victimNote cfg .record s s') := by
  rcases tracedStep_record hstep with ⟨t, stage, hrec, hpager, hcases⟩
  have hnote : victimNote cfg .record s s' = stage.events s.pager.sh.region := by
    simp [victimNote, hrec]
  rw [hnote]
  rcases s' with ⟨q, trace, recording⟩
  obtain rfl : q = s.pager := hpager
  rcases hcases with ⟨v, rfl, hroom, htrace, hrec'⟩ | ⟨call, hi, rfl, htrace, hrec'⟩ |
    ⟨call, hi, rfl, hrec', htrace⟩
  · obtain rfl : trace = s.trace := htrace
    obtain rfl : recording = _ := hrec'
    rw [h.numbered.capacity] at hroom
    rw [show RecordStage.events s.pager.sh.region (.chosen v) = [] from rfl, List.append_nil]
    exact h.stage_step hrec (fun _ _ hr => hr.start) hroom
  · obtain rfl : trace = s.trace := htrace
    obtain rfl : recording = _ := hrec'
    rw [show RecordStage.events s.pager.sh.region (.scanning call) = [] from if_pos hi,
      List.append_nil]
    exact h.stage_step hrec (fun _ _ hr => hr.scan hi) (h.reserved t call hrec)
  · obtain rfl : trace = _ := htrace
    obtain rfl : recording = none := hrec'
    have hevents : RecordStage.events s.pager.sh.region (.scanning call) =
        [.ended s.pager.sh.region] := if_neg hi
    have hchosen : Pager.chosen (log ++ RecordStage.events s.pager.sh.region (.scanning call)) =
        Pager.chosen log := by
      rw [chosen_append, hevents]
      exact List.append_nil _
    have hended : Pager.ended (log ++ RecordStage.events s.pager.sh.region (.scanning call)) =
        Pager.ended log ++ [s.pager.sh.region] := by
      rw [ended_append, hevents]
      rfl
    obtain ⟨done, rest, hdone, hbook, hpending⟩ := h.book
    rw [hrec] at hpending
    rcases hpending with ⟨v, r, hrest, hr⟩
    refine ⟨h.evictions.events_stage _, h.numbered.record (h.reserved t call hrec) call, nofun, ?_,
      ?_, done ++ [(v, r)], [], ?_, ?_, rfl⟩
    · rw [hchosen]
      exact h.selected
    · rw [hended, List.length_append, List.length_append, h.ended]
      rfl
    · rw [hchosen, hdone, hrest, List.append_nil]
    · rw [hended]
      show List.Forall₂ _ _ ((s.trace.records ++ [call.record s.trace.nextSeq]).zip _)
      rw [List.zip_append h.ended.symm]
      exact List.rel_append hbook (.cons (hr.recorded hn hi _) .nil)

theorem Reachable.traceLog (hn : n < 2 ^ 32) (hpt : policyTraceOpen cap = some pt)
    (h : Reachable ((tracedPager cfg cursor p pt).recorded (victimNote cfg)) (s, log)) :
    TraceLog cfg cursor cap s log := by
  refine Reachable.recorded_invariant (I := TraceLog cfg cursor cap)
    (TraceLog.init cfg cursor p hpt) ?_ h
  intro a s s' l hr hI hstep
  cases a with
  | pager a => exact hI.pager_step (Reach.sound (Reachable.of_traced hr)) hstep
  | record => exact hI.record_step hn hstep

end

/-! ## The file -/

theorem found_length (log : List (VictimEvent n σ)) :
    (found log).length = (chosen log).length + (broken log).length := by
  induction log with
  | nil => rfl
  | cons e log ih =>
    unfold found chosen broken at *
    cases e <;> simp_all <;> omega

/-- What the trace says about a run. -/
structure PolicyTraceExact (cfg : Config n σ) (cursor : Option (σ → ℕ)) (s : Traced n σ)
    (log : List (VictimEvent n σ)) : Prop where
  /-- victims are evicted in the order in which they are found, and at most one is not yet -/
  evicting : ∀ t v, (s.pager.pc t).point.victim = some v → found log = evicted log ++ [v]
  settled : (∀ t, (s.pager.pc t).point.victim = none) → found log = evicted log
  /-- a record for every victim that a policy chose, or one that its thread is filling -/
  records : (chosen log).length = s.trace.records.length + s.recording.toList.length
  recording : ∀ t stage, s.recording = some (t, stage) → ∃ v r,
    (chosen log).getLast? = some (v, r) ∧ (s.pager.pc t).point.victim = some v
  ended : (ended log).length = s.trace.records.length
  seq : ∀ (i : ℕ) (rec : PolicyTraceRecord), s.trace.records[i]? = some rec →
    rec.seq.toNat = i + 1
  /-- in this order, with a resident set between the one that the policy chose from and the one at
  the end of the record -/
  described : ∀ (i : ℕ) (rec : PolicyTraceRecord) (v : Fin n) (r r' : Region n σ),
    s.trace.records[i]? = some rec → (chosen log)[i]? = some (v, r) →
      (Pager.ended log)[i]? = some r' →
      Recorded cfg cursor v r r' rec ∧ cfg.selectVictim r = some v ∧ (r.chunks v).Evictable
  counts : s.pager.sh.region.stats.evictions = (evicted log).length ∧
    s.pager.sh.region.stats.pinBroken = (broken log).length
  /-- when nobody is evicting the other evictions are those of broken pins -/
  complete : (∀ t, (s.pager.pc t).point.victim = none) →
    s.pager.sh.region.stats.evictions =
      s.trace.records.length + s.pager.sh.region.stats.pinBroken
  flushed : ∀ rets file, .failed ∉ rets → policyTraceFlush rets s.trace = some file →
    PolicyTraceRecord.packed.records file = s.trace.records

section

variable {cfg : Config n σ} {cursor : Option (σ → ℕ)} {cap : ℕ} {s : Traced n σ}
  {log : List (VictimEvent n σ)} {p : σ} {pt : PolicyTrace}

theorem policyTraceOpen_lt (h : policyTraceOpen cap = some pt) : cap < 2 ^ 64 := by
  unfold policyTraceOpen at h
  split at h
  · rename_i hfits
    rw [PolicyTraceRecord.packed_size] at hfits
    omega
  · cases h

theorem TraceLog.chosen_length (h : TraceLog cfg cursor cap s log) :
    (chosen log).length = s.trace.records.length + s.recording.toList.length := by
  obtain ⟨done, rest, hdone, hbook, hpending⟩ := h.book
  have hlen : done.length = s.trace.records.length := by
    rw [hbook.length_eq, List.length_zip, h.ended, Nat.min_self]
  rw [hdone, List.length_append, hlen]
  cases hrec : s.recording with
  | none =>
    rw [hrec] at hpending
    rw [show rest = [] from hpending]
    rfl
  | some x =>
    obtain ⟨t, stage⟩ := x
    rw [hrec] at hpending
    obtain ⟨v, r, hrest, -⟩ := hpending
    rw [hrest]
    rfl

theorem TraceLog.recording (h : TraceLog cfg cursor cap s log) {t : Tid} {stage : RecordStage n}
    (hrec : s.recording = some (t, stage)) : ∃ v r,
      (chosen log).getLast? = some (v, r) ∧ (s.pager.pc t).point.victim = some v := by
  obtain ⟨done, rest, hdone, -, hpending⟩ := h.book
  rw [hrec] at hpending
  obtain ⟨v, r, hrest, hr⟩ := hpending
  refine ⟨v, r, ?_, hr.victim⟩
  rw [hdone, hrest, List.getLast?_append]
  rfl

theorem TraceLog.described (h : TraceLog cfg cursor cap s log) {i : ℕ} {rec : PolicyTraceRecord}
    {v : Fin n} {r r' : Region n σ} (hrec : s.trace.records[i]? = some rec)
    (hchosen : (chosen log)[i]? = some (v, r)) (hended : (Pager.ended log)[i]? = some r') :
    Recorded cfg cursor v r r' rec := by
  obtain ⟨done, rest, hdone, hbook, -⟩ := h.book
  have hzip : (s.trace.records.zip (Pager.ended log))[i]? = some (rec, r') :=
    List.getElem?_zip_eq_some.2 ⟨hrec, hended⟩
  obtain ⟨hi, hget⟩ := List.getElem?_eq_some_iff.1 hzip
  have hi' : i < done.length := by
    rw [hbook.length_eq]
    exact hi
  rw [hdone, List.getElem?_append_left hi'] at hchosen
  obtain ⟨_, hgetDone⟩ := List.getElem?_eq_some_iff.1 hchosen
  have hrel := hbook.get hi' hi
  rw [List.get_eq_getElem, List.get_eq_getElem, hgetDone, hget] at hrel
  exact hrel

theorem policyTrace_exact (hn : n < 2 ^ 32) (hpt : policyTraceOpen cap = some pt)
    (h : Reachable ((tracedPager cfg cursor p pt).recorded (victimNote cfg)) (s, log)) :
    PolicyTraceExact cfg cursor s log := by
  have hlog := Reachable.traceLog hn hpt h
  have hs : Sound cfg s.pager := Reach.sound (Reachable.of_traced h.of_recorded)
  have hevicted : (∀ t, (s.pager.pc t).point.victim = none) → found log = evicted log := by
    intro hnone
    rcases hlog.evictions.order with ⟨-, horder⟩ | ⟨t, v, ht, -⟩
    · exact horder
    · rw [hnone t] at ht
      cases ht
  obtain ⟨hevictions, hbroken⟩ := Prod.mk.inj hlog.evictions.stats
  refine ⟨fun t v ht => ?_, hevicted, hlog.chosen_length, fun _ _ => hlog.recording, hlog.ended,
    fun i rec hi => ?_, fun i rec v r r' hi he hr' => ?_, ⟨hevictions, hbroken⟩, fun hnone => ?_,
    fun rets file hok hfile => ?_⟩
  · rcases hlog.evictions.order with ⟨hnone, -⟩ | ⟨u, w, hu, horder⟩
    · rw [hnone t] at ht
      cases ht
    · obtain rfl := hs.victim_unique hu ht
      rw [ht] at hu
      cases hu
      exact horder
  · have hcap := policyTraceOpen_lt hpt
    have hroom := hlog.numbered.room
    have hi' := (List.getElem?_eq_some_iff.1 hi).1
    rw [hlog.numbered.seq i rec hi, UInt64.toNat_ofNat', Nat.mod_eq_of_lt (by omega)]
  · have hselected := hlog.selected (v, r) (List.mem_of_getElem? he)
    exact ⟨hlog.described hi he hr', hselected, Config.selectVictim_evictable hselected⟩
  · have hfound := found_length log
    have hlength := hlog.chosen_length
    have hidle : s.recording = none := by
      cases hrec : s.recording with
      | none => rfl
      | some x =>
        obtain ⟨v, r, -, ht⟩ := hlog.recording hrec
        rw [hnone x.1] at ht
        cases ht
    rw [hevicted hnone] at hfound
    rw [hidle, Option.toList_none, List.length_nil, Nat.add_zero] at hlength
    omega
  · exact (flushes (P := PolicyTraceRecord.packed) (by decide) s.trace.records rets).complete hok
      file hfile

/-- Every prefetch may evict. -/
def keenAhead : Config 4 LoDeclared := { tightAhead with prefetchAdmissionAlways := true }

/-- The prefetch of chunk 1 needs room; the last signal was for the last chunk of a pass. -/
def chooseZero : List (Action 4) :=
  demandZero ++ [.acquire (.worker 0), .exec (.worker 0) {}, .exec (.worker 0) {},
    .exec (.client 0) {}, .exec (.client 0) { op := .notify (Fin.last 3) }, .acquire (.client 0),
    .exec (.client 0) {}] ++ refusePrefetch.take 11

def recordZero : List (TracedAction 4) :=
  chooseZero.map .pager ++ List.replicate 6 .record ++
    [.pager (.acquire (.worker 1)), .pager (.exec (.worker 1) {})]

theorem recordZero_runs : (run ((tracedPager keenAhead (some loDeclaredTraceCursor) fourAheadCycle
    ⟨[], 4, 1⟩).recorded (victimNote keenAhead)) recordZero ((tracedPager keenAhead
    (some loDeclaredTraceCursor) fourAheadCycle ⟨[], 4, 1⟩).recorded
    (victimNote keenAhead)).init).isSome = true := by
  decide +kernel

theorem policyTrace_exact_keenAhead :
    ∃ (s : Traced 4 LoDeclared) (log : List (VictimEvent 4 LoDeclared)), evicted log = [0] ∧
      s.trace.records = [⟨1, 0, 3, 1, 1, 1, 0⟩] ∧ keenAhead.Plain ∧
      PolicyTraceExact keenAhead (some loDeclaredTraceCursor) s log :=
  ⟨_, _, by decide +kernel, by decide +kernel, .of_layerOrderDeclared rfl,
    policyTrace_exact (by decide)
    (show policyTraceOpen 4 = some ⟨[], 4, 1⟩ from rfl)
    (reachable_get recordZero recordZero_runs)⟩

end

end Pager

end Residctl
