import Residctl.BeladyArrays
import Residctl.CyclicFloor
import Residctl.SyncSound
import Residctl.Trace

/-!
# From a replay to its offline optimum

`belady_main.c`: `main` on the trace file, the chunk size and the budget. What it prints is the
optimum of the string that the file holds (`main_exact`), and the check on its own result never
fires.

The string is the one that `replay_cyclic` has written, in as many `write` calls as it took. So
the number printed for a replay is a bound on what the replay fetched, under any policy
(`report_le_replay`), and with the declared order it is that number (`report_eq_replay`).
-/

namespace Residctl.BeladyMain

open Belady (checkCyclicFloorOrAbort)
open BeladyArrays (Garbage)
open Paging

/-! ## The program -/

/-- What `main` prints; the rate of hits is left out. -/
structure Report where
  capacity : ℕ
  totalRefs : ℕ
  minimumMisses : ℕ
  minimumBytesFetched : ℕ
deriving DecidableEq, Repr

inductive Outcome
  | report (r : Report)
  /-- returned with this status, and no report -/
  | exit (status : ℕ)
  | aborted
  /-- an access outside the solver's arrays -/
  | outOfBounds
deriving DecidableEq, Repr

/-- `main` with three arguments. `trace` is the file at the path, `none` if it cannot be opened. -/
def main (garbage : Garbage) (trace : Option (List UInt8)) (chunkSize budgetBytes : ℕ) : Outcome :=
  if chunkSize = 0 then .exit 2
  else
    let capacity := Belady.slots budgetBytes chunkSize
    match trace with
    | none => .exit 1
    | some file =>
      match loadReferenceString file with
      | .error _ => .aborted
      | .ok ids =>
        let ref := ids.map UInt32.toNat
        if ref.length = 0 then .exit 1
        else
          match BeladyArrays.beladySimulate garbage (ref.length + 1) ref capacity with
          | none => .outOfBounds
          | some res =>
            if checkCyclicFloorOrAbort ref capacity res.misses = .aborted then .aborted
            else .report
              { capacity := capacity
                totalRefs := res.totalRefs
                minimumMisses := res.misses
                minimumBytesFetched := res.misses * chunkSize % 2 ^ 64 }

/-! ## Any file at all -/

variable {garbage : Garbage} {file : List UInt8} {chunkSize budgetBytes : ℕ}

/-- The ids in the complete records behind the header. -/
def references (file : List UInt8) : List ℕ :=
  (TraceRecord.packed.records (file.drop 8)).map fun rec => rec.chunkId.toNat

theorem references_lt : ∀ c ∈ references file, c < 2 ^ 32 := by
  intro c hc
  rcases List.mem_map.1 hc with ⟨rec, -, rfl⟩
  exact rec.chunkId.toNat_lt

theorem references_length_le : 24 * (references file).length ≤ file.length := by
  rw [references, List.length_map, Packed.records, List.length_map, List.length_range,
    List.length_drop]
  exact (Nat.mul_div_le _ 24).trans (Nat.sub_le _ _)

/-- The solver cannot return what its check refuses. -/
theorem floor_passes {ref : List ℕ} {k misses : ℕ} (hlen : ref.length < 2 ^ 64)
    (hfur : Furthest k (∅ : Finset ℕ) ref misses) :
    checkCyclicFloorOrAbort ref k misses ≠ .aborted := by
  cases hdet : Belady.detectCyclicScan ref with
  | none => simp [checkCyclicFloorOrAbort, hdet]
  | some found =>
    have hle := (Belady.FloorSound.of_detect hlen hdet k).schedules misses (hfur.demand (by simp))
    simp [checkCyclicFloorOrAbort, hdet, Nat.not_lt.2 hle]

/-- The outcome for a file, chunks of `chunkSize` bytes and a budget. -/
structure Exact (outcome : Outcome) (file : List UInt8) (chunkSize budgetBytes : ℕ) : Prop where
  /-- `main` aborts on its input, never on its result -/
  aborted : outcome = .aborted ↔ ¬ ReferenceHeader file
  nothing : outcome = .exit 1 ↔ ReferenceHeader file ∧ references file = []
  outOfBounds : outcome = .outOfBounds ↔ ReferenceHeader file ∧ CHUNK_NONE ∈ references file
  reported : (∃ r, outcome = .report r) ↔
    ReferenceHeader file ∧ references file ≠ [] ∧ CHUNK_NONE ∉ references file
  report : ∀ r, outcome = .report r →
    r.capacity = Belady.slots budgetBytes chunkSize ∧ r.totalRefs = (references file).length ∧
    r.minimumBytesFetched = r.minimumMisses * chunkSize % 2 ^ 64 ∧
    IsLeast {m | Demand (fun _ => 1) r.capacity (∅ : Finset ℕ) (references file) m}
      r.minimumMisses

theorem loadReferenceString_references (h : ReferenceHeader file) :
    ∃ ids, loadReferenceString file = .ok ids ∧ ids.map UInt32.toNat = references file := by
  refine ⟨_, loadReferenceString_eq_ok_iff.2 ⟨h, rfl⟩, ?_⟩
  rw [List.map_map]
  rfl

theorem main_of_loaded (hchunk : chunkSize ≠ 0) (h : ReferenceHeader file) :
    main garbage (some file) chunkSize budgetBytes =
      if (references file).length = 0 then .exit 1
      else
        match BeladyArrays.beladySimulate garbage ((references file).length + 1) (references file)
          (Belady.slots budgetBytes chunkSize) with
        | none => .outOfBounds
        | some res =>
          if checkCyclicFloorOrAbort (references file) (Belady.slots budgetBytes chunkSize)
            res.misses = .aborted then .aborted
          else .report
            { capacity := Belady.slots budgetBytes chunkSize
              totalRefs := res.totalRefs
              minimumMisses := res.misses
              minimumBytesFetched := res.misses * chunkSize % 2 ^ 64 } := by
  rcases loadReferenceString_references h with ⟨ids, hload, hids⟩
  rw [main, if_neg hchunk]
  simp only [hload, hids]

theorem main_reports (garbage : Garbage) (budgetBytes : ℕ) (hchunk : chunkSize ≠ 0)
    (hfile : file.length < 2 ^ 63) (h : ReferenceHeader file) (hne : references file ≠ [])
    (hmax : CHUNK_NONE ∉ references file) :
    ∃ misses, main garbage (some file) chunkSize budgetBytes = .report
        { capacity := Belady.slots budgetBytes chunkSize
          totalRefs := (references file).length
          minimumMisses := misses
          minimumBytesFetched := misses * chunkSize % 2 ^ 64 } ∧
      Furthest (Belady.slots budgetBytes chunkSize) (∅ : Finset ℕ) (references file) misses := by
  have hlen := @references_length_le file
  have hsize : ((references file).length + 1) * BeladyHeap.SIZEOF_HEAP_ENTRY < 2 ^ 64 := by
    unfold BeladyHeap.SIZEOF_HEAP_ENTRY
    omega
  rcases BeladyArrays.beladySimulate_furthest garbage references_lt hsize
    (Belady.slots_lt budgetBytes chunkSize) le_rfl hmax with ⟨misses, hrun, hfur⟩
  refine ⟨misses, ?_, hfur⟩
  have hne' : (references file).length ≠ 0 := fun h0 => hne (List.length_eq_zero_iff.1 h0)
  rw [main_of_loaded hchunk h, if_neg hne', hrun]
  exact if_neg (floor_passes (by omega) hfur)

/-- `main` on any file and any budget. -/
theorem main_exact (garbage : Garbage) (file : List UInt8) (chunkSize budgetBytes : ℕ)
    (hchunk : chunkSize ≠ 0) (hfile : file.length < 2 ^ 63) :
    Exact (main garbage (some file) chunkSize budgetBytes) file chunkSize budgetBytes := by
  by_cases h : ReferenceHeader file
  · by_cases hne : references file = []
    · have hrun : main garbage (some file) chunkSize budgetBytes = .exit 1 := by
        rw [main_of_loaded hchunk h, if_pos (by rw [hne]; rfl)]
      rw [hrun]
      constructor <;> simp [h, hne]
    · by_cases hmax : CHUNK_NONE ∈ references file
      · have hlen := @references_length_le file
        have hsize : ((references file).length + 1) * BeladyHeap.SIZEOF_HEAP_ENTRY < 2 ^ 64 := by
          unfold BeladyHeap.SIZEOF_HEAP_ENTRY
          omega
        have hrun : main garbage (some file) chunkSize budgetBytes = .outOfBounds := by
          rw [main_of_loaded hchunk h, if_neg (List.length_pos_of_mem hmax).ne',
            BeladyArrays.beladySimulate_max garbage hsize (Belady.slots_lt _ _) le_rfl hmax]
        rw [hrun]
        constructor <;> simp [h, hne, hmax]
      · rcases main_reports garbage budgetBytes hchunk hfile h hne hmax with ⟨misses, hrun, hfur⟩
        rw [hrun]
        constructor
        case report =>
          intro r hr
          cases hr
          exact ⟨rfl, rfl, rfl, hfur.isLeast⟩
        all_goals simp [h, hne, hmax]
  · have hrun : main garbage (some file) chunkSize budgetBytes = .aborted := by
      cases hload : loadReferenceString file with
      | error e =>
        rw [main, if_neg hchunk]
        simp only [hload]
      | ok ids => exact absurd (loadReferenceString_eq_ok_iff.1 hload).1 h
    rw [hrun]
    constructor <;> simp [h]

/-- A record of chunk 7, then one cut short. -/
def oneRecord : List UInt8 :=
  [82, 84, 82, 67, 0, 2, 0, 0] ++ List.replicate 16 0 ++ [7, 0, 0, 0, 255, 255, 0, 0, 1, 0]

theorem main_exact_oneRecord :
    Exact (main ⟨fun _ => 7, fun _ => ⟨9, 5⟩⟩ (some oneRecord) 4096 8192) oneRecord 4096 8192 :=
  main_exact _ oneRecord 4096 8192 (by decide) (by decide)

/-! ## The trace of a replay -/

/-- The `trace_record` calls of the workload, with what `clock_gettime` reads at each. -/
def refCalls (now : ℕ → UInt64 × UInt64) (ids : List ℕ) : List TraceCall :=
  ids.mapIdx fun k c =>
    { seq := UInt64.ofNat (k + 1)
      chunkId := UInt32.ofNat c
      faultType := TRACE_NA
      wasPrefetched := TRACE_NA
      tvSec := (now k).1
      tvNsec := (now k).2 }

variable {now : ℕ → UInt64 × UInt64} {ids : List ℕ} {rets rets' : List WriteRet} {t : Trace}

theorem refCalls_length : (refCalls now ids).length = ids.length := List.length_mapIdx

theorem refCalls_chunkId (now : ℕ → UInt64 × UInt64) (hids : ∀ c ∈ ids, c < 2 ^ 32) :
    (refCalls now ids).map (UInt32.toNat ∘ TraceCall.chunkId) = ids := by
  refine List.ext_getElem? fun k => ?_
  rw [List.getElem?_map, refCalls, List.getElem?_mapIdx]
  cases hk : ids[k]? with
  | none => rfl
  | some c =>
    have hc := hids c (List.mem_of_getElem? hk)
    simpa using hc

/-- However `write` splits the records, the file holds the references. -/
theorem references_written (hids : ∀ c ∈ ids, c < 2 ^ 32)
    (h : writeTrace rets TRACE_TYPE_REFERENCE (refCalls now ids) = .ok (t, rets')) :
    ReferenceHeader t.file ∧ references t.file = ids ∧ t.file.length = 8 + 24 * ids.length := by
  have hfile := writeTrace_file h
  have hlength : t.file.length = 8 + 24 * ids.length := by
    rw [hfile, traceBytes, List.length_append, TraceHeader.packed.length_write,
      TraceRecord.packed.length_flatMap_write, List.length_map, refCalls_length]
    rfl
  have hload : loadReferenceString t.file = .ok ((refCalls now ids).map TraceCall.chunkId) := by
    have htake := loadReferenceString_take (refCalls now ids) (m := t.file.length) (by omega)
    rw [← hfile, List.take_length] at htake
    rw [htake, hlength, List.take_of_length_le]
    rw [refCalls_length]
    omega
  rcases loadReferenceString_eq_ok_iff.1 hload with ⟨hheader, hrecords⟩
  refine ⟨hheader, ?_, hlength⟩
  rw [← refCalls_chunkId now hids, references]
  have hmap := congrArg (List.map UInt32.toNat) hrecords
  rw [List.map_map, List.map_map] at hmap
  exact hmap.symm

/-! ## The bound -/

variable {n : ℕ} {σ : Type}

theorem passes_length (n nPasses : ℕ) : (passes n nPasses).length = nPasses * n := by
  simpa using congrArg List.length (passes_map_val n nPasses)

/-- What `main` prints on the trace of a replay with chunks of `L` bytes. -/
theorem main_written (garbage : Garbage) (cfg : Config n σ) {nPasses L : ℕ} (hn : 0 < n)
    (hn32 : n < 2 ^ 32) (hpasses : 0 < nPasses) (hL : 0 < L)
    (hslots : cfg.budgetBytes / L < 2 ^ 32) (hfile : 8 + 24 * (nPasses * n) < 2 ^ 63)
    (hwritten : writeTrace rets TRACE_TYPE_REFERENCE
      (refCalls now ((passes n nPasses).map Fin.val)) = .ok (t, rets')) :
    ∃ misses, main garbage (some t.file) L cfg.budgetBytes = .report
        { capacity := cfg.budgetBytes / L
          totalRefs := nPasses * n
          minimumMisses := misses
          minimumBytesFetched := misses * L % 2 ^ 64 } ∧
      Furthest (cfg.budgetBytes / L) (∅ : Finset ℕ) ((passes n nPasses).map Fin.val) misses := by
  have hlt : ∀ c ∈ (passes n nPasses).map Fin.val, c < n := by
    intro c hc
    rcases List.mem_map.1 hc with ⟨d, -, rfl⟩
    exact d.2
  have hids : ∀ c ∈ (passes n nPasses).map Fin.val, c < 2 ^ 32 := fun c hc => (hlt c hc).trans hn32
  rcases references_written hids hwritten with ⟨hheader, hrefs, hlength⟩
  rw [List.length_map, passes_length] at hlength
  have hne : references t.file ≠ [] := by
    rw [hrefs]
    intro h0
    have hlen := congrArg List.length h0
    rw [List.length_map, passes_length, List.length_nil] at hlen
    exact absurd hlen (Nat.mul_pos hpasses hn).ne'
  have hmax : CHUNK_NONE ∉ references t.file := by
    rw [hrefs]
    intro hmem
    have hid := hlt _ hmem
    unfold CHUNK_NONE at hid
    omega
  have hreports := main_reports garbage cfg.budgetBytes hL.ne' (hlength.trans_lt hfile) hheader
    hne hmax
  rw [hrefs, Belady.slots_of_lt hslots, List.length_map, passes_length] at hreports
  exact hreports

/-- No policy of the program fetches less, in a replay that comes to its end, than what `main`
prints for its trace. -/
theorem report_le_replay (garbage : Garbage) (cfg : Config n σ) (hpol : Pager.Shipped cfg.policy)
    (hpf : cfg.NoPrefetch) (clock : ℕ → ℕ) (nPasses L : ℕ) (p : σ) (s : SyncState n σ) (hn : 0 < n) (hn32 : n < 2 ^ 32)
    (hpasses : 0 < nPasses) (hL : 0 < L) (hlen : ∀ c, cfg.table.len c = L)
    (hslots : cfg.budgetBytes / L < 2 ^ 32) (hfile : 8 + 24 * (nPasses * n) < 2 ^ 63)
    (hs : replayCyclic cfg clock nPasses (SyncState.init n p) = some s)
    (hwritten : writeTrace rets TRACE_TYPE_REFERENCE (refCalls now s.refTrace) = .ok (t, rets')) :
    ∃ r, main garbage (some t.file) L cfg.budgetBytes = .report r ∧
      r.totalRefs = s.refTrace.length ∧
      r.minimumMisses ≤ s.region.stats.absentHandled ∧
      r.minimumBytesFetched ≤ s.region.stats.bytesFetched := by
  have hresult := replayCyclic_some hpol hpf hs
  rw [hresult.refTrace] at hwritten
  rcases main_written garbage cfg hn hn32 hpasses hL hslots hfile hwritten with
    ⟨misses, hreport, hfur⟩
  have hbytes := hresult.equal L hlen
  -- the run is a schedule over `budget / L` slots
  have hleast : misses ≤ s.region.stats.absentHandled :=
    greedy_le (hfur.greedy (by simp)) (hresult.slots hL hlen)
  refine ⟨_, hreport, ?_, hleast, ?_⟩
  · rw [hresult.refTrace, List.length_map, passes_length]
  · rw [hbytes]
    exact (Nat.mod_le _ _).trans (Nat.mul_le_mul_right L hleast)

/-- Three chunks of one page twice, in two pages. -/
theorem report_le_replay_threePages :
    ∃ s t rets', replayCyclic threePages (fun _ => 0) 2 (SyncState.init 3
        (loDeclaredDeclareSequence (loDeclaredInit 3) (List.range 3))) = some s ∧
      writeTrace (List.replicate 152 (.wrote 1)) TRACE_TYPE_REFERENCE
        (refCalls (fun _ => (0, 0)) s.refTrace) = .ok (t, rets') ∧
      ∃ r, main ⟨fun _ => 7, fun _ => ⟨9, 5⟩⟩ (some t.file) 4096 threePages.budgetBytes =
          .report r ∧
        r.totalRefs = s.refTrace.length ∧ r.minimumMisses ≤ s.region.stats.absentHandled ∧
        r.minimumBytesFetched ≤ s.region.stats.bytesFetched := by
  have hrun : ∃ s, replayCyclic threePages (fun _ => 0) 2 (SyncState.init 3
      (loDeclaredDeclareSequence (loDeclaredInit 3) (List.range 3))) = some s ∧
      SyncResult threePages (passes 3 2) s :=
    replayCyclic_result (fun _ => 0) (.declared ⟨false, true⟩) (Or.inl rfl) _ (Or.inr (by decide))
  rcases hrun with ⟨s, hs, hresult⟩
  have hlen : (refCalls (fun _ => (0, 0)) s.refTrace).length = 6 := by
    rw [refCalls_length, hresult.refTrace]
    rfl
  have hready : Accepting (List.replicate 152 (.wrote 1)) (TraceHeader.packed.size +
      TraceRecord.packed.size * (refCalls (fun _ => (0, 0)) s.refTrace).length) := by
    refine ⟨by simp, ?_⟩
    rw [hlen, List.countP_replicate]
    decide
  rcases writeTrace_accepting TRACE_TYPE_REFERENCE hready with ⟨t, rets', hwritten⟩
  exact ⟨s, t, rets', hs, hwritten, report_le_replay _ threePages (.declared ⟨false, true⟩)
    (Or.inl rfl) (fun _ => 0) 2 4096 _ s (by decide) (by decide) (by decide) (by decide) (fun _ => rfl)
    (by decide) (by decide) hs hwritten⟩

/-- The declared order fetches what `main` prints for its trace. -/
theorem report_eq_replay (garbage : Garbage) (cfg : Config n LoDeclared) (pre : Bool)
    (clock : ℕ → ℕ) (nPasses L : ℕ) (hn : 0 < n) (hn32 : n < 2 ^ 32) (hpasses : 0 < nPasses)
    (hL : 0 < L) (hlen : ∀ c, cfg.table.len c = L) (hB : L ≤ cfg.budgetBytes)
    (hslots : cfg.budgetBytes / L < 2 ^ 32) (hfile : 8 + 24 * (nPasses * n) < 2 ^ 63)
    (hpolicy : cfg.policy = some (policyLayerOrderDeclared n ⟨false, pre⟩))
    (hpf : cfg.NoPrefetch) :
    ∃ s, replayCyclic cfg clock nPasses (SyncState.init n
        (loDeclaredDeclareSequence (loDeclaredInit n) (List.range n))) = some s ∧
      ∀ rets now t rets',
        writeTrace rets TRACE_TYPE_REFERENCE (refCalls now s.refTrace) = .ok (t, rets') →
        main garbage (some t.file) L cfg.budgetBytes = .report
          { capacity := cfg.budgetBytes / L
            totalRefs := nPasses * n
            minimumMisses := s.region.stats.absentHandled
            minimumBytesFetched := s.region.stats.bytesFetched % 2 ^ 64 } := by
  rcases replay_spec hlen hpolicy hpf clock hn32 hL hB (passes n nPasses) SyncState.init_inv
    (passes_cyclicFrom n nPasses) with ⟨s, m, hs, htrace, hcount, hfur⟩
  have hcount' : s.region.stats.absentHandled = m := hcount.trans (Nat.zero_add m)
  rw [← replayCyclic_eq] at hs
  have hshipped : Pager.Shipped cfg.policy := by
    rw [hpolicy]
    exact .declared _
  have hresult := replayCyclic_some hshipped hpf hs
  refine ⟨s, hs, ?_⟩
  intro rets now t rets' hwritten
  rw [hresult.refTrace] at hwritten
  rcases main_written garbage cfg hn hn32 hpasses hL hslots hfile hwritten with
    ⟨misses, hreport, hfur'⟩
  have hmisses : misses = s.region.stats.absentHandled := by
    rw [hcount']
    exact hfur'.cost_unique hfur
  rw [hreport, hmisses, hresult.equal L hlen]

theorem report_eq_replay_threePages :
    ∃ s, replayCyclic threePages (fun _ => 0) 2 (SyncState.init 3
        (loDeclaredDeclareSequence (loDeclaredInit 3) (List.range 3))) = some s ∧
      ∀ rets now t rets',
        writeTrace rets TRACE_TYPE_REFERENCE (refCalls now s.refTrace) = .ok (t, rets') →
        main ⟨fun _ => 7, fun _ => ⟨9, 5⟩⟩ (some t.file) 4096 threePages.budgetBytes = .report
          { capacity := threePages.budgetBytes / 4096
            totalRefs := 2 * 3
            minimumMisses := s.region.stats.absentHandled
            minimumBytesFetched := s.region.stats.bytesFetched % 2 ^ 64 } :=
  report_eq_replay _ threePages true (fun _ => 0) 2 4096 (by decide) (by decide) (by decide)
    (by decide) (fun _ => rfl) (by decide) (by decide) (by decide) rfl (Or.inl rfl)

end Residctl.BeladyMain
