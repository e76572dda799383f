import Residctl.Lib.Packed

/-!
# Trace files

`trace.c` and the loader of `belady_main.c`. A trace is a header and 24-byte records, written
by as many `write` calls as it takes. The loader decodes traces that the workload wrote
(`TRACE_TYPE_REFERENCE`) and no other file; of a trace cut short it keeps the complete records
(`trace_round_trip`). The block that it fills never outgrows a `size_t` (`loadRecords_cap`), which
is why its `realloc` is a list that grows.
-/

namespace Residctl

/-! ## Layout -/

/-- `"RTRC"`. -/
def TRACE_MAGIC : List.Vector UInt8 4 := ⟨[82, 84, 82, 67], rfl⟩
def TRACE_FORMAT_VERSION : UInt8 := 2
def TRACE_TYPE_REFERENCE : UInt8 := 0
def TRACE_TYPE_FAULT : UInt8 := 1
def TRACE_NA : UInt8 := 255

/-- `trace_header_t`. -/
structure TraceHeader where
  magic : List.Vector UInt8 4
  traceType : UInt8
  version : UInt8
  pad : UInt16

/-- `trace_record_t`. -/
structure TraceRecord where
  seq : UInt64
  timestampNs : UInt64
  chunkId : UInt32
  faultType : UInt8
  wasPrefetched : UInt8
  pad : UInt16

def TraceHeader.packed : Packed TraceHeader :=
  ((Packed.bytes 4).seq <| .seq .uint8 <| .seq .uint8 .uint16).map
    { toFun := fun (magic, traceType, version, pad) => ⟨magic, traceType, version, pad⟩
      invFun := fun hdr => (hdr.magic, hdr.traceType, hdr.version, hdr.pad)
      left_inv := fun _ => rfl
      right_inv := fun _ => rfl }

def TraceRecord.packed : Packed TraceRecord :=
  (Packed.uint64.seq <| .seq .uint64 <| .seq .uint32 <| .seq .uint8 <| .seq .uint8 .uint16).map
    { toFun := fun (seq, timestampNs, chunkId, faultType, wasPrefetched, pad) =>
        ⟨seq, timestampNs, chunkId, faultType, wasPrefetched, pad⟩
      invFun := fun rec =>
        (rec.seq, rec.timestampNs, rec.chunkId, rec.faultType, rec.wasPrefetched, rec.pad)
      left_inv := fun _ => rfl
      right_inv := fun _ => rfl }

@[simp] theorem TraceHeader.packed_size : TraceHeader.packed.size = 8 := rfl

@[simp] theorem TraceRecord.packed_size : TraceRecord.packed.size = 24 := rfl

/-! ## Writing -/

/-- What `write` returns: a number of bytes, `EINTR` or another error. -/
inductive WriteRet
  | wrote (n : ℕ)
  | interrupted
  | failed
deriving DecidableEq, Repr

/-- Why a writer has not come back. -/
inductive Stop
  | aborted
  | blocked
deriving DecidableEq, Repr

/-- `write_all`, appending to the file what the calls accept. -/
def writeAll : List WriteRet → List UInt8 → List UInt8 → Except Stop (List UInt8 × List WriteRet)
  | rets, file, [] => .ok (file, rets)
  | [], _, _ :: _ => .error .blocked
  | .failed :: _, _, _ :: _ => .error .aborted
  | .interrupted :: rets, file, b :: rest => writeAll rets file (b :: rest)
  | .wrote n :: rets, file, b :: rest =>
    writeAll rets (file ++ (b :: rest).take n) ((b :: rest).drop n)

/-- `trace_t`, with the bytes written to its descriptor. -/
structure Trace where
  file : List UInt8
  traceType : UInt8
  recordsWritten : UInt64

/-- The header that `trace_open` fills in. -/
def traceHeader (traceType : UInt8) : TraceHeader where
  magic := TRACE_MAGIC
  traceType := traceType
  version := TRACE_FORMAT_VERSION
  pad := 0

def traceOpen (rets : List WriteRet) (traceType : UInt8) : Except Stop (Trace × List WriteRet) := do
  let (file, rets) ← writeAll rets [] (TraceHeader.packed.write (traceHeader traceType))
  return ({ file, traceType, recordsWritten := 0 }, rets)

/-- The arguments of `trace_record` and what `clock_gettime` reads. -/
structure TraceCall where
  seq : UInt64
  chunkId : UInt32
  faultType : UInt8
  wasPrefetched : UInt8
  tvSec : UInt64
  tvNsec : UInt64

def TraceCall.record (c : TraceCall) : TraceRecord where
  seq := c.seq
  timestampNs := c.tvSec * 1000000000 + c.tvNsec
  chunkId := c.chunkId
  faultType := c.faultType
  wasPrefetched := c.wasPrefetched
  pad := 0

def traceRecord (rets : List WriteRet) (t : Trace) (c : TraceCall) :
    Except Stop (Trace × List WriteRet) := do
  let (file, rets) ← writeAll rets t.file (TraceRecord.packed.write c.record)
  return ({ t with file, recordsWritten := t.recordsWritten + 1 }, rets)

def traceRecords (rets : List WriteRet) (t : Trace) :
    List TraceCall → Except Stop (Trace × List WriteRet)
  | [] => .ok (t, rets)
  | c :: calls => do
    let (t, rets) ← traceRecord rets t c
    traceRecords rets t calls

/-- A trace from its `trace_open` on. -/
def writeTrace (rets : List WriteRet) (traceType : UInt8) (calls : List TraceCall) :
    Except Stop (Trace × List WriteRet) := do
  let (t, rets) ← traceOpen rets traceType
  traceRecords rets t calls

/-! ## Reading -/

/-- `trace_read_header`: the type and the rest of the file. -/
def traceReadHeader (file : List UInt8) : Option (UInt8 × List UInt8) :=
  let hdr := TraceHeader.packed.read file
  if file.length < TraceHeader.packed.size then none
  else if hdr.magic ≠ TRACE_MAGIC then none
  else if hdr.version ≠ TRACE_FORMAT_VERSION then none
  else some (hdr.traceType, file.drop TraceHeader.packed.size)

/-- The growing array of the loader. -/
structure RefBuffer where
  cap : ℕ
  n : ℕ
  ref : List UInt32

def RefBuffer.init : RefBuffer where
  cap := 1024
  n := 0
  ref := List.replicate 1024 0

/-- `realloc`, when the array is full, and the store to `ref[n++]`. -/
def RefBuffer.push (b : RefBuffer) (chunkId : UInt32) : RefBuffer :=
  let b :=
    if b.n = b.cap then { b with cap := b.cap * 2, ref := b.ref ++ List.replicate b.cap 0 } else b
  { b with n := b.n + 1, ref := b.ref.set b.n chunkId }

/-- The loop until `read` returns less than a record. -/
def loadRecords (b : RefBuffer) (file : List UInt8) : RefBuffer :=
  if file.length < TraceRecord.packed.size then b
  else
    loadRecords (b.push (TraceRecord.packed.read file).chunkId)
      (file.drop TraceRecord.packed.size)
termination_by file.length
decreasing_by
  rw [List.length_drop, TraceRecord.packed_size] at *
  omega

/-- Why the loader aborts. -/
inductive LoadError
  | noHeader
  | faultTrace
  | unrecognized (traceType : UInt8)
deriving DecidableEq, Repr

def loadReferenceString (file : List UInt8) : Except LoadError (List UInt32) :=
  match traceReadHeader file with
  | none => .error .noHeader
  | some (traceType, rest) =>
    if traceType = TRACE_TYPE_FAULT then .error .faultTrace
    else if traceType ≠ TRACE_TYPE_REFERENCE then .error (.unrecognized traceType)
    else
      let b := loadRecords RefBuffer.init rest
      .ok (b.ref.take b.n)

/-! ## What a writer leaves -/

def traceBytes (traceType : UInt8) (calls : List TraceCall) : List UInt8 :=
  TraceHeader.packed.write (traceHeader traceType) ++
    (calls.map TraceCall.record).flatMap TraceRecord.packed.write

/-- A call that accepts a byte. -/
def WriteRet.accepts : WriteRet → Bool
  | wrote n => 0 < n
  | _ => false

/-- No call fails, and `k` of them accept a byte. -/
structure Accepting (rets : List WriteRet) (k : ℕ) : Prop where
  ok : .failed ∉ rets
  enough : k ≤ rets.countP WriteRet.accepts

section

variable {rets rets' : List WriteRet} {file file' buf : List UInt8} {traceType : UInt8}
  {t t' : Trace} {c : TraceCall} {calls : List TraceCall} {k m : ℕ}

/-- However the calls split the buffer. -/
theorem writeAll_file (h : writeAll rets file buf = .ok (file', rets')) : file' = file ++ buf := by
  fun_induction writeAll rets file buf with
  | case1 rets file =>
    obtain ⟨rfl, -⟩ := Prod.mk.inj (Except.ok.inj h)
    exact (List.append_nil file).symm
  | case2 => cases h
  | case3 => cases h
  | case4 rets file b rest ih => exact ih h
  | case5 n rets file b rest ih =>
    rw [ih h, List.append_assoc, List.take_append_drop]

theorem writeAll_accepting (file : List UInt8) (h : Accepting rets (buf.length + k)) :
    ∃ rets', writeAll rets file buf = .ok (file ++ buf, rets') ∧ Accepting rets' k := by
  fun_induction writeAll rets file buf with
  | case1 rets file => exact ⟨rets, by rw [List.append_nil], h.ok, by simpa using h.enough⟩
  | case2 file b rest =>
    have henough := h.enough
    simp at henough
  | case3 rets file b rest => exact absurd List.mem_cons_self h.ok
  -- an interrupted call takes nothing off the buffer
  | case4 rets file b rest ih =>
    refine ih ⟨fun hmem => h.ok (List.mem_cons_of_mem _ hmem), ?_⟩
    simpa [WriteRet.accepts] using h.enough
  | case5 n rets file b rest ih =>
    have hrest : Accepting rets (((b :: rest).drop n).length + k) := by
      refine ⟨fun hmem => h.ok (List.mem_cons_of_mem _ hmem), ?_⟩
      have henough := h.enough
      rw [List.countP_cons] at henough
      rw [List.length_drop]
      -- a call that accepts no byte does not count
      cases n with
      | zero => simpa [WriteRet.accepts] using henough
      | succ n =>
        rw [if_pos (by simp [WriteRet.accepts])] at henough
        rw [List.length_cons] at *
        omega
    obtain ⟨rets', heq, hready⟩ := ih hrest
    refine ⟨rets', ?_, hready⟩
    rw [heq, List.append_assoc, List.take_append_drop]

theorem traceRecord_file (h : traceRecord rets t c = .ok (t', rets')) :
    t'.file = t.file ++ TraceRecord.packed.write c.record := by
  unfold traceRecord at h
  cases hw : writeAll rets t.file (TraceRecord.packed.write c.record) with
  | error e =>
    rw [hw] at h
    cases h
  | ok p =>
    rw [hw] at h
    obtain ⟨rfl, -⟩ := Prod.mk.inj (Except.ok.inj h)
    exact writeAll_file hw

theorem traceRecords_file (h : traceRecords rets t calls = .ok (t', rets')) :
    t'.file = t.file ++ (calls.map TraceCall.record).flatMap TraceRecord.packed.write := by
  induction calls generalizing t rets with
  | nil =>
    obtain ⟨rfl, -⟩ := Prod.mk.inj (Except.ok.inj h)
    exact (List.append_nil _).symm
  | cons c calls ih =>
    rw [traceRecords] at h
    cases hr : traceRecord rets t c with
    | error e =>
      rw [hr] at h
      cases h
    | ok p =>
      rw [hr] at h
      rw [ih h, traceRecord_file hr, List.append_assoc, List.map_cons, List.flatMap_cons]

theorem writeTrace_file (h : writeTrace rets traceType calls = .ok (t, rets')) :
    t.file = traceBytes traceType calls := by
  unfold writeTrace traceOpen at h
  cases hw : writeAll rets [] (TraceHeader.packed.write (traceHeader traceType)) with
  | error e =>
    rw [hw] at h
    cases h
  | ok p =>
    rw [hw] at h
    have hopen : p.1 = TraceHeader.packed.write (traceHeader traceType) :=
      (writeAll_file hw).trans (List.nil_append _)
    rw [traceRecords_file h, traceBytes, ← hopen]

theorem traceRecords_accepting (calls : List TraceCall)
    (h : Accepting rets (TraceRecord.packed.size * calls.length)) :
    ∃ t' rets', traceRecords rets t calls = .ok (t', rets') := by
  induction calls generalizing t rets with
  | nil => exact ⟨t, rets, rfl⟩
  | cons c calls ih =>
    have hlen : TraceRecord.packed.size * (c :: calls).length =
        (TraceRecord.packed.write c.record).length + TraceRecord.packed.size * calls.length := by
      rw [TraceRecord.packed.length_write, List.length_cons, Nat.mul_succ, Nat.add_comm]
    rw [hlen] at h
    obtain ⟨rets₁, hw, hrest⟩ := writeAll_accepting t.file h
    obtain ⟨t', rets', heq⟩ := ih (t := { t with
      file := t.file ++ TraceRecord.packed.write c.record
      recordsWritten := t.recordsWritten + 1 }) hrest
    refine ⟨t', rets', ?_⟩
    rw [traceRecords, traceRecord, hw]
    exact heq

/-- The writer comes back when enough calls accept a byte. -/
theorem writeTrace_accepting (traceType : UInt8)
    (h : Accepting rets (TraceHeader.packed.size + TraceRecord.packed.size * calls.length)) :
    ∃ t rets', writeTrace rets traceType calls = .ok (t, rets') := by
  rw [← TraceHeader.packed.length_write (traceHeader traceType)] at h
  obtain ⟨rets₁, hw, hrest⟩ := writeAll_accepting [] h
  obtain ⟨t, rets', heq⟩ := traceRecords_accepting calls hrest
  refine ⟨t, rets', ?_⟩
  unfold writeTrace traceOpen
  rw [hw]
  exact heq

end

/-! ## What the loader returns -/

/-- The array holds `l`, in a block that it fits. -/
structure RefBuffer.Holds (b : RefBuffer) (l : List UInt32) : Prop where
  block : b.ref.length = b.cap
  fits : b.n ≤ b.cap
  cap : 0 < b.cap ∧ b.cap ≤ max 1024 (2 * b.n)
  contents : b.ref.take b.n = l

/-- A file on which every byte of the header is right. -/
structure ReferenceHeader (file : List UInt8) : Prop where
  complete : 8 ≤ file.length
  magic : file.take 4 = [82, 84, 82, 67]
  traceType : file[4]? = some 0
  version : file[5]? = some 2

section

variable {b : RefBuffer} {l : List UInt32} {file : List UInt8} {ids : List UInt32} {m : ℕ}
  {traceType : UInt8}

theorem RefBuffer.init_holds : RefBuffer.init.Holds [] :=
  ⟨List.length_replicate, Nat.zero_le _, by decide, rfl⟩

theorem RefBuffer.Holds.store (h : b.Holds l) (hroom : b.n < b.cap) (id : UInt32) :
    Holds { b with n := b.n + 1, ref := b.ref.set b.n id } (l ++ [id]) where
  block := (List.length_set ..).trans h.block
  fits := hroom
  cap := ⟨h.cap.1, h.cap.2.trans (by simp only; omega)⟩
  contents := by
    have hlen : b.n < (b.ref.set b.n id).length := by rwa [List.length_set, h.block]
    show (b.ref.set b.n id).take (b.n + 1) = _
    rw [List.take_succ_eq_append_getElem hlen, List.getElem_set_self, List.take_set,
      List.set_eq_of_length_le (by simp), h.contents]

theorem RefBuffer.Holds.push (h : b.Holds l) (id : UInt32) : (b.push id).Holds (l ++ [id]) := by
  unfold RefBuffer.push
  by_cases hfull : b.n = b.cap
  · rw [if_pos hfull]
    have hgrown : Holds { b with cap := b.cap * 2, ref := b.ref ++ List.replicate b.cap 0 } l := by
      refine ⟨?_, ?_, ⟨?_, ?_⟩, ?_⟩
      · rw [List.length_append, List.length_replicate, h.block, Nat.mul_two]
      · exact h.fits.trans (Nat.le_mul_of_pos_right _ Nat.two_pos)
      · exact Nat.mul_pos h.cap.1 Nat.two_pos
      · show b.cap * 2 ≤ max 1024 (2 * b.n)
        omega
      · rw [← h.contents]
        exact List.take_append_of_le_length (by rw [h.block, hfull])
    exact hgrown.store (by have := h.cap.1; show b.n < b.cap * 2; omega) id
  · rw [if_neg hfull]
    exact h.store (Nat.lt_of_le_of_ne h.fits hfull) id

theorem loadRecords_holds (file : List UInt8) (h : b.Holds l) :
    (loadRecords b file).Holds (l ++ (TraceRecord.packed.records file).map TraceRecord.chunkId) := by
  fun_induction loadRecords b file generalizing l with
  | case1 b file hshort =>
    rw [Packed.records_short hshort, List.map_nil, List.append_nil]
    exact h
  | case2 b file hlong ih =>
    rw [Packed.records_cons (by decide) (Nat.le_of_not_lt hlong), List.map_cons,
      List.append_cons]
    exact ih (h.push _)

/-- A file is too short for the size of the block, `cap * sizeof(uint32_t)`, to wrap in the
loader's `realloc`. -/
theorem loadRecords_cap (hfile : file.length < 2 ^ 63) :
    (loadRecords RefBuffer.init file).cap * 4 < 2 ^ 64 := by
  have h := loadRecords_holds file RefBuffer.init_holds
  have hn := congrArg List.length h.contents
  rw [List.length_take, h.block, Nat.min_eq_left h.fits, List.nil_append, List.length_map,
    Packed.records, List.length_map, List.length_range, TraceRecord.packed_size] at hn
  have hcap := h.cap.2
  omega

/-- The header is read field by field. -/
theorem traceReadHeader_eq_some_iff {rest : List UInt8} :
    traceReadHeader file = some (traceType, rest) ↔
      8 ≤ file.length ∧ file.take 4 = [82, 84, 82, 67] ∧ file[4]? = some traceType ∧
        file[5]? = some 2 ∧ rest = file.drop 8 := by
  unfold traceReadHeader
  by_cases hshort : file.length < TraceHeader.packed.size
  · rw [if_pos hshort]
    exact ⟨fun h => (by cases h), fun h => absurd h.1 (Nat.not_le_of_lt hshort)⟩
  · have hlen : 8 ≤ file.length := Nat.le_of_not_lt hshort
    have hmagic : (TraceHeader.packed.read file).magic = TRACE_MAGIC ↔
        file.take 4 = [82, 84, 82, 67] := by
      rw [← Packed.bytes_read (k := 4) (l := file) (by omega)]
      exact ⟨fun h => congrArg List.Vector.toList h, fun h => Subtype.ext h⟩
    have htype : (TraceHeader.packed.read file).traceType = file[4] :=
      Packed.uint8_read_drop (i := 4) (by omega)
    have hversion : (TraceHeader.packed.read file).version = file[5] := by
      have hbyte : Packed.uint8.read (file.drop 5) = file[5] := Packed.uint8_read_drop (by omega)
      rw [← hbyte]
      exact congrArg Packed.uint8.read List.drop_drop
    rw [if_neg hshort, List.getElem?_eq_getElem (by omega), List.getElem?_eq_getElem (by omega),
      htype, hversion]
    -- the magic is compared first, then the version
    by_cases hm : file.take 4 = [82, 84, 82, 67]
    · rw [if_neg (not_not.2 (hmagic.2 hm))]
      by_cases hv : file[5] = TRACE_FORMAT_VERSION
      · rw [if_neg (not_not.2 hv)]
        constructor
        · intro h
          obtain ⟨rfl, rfl⟩ := Prod.mk.inj (Option.some.inj h)
          exact ⟨hlen, hm, rfl, congrArg some hv, rfl⟩
        · rintro ⟨-, -, ht, -, rfl⟩
          rw [Option.some.inj ht]
          rfl
      · rw [if_pos hv]
        exact ⟨fun h => (by cases h), fun h => absurd (Option.some.inj h.2.2.2.1) hv⟩
    · rw [if_pos (fun h => hm (hmagic.1 h))]
      exact ⟨fun h => (by cases h), fun h => absurd h.2.1 hm⟩

/-- The loader on any file at all. -/
theorem loadReferenceString_eq_ok_iff :
    loadReferenceString file = .ok ids ↔ ReferenceHeader file ∧
      ids = (TraceRecord.packed.records (file.drop 8)).map TraceRecord.chunkId := by
  unfold loadReferenceString
  cases hread : traceReadHeader file with
  | none =>
    refine ⟨fun h => (by cases h), fun h => ?_⟩
    have hsome := traceReadHeader_eq_some_iff.2
      ⟨h.1.complete, h.1.magic, h.1.traceType, h.1.version, rfl⟩
    rw [hread] at hsome
    cases hsome
  | some p =>
    obtain ⟨traceType, rest⟩ := p
    obtain ⟨hlen, hmagic, htype, hversion, rfl⟩ := traceReadHeader_eq_some_iff.1 hread
    -- what is left to test is the type
    have hheader : ReferenceHeader file ↔ traceType = TRACE_TYPE_REFERENCE := by
      refine ⟨fun h => Option.some.inj (htype.symm.trans h.traceType), ?_⟩
      rintro rfl
      exact ⟨hlen, hmagic, htype, hversion⟩
    have hids := (loadRecords_holds (file.drop 8) RefBuffer.init_holds).contents
    rw [List.nil_append] at hids
    dsimp only
    by_cases href : traceType = TRACE_TYPE_REFERENCE
    · have hfault : traceType ≠ TRACE_TYPE_FAULT := by
        rw [href]
        decide
      rw [if_neg hfault, if_neg (not_not.2 href), hids]
      exact ⟨fun h => ⟨hheader.2 href, (Except.ok.inj h).symm⟩, fun h => congrArg _ h.2.symm⟩
    · -- a fault trace has a message of its own
      rw [if_pos href]
      refine ⟨fun h => ?_, fun h => absurd (hheader.1 h.1) href⟩
      split at h <;> cases h

/-! ## Round trip -/

theorem traceHeader_write (traceType : UInt8) :
    TraceHeader.packed.write (traceHeader traceType) = [82, 84, 82, 67, traceType, 2, 0, 0] := by
  have hfields : TraceHeader.packed.write (traceHeader traceType) =
      TRACE_MAGIC.toList ++ ([UInt8.ofNat traceType.toNat] ++
        (Packed.uint8.write TRACE_FORMAT_VERSION ++ Packed.uint16.write 0)) := rfl
  rw [hfields, UInt8.ofNat_toNat]
  rfl

/-- A trace cut behind its header. -/
theorem traceBytes_take (calls : List TraceCall) (hm : 8 ≤ m) :
    (traceBytes traceType calls).take m = [82, 84, 82, 67, traceType, 2, 0, 0] ++
      ((calls.map TraceCall.record).flatMap TraceRecord.packed.write).take (m - 8) := by
  rw [traceBytes, traceHeader_write, List.take_append, List.take_of_length_le hm]
  rfl

theorem loadReferenceString_take (calls : List TraceCall) (hm : 8 ≤ m) :
    loadReferenceString ((traceBytes TRACE_TYPE_REFERENCE calls).take m) =
      .ok ((calls.take ((m - 8) / 24)).map TraceCall.chunkId) := by
  rw [traceBytes_take calls hm, loadReferenceString_eq_ok_iff]
  refine ⟨⟨by simp, rfl, rfl, rfl⟩, ?_⟩
  rw [List.drop_left' (by rfl), Packed.records_take (by decide), ← List.map_take, List.map_map]
  rfl

/-- No part of a trace of another type is taken for a reference string. -/
theorem loadReferenceString_other (calls : List TraceCall) (htype : traceType ≠ TRACE_TYPE_REFERENCE) :
    loadReferenceString ((traceBytes traceType calls).take m) ≠ .ok ids := by
  intro h
  have hheader := (loadReferenceString_eq_ok_iff.1 h).1
  have hm : 8 ≤ m := hheader.complete.trans (List.length_take_le m _)
  have htag := hheader.traceType
  rw [traceBytes_take calls hm] at htag
  exact htype (Option.some.inj htag)

end

/-- What becomes of a trace, however `write` splits it. -/
structure TraceRoundTrip (traceType : UInt8) (calls : List TraceCall) : Prop where
  /-- the writer comes back once enough calls have accepted a byte -/
  written : ∀ rets, Accepting rets (TraceHeader.packed.size + TraceRecord.packed.size * calls.length) →
    ∃ t rets', writeTrace rets traceType calls = .ok (t, rets')
  loaded : traceType = TRACE_TYPE_REFERENCE → ∀ rets t rets',
    writeTrace rets traceType calls = .ok (t, rets') →
      loadReferenceString t.file = .ok (calls.map TraceCall.chunkId)
  cut : traceType = TRACE_TYPE_REFERENCE → ∀ rets t rets',
    writeTrace rets traceType calls = .ok (t, rets') → ∀ m, TraceHeader.packed.size ≤ m →
      loadReferenceString (t.file.take m) =
        .ok ((calls.take ((m - TraceHeader.packed.size) / TraceRecord.packed.size)).map
          TraceCall.chunkId)
  separate : traceType ≠ TRACE_TYPE_REFERENCE → ∀ rets t rets',
    writeTrace rets traceType calls = .ok (t, rets') → ∀ m ids,
      loadReferenceString (t.file.take m) ≠ .ok ids

theorem trace_round_trip :
    (∀ traceType calls, TraceRoundTrip traceType calls) ∧
      ∀ file ids, loadReferenceString file = .ok ids → ReferenceHeader file := by
  refine ⟨fun traceType calls => ⟨fun rets => writeTrace_accepting traceType, ?_, ?_, ?_⟩,
    fun file ids h => (loadReferenceString_eq_ok_iff.1 h).1⟩
  · rintro rfl rets t rets' h
    -- a cut behind the end
    have hall := loadReferenceString_take calls
      (m := 8 + 24 * calls.length + (traceBytes TRACE_TYPE_REFERENCE calls).length) (by omega)
    rw [List.take_of_length_le (by omega), List.take_of_length_le (by omega)] at hall
    rw [writeTrace_file h, hall]
  · rintro rfl rets t rets' h m hm
    rw [writeTrace_file h]
    exact loadReferenceString_take calls hm
  · intro htype rets t rets' h m ids
    rw [writeTrace_file h]
    exact loadReferenceString_other calls htype

/-- Two reads of a workload, written five bytes at a time with an interruption. -/
theorem trace_round_trip_twoReads :
    ∃ t rets', writeTrace (.interrupted :: List.replicate 56 (.wrote 5)) TRACE_TYPE_REFERENCE
        [⟨1, 7, 255, 255, 0, 10⟩, ⟨2, 3, 255, 255, 0, 20⟩] = .ok (t, rets') ∧
      loadReferenceString t.file = .ok [7, 3] ∧
      loadReferenceString (t.file.take 40) = .ok [7] := by
  have htrace := trace_round_trip.1 TRACE_TYPE_REFERENCE
    [⟨1, 7, 255, 255, 0, 10⟩, ⟨2, 3, 255, 255, 0, 20⟩]
  obtain ⟨t, rets', h⟩ := htrace.written (.interrupted :: List.replicate 56 (.wrote 5))
    ⟨by decide, by decide⟩
  exact ⟨t, rets', h, htrace.loaded rfl _ _ _ h, htrace.cut rfl _ _ _ h 40 (by decide)⟩

end Residctl
