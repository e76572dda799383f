import Mathlib.Data.PNat.Basic
import Residctl.Lib.Text

/-!
# Counters of a cgroup

`cgroup_stat.c`: a file of lines `<name> <decimal>` is read into one buffer of 8191 bytes, and
fields are looked up in what fits. A longer file is cut; `cgroup_stat.h` holds that a field
behind the cut is not found. That is so unless the cut falls inside its digits
(`lookup_exact_iff`).
-/

namespace Residctl

open Text

/-! ## The code -/

def CGROUP_STAT_BUF_SIZE : ℕ := 8192

def newline : UInt8 := 10

/-- What `read` returns: at most `n` bytes, none at the end of the file only, `EINTR` or
another error. -/
inductive ReadRet
  | gave (n : ℕ+)
  | interrupted
  | failed
deriving DecidableEq

/-- Why there is no snapshot. -/
inductive NoSnapshot
  | failed
  | blocked
deriving DecidableEq, Repr

/-- `cgroup_stat_snapshot_t`: `buf` up to `len`, which leaves room for the final zero. -/
structure StatSnapshot where
  buf : List UInt8
  fits : buf.length < CGROUP_STAT_BUF_SIZE

namespace StatSnapshot

def empty : StatSnapshot := ⟨[], by decide⟩

/-- `sizeof(snap->buf) - 1 - total`. -/
def room (snap : StatSnapshot) : ℕ := CGROUP_STAT_BUF_SIZE - 1 - snap.buf.length

/-- The bytes that a `read` adds. -/
def fill (snap : StatSnapshot) (n : ℕ) (file : List UInt8) : StatSnapshot where
  buf := snap.buf ++ file.take (min n snap.room)
  fits := by
    have hfits := snap.fits
    have hgot := List.length_take_le (min n snap.room) file
    rw [List.length_append]
    unfold room at hgot ⊢
    omega

end StatSnapshot

/-- The loop over `read`, which goes on with the rest of the file. -/
def snapshotReadLoop : List ReadRet → List UInt8 → StatSnapshot → Except NoSnapshot StatSnapshot
  | rets, file, snap =>
    if snap.buf.length ≥ CGROUP_STAT_BUF_SIZE - 1 then .ok snap
    else
      match rets with
      | [] => .error .blocked
      | .failed :: _ => .error .failed
      | .interrupted :: rets => snapshotReadLoop rets file snap
      | .gave n :: rets =>
        if file = [] then .ok snap
        else snapshotReadLoop rets (file.drop (min n snap.room)) (snap.fill n file)

/-- `cgroup_stat_snapshot_read`; `none` for a file that does not open. -/
def cgroupStatSnapshotRead (rets : List ReadRet) : Option (List UInt8) → Except NoSnapshot StatSnapshot
  | none => .error .failed
  | some file => snapshotReadLoop rets file .empty

/-- The value when `sscanf(line, "%127s %llu", k, &v)` is 2 and `k` is the key. -/
def lineValue (key : CString) (line : List UInt8) : Option ℕ :=
  match scanString 127 (cString line) with
  | none => none
  | some (k, rest) => if k = key.chars then scanUnsigned rest else none

/-- The loop over lines, from `pos` on. -/
def snapshotFieldLoop (key : CString) (rest : List UInt8) : Option ℕ :=
  if rest = [] then none
  else
    let line := rest.takeWhile (· != newline)
    match lineValue key (line.take 255) with
    | some v => some v
    | none => snapshotFieldLoop key (rest.drop (line.length + 1))
termination_by rest.length
decreasing_by
  have hpos : 0 < rest.length := List.length_pos_iff.2 (by assumption)
  rw [List.length_drop]
  omega

def cgroupStatSnapshotField (snap : StatSnapshot) (key : CString) : Option ℕ :=
  snapshotFieldLoop key snap.buf

/-! ## Files -/

/-- A line `<name> <decimal>`. -/
structure StatLine where
  name : List UInt8
  digits : List UInt8
  name_ne : name ≠ []
  name_length : name.length ≤ 127
  name_chars : ∀ c ∈ name, isSpace c = false
  digits_ne : digits ≠ []
  digits_chars : ∀ c ∈ digits, isDigit c
  fits : decimal digits < 2 ^ 64
  short : name.length + 1 + digits.length < 256

namespace StatLine

def value (l : StatLine) : ℕ := decimal l.digits

def bytes (l : StatLine) : List UInt8 := l.name ++ 32 :: l.digits

end StatLine

/-- The lines, each with its newline. -/
def statLines (lines : List StatLine) : List UInt8 :=
  lines.flatMap fun l => l.bytes ++ [newline]

/-- The file; the last line may lack its newline. -/
def statFile (lines : List StatLine) (terminated : Bool) : List UInt8 :=
  if terminated then statLines lines else (statLines lines).dropLast

/-- The first line of the name `key`, with the place of its digits in the file. -/
def valueAt (key : CString) : List StatLine → Option (ℕ × StatLine)
  | [] => none
  | l :: lines =>
    if l.name = key.chars then some (l.name.length + 1, l)
    else (valueAt key lines).map fun p => (l.bytes.length + 1 + p.1, p.2)

/-- The end of the buffer falls inside the digits of the field. -/
def CutInValue (lines : List StatLine) (key : CString) : Prop :=
  match valueAt key lines with
  | none => False
  | some (start, l) =>
    start < CGROUP_STAT_BUF_SIZE - 1 ∧ CGROUP_STAT_BUF_SIZE - 1 < start + l.digits.length ∧
      l.value ≠ 0

/-- No call fails, and enough of them give bytes to fill the buffer. -/
structure Responding (rets : List ReadRet) : Prop where
  ok : .failed ∉ rets
  enough : CGROUP_STAT_BUF_SIZE ≤ rets.countP fun ret => ret matches .gave _

/-- A lookup returns the value of the first line of that name, or nothing. -/
structure LookupExact (lines : List StatLine) (terminated : Bool) (key : CString) : Prop where
  returns : ∀ rets, Responding rets →
    ∃ snap, cgroupStatSnapshotRead rets (some (statFile lines terminated)) = .ok snap
  right : ∀ rets snap v,
    cgroupStatSnapshotRead rets (some (statFile lines terminated)) = .ok snap →
      cgroupStatSnapshotField snap key = some v →
        (lines.find? fun l => l.name = key.chars).map StatLine.value = some v

/-! ## Reading -/

section

variable {rets : List ReadRet} {file buf : List UInt8} {snap snap' : StatSnapshot} {k : ℕ}

theorem StatSnapshot.length_le (snap : StatSnapshot) :
    snap.buf.length ≤ CGROUP_STAT_BUF_SIZE - 1 :=
  Nat.le_sub_one_of_lt snap.fits

/-- A `read` goes on where the buffer ends. -/
theorem StatSnapshot.fill_append (snap : StatSnapshot) (n : ℕ) (file : List UInt8) :
    (snap.fill n file).buf ++ file.drop (min n snap.room) = snap.buf ++ file := by
  rw [fill, List.append_assoc, List.take_append_drop]

/-- However the calls split the file. -/
theorem snapshotReadLoop_buf (h : snapshotReadLoop rets file snap = .ok snap') :
    snap'.buf = (snap.buf ++ file).take (CGROUP_STAT_BUF_SIZE - 1) := by
  fun_induction snapshotReadLoop rets file snap with
  -- the buffer is full, then the end of the file, then a `read` of bytes
  | case1 rets file snap hfull =>
    obtain rfl := Except.ok.inj h
    have hlen : snap.buf.length = CGROUP_STAT_BUF_SIZE - 1 := hfull.antisymm' snap.length_le
    rw [← hlen, List.take_left]
  | case2 => cases h
  | case3 => cases h
  | case4 file snap hroom rets ih => exact ih h
  | case5 snap hroom n rets =>
    obtain rfl := Except.ok.inj h
    rw [List.append_nil, List.take_of_length_le snap.length_le]
  | case6 file snap hroom n rets hmore ih => rw [ih h, snap.fill_append]

/-- The loop ends: every `read` fills in a byte or finds the end of the file. -/
theorem snapshotReadLoop_returns (hok : .failed ∉ rets)
    (henough : CGROUP_STAT_BUF_SIZE ≤ snap.buf.length + rets.countP fun ret => ret matches .gave _) :
    ∃ snap', snapshotReadLoop rets file snap = .ok snap' := by
  fun_induction snapshotReadLoop rets file snap with
  | case1 rets file snap hfull => exact ⟨snap, rfl⟩
  | case2 file snap hroom =>
    have hfits := snap.fits
    rw [List.countP_nil] at henough
    omega
  | case3 file snap hroom rets => exact absurd List.mem_cons_self hok
  | case4 file snap hroom rets ih =>
    exact ih (fun hmem => hok (List.mem_cons_of_mem _ hmem)) (by simpa using henough)
  | case5 snap hroom n rets => exact ⟨snap, rfl⟩
  | case6 file snap hroom n rets hmore ih =>
    refine ih (fun hmem => hok (List.mem_cons_of_mem _ hmem)) ?_
    -- there is room, so the call fills in a byte
    have hgot : 0 < (file.take (min n snap.room)).length := by
      have hfile := List.length_pos_iff.2 hmore
      have hn := n.pos
      rw [List.length_take, StatSnapshot.room]
      omega
    rw [StatSnapshot.fill, List.length_append]
    rw [List.countP_cons_of_pos (by rfl)] at henough
    omega

end

/-! ## Lines -/

section

variable {key : CString} {l : StatLine} {lines : List StatLine} {s rest : List UInt8} {m : ℕ}

namespace StatLine

theorem length_bytes (l : StatLine) : l.bytes.length = l.name.length + 1 + l.digits.length := by
  rw [bytes, List.length_append, List.length_cons]
  omega

theorem isDigit_take (l : StatLine) (k : ℕ) : ∀ c ∈ l.digits.take k, isDigit c :=
  fun c hc => l.digits_chars c (List.mem_of_mem_take hc)

theorem newline_notMem (l : StatLine) : newline ∉ l.bytes := by
  rw [bytes, List.mem_append, List.mem_cons]
  rintro (h | h | h)
  · exact absurd (l.name_chars _ h) (by decide)
  · exact absurd h (by decide)
  · exact absurd (l.digits_chars _ h) (by decide)

end StatLine

/-- A line without a blank has no value. -/
theorem lineValue_token (hs : ∀ c ∈ s, isSpace c = false) (hlen : s.length ≤ 127) :
    lineValue key s = none := by
  have hsub : cString s <+: s := List.takeWhile_prefix _
  have htoken : ∀ c ∈ cString s, isSpace c = false := fun c hc => hs c (hsub.subset hc)
  by_cases hne : cString s = []
  · rw [lineValue, hne]
    rfl
  · have hscan : scanString 127 (cString s ++ []) = some (cString s, []) :=
      scanString_token hne (hsub.length_le.trans hlen) htoken (by simp)
    rw [List.append_nil] at hscan
    rw [lineValue, hscan]
    exact ite_self none

/-- A line cut after `m` bytes has the value of the digits that are left. -/
theorem lineValue_take (key : CString) (l : StatLine) (m : ℕ) :
    lineValue key (l.bytes.take m) =
      if l.name = key.chars ∧ l.name.length + 1 < m then
        some (decimal (l.digits.take (m - (l.name.length + 1))))
      else none := by
  by_cases hname : m ≤ l.name.length
  · -- the cut is in the name
    rw [if_neg (by omega), StatLine.bytes, List.take_append_of_le_length hname]
    refine lineValue_token (fun c hc => l.name_chars c (List.mem_of_mem_take hc)) ?_
    exact (List.length_take_le' m l.name).trans l.name_length
  · -- the whole name, the blank, and `j` digits
    obtain ⟨j, rfl⟩ : ∃ j, m = l.name.length + 1 + j := Nat.exists_eq_add_of_le (Nat.lt_of_not_ge hname)
    have hcut : l.bytes.take (l.name.length + 1 + j) = l.name ++ 32 :: l.digits.take j := by
      rw [StatLine.bytes, Nat.add_assoc, List.take_length_add_append, Nat.add_comm 1,
        List.take_succ_cons]
    have hfits : decimal (l.digits.take j) < 2 ^ 64 :=
      (decimal_take_le l.digits j).trans_lt l.fits
    rw [hcut, Nat.add_sub_cancel_left]
    by_cases hzero : 0 ∈ l.name
    · -- the string ends in the name
      have hkey : ¬ (l.name = key.chars ∧ l.name.length + 1 < l.name.length + 1 + j) :=
        fun h => key.noZero (h.1 ▸ hzero)
      rw [if_neg hkey, lineValue, cString_append_of_mem hzero]
      exact lineValue_token l.name_chars l.name_length
    · have hstring : cString (l.name ++ 32 :: l.digits.take j) = l.name ++ 32 :: l.digits.take j := by
        refine cString_eq_self ?_
        rw [List.mem_append, List.mem_cons]
        rintro (h | h | h)
        · exact hzero h
        · exact absurd h (by decide)
        · exact absurd (l.isDigit_take j _ h) (by decide)
      have hscan : scanString 127 (l.name ++ 32 :: l.digits.take j) =
          some (l.name, 32 :: l.digits.take j) :=
        scanString_token l.name_ne l.name_length l.name_chars (by rintro c ⟨⟩; rfl)
      have hvalue : scanUnsigned ([32] ++ l.digits.take j) =
          if l.digits.take j = [] then none else some (decimal (l.digits.take j)) :=
        scanUnsigned_digits (by simp [isSpace]) (l.isDigit_take j) hfits
      have hnone : l.digits.take j = [] ↔ ¬ l.name.length + 1 < l.name.length + 1 + j := by
        rw [List.take_eq_nil_iff, or_iff_left l.digits_ne]
        omega
      rw [lineValue, hstring, hscan]
      show (if l.name = key.chars then scanUnsigned ([32] ++ l.digits.take j) else none) = _
      by_cases hkey : l.name = key.chars
      · rw [if_pos hkey, hvalue, if_congr hnone rfl rfl, ite_not]
        exact if_congr (and_iff_right hkey).symm rfl rfl
      · rw [if_neg hkey, if_neg (fun h => hkey h.1)]

/-! ## The field loop -/

/-- The last line, which nothing ends. -/
theorem snapshotFieldLoop_last (hs : newline ∉ s) (hlen : s.length < 256) :
    snapshotFieldLoop key s = lineValue key s := by
  have hline : s.takeWhile (· != newline) = s :=
    List.takeWhile_eq_self_iff.2 (bne_of_notMem hs)
  unfold snapshotFieldLoop
  by_cases hnil : s = []
  · rw [if_pos hnil, hnil]
    rfl
  · simp only [if_neg hnil, hline, List.take_of_length_le (Nat.le_of_lt_succ hlen)]
    cases lineValue key s with
    | some v => rfl
    | none =>
      rw [List.drop_of_length_le (Nat.le_succ _), snapshotFieldLoop]
      rfl

/-- A line and its newline. -/
theorem snapshotFieldLoop_line (hs : newline ∉ s) (hlen : s.length < 256) :
    snapshotFieldLoop key (s ++ newline :: rest) =
      (lineValue key s).or (snapshotFieldLoop key rest) := by
  have hline : (s ++ newline :: rest).takeWhile (· != newline) = s := by
    rw [List.takeWhile_append_of_pos (bne_of_notMem hs),
      List.takeWhile_cons_of_neg (by simp), List.append_nil]
  have hdrop : (s ++ newline :: rest).drop (s.length + 1) = rest := by
    rw [List.drop_length_add_append]
    rfl
  rw [snapshotFieldLoop, if_neg (by simp)]
  simp only [hline, List.take_of_length_le (Nat.le_of_lt_succ hlen), hdrop]
  cases lineValue key s <;> rfl

/-- The lines cut after `m` bytes. -/
theorem snapshotFieldLoop_take (key : CString) (lines : List StatLine) (m : ℕ) :
    snapshotFieldLoop key ((statLines lines).take m) =
      (valueAt key lines).bind fun p =>
        if p.1 < m then some (decimal (p.2.digits.take (m - p.1))) else none := by
  induction lines generalizing m with
  | nil =>
    rw [statLines, List.flatMap_nil, List.take_nil, snapshotFieldLoop]
    rfl
  | cons l lines ih =>
    have hlines : statLines (l :: lines) = l.bytes ++ newline :: statLines lines := by
      rw [statLines, List.flatMap_cons, List.append_assoc]
      rfl
    have hlen := l.length_bytes
    have hshort := l.short
    rw [hlines, valueAt]
    by_cases hm : m ≤ l.bytes.length
    · -- the cut is in this line
      have hin : newline ∉ l.bytes.take m := fun h => l.newline_notMem (List.mem_of_mem_take h)
      have hcut := List.length_take_le' m l.bytes
      rw [List.take_append_of_le_length hm, snapshotFieldLoop_last hin (by omega), lineValue_take]
      by_cases hkey : l.name = key.chars
      · rw [if_pos hkey, Option.bind_some]
        exact if_congr (and_iff_right hkey) rfl rfl
      · rw [if_neg (fun h => hkey h.1), if_neg hkey]
        cases valueAt key lines with
        | none => rfl
        | some p => exact (if_neg (by dsimp only; omega)).symm
    · -- this line is whole and `j` bytes follow it
      obtain ⟨j, rfl⟩ : ∃ j, m = l.bytes.length + 1 + j :=
        Nat.exists_eq_add_of_le (Nat.lt_of_not_ge hm)
      have hcut : (l.bytes ++ newline :: statLines lines).take (l.bytes.length + 1 + j) =
          l.bytes ++ newline :: (statLines lines).take j := by
        rw [Nat.add_assoc, List.take_length_add_append, Nat.add_comm 1, List.take_succ_cons]
      have hline := lineValue_take key l l.bytes.length
      rw [List.take_length] at hline
      rw [hcut, snapshotFieldLoop_line l.newline_notMem (by omega), ih, hline]
      by_cases hkey : l.name = key.chars
      · -- the line itself has the value, else the lines behind it
        have hdigits := List.length_pos_iff.2 l.digits_ne
        rw [if_pos ⟨hkey, by omega⟩, if_pos hkey, Option.bind_some, Option.some_or,
          List.take_of_length_le (by omega), if_pos (by dsimp only; omega),
          List.take_of_length_le (by dsimp only; omega)]
      · rw [if_neg (fun h => hkey h.1), if_neg hkey, Option.none_or]
        cases valueAt key lines with
        | none => rfl
        | some p =>
          refine if_congr (by dsimp only; omega) ?_ rfl
          rw [show l.bytes.length + 1 + j - (l.bytes.length + 1 + p.1) = j - p.1 by omega]

/-! ## The first line of the name -/

theorem valueAt_find (key : CString) (lines : List StatLine) :
    (valueAt key lines).map Prod.snd = lines.find? fun l => l.name = key.chars := by
  induction lines with
  | nil => rfl
  | cons l lines ih =>
    rw [valueAt, List.find?_cons]
    by_cases hkey : l.name = key.chars
    · simp [hkey]
    · rw [if_neg hkey, Option.map_map, decide_eq_false hkey]
      exact ih

/-- The digits are in front of the last newline. -/
theorem valueAt_le {start : ℕ} (h : valueAt key lines = some (start, l)) :
    start + l.digits.length + 1 ≤ (statLines lines).length := by
  induction lines generalizing start with
  | nil => cases h
  | cons l' lines ih =>
    have hlines : (statLines (l' :: lines)).length =
        l'.bytes.length + 1 + (statLines lines).length := by
      rw [statLines, List.flatMap_cons, List.length_append, List.length_append]
      rfl
    rw [valueAt] at h
    by_cases hkey : l'.name = key.chars
    · rw [if_pos hkey] at h
      obtain ⟨rfl, rfl⟩ := Prod.mk.inj (Option.some.inj h)
      have hlen := l'.length_bytes
      omega
    · rw [if_neg hkey] at h
      obtain ⟨p, hp, heq⟩ := Option.map_eq_some_iff.1 h
      obtain ⟨rfl, rfl⟩ := Prod.mk.inj heq
      have hrest := ih hp
      omega

/-- The lookup in any snapshot of the file. -/
theorem cgroupStatSnapshotField_eq {rets : List ReadRet} {terminated : Bool} {snap : StatSnapshot}
    (h : cgroupStatSnapshotRead rets (some (statFile lines terminated)) = .ok snap) :
    cgroupStatSnapshotField snap key = (valueAt key lines).bind fun p =>
      if p.1 < CGROUP_STAT_BUF_SIZE - 1 then
        some (decimal (p.2.digits.take (CGROUP_STAT_BUF_SIZE - 1 - p.1)))
      else none := by
  have hbuf : snap.buf = (statFile lines terminated).take (CGROUP_STAT_BUF_SIZE - 1) :=
    snapshotReadLoop_buf h
  rw [cgroupStatSnapshotField, hbuf]
  cases terminated with
  | true => exact snapshotFieldLoop_take key lines _
  | false =>
    rw [statFile, if_neg Bool.false_ne_true, List.dropLast_eq_take, List.take_take,
      snapshotFieldLoop_take]
    cases hv : valueAt key lines with
    | none => rfl
    | some p =>
      have hle := valueAt_le hv
      have hdigits := List.length_pos_iff.2 p.2.digits_ne
      -- only the last newline may lie behind the end of the buffer
      by_cases hlong : CGROUP_STAT_BUF_SIZE - 1 ≤ (statLines lines).length - 1
      · rw [Nat.min_eq_left hlong]
      · rw [Nat.min_eq_right (by omega), Option.bind_some, Option.bind_some, if_pos (by omega),
          if_pos (by omega), List.take_of_length_le (by omega), List.take_of_length_le (by omega)]

end

theorem cgroupStatSnapshotRead_returns {rets : List ReadRet} (h : Responding rets)
    (file : List UInt8) : ∃ snap, cgroupStatSnapshotRead rets (some file) = .ok snap :=
  snapshotReadLoop_returns h.ok (h.enough.trans (Nat.le_add_left _ _))

theorem responding_replicate : Responding (List.replicate CGROUP_STAT_BUF_SIZE (.gave 1)) where
  ok h := by cases List.eq_of_mem_replicate h
  enough := by simp [List.countP_replicate]

/-- A lookup is exact, in every way of reading the file, if and only if the buffer does not end
inside the digits of the field. -/
theorem lookup_exact_iff (lines : List StatLine) (terminated : Bool) (key : CString) :
    LookupExact lines terminated key ↔ ¬ CutInValue lines key := by
  constructor
  · intro h hcut
    -- one way of reading the file is enough
    obtain ⟨snap, hsnap⟩ := h.returns _ responding_replicate
    have hfield : cgroupStatSnapshotField snap key = _ := cgroupStatSnapshotField_eq hsnap
    unfold CutInValue at hcut
    cases hv : valueAt key lines with
    | none => rw [hv] at hcut; exact hcut
    | some p =>
      rw [hv] at hcut
      obtain ⟨hstart, hend, hvalue⟩ := hcut
      rw [hv, Option.bind_some, if_pos hstart] at hfield
      have hright := h.right _ _ _ hsnap hfield
      rw [← valueAt_find, hv] at hright
      exact hvalue ((decimal_take_eq_iff (by omega)).1 (Option.some.inj hright).symm)
  · intro hcut
    refine ⟨fun rets hrets => cgroupStatSnapshotRead_returns hrets _,
      fun rets snap v hsnap hfield => ?_⟩
    rw [cgroupStatSnapshotField_eq hsnap] at hfield
    rw [← valueAt_find]
    unfold CutInValue at hcut
    cases hv : valueAt key lines with
    | none =>
      rw [hv] at hfield
      cases hfield
    | some p =>
      rw [hv] at hfield hcut
      rw [Option.bind_some] at hfield
      by_cases hstart : p.1 < CGROUP_STAT_BUF_SIZE - 1
      · rw [if_pos hstart] at hfield
        rw [Option.map_some, Option.map_some, ← hfield]
        -- either no digit is missing or the value is 0
        by_cases hend : CGROUP_STAT_BUF_SIZE - 1 < p.1 + p.2.digits.length
        · have hzero : p.2.value = 0 := by
            by_contra hne
            exact hcut ⟨hstart, hend, hne⟩
          exact congrArg some ((decimal_take_eq_iff (by omega)).2 hzero).symm
        · rw [List.take_of_length_le (by omega)]
          rfl
      · rw [if_neg hstart] at hfield
        cases hfield

/-! ## A cut value -/

/-- `a 12345`. -/
def fillerLine : StatLine where
  name := [97]
  digits := [49, 50, 51, 52, 53]
  name_ne := by decide
  name_length := by decide
  name_chars := by simp [isSpace]
  digits_ne := by decide
  digits_chars := by simp [isDigit]
  fits := by decide
  short := by decide

/-- `shmem 12`. -/
def shmemLine : StatLine where
  name := [115, 104, 109, 101, 109]
  digits := [49, 50]
  name_ne := by decide
  name_length := by decide
  name_chars := by simp [isSpace]
  digits_ne := by decide
  digits_chars := by simp [isDigit]
  fits := by decide
  short := by decide

def shmemKey : CString := ⟨[115, 104, 109, 101, 109], by decide⟩

theorem valueAt_fillers (k : ℕ) (lines : List StatLine) :
    valueAt shmemKey (List.replicate k fillerLine ++ lines) =
      (valueAt shmemKey lines).map fun p => (8 * k + p.1, p.2) := by
  induction k with
  | zero => cases h : valueAt shmemKey lines <;> simp [h]
  | succ k ih =>
    rw [List.replicate_succ, List.cons_append, valueAt, if_neg (by decide), ih, Option.map_map]
    refine congrArg (fun f => (valueAt shmemKey lines).map f) (funext fun p => Prod.ext ?_ rfl)
    show 7 + 1 + (8 * k + p.1) = 8 * (k + 1) + p.1
    omega

/-- What a lookup returns for a field that starts in front of the end of the buffer. -/
theorem lookup_start {lines : List StatLine} {key : CString} {start : ℕ} {l : StatLine}
    (hv : valueAt key lines = some (start, l)) (hstart : start < CGROUP_STAT_BUF_SIZE - 1) :
    ∃ rets snap, cgroupStatSnapshotRead rets (some (statFile lines true)) = .ok snap ∧
      cgroupStatSnapshotField snap key =
        some (decimal (l.digits.take (CGROUP_STAT_BUF_SIZE - 1 - start))) := by
  obtain ⟨snap, hsnap⟩ := cgroupStatSnapshotRead_returns responding_replicate (statFile lines true)
  refine ⟨_, snap, hsnap, ?_⟩
  rw [cgroupStatSnapshotField_eq hsnap, hv, Option.bind_some, if_pos hstart]

/-- 1023 lines of eight bytes in front of `shmem 12`: the buffer ends behind the 1. -/
theorem lookup_cut :
    (∃ rets snap, cgroupStatSnapshotRead rets
        (some (statFile (List.replicate 1023 fillerLine ++ [shmemLine]) true)) = .ok snap ∧
      cgroupStatSnapshotField snap shmemKey = some 1) ∧ shmemLine.value = 12 ∧
      ¬ LookupExact (List.replicate 1023 fillerLine ++ [shmemLine]) true shmemKey := by
  have hv : valueAt shmemKey (List.replicate 1023 fillerLine ++ [shmemLine]) =
      some (8 * 1023 + 6, shmemLine) := valueAt_fillers 1023 [shmemLine]
  have hvalue : shmemLine.value = 12 := by decide
  obtain ⟨rets, snap, hsnap, hfield⟩ := lookup_start hv (by decide)
  have hone : shmemLine.digits.take (CGROUP_STAT_BUF_SIZE - 1 - (8 * 1023 + 6)) = [49] := by decide
  rw [hone] at hfield
  refine ⟨⟨rets, snap, hsnap, hfield⟩, hvalue, fun h => ?_⟩
  have hright := h.right _ _ _ hsnap hfield
  rw [← valueAt_find, hv] at hright
  exact absurd (hvalue.symm.trans (Option.some.inj hright)) (by decide)

end Residctl
