import Mathlib.Logic.Relation
import Residctl.Content

/-!
# What one fetch writes

`fetch_read` on its own: the padding behind the end of the file, then the aligned reads, then
the buffered ones, whatever the kernel returns for each. It fills its chunk exactly unless the
file ends before the chunk begins: the padding then starts at the end of the file and zeroes
what lies in between (`fetchRead_exact_iff`). A thread of the pager that runs alone from `.pad`
to `.resolve` leaves the same bytes (`fetchRead_steps`).
-/

namespace Residctl.Pager

open Relation

variable {n : ℕ} {σ : Type}

/-! ## The code -/

/-- Mapping B, and the bytes of it that have been written. -/
structure MapB where
  mem : ℕ → UInt8
  written : ℕ → Bool

/-- A store of `len` bytes. -/
def MapB.write (m : MapB) (lo len : ℕ) (byte : ℕ → UInt8) : MapB where
  mem a := if lo ≤ a ∧ a < lo + len then byte a else m.mem a
  written a := decide (lo ≤ a ∧ a < lo + len) || m.written a

/-- What one `pread` does: it transfers up to `k` bytes, or fails. -/
inductive ReadEvent
  | bytes (k : ℕ)
  | eintr
  | error
deriving DecidableEq, Repr

/-- A loop of reads at `pos` up to `stop`, to `dest` for the file offset `start`. `none` when it
aborts, or waits for more events. -/
def readLoop (cfg : Config n σ) (dest start stop : ℕ) :
    List ReadEvent → ℕ → MapB → Option (MapB × List ReadEvent)
  | [], pos, m => if pos < stop then none else some (m, [])
  | ev :: evs, pos, m =>
    if pos < stop then
      match ev with
      | .eintr => readLoop cfg dest start stop evs pos m
      | .error => none
      | .bytes k =>
        let got := min k (min (stop - pos) (cfg.modelFileSize - pos))
        -- unexpected EOF
        if got = 0 then none
        else readLoop cfg dest start stop evs (pos + got)
          (m.write (dest + (pos - start)) got fun a => cfg.fileByte (a - dest + start))
    else some (m, ev :: evs)

/-- `dest` as an offset in mapping B. -/
def fetchDest (cfg : Config n σ) (c : Fin n) : ℕ :=
  cfg.table.regionOff c - (cfg.table.regionOff c - alignedStart cfg c)

/-- The `memset` of `fetch_read`; the address is computed modulo `2 ^ 64`. -/
def fetchPad (cfg : Config n σ) (c : Fin n) (m : MapB) : MapB :=
  if Clamped cfg c then
    m.write (wrap64 (fetchDest cfg c + sub64 cfg.modelFileSize (alignedStart cfg c)))
      (alignedEnd cfg c - cfg.modelFileSize) fun _ => 0
  else m

/-- `fetch_read`: `none` when it does not return. -/
def fetchRead (cfg : Config n σ) (c : Fin n) (evs : List ReadEvent) (m : MapB) : Option MapB :=
  if fetchDest cfg c % RESIDCTL_ALIGN ≠ 0 then none
  else
    match readLoop cfg (fetchDest cfg c) (alignedStart cfg c) (directEnd cfg c) evs
        (alignedStart cfg c) (fetchPad cfg c m) with
    | none => none
    | some (m, evs) =>
      (readLoop cfg (fetchDest cfg c) (alignedStart cfg c) (tailEnd cfg c) evs
        (directEnd cfg c) m).map Prod.fst

/-- The chunk's pages are the file, zero behind its end, and nothing else has been written. -/
structure FillsExactly (cfg : Config n σ) (c : Fin n) (m m' : MapB) : Prop where
  file : ∀ a, alignedStart cfg c ≤ a → a < alignedEnd cfg c → m'.mem a = cfg.content a
  within : ∀ a, ¬ (alignedStart cfg c ≤ a ∧ a < alignedEnd cfg c) →
    m'.mem a = m.mem a ∧ m'.written a = m.written a

/-! ## The loops -/

section

variable {cfg : Config n σ} {c : Fin n} {m m' : MapB} {evs rest : List ReadEvent}
  {start stop pos a : ℕ}

theorem MapB.write_mem (m : MapB) (lo len : ℕ) (byte : ℕ → UInt8) :
    (m.write lo len byte).mem a = if lo ≤ a ∧ a < lo + len then byte a else m.mem a := rfl

theorem MapB.write_written (m : MapB) (lo len : ℕ) (byte : ℕ → UInt8) :
    (m.write lo len byte).written a = (decide (lo ≤ a ∧ a < lo + len) || m.written a) := rfl

/-- A loop that returns has read `[pos, stop)`, all of it inside the file. -/
theorem readLoop_some (h : readLoop cfg start start stop evs pos m = some (m', rest))
    (hpos : start ≤ pos) :
    (pos < stop → stop ≤ cfg.modelFileSize) ∧ ∀ a,
      m'.mem a = (if pos ≤ a ∧ a < stop then cfg.fileByte a else m.mem a) ∧
      m'.written a = (decide (pos ≤ a ∧ a < stop) || m.written a) := by
  -- nothing is read once `pos` has reached `stop`
  have hdone : ∀ {m₁ m₂ : MapB} {pos}, ¬ pos < stop → some (m₁, rest) = some (m₂, rest) →
      (pos < stop → stop ≤ cfg.modelFileSize) ∧ ∀ a,
        m₂.mem a = (if pos ≤ a ∧ a < stop then cfg.fileByte a else m₁.mem a) ∧
        m₂.written a = (decide (pos ≤ a ∧ a < stop) || m₁.written a) := by
    intro m₁ m₂ pos hlt hsome
    obtain rfl : m₁ = m₂ := congrArg Prod.fst (Option.some.inj hsome)
    refine ⟨fun hpos => absurd hpos hlt, fun a => ?_⟩
    have hout : ¬ (pos ≤ a ∧ a < stop) := by omega
    simp [hout]
  induction evs generalizing pos m with
  | nil =>
    rw [readLoop] at h
    split at h
    · cases h
    · rename_i hlt
      obtain rfl : [] = rest := congrArg Prod.snd (Option.some.inj h)
      exact hdone hlt h
  | cons ev evs ih =>
    unfold readLoop at h
    split at h
    · rename_i hlt
      cases ev with
      | eintr => exact ih h hpos
      | error => cases h
      | bytes k =>
        dsimp only at h
        split at h
        · cases h
        · rename_i hgot
          obtain ⟨hfile, hmem⟩ := ih h (hpos.trans (Nat.le_add_right _ _))
          refine ⟨fun _ => ?_, fun a => ?_⟩
          · -- the last read may end the loop
            by_cases hmore : pos + min k (min (stop - pos) (cfg.modelFileSize - pos)) < stop
            · exact hfile hmore
            · omega
          · obtain ⟨hbyte, hwritten⟩ := hmem a
            rw [MapB.write_mem] at hbyte
            rw [MapB.write_written] at hwritten
            rw [Nat.add_sub_cancel' hpos] at hbyte hwritten
            constructor
            · rw [hbyte]
              -- a byte is read now or by the rest of the loop
              by_cases hin : pos ≤ a ∧ a < stop
              · rw [if_pos hin]
                split
                · rfl
                · rw [if_pos (by omega), Nat.sub_add_cancel (hpos.trans hin.1)]
              · rw [if_neg hin, if_neg (by omega), if_neg (by omega)]
            · rw [hwritten, ← Bool.or_assoc]
              congr 1
              rw [← Bool.decide_or, decide_eq_decide]
              omega
    · rename_i hlt
      obtain rfl : ev :: evs = rest := congrArg Prod.snd (Option.some.inj h)
      exact hdone hlt h

/-! ## The fetch -/

theorem fetchDest_eq (cfg : Config n σ) (c : Fin n) : fetchDest cfg c = alignedStart cfg c := by
  rw [fetchDest, alignedStart_eq, Nat.sub_self, Nat.sub_zero]

theorem fetchPad_eq (cfg : Config n σ) (c : Fin n) (m : MapB) : fetchPad cfg c m =
    if Clamped cfg c then
      m.write cfg.modelFileSize (alignedEnd cfg c - cfg.modelFileSize) fun _ => 0
    else m := by
  unfold fetchPad
  split
  · rename_i hclamped
    have hend := cfg.table.end_le_regionLen c
    have hregion := cfg.truncated
    have hsize := hclamped.2
    rw [alignedEnd_eq] at hsize
    have haddr : wrap64 (fetchDest cfg c + sub64 cfg.modelFileSize (alignedStart cfg c)) =
        cfg.modelFileSize := by
      rw [fetchDest_eq, alignedStart_eq]
      unfold wrap64 sub64
      omega
    rw [haddr]
  · rfl

theorem fetchRead_some (h : fetchRead cfg c evs m = some m') : ∃ m₁ evs₁ rest,
    readLoop cfg (alignedStart cfg c) (alignedStart cfg c) (directEnd cfg c) evs
        (alignedStart cfg c) (fetchPad cfg c m) = some (m₁, evs₁) ∧
      readLoop cfg (alignedStart cfg c) (alignedStart cfg c) (tailEnd cfg c) evs₁
        (directEnd cfg c) m₁ = some (m', rest) := by
  unfold fetchRead at h
  rw [fetchDest_eq] at h
  split at h
  · cases h
  · split at h
    · cases h
    · rename_i m₁ evs₁ hbulk
      obtain ⟨⟨m₂, rest⟩, htail, rfl⟩ := Option.map_eq_some_iff.1 h
      exact ⟨m₁, evs₁, rest, hbulk, htail⟩

theorem directEnd_le_fileSize (hclamped : Clamped cfg c)
    (hstart : alignedStart cfg c ≤ cfg.modelFileSize) : directEnd cfg c ≤ cfg.modelFileSize := by
  rw [directEnd, if_pos hclamped]
  split
  · exact Nat.div_mul_le_self _ _
  · exact hstart

/-- The bytes of a chunk that does not begin behind the end of the file. -/
theorem fetchRead_fills (hsize : 0 < cfg.modelFileSize)
    (hstart : alignedStart cfg c ≤ cfg.modelFileSize) (h : fetchRead cfg c evs m = some m') :
    FillsExactly cfg c m m' := by
  obtain ⟨m₁, evs₁, rest, hbulk, htail⟩ := fetchRead_some h
  have hdirect : alignedStart cfg c ≤ directEnd cfg c := alignedStart_le_directEnd c
  have hdirect' : directEnd cfg c ≤ alignedEnd cfg c := directEnd_le_alignedEnd c
  have htail' : tailEnd cfg c ≤ alignedEnd cfg c := tailEnd_le_alignedEnd c
  obtain ⟨-, hmem₁⟩ := readLoop_some hbulk le_rfl
  obtain ⟨-, hmem₂⟩ := readLoop_some htail hdirect
  have hpad := fetchPad_eq cfg c m
  constructor
  · intro a hlo hhi
    rw [(hmem₂ a).1, (hmem₁ a).1, Config.content]
    by_cases hclamped : Clamped cfg c
    · -- the file ends inside the chunk
      have hend : directEnd cfg c ≤ cfg.modelFileSize := directEnd_le_fileSize hclamped hstart
      rw [tailEnd, if_pos hclamped]
      by_cases ha : a < cfg.modelFileSize
      · rw [if_pos ha]
        split
        · rfl
        · rw [if_pos (by omega)]
      · rw [if_neg ha, if_neg (by omega), if_neg (by omega), hpad, if_pos hclamped,
          MapB.write_mem, if_pos (by omega)]
    · have hwhole : alignedEnd cfg c ≤ cfg.modelFileSize := by
        unfold Clamped at hclamped
        omega
      have hall : directEnd cfg c = alignedEnd cfg c := if_neg hclamped
      rw [if_pos (hhi.trans_le hwhole)]
      split
      · rfl
      · rw [if_pos (by omega)]
  · -- the padding too stays inside the chunk, since the file reaches it
    intro a hout
    have hold : (fetchPad cfg c m).mem a = m.mem a ∧ (fetchPad cfg c m).written a = m.written a := by
      rw [hpad]
      split
      · have hno : ¬ (cfg.modelFileSize ≤ a ∧
            a < cfg.modelFileSize + (alignedEnd cfg c - cfg.modelFileSize)) := by omega
        simp [MapB.write, hno]
      · exact ⟨rfl, rfl⟩
    have hno₁ : ¬ (alignedStart cfg c ≤ a ∧ a < directEnd cfg c) := by omega
    have hno₂ : ¬ (directEnd cfg c ≤ a ∧ a < tailEnd cfg c) := by omega
    rw [(hmem₂ a).1, (hmem₂ a).2, (hmem₁ a).1, (hmem₁ a).2, if_neg hno₁, if_neg hno₂, hold.1, hold.2]
    simp [hno₁, hno₂]

/-- A chunk behind the end of the file is zeroed from there on, without any read. -/
theorem fetchRead_behind (hsize : 0 < cfg.modelFileSize)
    (hbehind : cfg.modelFileSize < alignedStart cfg c) (m : MapB) :
    fetchRead cfg c [] m =
      some (m.write cfg.modelFileSize (alignedEnd cfg c - cfg.modelFileSize) fun _ => 0) := by
  have hclamped : Clamped cfg c := by
    refine ⟨hsize.ne', ?_⟩
    have hle : alignedStart cfg c ≤ directEnd cfg c := alignedStart_le_directEnd c
    have hle' : directEnd cfg c ≤ alignedEnd cfg c := directEnd_le_alignedEnd c
    omega
  have hdown : ¬ alignDown cfg.modelFileSize > alignedStart cfg c := by
    have hle : alignDown cfg.modelFileSize ≤ cfg.modelFileSize := Nat.div_mul_le_self _ _
    omega
  -- both loops are empty: the reads end where they start
  have hdirect : directEnd cfg c = alignedStart cfg c := by
    rw [directEnd, if_pos hclamped, if_neg hdown]
  have htail : tailEnd cfg c = cfg.modelFileSize := if_pos hclamped
  have hdest : ¬ fetchDest cfg c % RESIDCTL_ALIGN ≠ 0 := by
    rw [fetchDest_eq, alignedStart_eq]
    exact not_not.2 (cfg.table.aligned c)
  rw [fetchRead, if_neg hdest, hdirect, htail, readLoop, if_neg (lt_irrefl _)]
  dsimp only
  rw [readLoop, if_neg (Nat.lt_asymm hbehind), fetchPad_eq, if_pos hclamped]
  rfl

/-- `fetch_read` fills exactly its chunk, however the reads go, if and only if the file reaches the
chunk's first page. -/
theorem fetchRead_exact_iff (cfg : Config n σ) (c : Fin n) (hsize : 0 < cfg.modelFileSize) :
    (∀ evs m m', fetchRead cfg c evs m = some m' → FillsExactly cfg c m m') ↔
      alignedStart cfg c ≤ cfg.modelFileSize := by
  constructor
  · intro h
    by_contra hbehind
    have hbehind' := Nat.lt_of_not_le hbehind
    have hexact := h [] ⟨fun _ => 0, fun _ => false⟩ _ (fetchRead_behind hsize hbehind' _)
    have hle : alignedStart cfg c ≤ directEnd cfg c := alignedStart_le_directEnd c
    have hle' : directEnd cfg c ≤ alignedEnd cfg c := directEnd_le_alignedEnd c
    -- the byte at the end of the file is written
    have hout := (hexact.within cfg.modelFileSize (by omega)).2
    rw [MapB.write_written, decide_eq_true (by omega)] at hout
    cases hout
  · exact fun hstart evs m m' => fetchRead_fills hsize hstart

/-! ## The fetch is the machine's -/

/-- One step of a job, with whatever the kernel returns. -/
def IoStep (cfg : Config n σ) (j : Job n) (x y : Shared n σ × Instr n) : Prop :=
  ∃ io, execJob cfg io x.1 j x.2 = .next y.1 (.job j y.2)

/-- A loop of the machine whose head is `instr pos` does what the loop of `fetch_read` does. An
interrupted read is no step. -/
theorem readLoop_steps {j : Job n} (instr : ℕ → Instr n) {sh : Shared n σ}
    (hstep : ∀ sh pos k, start ≤ pos → pos < stop → pos < cfg.modelFileSize →
      IoStep cfg j (sh, instr pos)
        (loadBytes cfg sh pos (min k (min (stop - pos) (cfg.modelFileSize - pos))),
          instr (pos + min k (min (stop - pos) (cfg.modelFileSize - pos)))))
    (h : readLoop cfg start start stop evs pos m = some (m', rest)) (hpos : start ≤ pos)
    (hmem : sh.kernel.mem = m.mem) : ∃ sh', sh'.kernel.mem = m'.mem ∧
      ReflTransGen (IoStep cfg j) (sh, instr pos) (sh', instr (max pos stop)) := by
  have hdone : ∀ {sh : Shared n σ} {pos} {m : MapB}, sh.kernel.mem = m.mem → ¬ pos < stop → m = m' →
      ∃ sh', sh'.kernel.mem = m'.mem ∧
        ReflTransGen (IoStep cfg j) (sh, instr pos) (sh', instr (max pos stop)) := by
    rintro sh pos m hmem hlt rfl
    rw [max_eq_left (Nat.le_of_not_lt hlt)]
    exact ⟨sh, hmem, .refl⟩
  induction evs generalizing pos m sh with
  | nil =>
    unfold readLoop at h
    split at h
    · cases h
    · exact hdone hmem ‹_› (congrArg Prod.fst (Option.some.inj h))
  | cons ev evs ih =>
    unfold readLoop at h
    split at h
    · rename_i hlt
      cases ev with
      | eintr => exact ih h hpos hmem
      | error => cases h
      | bytes k =>
        dsimp only at h
        split at h
        · cases h
        · rename_i hgot
          have hsub : start + (pos - start) = pos := Nat.add_sub_cancel' hpos
          rw [hsub] at h
          -- the bytes the machine loads are the ones stored here
          have hload : (loadBytes cfg sh pos
              (min k (min (stop - pos) (cfg.modelFileSize - pos)))).kernel.mem =
              (m.write pos (min k (min (stop - pos) (cfg.modelFileSize - pos)))
                fun a => cfg.fileByte (a - start + start)).mem := by
            funext a
            rw [MapB.write_mem, ← hmem]
            show (if _ then _ else _) = _
            split
            · rename_i hin
              rw [Nat.sub_add_cancel (hpos.trans hin.1)]
            · rfl
          obtain ⟨sh', hmem', hsteps⟩ := ih h (hpos.trans (Nat.le_add_right _ _)) hload
          have hend : max (pos + min k (min (stop - pos) (cfg.modelFileSize - pos))) stop =
              max pos stop := by omega
          rw [hend] at hsteps
          exact ⟨sh', hmem', .head (hstep sh pos k hpos hlt (by omega)) hsteps⟩
    · exact hdone hmem ‹_› (congrArg Prod.fst (Option.some.inj h))

/-- The thread of the machine, run alone from `.pad` to `.resolve`. -/
theorem fetchRead_steps {j : Job n} {sh : Shared n σ}
    (h : fetchRead cfg j.target evs m = some m') (hmem : sh.kernel.mem = m.mem) :
    ∃ sh', sh'.kernel.mem = m'.mem ∧
      ReflTransGen (IoStep cfg j) (sh, .pad) (sh', .resolve) := by
  obtain ⟨m₁, evs₁, rest, hbulk, htail⟩ := fetchRead_some h
  have hdirect : alignedStart cfg j.target ≤ directEnd cfg j.target := alignedStart_le_directEnd _
  have hpad : (padTail cfg sh j.target).kernel.mem = (fetchPad cfg j.target m).mem := by
    rw [fetchPad_eq, padTail]
    split
    · funext a
      rw [MapB.write_mem, ← hmem]
      rfl
    · exact hmem
  -- the aligned reads
  obtain ⟨sh₁, hmem₁, hsteps₁⟩ := readLoop_steps (j := j)
    (fun pos => .read (pos - alignedStart cfg j.target)) (fun sh pos k hpos hlt hsize => by
      refine ⟨{ count := k }, ?_⟩
      have hsub : alignedStart cfg j.target + (pos - alignedStart cfg j.target) = pos :=
        Nat.add_sub_cancel' hpos
      simp only [execJob, hsub, if_pos hlt, pread, if_pos hsize]
      rw [Nat.sub_add_comm hpos])
    hbulk le_rfl hpad
  rw [max_eq_right hdirect] at hsteps₁
  -- the buffered ones
  obtain ⟨sh₂, hmem₂, hsteps₂⟩ := readLoop_steps (j := j) .tail
    (fun sh pos k _ hlt hsize => ⟨{ count := k }, by
      simp only [execJob, if_pos hlt, pread, if_pos hsize]⟩)
    htail hdirect hmem₁
  refine ⟨sh₂, hmem₂, .head ⟨{}, rfl⟩ (.trans (Nat.sub_self (alignedStart cfg j.target) ▸ hsteps₁)
    (.head ⟨{}, ?_⟩ (.tail hsteps₂ ⟨{}, ?_⟩)))⟩
  · have hdone : ¬ alignedStart cfg j.target + (directEnd cfg j.target - alignedStart cfg j.target) <
        directEnd cfg j.target := by omega
    simp only [execJob, if_neg hdone]
  · have hdone : ¬ max (directEnd cfg j.target) (tailEnd cfg j.target) < tailEnd cfg j.target := by
      omega
    simp only [execJob, if_neg hdone]

end

/-- Two chunks of a page, and a file that ends in the first. -/
def shortFile : Config 2 Unit := { twoPages with modelFileSize := 1000 }

theorem fetchRead_shortFile : alignedStart shortFile 0 ≤ shortFile.modelFileSize ∧
    ∀ evs m m', fetchRead shortFile 0 evs m = some m' → FillsExactly shortFile 0 m m' :=
  ⟨by decide, (fetchRead_exact_iff shortFile 0 (by decide)).2 (by decide)⟩

/-- The fetch of the second chunk zeroes what the first one has behind the end of the file. -/
theorem fetchRead_before_chunk : ∃ m' : MapB,
    fetchRead shortFile 1 [] ⟨fun _ => 7, fun _ => false⟩ = some m' ∧ m'.written 2000 = true ∧
      m'.mem 2000 = 0 ∧ ¬ FillsExactly shortFile 1 ⟨fun _ => 7, fun _ => false⟩ m' := by
  refine ⟨_, fetchRead_behind (by decide) (by decide) _, by decide, by decide, fun h => ?_⟩
  exact absurd (h.within 2000 (by decide)).2 (by decide)

end Residctl.Pager
