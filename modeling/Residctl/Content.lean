import Residctl.Deeds
import Residctl.Accounting

/-!
# The bytes of the region

A page of mapping A can be read exactly while its chunk is `RESIDENT`, or its fetch has
passed `UFFDIO_CONTINUE`; from that moment to the eviction the chunk's bytes are those of
the file. Before it, what a fetch has loaded so far is known to the thread alone
(`Instr.Loaded`). A step touches the memory of no chunk but one whose mutex it holds.
-/

namespace Residctl

variable {n : ℕ} {σ : Type}

/-- The byte of the file at an offset of the region, 0 past its end. -/
def Config.content (cfg : Config n σ) (a : ℕ) : UInt8 :=
  if a < cfg.modelFileSize then cfg.fileByte a else 0

/-- A read through mapping A, `none` if it faults. -/
def Kernel.load (k : Kernel) (a : ℕ) : Option UInt8 :=
  if k.mapped (pageOf a) then some (k.mem a) else none

/-- The region is no longer than the file in whole pages. -/
def Config.FileBacked (cfg : Config n σ) : Prop :=
  cfg.table.regionLen ≤ alignUp cfg.modelFileSize

instance (cfg : Config n σ) : Decidable cfg.FileBacked := inferInstanceAs (Decidable (_ ≤ _))

/-! ## Pages of chunks -/

/-- The page is part of the chunk. -/
abbrev ChunkTable.HasPage (T : ChunkTable n) (c : Fin n) (p : ℕ) : Prop :=
  PageWithin (T.regionOff c) (T.len c) p

theorem ChunkTable.HasPage.covers {T : ChunkTable n} {c : Fin n} {p : ℕ} (h : T.HasPage c p) :
    T.Covers c (p * RESIDCTL_ALIGN) := by
  have hlo := h.1
  have hhi := h.2
  rw [Nat.succ_mul] at hhi
  exact ⟨hlo, lt_of_lt_of_le (Nat.lt_add_of_pos_right (by decide)) hhi⟩

theorem ChunkTable.HasPage.unique {T : ChunkTable n} {c d : Fin n} {p : ℕ} (hc : T.HasPage c p)
    (hd : T.HasPage d p) : c = d := hc.covers.unique hd.covers

/-- Chunks are made of whole pages. -/
theorem Config.hasPage_iff (cfg : Config n σ) (c : Fin n) (a : ℕ) :
    cfg.table.HasPage c (pageOf a) ↔ cfg.table.Covers c a := by
  have hoff := cfg.table.aligned c
  have hlen := cfg.table.len_mod cfg.registered c
  unfold ChunkTable.HasPage PageWithin ChunkTable.Covers pageOf
  unfold RESIDCTL_ALIGN at *
  omega

namespace Pager

open Mutex Function Runs

/-! ## The geometry of a fetch -/

section

variable (cfg : Config n σ) (c : Fin n)

theorem alignedStart_eq : alignedStart cfg c = cfg.table.regionOff c := by
  have hoff := cfg.table.aligned c
  unfold alignedStart alignDown
  unfold RESIDCTL_ALIGN at *
  omega

theorem alignedEnd_eq : alignedEnd cfg c = cfg.table.regionOff c + cfg.table.len c := by
  have hoff := cfg.table.aligned c
  have hlen := cfg.table.len_mod cfg.registered c
  unfold alignedEnd alignUp alignDown
  unfold RESIDCTL_ALIGN at *
  omega

variable {cfg}

/-- Every chunk starts inside the file. -/
theorem off_lt_fileSize (hfile : cfg.FileBacked) : cfg.table.regionOff c < cfg.modelFileSize := by
  have hpos := cfg.table.len_pos c
  have hend := cfg.table.end_le_regionLen c
  have hoff := cfg.table.aligned c
  unfold Config.FileBacked alignUp alignDown at hfile
  unfold RESIDCTL_ALIGN at *
  omega

theorem alignedStart_le_directEnd : alignedStart cfg c ≤ directEnd cfg c := by
  unfold directEnd
  split
  · split
    · rename_i hgt
      exact hgt.le
    · exact le_rfl
  · rw [alignedStart_eq, alignedEnd_eq]
    exact Nat.le_add_right _ _

theorem directEnd_le_alignedEnd : directEnd cfg c ≤ alignedEnd cfg c := by
  have hle : alignedStart cfg c ≤ alignedEnd cfg c := by
    rw [alignedStart_eq, alignedEnd_eq]
    exact Nat.le_add_right _ _
  unfold directEnd
  split
  · rename_i hclamped
    split
    · have hdown : alignDown cfg.modelFileSize ≤ cfg.modelFileSize := by
        unfold alignDown
        exact Nat.div_mul_le_self _ _
      exact hdown.trans hclamped.2.le
    · exact hle
  · exact le_rfl

theorem tailEnd_le_alignedEnd : tailEnd cfg c ≤ alignedEnd cfg c := by
  unfold tailEnd
  split
  · rename_i hclamped
    exact hclamped.2.le
  · exact le_rfl

/-- Past the end of the tail there is nothing of the file. -/
theorem tailEnd_ge {a : ℕ} (ha : a < alignedEnd cfg c) (htail : tailEnd cfg c ≤ a) :
    Clamped cfg c ∧ cfg.modelFileSize ≤ a := by
  unfold tailEnd at htail
  split at htail
  · rename_i hclamped
    exact ⟨hclamped, htail⟩
  · omega

end

/-! ## What a fetch has loaded -/

/-- The padding is in place. -/
def Padded (cfg : Config n σ) (c : Fin n) (mem : ℕ → UInt8) : Prop :=
  Clamped cfg c → ∀ a, cfg.modelFileSize ≤ a → a < alignedEnd cfg c → mem a = 0

/-- The bytes up to `pos` are those of the file. -/
structure FilledTo (cfg : Config n σ) (c : Fin n) (mem : ℕ → UInt8) (pos : ℕ) : Prop where
  start_le : alignedStart cfg c ≤ pos
  le_end : pos ≤ alignedEnd cfg c
  padded : Padded cfg c mem
  bytes : ∀ a, alignedStart cfg c ≤ a → a < pos → mem a = cfg.content a

/-- The chunk's bytes are those of the file. -/
def Filled (cfg : Config n σ) (c : Fin n) (mem : ℕ → UInt8) : Prop :=
  ∀ a, cfg.table.Covers c a → mem a = cfg.content a

def Instr.Loaded (cfg : Config n σ) (j : Job n) (mem : ℕ → UInt8) : Instr n → Prop
  | .read off => alignedStart cfg j.target + off ≤ directEnd cfg j.target ∧
      FilledTo cfg j.target mem (alignedStart cfg j.target + off)
  | .tail pos => FilledTo cfg j.target mem pos
  | .resolve => Filled cfg j.target mem
  | _ => True

theorem Instr.loaded_of_not_loading (cfg : Config n σ) {j : Job n} {i : Instr n} (mem : ℕ → UInt8)
    (h : i.loading = false) : i.Loaded cfg j mem := by
  cases i with
  | read off => cases h
  | tail pos => cases h
  | resolve => cases h
  | _ => trivial

/-- The read starts with nothing but the padding. -/
theorem Padded.loaded {cfg : Config n σ} {j : Job n} {mem : ℕ → UInt8}
    (h : Padded cfg j.target mem) : (Instr.read 0).Loaded cfg j mem := by
  have hle : alignedStart cfg j.target ≤ directEnd cfg j.target := alignedStart_le_directEnd j.target
  have hend : directEnd cfg j.target ≤ alignedEnd cfg j.target := directEnd_le_alignedEnd j.target
  simp only [Instr.Loaded, Nat.add_zero]
  refine ⟨hle, le_rfl, hle.trans hend, h, fun a hlo hhi => ?_⟩
  exact absurd hhi (Nat.not_lt.2 hlo)

section

variable {cfg : Config n σ} {c : Fin n} {k : Kernel} {pos m : ℕ}

/-- A `pread` into the buffer extends the loaded part. -/
theorem FilledTo.store (h : FilledTo cfg c k.mem pos) (hend : pos + m ≤ alignedEnd cfg c)
    (hfile : pos + m ≤ cfg.modelFileSize) :
    FilledTo cfg c (k.store pos m cfg.fileByte).mem (pos + m) := by
  refine ⟨h.start_le.trans (Nat.le_add_right _ _), hend, fun hclamped a hlo hhi => ?_,
    fun a hlo hhi => ?_⟩
  · have hout : ¬ (pos ≤ a ∧ a < pos + m) := by omega
    simp only [Kernel.store, hout, if_false]
    exact h.padded hclamped a hlo hhi
  · by_cases hin : pos ≤ a ∧ a < pos + m
    · have hsize : a < cfg.modelFileSize := by omega
      simp only [Kernel.store, hin, and_self, if_true, Config.content, hsize]
    · simp only [Kernel.store, hin, if_false]
      exact h.bytes a hlo (by omega)

theorem covers_iff_aligned (cfg : Config n σ) (c : Fin n) (a : ℕ) :
    cfg.table.Covers c a ↔ alignedStart cfg c ≤ a ∧ a < alignedEnd cfg c := by
  rw [alignedEnd_eq, alignedStart_eq]
  rfl

/-- When the tail is through, the chunk is filled. -/
theorem FilledTo.filled (h : FilledTo cfg c k.mem pos) (hend : tailEnd cfg c ≤ pos) :
    Filled cfg c k.mem := by
  intro a ha
  rw [covers_iff_aligned] at ha
  by_cases hpos : a < pos
  · exact h.bytes a ha.1 hpos
  · obtain ⟨hclamped, hsize⟩ := tailEnd_ge c ha.2 (hend.trans (Nat.le_of_not_lt hpos))
    rw [h.padded hclamped a hsize ha.2, Config.content, if_neg (Nat.not_lt.2 hsize)]

theorem padded_padKernel (cfg : Config n σ) (k : Kernel) (c : Fin n) :
    Padded cfg c (padKernel cfg k c).mem := by
  intro hclamped a hlo hhi
  have hin : cfg.modelFileSize ≤ a ∧
      a < cfg.modelFileSize + (alignedEnd cfg c - cfg.modelFileSize) := by omega
  simp only [padKernel, if_pos hclamped, Kernel.store, hin, and_self, if_true]

end

/-! ## Which chunks can be read -/

/-- The fetch has passed `UFFDIO_CONTINUE` and the chunk is not `RESIDENT` yet. -/
def Point.Continued : Point n → Fin n → Prop
  | .job j .commit, d => j.target = d
  | .job j .mark, d => j.target = d
  | _, _ => False

/-- The chunk is `RESIDENT`, or as good as. -/
def State.Shown (s : State n σ) (d : Fin n) : Prop :=
  (s.sh.region.chunks d).state = .resident ∨ ∃ t, (s.pc t).point.Continued d

structure Backed (cfg : Config n σ) (s : State n σ) : Prop where
  mapped : ∀ p, s.sh.kernel.mapped p = true ↔ ∃ d, cfg.table.HasPage d p ∧ s.Shown d
  bytes : cfg.FileBacked → ∀ d, s.Shown d → Filled cfg d s.sh.kernel.mem
  loading : cfg.FileBacked → ∀ t j i, (s.pc t).point = .job j i → i.Loaded cfg j s.sh.kernel.mem

section

variable {cfg : Config n σ} {s s' : State n σ} {a : Action n} {t : Tid} {io : Input n}
  {sh' : Shared n σ} {k k' : Point n} {c d : Fin n}

theorem Point.mem_base_of_continued (h : k.Continued d) : .chunk d ∈ k.base := by
  cases k with
  | job j i =>
    cases i with
    | commit =>
      rw [← show j.target = d from h]
      exact j.locks_subset_base _ j.mem_locks
    | mark =>
      rw [← show j.target = d from h]
      exact j.locks_subset_base _ j.mem_locks
    | _ => cases h
  | _ => cases h

theorem Point.not_continued (h : k.loading = false) (d : Fin n) : ¬ k.Continued d := by
  intro hc
  cases k with
  | job j i =>
    cases i with
    | commit => exact Bool.noConfusion h
    | mark => exact Bool.noConfusion h
    | _ => cases hc
  | _ => cases hc

/-- What a state shows after a step of thread `t`. -/
theorem shown_arrive (d : Fin n) : (s.arrive t sh' k').Shown d ↔
    (sh'.region.chunks d).state = .resident ∨ k'.Continued d ∨
      ∃ t', t' ≠ t ∧ (s.pc t').point.Continued d := by
  refine or_congr Iff.rfl ⟨fun ⟨t', h⟩ => ?_, fun h => ?_⟩
  · by_cases ht : t' = t
    · subst ht
      exact Or.inl (by simpa [State.arrive] using h)
    · exact Or.inr ⟨t', ht, by simpa [State.arrive, ht] using h⟩
  · rcases h with h | ⟨t', ht, h⟩
    · exact ⟨t, by simpa [State.arrive] using h⟩
    · exact ⟨t', by simpa [State.arrive, ht] using h⟩

theorem shown_go (hpc : s.pc t = .go k) (d : Fin n) : s.Shown d ↔
    (s.sh.region.chunks d).state = .resident ∨ k.Continued d ∨
      ∃ t', t' ≠ t ∧ (s.pc t').point.Continued d := by
  refine or_congr Iff.rfl ⟨fun ⟨t', h⟩ => ?_, fun h => ?_⟩
  · by_cases ht : t' = t
    · subst ht
      rw [hpc] at h
      exact Or.inl h
    · exact Or.inr ⟨t', ht, h⟩
  · rcases h with h | ⟨t', -, h⟩
    · exact ⟨t, by rw [hpc]; exact h⟩
    · exact ⟨t', h⟩

/-- A step that touches no memory and lets no chunk appear or disappear. -/
theorem Backed.of_same (h : Backed cfg s) (hpc : s.pc t = .go k)
    (hmem : sh'.kernel.mem = s.sh.kernel.mem) (hmapped : sh'.kernel.mapped = s.sh.kernel.mapped)
    (hshown : ∀ d, (sh'.region.chunks d).state = .resident ∨ k'.Continued d ↔
      (s.sh.region.chunks d).state = .resident ∨ k.Continued d)
    (hload : cfg.FileBacked → ∀ j i, k' = .job j i → i.Loaded cfg j s.sh.kernel.mem) :
    Backed cfg (s.arrive t sh' k') := by
  have hsame : ∀ d, (s.arrive t sh' k').Shown d ↔ s.Shown d := by
    intro d
    rw [shown_arrive, shown_go hpc, ← or_assoc, hshown, or_assoc]
  refine ⟨fun p => ?_, fun hfile d hd => ?_, ?_⟩
  · show sh'.kernel.mapped p = true ↔ _
    rw [hmapped, h.mapped]
    simp only [hsame]
  · show Filled cfg d sh'.kernel.mem
    rw [hmem]
    exact h.bytes hfile d ((hsame d).1 hd)
  · intro hfile t' j i hpt
    show i.Loaded cfg j sh'.kernel.mem
    rw [hmem]
    by_cases ht : t' = t
    · subst ht
      exact hload hfile j i (by simpa [State.arrive] using hpt)
    · exact h.loading hfile t' j i (by simpa [State.arrive, ht] using hpt)

theorem FilledTo.frame {mem mem' : ℕ → UInt8} {pos : ℕ} (h : FilledTo cfg c mem pos)
    (hfile : cfg.FileBacked) (hmem : ∀ a, cfg.table.Covers c a → mem' a = mem a) :
    FilledTo cfg c mem' pos := by
  refine ⟨h.start_le, h.le_end, fun hclamped a hlo hhi => ?_, fun a hlo hhi => ?_⟩
  · have hstart := off_lt_fileSize c hfile
    rw [← alignedStart_eq] at hstart
    rw [hmem a ((covers_iff_aligned cfg c a).2 ⟨hstart.le.trans hlo, hhi⟩)]
    exact h.padded hclamped a hlo hhi
  · rw [hmem a ((covers_iff_aligned cfg c a).2 ⟨hlo, hhi.trans_le h.le_end⟩)]
    exact h.bytes a hlo hhi

/-- A thread keeps what it has loaded when the memory of another chunk changes. -/
theorem Instr.Loaded.frame {j : Job n} {i : Instr n} {mem mem' : ℕ → UInt8}
    (h : i.Loaded cfg j mem) (hfile : cfg.FileBacked)
    (hmem : ∀ a, cfg.table.Covers j.target a → mem' a = mem a) : i.Loaded cfg j mem' := by
  cases i with
  | read off => exact ⟨h.1, FilledTo.frame h.2 hfile hmem⟩
  | tail pos => exact FilledTo.frame h hfile hmem
  | resolve => exact fun a ha => (hmem a ha).trans (h a ha)
  | _ => trivial

/-- A step that changes the memory of one chunk, whose mutex the thread holds. -/
theorem Backed.of_frame (h : Backed cfg s) (hs : Sound cfg s) (hpc : s.pc t = .go k)
    (hc : .chunk c ∈ k.holds)
    (hmem : cfg.FileBacked → ∀ a, ¬ cfg.table.Covers c a → sh'.kernel.mem a = s.sh.kernel.mem a)
    (hmapped : ∀ p, ¬ cfg.table.HasPage c p → sh'.kernel.mapped p = s.sh.kernel.mapped p)
    (hshown : ∀ d, d ≠ c → ((sh'.region.chunks d).state = .resident ∨ k'.Continued d ↔
      (s.sh.region.chunks d).state = .resident ∨ k.Continued d))
    (hself : ∀ p, cfg.table.HasPage c p → (sh'.kernel.mapped p = true ↔
      (sh'.region.chunks c).state = .resident ∨ k'.Continued c))
    (hbytes : cfg.FileBacked → (sh'.region.chunks c).state = .resident ∨ k'.Continued c →
      Filled cfg c sh'.kernel.mem)
    (hload : cfg.FileBacked → ∀ j i, k' = .job j i → i.Loaded cfg j sh'.kernel.mem) :
    Backed cfg (s.arrive t sh' k') := by
  have hne : ∀ d, d ≠ c → ((s.arrive t sh' k').Shown d ↔ s.Shown d) := by
    intro d hd
    rw [shown_arrive, shown_go hpc, ← or_assoc, hshown d hd, or_assoc]
  -- nobody else has a fetch of the chunk under way
  have hmine : ∀ t', t' ≠ t → .chunk c ∉ (s.pc t').holds := fun t' ht hm =>
    ht (hs.owned.unique hm (by rw [hpc]; exact hc))
  have heq : (s.arrive t sh' k').Shown c ↔
      (sh'.region.chunks c).state = .resident ∨ k'.Continued c := by
    rw [shown_arrive, ← or_assoc]
    refine or_iff_left fun ⟨t', ht, hcont⟩ => hmine t' ht ?_
    exact (s.pc t').base_subset_holds (Point.mem_base_of_continued hcont)
  refine ⟨fun p => ?_, fun hfile d hd => ?_, ?_⟩
  · show sh'.kernel.mapped p = true ↔ _
    by_cases hp : cfg.table.HasPage c p
    · rw [hself p hp, ← heq]
      exact ⟨fun hshow => ⟨c, hp, hshow⟩, fun ⟨d, hd, hshow⟩ => (hd.unique hp) ▸ hshow⟩
    · rw [hmapped p hp, h.mapped]
      refine exists_congr fun d => and_congr_right fun hd => ?_
      exact (hne d fun he => hp (he ▸ hd)).symm
  · show Filled cfg d sh'.kernel.mem
    by_cases hdc : d = c
    · subst hdc
      exact hbytes hfile (heq.1 hd)
    · intro a ha
      rw [hmem hfile a fun hca => hdc (ha.unique hca)]
      exact h.bytes hfile d ((hne d hdc).1 hd) a ha
  · intro hfile t' j i hpt
    by_cases ht : t' = t
    · subst ht
      exact hload hfile j i (by simpa [State.arrive] using hpt)
    · have hold : (s.pc t').point = .job j i := by simpa [State.arrive, ht] using hpt
      refine (h.loading hfile t' j i hold).frame hfile fun a ha =>
        hmem hfile a fun hca => hmine t' ht ?_
      rw [← ha.unique hca]
      apply (s.pc t').base_subset_holds
      rw [hold]
      exact j.locks_subset_base i j.mem_locks

/-- What the holder of a chunk knows about its pages. -/
theorem Sound.shown_holder (hs : Sound cfg s) (hpc : s.pc t = .go k) (hc : .chunk c ∈ k.holds) :
    s.Shown c ↔ (s.sh.region.chunks c).state = .resident ∨ k.Continued c := by
  rw [shown_go hpc, ← or_assoc]
  refine or_iff_left fun ⟨t', ht, hcont⟩ => ht ?_
  exact hs.owned.unique ((s.pc t').base_subset_holds (Point.mem_base_of_continued hcont))
    (by rw [hpc]; exact hc)

/-- A store into the buffer of a fetch. -/
theorem Backed.of_store (h : Backed cfg s) (hs : Sound cfg s) {j : Job n} {i i' : Instr n}
    (hpc : s.pc t = .go (.job j i)) (hi : (i.role j).Reserves)
    (hcont : ∀ d, ¬ (Point.job j i).Continued d ∧ ¬ (Point.job j i').Continued d)
    (hmem : cfg.FileBacked → ∀ a, ¬ cfg.table.Covers j.target a →
      sh'.kernel.mem a = s.sh.kernel.mem a)
    (hmapped : sh'.kernel.mapped = s.sh.kernel.mapped)
    (hstate : ∀ d, (sh'.region.chunks d).state = (s.sh.region.chunks d).state)
    (hload : cfg.FileBacked → i'.Loaded cfg j sh'.kernel.mem) :
    Backed cfg (s.arrive t sh' (.job j i')) := by
  have hc := j.target_mem_holds i
  have hst : (s.sh.region.chunks j.target).state = .fetching :=
    hs.fetching (Or.inl (by rw [hs.role_job hpc]; exact hi))
  have hself : ¬ ((sh'.region.chunks j.target).state = .resident ∨
      (Point.job j i').Continued j.target) := by
    rw [hstate, hst]
    simpa using (hcont j.target).2
  refine h.of_frame hs hpc hc hmem (fun p _ => congrFun hmapped p) (fun d _ => ?_)
    (fun p hp => ?_) (fun _ hshow => absurd hshow hself) fun hfile j' i'' hj => ?_
  · rw [hstate]
    exact or_congr Iff.rfl (iff_of_false (hcont d).2 (hcont d).1)
  · refine iff_of_false ?_ hself
    rw [hmapped, h.mapped]
    rintro ⟨d, hd, hshow⟩
    obtain rfl := hd.unique hp
    rw [hs.shown_holder hpc hc, hst] at hshow
    exact hshow.elim nofun (hcont _).1
  · cases hj
    exact hload hfile

/-- A step outside of the load that touches no memory. -/
theorem Backed.of_plain (h : Backed cfg s) (hpc : s.pc t = .go k)
    (hk : k.loading = false ∧ k'.loading = false)
    (hmem : sh'.kernel.mem = s.sh.kernel.mem) (hmapped : sh'.kernel.mapped = s.sh.kernel.mapped)
    (hres : ∀ d, (sh'.region.chunks d).state = .resident ↔
      (s.sh.region.chunks d).state = .resident) : Backed cfg (s.arrive t sh' k') := by
  refine h.of_same hpc hmem hmapped (fun d => ?_) fun _ j i hj => ?_
  · exact or_congr (hres d)
      (iff_of_false (Point.not_continued hk.2 d) (Point.not_continued hk.1 d))
  · apply Instr.loaded_of_not_loading
    rw [hj] at hk
    exact hk.2

/-- The same, in terms of the views. -/
theorem Backed.of_view (h : Backed cfg s) (hpc : s.pc t = .go k)
    (hk : k.loading = false ∧ k'.loading = false) {V V' : View n} (hV : s.sh.view = V)
    (hV' : sh'.view = V') (hmem : V'.kernel.mem = V.kernel.mem)
    (hmapped : V'.kernel.mapped = V.kernel.mapped)
    (hres : ∀ d, (V'.phase d).1 = .resident ↔ (V.phase d).1 = .resident) :
    Backed cfg (s.arrive t sh' k') := by
  subst hV hV'
  exact h.of_plain hpc hk hmem hmapped hres

/-- A step of a fetch that touches neither the memory nor a state. -/
theorem Backed.of_kept (h : Backed cfg s) {j : Job n} {i i' : Instr n} {V : View n}
    (hpc : s.pc t = .go (.job j i)) (hV : s.sh.view = V) (hV' : sh'.view = V)
    (hcont : ∀ d, (Point.job j i').Continued d ↔ (Point.job j i).Continued d)
    (hload : cfg.FileBacked → i.Loaded cfg j s.sh.kernel.mem →
      i'.Loaded cfg j s.sh.kernel.mem) : Backed cfg (s.arrive t sh' (.job j i')) := by
  have hview : sh'.view = s.sh.view := hV'.trans hV.symm
  have hkernel : sh'.kernel = s.sh.kernel := congrArg View.kernel hview
  have hstate : ∀ d, (sh'.region.chunks d).state = (s.sh.region.chunks d).state :=
    fun d => congrArg (fun V => (V.phase d).1) hview
  refine h.of_same hpc ?_ ?_ (fun d => ?_) fun hfile j' i'' hj => ?_
  · rw [hkernel]
  · rw [hkernel]
  · rw [hstate]
    exact or_congr Iff.rfl (hcont d)
  · cases hj
    exact hload hfile (h.loading hfile t j i (by rw [hpc]; rfl))

/-- A read of the file into the pages of the chunk. -/
theorem Backed.of_read (h : Backed cfg s) (hs : Sound cfg s) {j : Job n} {i i' : Instr n}
    {V : View n} {pos m : ℕ} (hpc : s.pc t = .go (.job j i)) (hi : (i.role j).Reserves)
    (hcont : ∀ d, ¬ (Point.job j i).Continued d ∧ ¬ (Point.job j i').Continued d)
    (hV : s.sh.view = V)
    (hV' : sh'.view = { V with kernel := V.kernel.store pos m cfg.fileByte })
    (hstart : cfg.FileBacked → alignedStart cfg j.target ≤ pos)
    (hend : pos + m ≤ alignedEnd cfg j.target)
    (hload : cfg.FileBacked → i'.Loaded cfg j (V.kernel.store pos m cfg.fileByte).mem) :
    Backed cfg (s.arrive t sh' (.job j i')) := by
  subst hV
  have hkernel : sh'.kernel = s.sh.kernel.store pos m cfg.fileByte := congrArg View.kernel hV'
  have hstate : ∀ d, (sh'.region.chunks d).state = (s.sh.region.chunks d).state :=
    fun d => congrArg (fun V => (V.phase d).1) hV'
  refine h.of_store hs hpc hi hcont (fun hfile a ha => ?_) ?_ hstate fun hfile => ?_
  · have hlo := hstart hfile
    rw [hkernel]
    -- the bytes of another chunk are outside of what was read
    refine if_neg fun hin => ha ?_
    rw [covers_iff_aligned]
    omega
  · rw [hkernel]
    rfl
  · rw [hkernel]
    exact hload hfile

theorem Backed.exec (h : Backed cfg s) (hs : Sound cfg s) (hpc : s.pc t = .go k)
    (hexec : exec cfg t io s.sh k = .next sh' k') : Backed cfg (s.arrive t sh' k') := by
  have hflow := exec_flow hexec
  have hstate : ∀ d, (sh'.region.chunks d).state = (sh'.view.phase d).1 := fun _ => rfl
  have hkernel : sh'.kernel = sh'.view.kernel := rfl
  have hdeed := hs.deed hpc hexec
  generalize hV : s.sh.view = V at hdeed
  generalize hV' : sh'.view = V' at hdeed hstate hkernel
  have hstate₀ : ∀ d, (s.sh.region.chunks d).state = (V.phase d).1 := fun d => by rw [← hV]; rfl
  have hkernel₀ : s.sh.kernel = V.kernel := by rw [← hV]; rfl
  cases hdeed with
  | quiet hk => exact h.of_view hpc (hflow.not_loading hk) hV hV' rfl rfl fun _ => Iff.rfl
  | empty => exact h.of_view hpc ⟨rfl, rfl⟩ hV hV' rfl rfl fun _ => Iff.rfl
  | turn hk' hload => exact h.of_view hpc ⟨rfl, hload⟩ hV hV' rfl rfl fun _ => Iff.rfl
  | take huffd hm => exact h.of_view hpc ⟨rfl, rfl⟩ hV hV' rfl rfl fun _ => Iff.rfl
  | present hst => exact h.of_view hpc ⟨rfl, rfl⟩ hV hV' rfl rfl fun _ => Iff.rfl
  | coming hst => exact h.of_view hpc ⟨rfl, rfl⟩ hV hV' rfl rfl fun _ => Iff.rfl
  | begin hst hk hk' hload hleave =>
    exact h.of_view hpc hload hV hV' rfl rfl (resident_setPhase (by simp) (by simp [hst]))
  | enqueue hlen => exact h.of_view hpc ⟨rfl, rfl⟩ hV hV' rfl rfl fun _ => Iff.rfl
  | pick hqueue => exact h.of_view hpc ⟨rfl, rfl⟩ hV hV' rfl rfl fun _ => Iff.rfl
  | reclaim hst hsince hage =>
    exact h.of_view hpc ⟨rfl, rfl⟩ hV hV' rfl rfl (resident_setPhase (by simp) (by simp [hst]))
  | @abandon j _ =>
    have hst : (s.sh.region.chunks j.target).state = .fetching := by
      have hfit := hs.fits j.target
      rw [hs.role_job hpc] at hfit
      exact hfit
    rw [hstate₀] at hst
    have hload : j.after.loading = false := by cases j <;> rfl
    exact h.of_view hpc ⟨rfl, hload⟩ hV hV' rfl rfl (resident_setPhase (by simp) (by simp [hst]))
  | fault hidle hpage => exact h.of_view hpc ⟨rfl, rfl⟩ hV hV' rfl rfl fun _ => Iff.rfl
  | @evict j a v _ hst =>
    -- the victim leaves mapping A together with its state
    have hmem : .chunk v ∈ (Point.job j (.evict a v)).holds := Point.needs_mem_holds rfl
    have hself : ¬ ((sh'.region.chunks v).state = .resident ∨
        (Point.job j (.reconcile a)).Continued v) := by
      rw [hstate]
      simp [View.setPhase, Point.Continued]
    refine h.of_frame hs hpc hmem (fun _ x hx => ?_) (fun p hp => ?_) (fun d hd => ?_)
      (fun p hp => ?_) (fun _ hshow => absurd hshow hself) fun _ j' i' hj => ?_
    · rw [hkernel, hkernel₀]
      exact if_neg hx
    · rw [hkernel, hkernel₀]
      exact if_neg hp
    · rw [hstate, hstate₀]
      simp [View.setPhase, hd, Point.Continued]
    · refine iff_of_false ?_ hself
      rw [hkernel]
      show ¬ (if cfg.table.HasPage v p then false else V.kernel.mapped p) = true
      rw [if_pos hp]
      exact Bool.false_ne_true
    · cases hj
      trivial
  | @pad j _ =>
    have hload : Padded cfg j.target sh'.kernel.mem := by
      rw [hkernel]
      exact padded_padKernel cfg V.kernel j.target
    refine h.of_store hs hpc trivial (fun d => ⟨id, id⟩) (fun hfile a ha => ?_) ?_ (fun d => ?_)
      fun _ => ?_
    · have hstart := off_lt_fileSize j.target hfile
      rw [hkernel, hkernel₀]
      show (padKernel cfg V.kernel j.target).mem a = V.kernel.mem a
      unfold padKernel
      split
      · refine if_neg fun hin => ha ?_
        rw [covers_iff_aligned, alignedStart_eq]
        omega
      · rfl
    · rw [hkernel, hkernel₀]
      show (padKernel cfg V.kernel j.target).mapped = V.kernel.mapped
      unfold padKernel
      split <;> rfl
    · rw [hstate, hstate₀]
    · exact hload.loaded
  | @read j off m _ hlo hsize =>
    have hend : directEnd cfg j.target ≤ alignedEnd cfg j.target := directEnd_le_alignedEnd j.target
    refine h.of_read hs hpc trivial (fun d => ⟨id, id⟩) hV hV' (fun _ => Nat.le_add_right _ _)
      (hlo.trans hend) fun hfile => ?_
    have hload := h.loading hfile t j (.read off) (by rw [hpc]; rfl)
    rw [hkernel₀] at hload
    refine ⟨by rw [← Nat.add_assoc]; exact hlo, ?_⟩
    rw [← Nat.add_assoc]
    exact FilledTo.store hload.2 (hlo.trans hend) hsize
  | @direct j off _ hend =>
    refine h.of_kept hpc hV hV' (fun _ => Iff.rfl) fun _ hload => ?_
    -- the aligned reads have come as far as they can
    have heq : alignedStart cfg j.target + off = directEnd cfg j.target := le_antisymm hload.1 hend
    have hfilled := hload.2
    rw [heq] at hfilled
    exact hfilled
  | @tail j pos m _ hlo hsize =>
    have hload : cfg.FileBacked → FilledTo cfg j.target s.sh.kernel.mem pos :=
      fun hfile => h.loading hfile t j (.tail pos) (by rw [hpc]; rfl)
    have hend : tailEnd cfg j.target ≤ alignedEnd cfg j.target := tailEnd_le_alignedEnd j.target
    refine h.of_read hs hpc trivial (fun d => ⟨id, id⟩) hV hV' (fun hfile => (hload hfile).start_le)
      (hlo.trans hend) fun hfile => ?_
    rw [hkernel₀] at hload
    exact FilledTo.store (hload hfile) (hlo.trans hend) hsize
  | @loaded j pos _ hend =>
    exact h.of_kept hpc hV hV' (fun _ => Iff.rfl) fun _ hload => FilledTo.filled hload hend
  | @resolve j _ hok =>
    -- the chunk is complete when its pages show up in mapping A
    refine h.of_frame hs hpc (j.target_mem_holds _) (fun _ a _ => ?_) (fun p hp => ?_)
      (fun d hd => ?_) (fun p hp => ?_) (fun hfile _ => ?_) fun _ j' i' hj => ?_
    · rw [hkernel, hkernel₀]
      rfl
    · rw [hkernel, hkernel₀]
      exact if_neg hp
    · rw [hstate, hstate₀]
      exact or_congr Iff.rfl (iff_of_false (fun he => hd he.symm) id)
    · refine iff_of_true ?_ (Or.inr rfl)
      rw [hkernel]
      exact if_pos hp
    · have hload : Filled cfg j.target s.sh.kernel.mem :=
        h.loading hfile t j .resolve (by rw [hpc]; rfl)
      rw [hkernel]
      rw [hkernel₀] at hload
      exact hload
    · cases hj
      trivial
  | @commit j _ => exact h.of_kept hpc hV hV' (fun _ => Iff.rfl) fun _ _ => trivial
  | @mark j _ =>
    have hplain : (Point.job j (marked cfg j)).loading = false := (marked_plain cfg j).2
    refine h.of_same hpc ?_ ?_ (fun d => ?_) fun _ j' i' hj => ?_
    · rw [hkernel, hkernel₀]
      rfl
    · rw [hkernel, hkernel₀]
      rfl
    · rw [hstate, hstate₀]
      -- continued before, `RESIDENT` now
      by_cases hd : d = j.target
      · subst hd
        exact iff_of_true (Or.inl (by simp [View.setPhase])) (Or.inr rfl)
      · have hcont : ¬ (Point.job j .mark).Continued d := fun he => hd he.symm
        rw [show ((V.setPhase j.target .resident 0).phase d).1 = (V.phase d).1 by
          simp [View.setPhase, hd]]
        exact or_congr Iff.rfl (iff_of_false (Point.not_continued hplain d) hcont)
    · cases hj
      exact Instr.loaded_of_not_loading cfg _ (marked_plain cfg j).2

/-- A step that leaves the memory and every load alone. -/
theorem Backed.congr (h : Backed cfg s) (hmem : s'.sh.kernel.mem = s.sh.kernel.mem)
    (hmapped : s'.sh.kernel.mapped = s.sh.kernel.mapped)
    (hstate : ∀ d, (s'.sh.region.chunks d).state = (s.sh.region.chunks d).state)
    (hpoint : ∀ t, (s'.pc t).point = (s.pc t).point ∨
      (s'.pc t).point.loading = false ∧ (s.pc t).point.loading = false) : Backed cfg s' := by
  have hcont : ∀ t d, (s'.pc t).point.Continued d ↔ (s.pc t).point.Continued d := by
    intro t d
    rcases hpoint t with heq | hplain
    · rw [heq]
    · exact iff_of_false (Point.not_continued hplain.1 d) (Point.not_continued hplain.2 d)
  have hshown : ∀ d, s'.Shown d ↔ s.Shown d := fun d => by
    simp only [State.Shown, hstate, hcont]
  refine ⟨fun p => ?_, fun hfile d hd => ?_, fun hfile t j i hpt => ?_⟩
  · rw [hmapped, h.mapped]
    simp only [hshown]
  · rw [hmem]
    exact h.bytes hfile d ((hshown d).1 hd)
  · rw [hmem]
    rcases hpoint t with heq | hplain
    · exact h.loading hfile t j i (heq.symm.trans hpt)
    · rw [hpt] at hplain
      exact Instr.loaded_of_not_loading cfg _ hplain.1

theorem Backed.step (h : Backed cfg s) (hs : Sound cfg s) (hstep : step cfg a s = some s') :
    Backed cfg s' := by
  cases moves_of_step hstep with
  | acquire hpc hneeds hfree =>
    exact h.congr rfl rfl (fun _ => rfl) fun t' => Or.inl (acquire_point hpc t')
  | @giveUp _ now c hpc =>
    refine h.congr rfl rfl (fun _ => rfl) fun t' => ?_
    by_cases ht : t' = .handler
    · subst ht
      refine Or.inr ⟨?_, by rw [hpc]; rfl⟩
      simp [State.arrive, Point.loading]
    · exact Or.inl (by simp [State.arrive, ht])
  | exec hpc hexec => exact h.exec hs hpc hexec
  | tick _ => exact h.congr rfl rfl (fun _ => rfl) fun _ => Or.inl rfl
  | drop _ => exact h.congr rfl rfl (fun _ => rfl) fun _ => Or.inl rfl
  | requestStop => exact h.congr rfl rfl (fun _ => rfl) fun _ => Or.inl rfl

theorem Backed.init (cfg : Config n σ) (p : σ) : Backed cfg (pager cfg p).init := by
  have hplain : ∀ t, ((pager cfg p).init.pc t).point.loading = false :=
    init_point (P := fun k => k.loading = false) rfl rfl rfl rfl cfg p
  have hshown : ∀ d, ¬ (pager cfg p).init.Shown d := by
    rintro d (hres | ⟨t, hcont⟩)
    · cases hres
    · exact Point.not_continued (hplain t) d hcont
  refine ⟨fun q => ?_, fun _ d hd => absurd hd (hshown d), fun _ t j i hpt => ?_⟩
  · exact iff_of_false Bool.false_ne_true fun ⟨d, _, hd⟩ => hshown d hd
  · have hload := hplain t
    rw [hpt] at hload
    exact Instr.loaded_of_not_loading cfg _ hload

theorem Reach.backed {ok : Action n → State n σ → Prop} {p : σ} (h : Reach (pager cfg p) ok s) :
    Backed cfg s :=
  h.invariant (Backed.init cfg p) fun _ _ _ hr _ hb hstep => hb.step (Reach.sound hr) hstep

/-- The bytes of every `RESIDENT` chunk are those of the file, and so is every byte that a
read through mapping A returns. -/
theorem integrity (cfg : Config n σ) (p : σ)
    (hfile : cfg.table.regionLen ≤ alignUp cfg.modelFileSize) (h : Reachable (pager cfg p) s) :
    (∀ c a, (s.sh.region.chunks c).state = .resident → cfg.table.Covers c a →
        s.sh.kernel.mem a = cfg.content a) ∧
      ∀ a b, s.sh.kernel.load a = some b → b = cfg.content a := by
  have hb : Backed cfg s := Reach.backed h
  refine ⟨fun c a hres ha => hb.bytes hfile c (Or.inl hres) a ha, fun a b hload => ?_⟩
  unfold Kernel.load at hload
  split at hload
  · rename_i hmapped
    obtain ⟨d, hpage, hshown⟩ := (hb.mapped (pageOf a)).1 hmapped
    rw [← Option.some.inj hload]
    exact hb.bytes hfile d hshown a ((cfg.hasPage_iff d a).1 hpage)
  · cases hload

end

/-- Worker 0 loads chunk 0 and marks it. -/
def residentZero : List (Action 2) :=
  reserveZero ++ [.exec (.worker 0) {}, .exec (.worker 0) { count := 4096 }, .exec (.worker 0) {},
    .exec (.worker 0) {}, .exec (.worker 0) {}, .acquire (.worker 0), .exec (.worker 0) {},
    .exec (.worker 0) {}]

theorem residentZero_runs :
    (run (pager twoPages ()) residentZero (pager twoPages ()).init).isSome = true := by
  decide +kernel

theorem integrity_twoPages : ∃ s : State 2 Unit, s.sh.kernel.load 5 = some 7 ∧
    ∀ a b, s.sh.kernel.load a = some b → b = twoPages.content a :=
  ⟨_, by decide +kernel,
    (integrity twoPages () (by decide) (reachable_get residentZero residentZero_runs)).2⟩

end Pager

end Residctl
