import Residctl.Budget
import Residctl.Gguf

/-!
# The chunk table of `region_startup`

Step 8 builds the table from the specs of a real model, or else cuts the region into chunks
of one size. `pager_lookup` then finds the chunk of a faulting address. All three compute in
64 bits. Only the running offset of the explicit builder can wrap unnoticed: the specs pass
its checks and do not tile the region (`startup_lookup_iff`).
-/

namespace Residctl

open Finset

namespace Startup

/-! ## The code -/

/-- The loop of `build_chunk_table_explicit` from `expect_off` on; `none` when a test fails. -/
def tileFrom (expectOff : ℕ) : List ChunkSpec → Option ℕ
  | [] => some expectOff
  | spec :: rest =>
    if spec.regionOff ≠ expectOff then none
    else if spec.fileOff ≠ spec.regionOff then none
    else if spec.len = 0 then none
    else if spec.regionOff % RESIDCTL_ALIGN ≠ 0 then none
    else if rest ≠ [] ∧ spec.len % RESIDCTL_ALIGN ≠ 0 then none
    else tileFrom (wrap64 (expectOff + spec.len)) rest

/-- `build_chunk_table_explicit`: the fixed fields of the chunks. -/
def buildChunkTableExplicit (regionLen : ℕ) (specs : List ChunkSpec) : Option (List ChunkSpec) :=
  if specs.length = 0 ∨ specs.length > UINT32_MAX then none
  else
    match tileFrom 0 specs with
    | none => none
    | some expectOff => if expectOff ≠ regionLen then none else some specs

/-- The requested size in whole pages. -/
def roundChunkSize (requested : ℕ) : ℕ :=
  if requested % RESIDCTL_ALIGN ≠ 0 then
    wrap64 ((requested / RESIDCTL_ALIGN + 1) * RESIDCTL_ALIGN)
  else requested

/-- `(region_len + chunk_size - 1) / chunk_size`. -/
def chunkCount (regionLen chunkSize : ℕ) : ℕ :=
  sub64 (wrap64 (regionLen + chunkSize)) 1 / chunkSize

def uniformChunk (regionLen chunkSize i : ℕ) : ChunkSpec :=
  let off := wrap64 (i * chunkSize)
  let len := if wrap64 (off + chunkSize) > regionLen then sub64 regionLen off else chunkSize
  ⟨off, off, len, i % 2 ^ 32⟩

/-- `build_chunk_table`. -/
def buildChunkTable (regionLen requestedChunkSize : ℕ) : Option (List ChunkSpec) :=
  let chunkSize := roundChunkSize requestedChunkSize
  if chunkSize = 0 then none
  else
    let n := chunkCount regionLen chunkSize
    if n = 0 ∨ n > UINT32_MAX then none
    else some ((List.range n).map (uniformChunk regionLen chunkSize))

/-- Step 8 of `region_startup`. -/
def startup (regionLen chunkSize : ℕ) (explicitChunks : List ChunkSpec) : Option (List ChunkSpec) :=
  if explicitChunks.length > 0 then buildChunkTableExplicit regionLen explicitChunks
  else buildChunkTable regionLen chunkSize

/-- `pager_lookup` in a table; `none` for `NULL`. -/
def pagerLookup (chunks : List ChunkSpec) (relOff : ℕ) : Option (Fin chunks.length) :=
  lookupIn (fun c => chunks[c].regionOff) (fun c => chunks[c].len) relOff 0 chunks.length le_rfl

/-- The chunk's bytes in the region. -/
def Contains (spec : ChunkSpec) (off : ℕ) : Prop :=
  spec.regionOff ≤ off ∧ off < spec.regionOff + spec.len

/-- The chunks tile the region in order, and the search returns the chunk of each offset. -/
structure ExactLookup (regionLen : ℕ) (chunks : List ChunkSpec) : Prop where
  len_pos : ∀ c : Fin chunks.length, 0 < chunks[c].len
  sorted : ∀ c d : Fin chunks.length, c < d → chunks[c].regionOff < chunks[d].regionOff
  tiles : ∀ off, (∃ c : Fin chunks.length, Contains chunks[c] off) ↔ off < regionLen
  unique : ∀ off (c d : Fin chunks.length), Contains chunks[c] off → Contains chunks[d] off → c = d
  found : ∀ off (c : Fin chunks.length), pagerLookup chunks off = some c ↔ Contains chunks[c] off

/-! ## Tables without wrapping -/

/-- The bytes of all chunks. -/
def totalLen (chunks : List ChunkSpec) : ℕ := (chunks.map ChunkSpec.len).sum

/-- Each chunk starts where the ones before it end. -/
structure Tiled (regionLen : ℕ) (chunks : List ChunkSpec) : Prop where
  start : ∀ (i : ℕ) (h : i < chunks.length), chunks[i].regionOff = totalLen (chunks.take i)
  total : totalLen chunks = regionLen
  fits : regionLen < 2 ^ 64
  len_pos : ∀ spec ∈ chunks, 0 < spec.len
  aligned : ∀ spec ∈ chunks, spec.regionOff % RESIDCTL_ALIGN = 0

section

variable {regionLen chunkSize off : ℕ} {chunks specs : List ChunkSpec} {spec : ChunkSpec}

@[simp] theorem totalLen_nil : totalLen [] = 0 := rfl

@[simp] theorem totalLen_cons : totalLen (spec :: chunks) = spec.len + totalLen chunks := by
  simp [totalLen]

theorem totalLen_take_succ {i : ℕ} (h : i < chunks.length) :
    totalLen (chunks.take (i + 1)) = totalLen (chunks.take i) + chunks[i].len := by
  rw [totalLen, totalLen, List.map_take, List.map_take, List.sum_take_succ _ _ (by simpa using h),
    List.getElem_map]

theorem sum_len_take (i : ℕ) (h : i ≤ chunks.length) :
    ∑ j : Fin i, chunks[j.1].len = totalLen (chunks.take i) := by
  induction i with
  | zero => rfl
  | succ i ih =>
    rw [Fin.sum_univ_castSucc, totalLen_take_succ h]
    exact congrArg (· + _) (ih (Nat.le_of_succ_le h))

theorem sum_len (chunks : List ChunkSpec) :
    ∑ c : Fin chunks.length, chunks[c].len = totalLen chunks := by
  rw [← congrArg totalLen (List.take_length (l := chunks)), ← sum_len_take chunks.length le_rfl]
  rfl

/-- The table that the pager runs on. -/
def Tiled.table (h : Tiled regionLen chunks) : ChunkTable chunks.length where
  regionOff c := chunks[c].regionOff
  len c := chunks[c].len
  regionLen := regionLen
  len_pos c := h.len_pos _ (List.getElem_mem _)
  aligned c := h.aligned _ (List.getElem_mem _)
  regionOff_eq c := (h.start c.1 c.2).trans (sum_len_take c.1 c.2.le).symm
  regionLen_eq := h.total.symm.trans (sum_len chunks).symm
  regionLen_lt := h.fits

theorem Tiled.exactLookup (h : Tiled regionLen chunks) : ExactLookup regionLen chunks where
  len_pos := h.table.len_pos
  sorted c d hcd := by
    have hle : chunks[c].regionOff + chunks[c].len ≤ chunks[d].regionOff :=
      h.table.regionOff_add_len_le hcd
    have hpos := h.table.len_pos c
    exact (Nat.lt_add_of_pos_right hpos).trans_le hle
  tiles off := by
    constructor
    · rintro ⟨c, -, hc⟩
      exact hc.trans_le (h.table.end_le_regionLen c)
    · exact h.table.exists_covers
  unique off c d hc hd := ChunkTable.Covers.unique (T := h.table) hc hd
  found off c := ⟨pagerLookup_covers h.table, pagerLookup_of_covers h.table⟩

/-- Disjoint chunks inside the region have no more bytes than it. -/
theorem ExactLookup.totalLen_le (h : ExactLookup regionLen chunks) : totalLen chunks ≤ regionLen := by
  let bytes := fun c : Fin chunks.length =>
    Ico chunks[c].regionOff (chunks[c].regionOff + chunks[c].len)
  have hdisjoint : (Set.univ : Set (Fin chunks.length)).PairwiseDisjoint bytes := by
    intro c _ d _ hne
    refine disjoint_left.2 fun off hc hd => hne (h.unique off c d ?_ ?_)
    · exact mem_Ico.1 hc
    · exact mem_Ico.1 hd
  have hsub : univ.biUnion bytes ⊆ range regionLen := by
    refine biUnion_subset.2 fun c _ off hoff => ?_
    exact mem_range.2 ((h.tiles off).1 ⟨c, mem_Ico.1 hoff⟩)
  calc totalLen chunks = ∑ c, (bytes c).card := by
        rw [← sum_len]
        exact sum_congr rfl fun c _ => by simp [bytes]
    _ = (univ.biUnion bytes).card := (card_biUnion fun c _ d _ hne => hdisjoint trivial trivial hne).symm
    _ ≤ regionLen := (card_le_card hsub).trans_eq (card_range regionLen)

/-! ## The explicit builder -/

/-- What the loop tests of one spec. -/
structure Passes (expectOff : ℕ) (spec : ChunkSpec) (rest : List ChunkSpec) : Prop where
  start : spec.regionOff = expectOff
  identity : spec.fileOff = spec.regionOff
  len_pos : 0 < spec.len
  aligned : spec.regionOff % RESIDCTL_ALIGN = 0
  whole : rest ≠ [] → spec.len % RESIDCTL_ALIGN = 0

theorem tileFrom_cons {e e' : ℕ} : tileFrom e (spec :: specs) = some e' ↔
    Passes e spec specs ∧ tileFrom (wrap64 (e + spec.len)) specs = some e' := by
  constructor
  · intro h
    unfold tileFrom at h
    split_ifs at h with h₁ h₂ h₃ h₄ h₅
    refine ⟨⟨not_not.1 h₁, not_not.1 h₂, Nat.pos_of_ne_zero h₃, not_not.1 h₄, fun hne => ?_⟩, h⟩
    by_contra hlen
    exact h₅ ⟨hne, hlen⟩
  · rintro ⟨h, htail⟩
    rw [tileFrom, if_neg (not_not.2 h.start), if_neg (not_not.2 h.identity),
      if_neg h.len_pos.ne', if_neg (not_not.2 h.aligned),
      if_neg fun hne => hne.2 (h.whole hne.1)]
    exact htail

/-- A running offset that does not wrap is the sum of the lengths. -/
theorem tileFrom_some {e e' : ℕ} (h : tileFrom e specs = some e')
    (hsmall : e + totalLen specs < 2 ^ 64) :
    e' = e + totalLen specs ∧
      (∀ (i : ℕ) (hi : i < specs.length), specs[i].regionOff = e + totalLen (specs.take i)) ∧
      ∀ spec ∈ specs, 0 < spec.len ∧ spec.regionOff % RESIDCTL_ALIGN = 0 := by
  induction specs generalizing e with
  | nil =>
    refine ⟨(Option.some.inj h).symm, fun i hi => absurd hi (Nat.not_lt_zero i), ?_⟩
    intro spec hspec
    cases hspec
  | cons spec rest ih =>
    obtain ⟨hpass, htail⟩ := tileFrom_cons.1 h
    rw [totalLen_cons] at hsmall
    -- the sum of all lengths does not wrap, so the offset does not either
    rw [wrap64_of_lt (by omega)] at htail
    obtain ⟨hend, hstart, hall⟩ := ih htail (by omega)
    refine ⟨by rw [hend, totalLen_cons, Nat.add_assoc], fun i hi => ?_, fun s hs => ?_⟩
    · cases i with
      | zero => exact hpass.start
      | succ i =>
        rw [List.getElem_cons_succ, hstart i (Nat.lt_of_succ_lt_succ hi), List.take_succ_cons,
          totalLen_cons, Nat.add_assoc]
    · rcases List.mem_cons.1 hs with rfl | hs
      · exact ⟨hpass.len_pos, hpass.aligned⟩
      · exact hall s hs

theorem buildChunkTableExplicit_some (h : buildChunkTableExplicit regionLen specs = some chunks) :
    chunks = specs ∧ specs ≠ [] ∧ tileFrom 0 specs = some regionLen := by
  unfold buildChunkTableExplicit at h
  split at h
  · cases h
  · rename_i hcount
    split at h
    · cases h
    · rename_i e he
      split at h
      · cases h
      · rename_i hlen
        refine ⟨(Option.some.inj h).symm, ?_, not_not.1 hlen ▸ he⟩
        rintro rfl
        exact hcount (Or.inl rfl)

theorem tileFrom_identity {e e' : ℕ} (h : tileFrom e specs = some e') :
    ∀ spec ∈ specs, spec.fileOff = spec.regionOff := by
  induction specs generalizing e with
  | nil => exact fun spec hspec => absurd hspec List.not_mem_nil
  | cons spec rest ih =>
    obtain ⟨hpass, htail⟩ := tileFrom_cons.1 h
    intro s hs
    rcases List.mem_cons.1 hs with rfl | hs
    · exact hpass.identity
    · exact ih htail s hs

theorem buildChunkTableExplicit_identity
    (h : buildChunkTableExplicit regionLen specs = some chunks) :
    ∀ spec ∈ specs, spec.fileOff = spec.regionOff :=
  tileFrom_identity (buildChunkTableExplicit_some h).2.2

theorem buildChunkTableExplicit_tiled (h : buildChunkTableExplicit regionLen specs = some chunks)
    (hsmall : totalLen specs < 2 ^ 64) : Tiled regionLen chunks := by
  obtain ⟨rfl, -, htile⟩ := buildChunkTableExplicit_some h
  obtain ⟨hend, hstart, hall⟩ := tileFrom_some htile (by rwa [Nat.zero_add])
  rw [Nat.zero_add] at hend
  exact ⟨fun i hi => (hstart i hi).trans (Nat.zero_add _), hend.symm, hend ▸ hsmall,
    fun spec hs => (hall spec hs).1, fun spec hs => (hall spec hs).2⟩

/-! ## Chunks of one size -/

theorem roundChunkSize_mod (requested : ℕ) : roundChunkSize requested % RESIDCTL_ALIGN = 0 := by
  unfold roundChunkSize wrap64 RESIDCTL_ALIGN
  split <;> omega

theorem roundChunkSize_lt (h : chunkSize < 2 ^ 64) : roundChunkSize chunkSize < 2 ^ 64 := by
  unfold roundChunkSize
  split
  · exact Nat.mod_lt _ (by decide)
  · exact h

/-- Where the rounding up wraps, the count is zero. -/
theorem chunkCount_pos (hregion : regionLen < 2 ^ 64) (hsize : chunkSize < 2 ^ 64)
    (h : chunkCount regionLen chunkSize ≠ 0) :
    0 < chunkSize ∧ regionLen + chunkSize ≤ 2 ^ 64 ∧
      chunkCount regionLen chunkSize = (regionLen + chunkSize - 1) / chunkSize := by
  have hpos : 0 < chunkSize := by
    refine Nat.pos_of_ne_zero fun hzero => h ?_
    rw [chunkCount, hzero, Nat.div_zero]
  have hle : regionLen + chunkSize ≤ 2 ^ 64 := by
    by_contra hover
    refine h (Nat.div_eq_of_lt ?_)
    unfold sub64 wrap64
    omega
  refine ⟨hpos, hle, ?_⟩
  rw [chunkCount, show sub64 (wrap64 (regionLen + chunkSize)) 1 = regionLen + chunkSize - 1 by
    unfold sub64 wrap64
    omega]

section

variable {i : ℕ} (hpos : 0 < chunkSize) (hle : regionLen + chunkSize ≤ 2 ^ 64)
  (hi : i < (regionLen + chunkSize - 1) / chunkSize)

include hpos hi in
/-- Every counted chunk starts inside the region. -/
theorem mul_lt_regionLen : i * chunkSize < regionLen := by
  have hmul := (Nat.le_div_iff_mul_le hpos).1 (Nat.succ_le_of_lt hi)
  rw [Nat.succ_mul] at hmul
  omega

include hpos hle hi in
theorem uniformChunk_eq : uniformChunk regionLen chunkSize i =
    ⟨i * chunkSize, i * chunkSize, min chunkSize (regionLen - i * chunkSize), i % 2 ^ 32⟩ := by
  have hlt := mul_lt_regionLen hpos hi
  unfold uniformChunk
  dsimp only
  rw [wrap64_of_lt (v := i * chunkSize) (by omega), wrap64_of_lt (by omega),
    sub64_of_le hlt.le (by omega)]
  split
  · rw [min_eq_right (by omega)]
  · rw [min_eq_left (by omega)]

include hpos hle in
theorem totalLen_uniform {m : ℕ} (hm : m ≤ (regionLen + chunkSize - 1) / chunkSize) :
    totalLen ((List.range m).map (uniformChunk regionLen chunkSize)) =
      min (m * chunkSize) regionLen := by
  induction m with
  | zero => simp
  | succ m ih =>
    have hlt := mul_lt_regionLen hpos hm
    rw [totalLen, List.range_succ, List.map_append, List.map_append, List.sum_append]
    show totalLen _ + _ = _
    rw [ih (Nat.le_of_succ_le hm), List.map_singleton, List.map_singleton, List.sum_singleton,
      uniformChunk_eq hpos hle hm, Nat.succ_mul]
    -- only the last chunk is cut
    dsimp only
    omega

end

theorem buildChunkTable_tiled (hregion : regionLen < 2 ^ 64) (hsize : chunkSize < 2 ^ 64)
    (h : buildChunkTable regionLen chunkSize = some chunks) : Tiled regionLen chunks := by
  unfold buildChunkTable at h
  generalize hround : roundChunkSize chunkSize = size at h
  have halign : size % RESIDCTL_ALIGN = 0 := hround ▸ roundChunkSize_mod chunkSize
  have hsize' : size < 2 ^ 64 := hround ▸ roundChunkSize_lt hsize
  dsimp only at h
  split at h
  · cases h
  · split at h
    · cases h
    · rename_i hcount
      obtain rfl := Option.some.inj h
      obtain ⟨hpos, hle, hceil⟩ :=
        chunkCount_pos hregion hsize' fun hzero => hcount (Or.inl hzero)
      rw [hceil]
      -- the last chunk reaches the end of the region
      have hcover : regionLen ≤ (regionLen + size - 1) / size * size := by
        have hrem := Nat.div_add_mod (regionLen + size - 1) size
        have hlt := Nat.mod_lt (regionLen + size - 1) hpos
        rw [Nat.mul_comm] at hrem
        omega
      have hchunk : ∀ spec ∈ (List.range ((regionLen + size - 1) / size)).map
          (uniformChunk regionLen size), ∃ i, i * size < regionLen ∧
            spec = ⟨i * size, i * size, min size (regionLen - i * size), i % 2 ^ 32⟩ := by
        intro spec hspec
        obtain ⟨i, hi, rfl⟩ := List.mem_map.1 hspec
        exact ⟨i, mul_lt_regionLen hpos (List.mem_range.1 hi),
          uniformChunk_eq hpos hle (List.mem_range.1 hi)⟩
      refine ⟨fun i hi => ?_, ?_, hregion, fun spec hspec => ?_, fun spec hspec => ?_⟩
      · have hi' : i < (regionLen + size - 1) / size := by simpa using hi
        rw [List.getElem_map, List.getElem_range, uniformChunk_eq hpos hle hi', ← List.map_take,
          List.take_range, min_eq_left hi'.le, totalLen_uniform hpos hle hi'.le,
          min_eq_left (mul_lt_regionLen hpos hi').le]
      · rw [totalLen_uniform hpos hle le_rfl, min_eq_right hcover]
      · obtain ⟨i, hi, rfl⟩ := hchunk spec hspec
        exact lt_min hpos (Nat.sub_pos_of_lt hi)
      · obtain ⟨i, hi, rfl⟩ := hchunk spec hspec
        show i * size % RESIDCTL_ALIGN = 0
        rw [Nat.mul_mod, halign, Nat.mul_zero, Nat.zero_mod]

/-- A region of `n` whole chunks gets the table `ChunkTable.uniform`. -/
theorem buildChunkTable_uniform {n : ℕ} (hn : 0 < n) (hcount : n ≤ UINT32_MAX) (hpos : 0 < chunkSize)
    (halign : chunkSize % RESIDCTL_ALIGN = 0) (hfit : n * chunkSize < 2 ^ 64)
    (hroom : n * chunkSize + chunkSize < 2 ^ 64) :
    let table := ChunkTable.uniform n chunkSize hpos halign hfit
    buildChunkTable (n * chunkSize) chunkSize =
      some ((List.finRange n).map fun c =>
        ⟨table.regionOff c, table.regionOff c, table.len c, c.1 % 2 ^ 32⟩) := by
  intro table
  have hround : roundChunkSize chunkSize = chunkSize := if_neg (not_not.2 halign)
  have hceil : (n * chunkSize + chunkSize - 1) / chunkSize = n := by
    rw [Nat.add_sub_assoc hpos, Nat.mul_comm, Nat.mul_add_div hpos,
      Nat.div_eq_of_lt (Nat.sub_lt hpos Nat.one_pos), Nat.add_zero]
  have hchunks : chunkCount (n * chunkSize) chunkSize = n := by
    rw [chunkCount, wrap64_of_lt hroom, sub64_of_le (by omega) hroom, hceil]
  rw [buildChunkTable, hround]
  simp only [hchunks, hpos.ne', if_false]
  rw [if_neg (by omega)]
  refine congrArg some (List.ext_getElem (by simp) fun i hi _ => ?_)
  have hi' : i < n := by simpa using hi
  have hrest : chunkSize ≤ n * chunkSize - i * chunkSize := by
    rw [← Nat.sub_mul]
    exact Nat.le_mul_of_pos_left _ (Nat.sub_pos_of_lt hi')
  rw [List.getElem_map, List.getElem_range, uniformChunk_eq hpos hroom.le (hceil.symm ▸ hi'),
    min_eq_left hrest]
  simp [table, ChunkTable.uniform]

/-! ## What step 8 accepts -/

/-- The lookup in an accepted table is exact if and only if the lengths of the explicit specs do
not add up to `2 ^ 64`. -/
theorem startup_lookup_iff (hregion : regionLen < 2 ^ 64) (hsize : chunkSize < 2 ^ 64)
    (h : startup regionLen chunkSize specs = some chunks) :
    ExactLookup regionLen chunks ↔ totalLen specs < 2 ^ 64 := by
  unfold startup at h
  split at h
  · constructor
    · intro hexact
      obtain ⟨rfl, -, -⟩ := buildChunkTableExplicit_some h
      exact hexact.totalLen_le.trans_lt hregion
    · exact fun hsmall => (buildChunkTableExplicit_tiled h hsmall).exactLookup
  · rename_i hnone
    have hnil : specs = [] := List.eq_nil_of_length_eq_zero (by omega)
    rw [hnil]
    exact iff_of_true (buildChunkTable_tiled hregion hsize h).exactLookup (by decide)

end

/-- Two chunks of half the address space, after which the offset is 0 again. -/
def wrappingSpecs : List ChunkSpec :=
  [⟨0, 0, 2 ^ 63, 0⟩, ⟨2 ^ 63, 2 ^ 63, 2 ^ 63, 1⟩, ⟨0, 0, 4096, 2⟩]

theorem startup_lookup_threePages :
    ExactLookup 12288 [⟨0, 0, 8192, 0⟩, ⟨8192, 8192, 4096, 1⟩] :=
  have haccepted : startup 12288 5000 [] = some [⟨0, 0, 8192, 0⟩, ⟨8192, 8192, 4096, 1⟩] := by
    decide
  (startup_lookup_iff (by decide) (by decide) haccepted).2 (by decide)

/-- A region of one page with these specs is accepted, and the first chunk is longer than it. -/
theorem wrappingSpecs_accepted :
    startup 4096 4096 wrappingSpecs = some wrappingSpecs ∧ ¬ ExactLookup 4096 wrappingSpecs := by
  refine ⟨by decide, fun h => ?_⟩
  have hfirst : ∃ c : Fin wrappingSpecs.length, Contains wrappingSpecs[c] 4096 := by
    refine ⟨⟨0, by decide⟩, Nat.zero_le _, ?_⟩
    decide
  exact absurd ((h.tiles 4096).1 hfirst) (by decide)

end Startup

end Residctl
