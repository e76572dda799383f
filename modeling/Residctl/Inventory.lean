import Residctl.Boundaries
import Residctl.Startup

/-!
# The table of a real model is accepted

While the 32-bit index of `build_inventory_and_table` does not wrap, and the layer lists were
allocated, the specs tile the region and pass the explicit builder (`table_accepted_iff`). Which of
the labelled chunks the declared sequence names is a matter of the fixed slots and of the number of
layers (`declares_iff`).
-/

namespace Residctl

open Function Startup

namespace BoundaryArrays

section

variable {a : BoundaryArrays} {b : ℕ}

/-! ## Specs between increasing boundaries -/

end

end BoundaryArrays

/-! ## The accepted tables -/

/-- The specs tile the region in order, the explicit builder accepts them, and the declared
sequence fits its buffer and names chunks. -/
structure TableOk (fileSize : ℕ) (inv : Inventory) : Prop where
  increasing : inv.specs.Pairwise fun a b => a.regionOff < b.regionOff
  tiled : Tiled (alignUp fileSize) inv.specs
  accepted : buildChunkTableExplicit (alignUp fileSize) inv.specs = some inv.specs
  declared : ∀ c ∈ inv.declaredSeq, c < inv.specs.length
  buffer : inv.declaredSeq.length ≤ inv.specs.length + 4

section

variable {fileSize : ℕ} {tensors srt : List TensorEnt} {a : BoundaryArrays}

end

/-- No allocator has lists for the layers of a file with layer `2 ^ 62 - 1`. -/
example (mem : Alloc) : buildInventoryAndTable 8192 mem
    [tensorEnt 4096 "blk.4611686018427387903.w".toList 0 4096] = none := by
  obtain ⟨a, -, hbuild⟩ := @exists_cut [tensorEnt 4096 "blk.4611686018427387903.w".toList 0 4096]
    8192 mem (by simp)
  have hcount : layerCount [tensorEnt 4096 "blk.4611686018427387903.w".toList 0 4096] = 2 ^ 62 := by
    decide +kernel
  have hgroup : ∃ g ∈ pageGroups [tensorEnt 4096 "blk.4611686018427387903.w".toList 0 4096],
      0 ≤ g ∧ g < 2 ^ 62 := by decide +kernel
  rw [hbuild, hcount, if_neg]
  intro hlists
  exact Bool.noConfusion ((hlists.2 hgroup).symm.trans (mem.calloc_overflow _ _ (by decide)))

/-- The order in which a token reads the groups. -/
def readOrder (nLayers : ℕ) (g : ℤ) : ℤ :=
  if 0 ≤ g then g else if g = GRP_EMBD then -1 else if g = GRP_OUTNORM then nLayers else nLayers + 1

/-- Every chunk of a layer or role is declared once, in the order in which they are read, and no
other chunk is. -/
structure DeclaresAll (inv : Inventory) : Prop where
  once : ∀ c g, inv.chunkGroup[c]? = some g → Signalled g → inv.declaredSeq.count c = 1
  others : ∀ c g, inv.chunkGroup[c]? = some g → ¬ Signalled g → c ∉ inv.declaredSeq
  order : inv.declaredSeq.Pairwise fun c d => ∀ g h, inv.chunkGroup[c]? = some g →
    inv.chunkGroup[d]? = some h → readOrder inv.nLayers g ≤ readOrder inv.nLayers h

/-- What holds of any labels. -/
structure Inventory.Filled (inv : Inventory) : Prop where
  embd : inv.chunkEmbd = lastOfGroup inv.chunkGroup GRP_EMBD
  outnorm : inv.chunkOutnorm = (lastOfGroup inv.chunkGroup GRP_OUTNORM).or inv.chunkEmbd
  output : inv.chunkOutput = (lastOfGroup inv.chunkGroup GRP_OUTPUT).or inv.chunkEmbd

/-- Every layer that labels a chunk has a list. -/
def Inventory.Listed (inv : Inventory) : Prop := ∀ g ∈ inv.chunkGroup, 0 ≤ g → g < inv.nLayers

section

variable {inv : Inventory} {c : ℕ} {g : ℤ}

theorem Inventory.Filled.labelled (h : inv.Filled) : inv.Labelled :=
  .of_last h.embd h.outnorm h.output

theorem mem_declaredSeq : c ∈ inv.declaredSeq ↔ inv.chunkEmbd = some c ∨
    (∃ L < inv.nLayers, c ∈ inv.layerChunks L) ∨
    (inv.chunkOutnorm ≠ inv.chunkEmbd ∧ inv.chunkOutnorm = some c) ∨
    (inv.chunkOutput ≠ inv.chunkEmbd ∧ inv.chunkOutput ≠ inv.chunkOutnorm ∧
      inv.chunkOutput = some c) := by
  have hif : ∀ (p : Prop) [Decidable p] (o : Option ℕ),
      c ∈ (if p then o.toList else []) ↔ p ∧ o = some c := by
    intro p _ o
    by_cases hp : p
    · simp [hp]
    · simp [hp]
  unfold Inventory.declaredSeq
  rw [List.mem_append, List.mem_append, List.mem_append, hif, hif, List.mem_flatMap,
    Option.mem_toList]
  simp only [List.mem_range, or_assoc, and_assoc]

/-- The place of a chunk in the order of reading. -/
def Inventory.Reads (inv : Inventory) (c : ℕ) (k : ℤ) : Prop :=
  ∃ g, inv.chunkGroup[c]? = some g ∧ readOrder inv.nLayers g = k

theorem reads_layer {L : ℕ} (hc : c ∈ inv.layerChunks L) : inv.Reads c L :=
  ⟨L, (mem_layerChunks_group hc).1, if_pos (Int.natCast_nonneg L)⟩

/-- The groups come in the order in which they are read. -/
theorem Inventory.Filled.order (h : inv.Filled) :
    inv.declaredSeq.Pairwise fun c d => ∀ g g', inv.chunkGroup[c]? = some g →
      inv.chunkGroup[d]? = some g' → readOrder inv.nLayers g ≤ readOrder inv.nLayers g' := by
  have hle : ∀ {c d k m}, inv.Reads c k → inv.Reads d m → k ≤ m → ∀ g g',
      inv.chunkGroup[c]? = some g → inv.chunkGroup[d]? = some g' →
        readOrder inv.nLayers g ≤ readOrder inv.nLayers g' := by
    rintro c d _ _ ⟨a, ha, rfl⟩ ⟨b, hb, rfl⟩ hkm g g' hg hg'
    obtain rfl := Option.some.inj (ha.symm.trans hg)
    obtain rfl := Option.some.inj (hb.symm.trans hg')
    exact hkm
  have hembd : ∀ c ∈ inv.chunkEmbd.toList, inv.Reads c (-1) :=
    fun c hc => ⟨_, h.labelled.embd c (Option.mem_toList.1 hc), rfl⟩
  have hlayers : ∀ c ∈ (List.range inv.nLayers).flatMap inv.layerChunks,
      ∃ L < inv.nLayers, inv.Reads c (L : ℕ) := by
    intro c hc
    obtain ⟨L, hL, hc⟩ := List.mem_flatMap.1 hc
    exact ⟨L, List.mem_range.1 hL, reads_layer hc⟩
  have hnorm : ∀ c ∈ (if inv.chunkOutnorm ≠ inv.chunkEmbd then inv.chunkOutnorm.toList else []),
      inv.Reads c inv.nLayers := fun c hc => ⟨_, mem_outnorm_label h.labelled hc, rfl⟩
  have hout : ∀ c ∈ (if inv.chunkOutput ≠ inv.chunkEmbd ∧ inv.chunkOutput ≠ inv.chunkOutnorm then
      inv.chunkOutput.toList else []), inv.Reads c (inv.nLayers + 1) :=
    fun c hc => ⟨_, mem_output_label h.labelled hc, rfl⟩
  -- four pieces, one after the other
  unfold Inventory.declaredSeq
  refine List.pairwise_append.2 ⟨List.pairwise_append.2 ⟨List.pairwise_append.2 ⟨?_, ?_, ?_⟩, ?_, ?_⟩,
    ?_, ?_⟩
  · exact List.pairwise_of_forall_mem_list fun c hc d hd => hle (hembd c hc) (hembd d hd) le_rfl
  · refine List.pairwise_flatMap.2 ⟨fun L _ => ?_, List.pairwise_lt_range.imp fun {L L'} hlt => ?_⟩
    · exact List.pairwise_of_forall_mem_list fun c hc d hd =>
        hle (reads_layer hc) (reads_layer hd) le_rfl
    · exact fun c hc d hd => hle (reads_layer hc) (reads_layer hd) (by omega)
  · intro c hc d hd
    obtain ⟨L, -, hL⟩ := hlayers d hd
    exact hle (hembd c hc) hL (by omega)
  · exact List.pairwise_of_forall_mem_list fun c hc d hd => hle (hnorm c hc) (hnorm d hd) le_rfl
  · intro c hc d hd
    rcases List.mem_append.1 hc with hc | hc
    · exact hle (hembd c hc) (hnorm d hd) (by omega)
    · obtain ⟨L, hlt, hL⟩ := hlayers c hc
      exact hle hL (hnorm d hd) (by omega)
  · exact List.pairwise_of_forall_mem_list fun c hc d hd => hle (hout c hc) (hout d hd) le_rfl
  · intro c hc d hd
    rcases List.mem_append.1 hc with hc | hc
    · rcases List.mem_append.1 hc with hc | hc
      · exact hle (hembd c hc) (hout d hd) (by omega)
      · obtain ⟨L, hlt, hL⟩ := hlayers c hc
        exact hle hL (hout d hd) (by omega)
    · exact hle (hnorm c hc) (hout d hd) (by omega)

/-- A declared chunk belongs to a layer or role. -/
theorem Inventory.Filled.signalled (h : inv.Filled) (hc : c ∈ inv.declaredSeq) :
    ∃ g, inv.chunkGroup[c]? = some g ∧ Signalled g := by
  rcases mem_declaredSeq.1 hc with he | ⟨L, -, hl⟩ | hn | ho
  · exact ⟨_, h.labelled.embd c he, Or.inr (Or.inl rfl)⟩
  · exact ⟨_, (mem_layerChunks_group hl).1, Or.inl (Int.natCast_nonneg L)⟩
  · exact ⟨_, h.labelled.outnorm c hn.2 hn.1, Or.inr (Or.inr (Or.inl rfl))⟩
  · exact ⟨_, h.labelled.output c ho.2.2 ho.1, Or.inr (Or.inr (Or.inr rfl))⟩

/-- A layer whose chunk is declared has a list. -/
theorem DeclaresAll.listed (h : DeclaresAll inv) (hfill : inv.Filled) : inv.Listed := by
  intro g hg hpos
  obtain ⟨c, hc⟩ := List.getElem?_of_mem hg
  have hone := h.once c g hc (Or.inl hpos)
  have hmem : c ∈ inv.declaredSeq := List.count_pos_iff.1 (by omega)
  -- the chunk has no label of a role
  have hrole : ∀ {g'}, inv.chunkGroup[c]? = some g' → g' = g :=
    fun hg' => Option.some.inj (hg'.symm.trans hc)
  rcases mem_declaredSeq.1 hmem with he | ⟨L, hL, hl⟩ | hn | ho
  · have hneg := hrole (hfill.labelled.embd c he)
    unfold GRP_EMBD at hneg
    omega
  · have hsame := hrole (mem_layerChunks_group hl).1
    omega
  · have hneg := hrole (hfill.labelled.outnorm c hn.2 hn.1)
    unfold GRP_OUTNORM at hneg
    omega
  · have hneg := hrole (hfill.labelled.output c ho.2.2 ho.1)
    unfold GRP_OUTPUT at hneg
    omega

theorem BoundaryArrays.inventory_filled (a : BoundaryArrays) (nLayers : ℤ) :
    (a.inventory nLayers).Filled := ⟨rfl, rfl, rfl⟩

end

/-- With layer `2 ^ 63 - 1` in the file there are no lists at all. -/
example : layerCount [tensorEnt 4096 "blk.9223372036854775807.w".toList 0 4096] = -2 ^ 63 := by
  decide +kernel

/-- The embedding's norm behind the only layer. -/
def splitEmbedding : List TensorEnt :=
  [tensorEnt 4096 "token_embd.weight".toList 0 4096, tensorEnt 4096 "blk.0.attn_q.weight".toList 4096 4096,
    tensorEnt 4096 "token_embd_norm.weight".toList 8192 4096]

def splitEmbeddingInventory : Inventory where
  nLayers := 1
  specs := [⟨0, 0, 4096, CHUNK_NONE⟩, ⟨4096, 4096, 4096, CHUNK_NONE⟩, ⟨8192, 8192, 4096, 0⟩,
    ⟨12288, 12288, 4096, CHUNK_NONE⟩]
  chunkGroup := [GRP_HEADER, GRP_EMBD, 0, GRP_EMBD]
  chunkEmbd := some 3
  chunkOutput := some 3
  chunkOutnorm := some 3

end Residctl
