import Mathlib.Data.List.Flatten
import Mathlib.Data.List.Nodup
import Residctl.Declared

/-!
# The chunk table and declared sequence of a real model

`residctl_llama.c`: tensors are grouped by layer or role, the file is cut into
chunks at the boundaries of maximal same-group runs, and the declared sequence
lists the chunks in the order a token consumes them. A layer whose tensors are not
contiguous in the file is split over several chunks; its notification signals all
of them before any is read.

The arrays are those of the code: `bnd` and `grp` with the 32-bit index `nb`, and the
layer lists, whose size comes from the largest layer number of the file.
-/

namespace Residctl

open Cyclic Function

/-! ## Classification of tensor names -/

def GRP_HEADER : ℤ := -1000
def GRP_EMBD : ℤ := -1
def GRP_OUTPUT : ℤ := -2
def GRP_OUTNORM : ℤ := -3
def GRP_OTHER : ℤ := -4

/-- The suffix that starts at the first occurrence of `needle`. -/
def strstr (needle : List Char) : List Char → Option (List Char)
  | [] => if needle = [] then some [] else none
  | c :: s => if needle.isPrefixOf (c :: s) then some (c :: s) else strstr needle s

/-- The value of signed 64-bit arithmetic, which wraps. -/
def toInt64 (x : ℤ) : ℤ := x.bmod (2 ^ 64)

/-- The layer number after `blk.`, or -1. -/
def parseLayer (name : List Char) : ℤ :=
  match strstr "blk.".toList name with
  | none => -1
  | some p =>
    let digits := (p.drop 4).takeWhile Char.isDigit
    let rest := (p.drop 4).dropWhile Char.isDigit
    if digits = [] then -1
    else if rest.head? = some '.' then
      digits.foldl (fun n d => toInt64 (n * 10 + ((d.toNat : ℤ) - '0'.toNat))) 0
    else -1

def classify (name : List Char) : ℤ :=
  if parseLayer name ≥ 0 then parseLayer name
  else if (strstr "token_embd".toList name).isSome then GRP_EMBD
  else if (strstr "output_norm".toList name).isSome then GRP_OUTNORM
  else if "output.".toList.isPrefixOf name ∨ name = "output.weight".toList then GRP_OUTPUT
  else GRP_OTHER

/-- `tensor_ent_t`. -/
structure TensorEnt where
  name : List Char
  fileOff : ℕ
  size : ℕ
  group : ℤ
deriving DecidableEq, Repr

/-- The entry of tensor `i`: `offset` is relative to the data section. -/
def tensorEnt (dataOffset : ℕ) (name : List Char) (offset size : ℕ) : TensorEnt :=
  ⟨name, dataOffset + offset, size, classify name⟩

/-! ## Boundaries and tables -/

/-- `residctl_chunk_spec_t`. -/
structure ChunkSpec where
  fileOff : ℕ
  regionOff : ℕ
  len : ℕ
  layerId : ℕ
deriving DecidableEq, Repr

/-- What the builder leaves behind; `none` for the id `0xFFFFFFFF`. A negative `g_n_layers` is
0 here: it is compared with layer numbers only. -/
structure Inventory where
  nLayers : ℕ
  specs : List ChunkSpec
  chunkGroup : List ℤ
  chunkEmbd : Option ℕ
  chunkOutput : Option ℕ
  chunkOutnorm : Option ℕ
deriving DecidableEq, Repr

/-- The last chunk of a group. -/
def lastOfGroup (groups : List ℤ) (g : ℤ) : Option ℕ :=
  (List.range groups.length).foldl (fun found c => if groups[c]? = some g then some c else found) none

/-- `bnd` and `grp`, `cap` entries each, and `nb`. -/
structure BoundaryArrays where
  bnd : ℕ → ℕ
  grp : ℕ → ℤ
  nb : ℕ

namespace BoundaryArrays

/-- `bnd[nb] = b; grp[nb] = g; nb++`; `none` for a write past the arrays. -/
def push (cap : ℕ) (a : BoundaryArrays) (b : ℕ) (g : ℤ) : Option BoundaryArrays :=
  if a.nb < cap then some ⟨update a.bnd a.nb b, update a.grp a.nb g, (a.nb + 1) % 2 ^ 32⟩ else none

/-- `nb - 1` on `uint32_t`. -/
def last (a : BoundaryArrays) : ℕ := (a.nb + 2 ^ 32 - 1) % 2 ^ 32

/-- The boundary of the first tensor; in page 0 it needs no header chunk. -/
def pushFirst (cap : ℕ) (a : BoundaryArrays) (t : TensorEnt) : Option BoundaryArrays :=
  if alignDown t.fileOff = 0 then some { a with grp := update a.grp 0 t.group }
  else a.push cap (alignDown t.fileOff) t.group

/-- The loop over the tensors after the first. -/
def cutLoop (cap : ℕ) (a : BoundaryArrays) (cur : ℤ) : List TensorEnt → Option BoundaryArrays
  | [] => some a
  | t :: ts =>
    if t.group = cur then cutLoop cap a cur ts
    else if alignDown t.fileOff ≤ a.bnd a.last then cutLoop cap a t.group ts
    else
      match a.push cap (alignDown t.fileOff) t.group with
      | none => none
      | some a => cutLoop cap a t.group ts

/-- The boundaries from `malloc` to `bnd[nb] = g_region_len`, for the first tensor `t` and the
others in file order. -/
def cut (fileSize cap : ℕ) (mem : BoundaryArrays) (t : TensorEnt) (ts : List TensorEnt) :
    Option BoundaryArrays := do
  let a ← push cap { mem with nb := 0 } 0 GRP_HEADER
  let a ← a.pushFirst cap t
  let a ← cutLoop cap a (a.grp a.last) ts
  if a.nb < cap then some { a with bnd := update a.bnd a.nb (alignUp fileSize) } else none

/-- The spec of chunk `c`. -/
def spec (a : BoundaryArrays) (c : ℕ) : ChunkSpec :=
  ⟨a.bnd c, a.bnd c, sub64 (a.bnd (c + 1)) (a.bnd c),
    if a.grp c ≥ 0 then (a.grp c).toNat % 2 ^ 32 else CHUNK_NONE⟩

/-- What the arrays leave behind. -/
def inventory (a : BoundaryArrays) (nLayers : ℤ) : Inventory :=
  let groups := (List.range a.nb).map a.grp
  let embd := lastOfGroup groups GRP_EMBD
  { nLayers := nLayers.toNat
    specs := (List.range a.nb).map a.spec
    chunkGroup := groups
    chunkEmbd := embd
    chunkOutput := (lastOfGroup groups GRP_OUTPUT).or embd
    chunkOutnorm := (lastOfGroup groups GRP_OUTNORM).or embd }

end BoundaryArrays

/-- `g_n_layers`: `max_layer + 1`, negative when it overflows. -/
def layerCount (srt : List TensorEnt) : ℤ :=
  toInt64 (srt.foldl (fun m t => if t.group > m then t.group else m) (-1) + 1)

/-- What the allocator gives: the contents of `bnd` and `grp`, and whether `calloc (count, size)`
is not `NULL`, which it is when the product does not fit a `size_t`. -/
structure Alloc where
  bnd : ℕ → ℕ
  grp : ℕ → ℤ
  calloc : ℕ → ℕ → Bool
  calloc_overflow : ∀ count size, 2 ^ 64 ≤ count * size → calloc count size = false

/-- The layer lists are used only where `calloc` gave them. The loop over the layers reads
`g_layer_nchunks`, and for every chunk of a layer `g_layer_chunks` is written as well. -/
def Alloc.HasLists (mem : Alloc) (nLayers : ℤ) (groups : List ℤ) : Prop :=
  (0 < nLayers → mem.calloc nLayers.toNat 1 = true) ∧
    ((∃ g ∈ groups, 0 ≤ g ∧ g < nLayers) → mem.calloc nLayers.toNat 24 = true)

instance (mem : Alloc) (nLayers : ℤ) (groups : List ℤ) : Decidable (mem.HasLists nLayers groups) :=
  inferInstanceAs (Decidable (_ ∧ _))

/-- `build_inventory_and_table` on the tensors in file order (`srt`, the output of `qsort`;
entries of one offset may come in any order). `none` when there is no tensor, where the source
reads past its array, and for an access through `NULL`. -/
def buildInventoryAndTable (fileSize : ℕ) (mem : Alloc) (srt : List TensorEnt) : Option Inventory :=
  match srt with
  | [] => none
  | t :: ts => do
    let a ← BoundaryArrays.cut fileSize (srt.length + 2) ⟨mem.bnd, mem.grp, 0⟩ t ts
    let inv := a.inventory (layerCount srt)
    if mem.HasLists (layerCount srt) inv.chunkGroup then some inv else none

def MAX_CHUNKS_PER_LAYER : ℕ := 6

namespace Inventory

def nChunks (inv : Inventory) : ℕ := inv.chunkGroup.length

/-- `g_layer_chunks[L]`: the first chunks labelled `L`, in file order. -/
def layerChunks (inv : Inventory) (L : ℕ) : List ℕ :=
  if L < inv.nLayers then
    ((List.range inv.nChunks).filter fun c => inv.chunkGroup[c]? = some (L : ℤ)).take
      MAX_CHUNKS_PER_LAYER
  else []

/-- `g_declared_seq`: embedding, layers in order, output norm, output. -/
def declaredSeq (inv : Inventory) : List ℕ :=
  inv.chunkEmbd.toList ++ (List.range inv.nLayers).flatMap inv.layerChunks ++
    (if inv.chunkOutnorm ≠ inv.chunkEmbd then inv.chunkOutnorm.toList else []) ++
    if inv.chunkOutput ≠ inv.chunkEmbd ∧ inv.chunkOutput ≠ inv.chunkOutnorm then
      inv.chunkOutput.toList
    else []

end Inventory

/-! ## Notifications -/

/-- The chunks for which `residctl_llama_notify_layer` calls `notify_chunk`, in order. -/
def layerSignals (inv : Inventory) (layer : ℤ) : List ℕ :=
  if layer < 0 ∨ layer ≥ inv.nLayers then [] else inv.layerChunks layer.toNat

/-- What `notify_chunk` does to the policy. -/
def notifyPolicy (inv : Inventory) (st : LoDeclared) (c : ℕ) : LoDeclared :=
  if c ≥ inv.nChunks then st else loDeclaredOnAccess st c

/-- The policy after `residctl_llama_notify_layer`. -/
def layerPolicy (inv : Inventory) (st : LoDeclared) (layer : ℤ) : LoDeclared :=
  (layerSignals inv layer).foldl (notifyPolicy inv) st

/-- The settings of the real-model path. -/
def llamaSettings : LoSettings := ⟨false, true⟩

/-- Right after the notification of layer `L` its chunks are ranked nearer than every
other declared chunk, and the victim scan spares them while another evictable chunk
exists. -/
structure ProtectsLayer (inv : Inventory) (st : LoDeclared) (L : ℕ) : Prop where
  nearer : ∀ x ∈ inv.layerChunks L, ∀ y ∈ inv.declaredSeq, y ∉ inv.layerChunks L →
    loDeclaredDist llamaSettings (layerPolicy inv st L) x <
      loDeclaredDist llamaSettings (layerPolicy inv st L) y
  spared : ∀ (chunks : Chunks inv.nChunks) (v : Fin inv.nChunks),
    loDeclaredSelectVictim llamaSettings (layerPolicy inv st L) chunks = some v →
      v.1 ∈ inv.layerChunks L → ∀ y, (chunks y).Evictable → y.1 ∈ inv.layerChunks L

/-! ## The layers are disjoint segments of the declared sequence -/

/-- Every id of a built inventory carries the label it was listed for. -/
structure Inventory.Labelled (inv : Inventory) : Prop where
  embd : ∀ c, inv.chunkEmbd = some c → inv.chunkGroup[c]? = some GRP_EMBD
  outnorm : ∀ c, inv.chunkOutnorm = some c → inv.chunkOutnorm ≠ inv.chunkEmbd →
    inv.chunkGroup[c]? = some GRP_OUTNORM
  output : ∀ c, inv.chunkOutput = some c → inv.chunkOutput ≠ inv.chunkEmbd →
    inv.chunkGroup[c]? = some GRP_OUTPUT

theorem lastOfGroup_some {groups : List ℤ} {g : ℤ} {c : ℕ} (h : lastOfGroup groups g = some c) :
    groups[c]? = some g := by
  suffices hgen : ∀ (cs : List ℕ) (found : Option ℕ), (∀ c, found = some c → groups[c]? = some g) →
      ∀ c, cs.foldl (fun found c => if groups[c]? = some g then some c else found) found = some c →
        groups[c]? = some g by
    exact hgen _ none (by simp) c h
  intro cs
  induction cs with
  | nil => exact fun found hf => hf
  | cons x cs ih =>
    intro found hf
    apply ih
    intro c hc
    dsimp only at hc
    split at hc
    · rename_i hx
      cases hc
      exact hx
    · exact hf c hc

/-- The roles have their last chunks, the embedding's where they have none. -/
theorem Inventory.Labelled.of_last {inv : Inventory}
    (hembd : inv.chunkEmbd = lastOfGroup inv.chunkGroup GRP_EMBD)
    (hnorm : inv.chunkOutnorm = (lastOfGroup inv.chunkGroup GRP_OUTNORM).or inv.chunkEmbd)
    (hout : inv.chunkOutput = (lastOfGroup inv.chunkGroup GRP_OUTPUT).or inv.chunkEmbd) :
    inv.Labelled := by
  refine ⟨fun c hc => lastOfGroup_some (hembd.symm.trans hc), fun c hc hne => ?_, fun c hc hne => ?_⟩
  · rw [hnorm] at hc hne
    cases hl : lastOfGroup inv.chunkGroup GRP_OUTNORM with
    | none => rw [hl] at hne; exact absurd rfl hne
    | some d =>
      rw [hl] at hc
      cases hc
      exact lastOfGroup_some hl
  · rw [hout] at hc hne
    cases hl : lastOfGroup inv.chunkGroup GRP_OUTPUT with
    | none => rw [hl] at hne; exact absurd rfl hne
    | some d =>
      rw [hl] at hc
      cases hc
      exact lastOfGroup_some hl

theorem BoundaryArrays.inventory_labelled (a : BoundaryArrays) (nLayers : ℤ) :
    (a.inventory nLayers).Labelled := .of_last rfl rfl rfl

/-- What is built is what some arrays leave behind, and the layer lists were there. -/
theorem buildInventoryAndTable_some {fileSize : ℕ} {mem : Alloc} {srt : List TensorEnt}
    {inv : Inventory} (h : buildInventoryAndTable fileSize mem srt = some inv) :
    ∃ t ts a, srt = t :: ts ∧
      BoundaryArrays.cut fileSize (srt.length + 2) ⟨mem.bnd, mem.grp, 0⟩ t ts = some a ∧
      inv = a.inventory (layerCount srt) ∧ mem.HasLists (layerCount srt) inv.chunkGroup := by
  cases srt with
  | nil => cases h
  | cons t ts =>
    obtain ⟨a, hcut, hif⟩ := Option.bind_eq_some_iff.1 h
    by_cases hlists : mem.HasLists (layerCount (t :: ts))
        (a.inventory (layerCount (t :: ts))).chunkGroup
    · obtain rfl := Option.some.inj ((if_pos hlists).symm.trans hif)
      exact ⟨t, ts, a, rfl, hcut, rfl, hlists⟩
    · exact absurd ((if_neg hlists).symm.trans hif) nofun

theorem buildInventoryAndTable_labelled {fileSize : ℕ} {mem : Alloc} {srt : List TensorEnt}
    {inv : Inventory} (h : buildInventoryAndTable fileSize mem srt = some inv) : inv.Labelled := by
  obtain ⟨t, ts, a, -, -, rfl, -⟩ := buildInventoryAndTable_some h
  exact a.inventory_labelled _

section

variable {inv : Inventory} {L c : ℕ}

theorem mem_layerChunks_group (h : c ∈ inv.layerChunks L) :
    inv.chunkGroup[c]? = some (L : ℤ) ∧ L < inv.nLayers := by
  unfold Inventory.layerChunks at h
  split at h
  · rename_i hL
    have := List.mem_of_mem_take h
    simp only [List.mem_filter, List.mem_range, decide_eq_true_eq] at this
    exact ⟨this.2, hL⟩
  · cases h

theorem lt_nChunks_of_mem_layerChunks (h : c ∈ inv.layerChunks L) : c < inv.nChunks := by
  have hg := (mem_layerChunks_group h).1
  exact (List.getElem?_eq_some_iff.1 hg).1

theorem layerSignals_eq (h : L < inv.nLayers) : layerSignals inv L = inv.layerChunks L := by
  rw [layerSignals, if_neg (by omega), Int.toNat_natCast]

theorem lt_nChunks_of_mem_layerSignals {layer : ℤ} (h : c ∈ layerSignals inv layer) :
    c < inv.nChunks := by
  unfold layerSignals at h
  split at h
  · cases h
  · exact lt_nChunks_of_mem_layerChunks h

theorem layerChunks_nodup (inv : Inventory) (L : ℕ) : (inv.layerChunks L).Nodup := by
  unfold Inventory.layerChunks
  split
  · exact (List.nodup_range.filter _).sublist (List.take_sublist _ _)
  · exact List.nodup_nil

theorem mem_layers_label (h : c ∈ (List.range inv.nLayers).flatMap inv.layerChunks) :
    ∃ L : ℕ, inv.chunkGroup[c]? = some (L : ℤ) := by
  obtain ⟨L, -, hL⟩ := List.mem_flatMap.1 h
  exact ⟨L, (mem_layerChunks_group hL).1⟩

theorem mem_outnorm_label (hinv : inv.Labelled)
    (h : c ∈ if inv.chunkOutnorm ≠ inv.chunkEmbd then inv.chunkOutnorm.toList else []) :
    inv.chunkGroup[c]? = some GRP_OUTNORM := by
  split at h
  · rename_i hne
    exact hinv.outnorm c (Option.mem_toList.1 h) hne
  · cases h

theorem mem_output_label (hinv : inv.Labelled)
    (h : c ∈ if inv.chunkOutput ≠ inv.chunkEmbd ∧ inv.chunkOutput ≠ inv.chunkOutnorm then
      inv.chunkOutput.toList else []) :
    inv.chunkGroup[c]? = some GRP_OUTPUT := by
  split at h
  · rename_i hne
    exact hinv.output c (Option.mem_toList.1 h) hne.1
  · cases h

theorem mem_declaredSeq_label (hinv : inv.Labelled) (h : c ∈ inv.declaredSeq) :
    ∃ g, inv.chunkGroup[c]? = some g := by
  rcases List.mem_append.1 h with h | h
  · rcases List.mem_append.1 h with h | h
    · rcases List.mem_append.1 h with h | h
      · exact ⟨_, hinv.embd c (Option.mem_toList.1 h)⟩
      · obtain ⟨L, hL⟩ := mem_layers_label h
        exact ⟨_, hL⟩
    · exact ⟨_, mem_outnorm_label hinv h⟩
  · exact ⟨_, mem_output_label hinv h⟩

theorem nodup_ite_toList (p : Prop) [Decidable p] (o : Option ℕ) :
    (if p then o.toList else []).Nodup := by
  split
  · cases o <;> simp
  · exact List.nodup_nil

/-- The declared sequence names no chunk twice. -/
theorem declaredSeq_nodup (hinv : inv.Labelled) : inv.declaredSeq.Nodup := by
  have hlayers : ((List.range inv.nLayers).flatMap inv.layerChunks).Nodup := by
    refine List.nodup_flatMap.2 ⟨fun L _ => layerChunks_nodup inv L, ?_⟩
    refine List.nodup_range.imp fun {L L'} hne c hc hc' => hne ?_
    have h := (mem_layerChunks_group hc).1
    rw [(mem_layerChunks_group hc').1] at h
    exact (Int.ofNat.inj (Option.some.inj h)).symm
  have hembd : inv.chunkEmbd.toList.Nodup := by cases inv.chunkEmbd <;> simp
  unfold Inventory.declaredSeq
  -- the four parts carry different labels
  refine List.nodup_append'.2 ⟨List.nodup_append'.2 ⟨List.nodup_append'.2
    ⟨hembd, hlayers, fun c hc hc' => ?_⟩, nodup_ite_toList _ _, fun c hc hc' => ?_⟩,
    nodup_ite_toList _ _, fun c hc hc' => ?_⟩
  · obtain ⟨L, hL⟩ := mem_layers_label hc'
    rw [hinv.embd c (Option.mem_toList.1 hc)] at hL
    simp [GRP_EMBD] at hL
  · have hg := mem_outnorm_label hinv hc'
    rcases List.mem_append.1 hc with hc | hc
    · rw [hinv.embd c (Option.mem_toList.1 hc)] at hg
      simp [GRP_EMBD, GRP_OUTNORM] at hg
    · obtain ⟨L, hL⟩ := mem_layers_label hc
      rw [hL] at hg
      simp [GRP_OUTNORM] at hg
  · have hg := mem_output_label hinv hc'
    rcases List.mem_append.1 hc with hc | hc
    · rcases List.mem_append.1 hc with hc | hc
      · rw [hinv.embd c (Option.mem_toList.1 hc)] at hg
        simp [GRP_EMBD, GRP_OUTPUT] at hg
      · obtain ⟨L, hL⟩ := mem_layers_label hc
        rw [hL] at hg
        simp [GRP_OUTPUT] at hg
    · rw [mem_outnorm_label hinv hc] at hg
      simp [GRP_OUTNORM, GRP_OUTPUT] at hg

/-- A layer's chunks are consecutive in the declared sequence. -/
theorem declaredSeq_split (hL : L < inv.nLayers) :
    ∃ pre post, inv.declaredSeq = pre ++ inv.layerChunks L ++ post := by
  obtain ⟨before, after, hrange⟩ := List.append_of_mem (List.mem_range.2 hL)
  refine ⟨inv.chunkEmbd.toList ++ before.flatMap inv.layerChunks,
    after.flatMap inv.layerChunks ++
      ((if inv.chunkOutnorm ≠ inv.chunkEmbd then inv.chunkOutnorm.toList else []) ++
        if inv.chunkOutput ≠ inv.chunkEmbd ∧ inv.chunkOutput ≠ inv.chunkOutnorm then
          inv.chunkOutput.toList
        else []), ?_⟩
  rw [Inventory.declaredSeq, hrange, List.flatMap_append, List.flatMap_cons]
  simp only [List.append_assoc]

/-! ## Distances after a notification -/

/-- With the cursor at slot `p`, in pre-consumption mode, the chunk of slot `q` is
`q - p` ahead, counted cyclically. -/
theorem loDeclaredDist_slot {st : LoDeclared} {p q x : ℕ} (hnd : st.seq.Nodup)
    (hp : p < st.seq.length) (hq : st.seq[q]? = some x) (hpos : st.pos = (p : ℤ)) :
    loDeclaredDist llamaSettings st x =
      (((q + st.seq.length - p) % st.seq.length : ℕ) : ℤ) := by
  have hqlt : q < st.seq.length := (List.getElem?_eq_some_iff.1 hq).1
  have hseq : st.seq ≠ [] := List.ne_nil_of_length_pos (Nat.zero_lt_of_lt hp)
  have hahead : ∀ i, st.ahead llamaSettings i = st.seqAt (p + i) := by
    intro i
    rw [LoDeclared.ahead, LoDeclared.base, hpos, if_neg (by omega), Int.toNat_natCast]
    simp [LoSettings.d0, llamaSettings]
  have hpos' := Nat.zero_lt_of_lt hp
  have hfirst : firstIn (st.ahead llamaSettings) st.seq.length x =
      some ((q + st.seq.length - p) % st.seq.length) := by
    refine firstIn_eq_some.2 ⟨Nat.mod_lt _ hpos', ?_, fun j hj => ?_⟩
    · rw [hahead, seqAt_eq_iff hnd hq, add_mod_eq_iff hp hqlt (Nat.mod_lt _ hpos')]
    · rw [hahead, Ne, seqAt_eq_iff hnd hq,
        add_mod_eq_iff hp hqlt (hj.trans (Nat.mod_lt _ hpos'))]
      omega
  rw [loDeclaredDist_eq rfl hseq, hfirst]
  simp [LoSettings.d0, llamaSettings]

theorem notifyPolicy_eq (st : LoDeclared) (hc : c < inv.nChunks) :
    notifyPolicy inv st c = loDeclaredOnAccess st c := by
  rw [notifyPolicy, if_neg (by omega)]

@[simp] theorem notifyPolicy_seq (st : LoDeclared) (c : ℕ) : (notifyPolicy inv st c).seq = st.seq := by
  unfold notifyPolicy
  split <;> simp

@[simp] theorem foldl_notifyPolicy_seq (cs : List ℕ) (st : LoDeclared) :
    (cs.foldl (notifyPolicy inv) st).seq = st.seq := by
  induction cs generalizing st with
  | nil => rfl
  | cons c cs ih => rw [List.foldl_cons, ih, notifyPolicy_seq]

/-- The notification leaves the cursor on the layer's last chunk, wherever it was. -/
theorem layerPolicy_pos {st : LoDeclared} (hinv : inv.Labelled) (hst : st.seq = inv.declaredSeq)
    {pre post : List ℕ} (hsplit : inv.declaredSeq = pre ++ inv.layerChunks L ++ post)
    (hne : inv.layerChunks L ≠ []) :
    (layerPolicy inv st L).seq = inv.declaredSeq ∧
      (layerPolicy inv st L).pos = ((pre.length + (inv.layerChunks L).length - 1 : ℕ) : ℤ) := by
  have hL : L < inv.nLayers := by
    obtain ⟨c, hc⟩ := List.exists_mem_of_ne_nil _ hne
    exact (mem_layerChunks_group hc).2
  rw [layerPolicy, layerSignals_eq hL]
  refine ⟨by rw [foldl_notifyPolicy_seq, hst], ?_⟩
  -- only the last signal matters
  obtain ⟨init, last, hlast⟩ := (List.eq_nil_or_concat (inv.layerChunks L)).resolve_left hne
  rw [List.concat_eq_append] at hlast
  have hlt : last < inv.nChunks := lt_nChunks_of_mem_layerChunks (by rw [hlast]; simp)
  have hslot : (init.foldl (notifyPolicy inv) st).seq[pre.length + init.length]? = some last := by
    rw [foldl_notifyPolicy_seq, hst, hsplit, hlast]
    simp
  rw [hlast, List.foldl_append, List.foldl_cons, List.foldl_nil, notifyPolicy_eq _ hlt,
    loDeclaredOnAccess_pos (by rw [foldl_notifyPolicy_seq, hst]; exact declaredSeq_nodup hinv) hslot]
  simp

theorem declaredSeq_length_le (hinv : inv.Labelled) : inv.declaredSeq.length ≤ inv.nChunks := by
  have hsub : inv.declaredSeq ⊆ List.range inv.nChunks := by
    intro c hc
    obtain ⟨g, hg⟩ := mem_declaredSeq_label hinv hc
    exact List.mem_range.2 (List.getElem?_eq_some_iff.1 hg).1
  simpa using ((declaredSeq_nodup hinv).subperm hsub).length_le

/-- Nearer chunks of the layer are spared by the victim scan: other declared chunks are
further, and undeclared ones are infinitely far. -/
theorem ProtectsLayer.of_nearer {st : LoDeclared}
    (hseq : (layerPolicy inv st L).seq = inv.declaredSeq)
    (hfinite : ∀ x ∈ inv.layerChunks L,
      loDeclaredDist llamaSettings (layerPolicy inv st L) x < INT64_MAX)
    (hnear : ∀ x ∈ inv.layerChunks L, ∀ y ∈ inv.declaredSeq, y ∉ inv.layerChunks L →
      loDeclaredDist llamaSettings (layerPolicy inv st L) x <
        loDeclaredDist llamaSettings (layerPolicy inv st L) y) : ProtectsLayer inv st L := by
  refine ⟨hnear, fun chunks v hv hvL y hy => ?_⟩
  by_contra hyL
  have hmax := (loDeclaredSelectVictim_some hv).2 y hy
  by_cases hyseq : y.1 ∈ inv.declaredSeq
  · exact absurd (hnear v.1 hvL y.1 hyseq hyL) (not_lt_of_ge hmax)
  · rw [loDeclaredDist_of_notMem rfl (by rwa [hseq])] at hmax
    exact absurd (hfinite v.1 hvL) (not_lt_of_ge hmax)

/-- A layer is protected right after its notification exactly when it is not split,
or when it makes up the whole declared sequence. -/
theorem protectsLayer_iff {fileSize : ℕ} {mem : Alloc} {srt : List TensorEnt}
    (hbuild : buildInventoryAndTable fileSize mem srt = some inv) (hn : inv.nChunks < 2 ^ 32)
    (hne : inv.layerChunks L ≠ []) (st : LoDeclared) (hst : st.seq = inv.declaredSeq) :
    ProtectsLayer inv st L ↔
      (inv.layerChunks L).length = 1 ∨ ∀ c ∈ inv.declaredSeq, c ∈ inv.layerChunks L := by
  have hinv := buildInventoryAndTable_labelled hbuild
  have hL : L < inv.nLayers := by
    obtain ⟨c, hc⟩ := List.exists_mem_of_ne_nil _ hne
    exact (mem_layerChunks_group hc).2
  have hl := List.length_pos_of_ne_nil hne
  obtain ⟨pre, post, hsplit⟩ := declaredSeq_split hL
  have hlen : inv.declaredSeq.length = pre.length + (inv.layerChunks L).length + post.length := by
    rw [hsplit, List.length_append, List.length_append]
  obtain ⟨hseq, hpos⟩ := layerPolicy_pos hinv hst hsplit hne
  have hcursor : pre.length + (inv.layerChunks L).length - 1 < inv.declaredSeq.length := by omega
  -- every declared chunk's distance is its slot's cyclic distance from the layer's last slot
  have hdist : ∀ q x, inv.declaredSeq[q]? = some x →
      loDeclaredDist llamaSettings (layerPolicy inv st L) x =
        ((if pre.length + (inv.layerChunks L).length - 1 ≤ q
          then q - (pre.length + (inv.layerChunks L).length - 1)
          else q + inv.declaredSeq.length - (pre.length + (inv.layerChunks L).length - 1) : ℕ) : ℤ) := by
    intro q x hq
    rw [loDeclaredDist_slot (p := pre.length + (inv.layerChunks L).length - 1) (q := q)
      (by rw [hseq]; exact declaredSeq_nodup hinv) (by rwa [hseq]) (by rwa [hseq]) hpos, hseq,
      cyclic_sub hcursor (List.getElem?_eq_some_iff.1 hq).1]
  have hin : ∀ x ∈ inv.layerChunks L, ∃ q, pre.length ≤ q ∧
      q < pre.length + (inv.layerChunks L).length ∧ inv.declaredSeq[q]? = some x := by
    intro x hx
    obtain ⟨i, hi, rfl⟩ := List.getElem_of_mem hx
    refine ⟨pre.length + i, by omega, by omega, ?_⟩
    rw [hsplit, List.append_assoc, List.getElem?_append_right (by omega), Nat.add_sub_cancel_left,
      List.getElem?_append_left hi, List.getElem?_eq_getElem hi]
  have hout : ∀ y ∈ inv.declaredSeq, y ∉ inv.layerChunks L → ∃ q, q < inv.declaredSeq.length ∧
      (q < pre.length ∨ pre.length + (inv.layerChunks L).length ≤ q) ∧
        inv.declaredSeq[q]? = some y := by
    intro y hy hyL
    obtain ⟨q, hq, rfl⟩ := List.getElem_of_mem hy
    refine ⟨q, hq, ?_, List.getElem?_eq_getElem hq⟩
    by_contra hmid
    apply hyL
    have hq' : q - pre.length < (inv.layerChunks L).length := by omega
    have hgo : inv.declaredSeq[q] = (inv.layerChunks L)[q - pre.length] := by
      simp only [hsplit]
      rw [List.getElem_append_left (by simp; omega), List.getElem_append_right (by omega)]
    rw [hgo]
    exact List.getElem_mem _
  constructor
  · intro h
    by_contra hcond
    push Not at hcond
    obtain ⟨hsplitL, y, hy, hyL⟩ := hcond
    -- the first of several chunks is a whole cycle minus the others away
    obtain ⟨q, hq, hqout, hqy⟩ := hout y hy hyL
    have hfirst : inv.declaredSeq[pre.length]? = some (inv.layerChunks L)[0] := by
      rw [hsplit, List.append_assoc, List.getElem?_append_right le_rfl, Nat.sub_self,
        List.getElem?_append_left hl, List.getElem?_eq_getElem hl]
    have hlt := h.nearer _ (List.getElem_mem hl) y hy hyL
    rw [hdist _ _ hfirst, hdist _ _ hqy] at hlt
    split_ifs at hlt <;> omega
  · intro hcond
    refine ProtectsLayer.of_nearer hseq (fun x hx => ?_) fun x hx y hy hyL => ?_
    · obtain ⟨q, -, hq, hqx⟩ := hin x hx
      have hle := declaredSeq_length_le hinv
      rw [hdist _ _ hqx, INT64_MAX]
      split_ifs <;> omega
    · have hone := hcond.resolve_right fun hall => hyL (hall y hy)
      obtain ⟨q, hq₁, hq₂, hqx⟩ := hin x hx
      obtain ⟨q', hq', hout', hqy⟩ := hout y hy hyL
      rw [hdist _ _ hqx, hdist _ _ hqy]
      split_ifs <;> omega

/-- Two layers, the first split around the second: the file holds the embedding, a
run of layer 0, layer 1, and a second run of layer 0, one page each. -/
def splitModel : List TensorEnt :=
  [tensorEnt 4096 "token_embd.weight".toList 0 4096,
    tensorEnt 4096 "blk.0.attn_q.weight".toList 4096 4096,
    tensorEnt 4096 "blk.1.attn_q.weight".toList 8192 4096,
    tensorEnt 4096 "blk.0.ffn_up.weight".toList 12288 4096]

def splitInventory : Inventory where
  nLayers := 2
  specs := [⟨0, 0, 4096, CHUNK_NONE⟩, ⟨4096, 4096, 4096, CHUNK_NONE⟩, ⟨8192, 8192, 4096, 0⟩,
    ⟨12288, 12288, 4096, 1⟩, ⟨16384, 16384, 4096, 0⟩]
  chunkGroup := [GRP_HEADER, GRP_EMBD, 0, 1, 0]
  chunkEmbd := some 1
  chunkOutput := some 1
  chunkOutnorm := some 1

/-- An allocator that runs out of nothing. -/
def Alloc.roomy : Alloc where
  bnd := fun _ => 0
  grp := fun _ => 0
  calloc count size := decide (count * size < 2 ^ 64)
  calloc_overflow _ _ h := decide_eq_false (Nat.not_lt.2 h)

theorem splitModel_build :
    buildInventoryAndTable 20480 Alloc.roomy splitModel = some splitInventory := by
  decide +kernel

theorem protectsLayer_iff_unsplit :
    ProtectsLayer splitInventory ⟨5, splitInventory.declaredSeq, -1, fun _ => CHUNK_NONE⟩ 1 ↔
      (splitInventory.layerChunks 1).length = 1 ∨
        ∀ c ∈ splitInventory.declaredSeq, c ∈ splitInventory.layerChunks 1 :=
  protectsLayer_iff splitModel_build (by decide) (by decide) _ rfl

/-- After layer 0 of the split model is notified, its first chunk is ranked behind
every chunk outside the layer, although both its chunks are about to be read. -/
theorem split_layer_not_protected :
    ¬ ∀ (fileSize : ℕ) (mem : Alloc) (srt : List TensorEnt) (inv : Inventory) (L : ℕ)
      (st : LoDeclared), buildInventoryAndTable fileSize mem srt = some inv → inv.nChunks < 2 ^ 32 →
      inv.layerChunks L ≠ [] → st.seq = inv.declaredSeq → ProtectsLayer inv st L := by
  intro h
  have hp := h 20480 Alloc.roomy splitModel splitInventory 0
    ⟨5, splitInventory.declaredSeq, -1, fun _ => CHUNK_NONE⟩ splitModel_build (by decide)
    (by decide) rfl
  have hlt := hp.nearer 2 (by decide) 3 (by decide) (by decide)
  revert hlt
  decide

end

end Residctl
