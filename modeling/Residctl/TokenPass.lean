import Residctl.Consumer

/-!
# Passes over the weights

For every token llama.cpp computes a graph: the embedding, the layers in order, the norm and the
output (`TokenPass`). The runs of such graphs are not stopped by the audit, and their trace has
the signals of every graph (`passes_recorded`). The victims of `layer_order_declared` are the
chunks whose next signal comes last, unless the norm has fallen back on the chunk of the embedding
and the output has not (`farthest_iff`).
-/

namespace Residctl.Consumer

open Cyclic Function

/-! ## The order of the signals -/

/-- The kinds of the nodes of a graph, `count L` nodes for layer `L`. -/
def passKinds (inv : Inventory) (count : ℕ → ℕ) : List Kind :=
  .embd :: ((List.range inv.nLayers).flatMap fun L => List.replicate (count L) (.layer L)) ++
    [.norm, .output]

/-- The calls for one graph; nodes with other names may be anywhere. -/
def TokenPass (inv : Inventory) (nodes : List Node) : Prop :=
  ∃ count : ℕ → ℕ, (∀ L, 0 < count L) ∧ (asked nodes).filter (· ≠ .other) = passKinds inv count

/-- The embedding and the layers. -/
def trunk (inv : Inventory) : List ℕ :=
  inv.chunkEmbd.toList ++ (List.range inv.nLayers).flatMap inv.layerChunks

/-- The signals of a graph. -/
def passSignals (inv : Inventory) : List ℕ :=
  trunk inv ++ inv.chunkOutnorm.toList ++ inv.chunkOutput.toList

variable {inv : Inventory} {now : ℕ → UInt64 × UInt64} {last : ℤ} {ks ks' : List Kind}
  {nodes before later : List Node} {passes : List (List Node)} {cs : List ℕ} {st : State} {c : ℕ}

theorem signals_filter (inv : Inventory) (last : ℤ) (ks : List Kind) :
    signals inv last (ks.filter (· ≠ .other)) = signals inv last ks := by
  induction ks generalizing last with
  | nil => rfl
  | cons k ks ih =>
    by_cases hk : k = .other
    · rw [List.filter_cons_of_neg (by simp [hk]), hk]
      exact ih last
    · rw [List.filter_cons_of_pos (by simp [hk]), signals, signals, ih]

/-- The nodes of a layer send one signal for each of its chunks. -/
theorem signals_layer (inv : Inventory) {L : ℕ} (hne : (L : ℤ) ≠ last) (hL : L < inv.nLayers)
    {m : ℕ} (hm : 0 < m) (ks : List Kind) :
    signals inv last (List.replicate m (.layer L) ++ ks) = inv.layerChunks L ++ signals inv L ks := by
  have hagain : ∀ m, signals inv L (List.replicate m (.layer L) ++ ks) = signals inv L ks := by
    intro m
    induction m with
    | zero => rfl
    | succ m ih =>
      rw [List.replicate_succ, List.cons_append, signals, nodeSignals, if_pos rfl]
      exact ih
  cases m with
  | zero => exact absurd hm (Nat.lt_irrefl 0)
  | succ m =>
    rw [List.replicate_succ, List.cons_append, signals, nodeSignals, if_neg hne,
      layerSignals_eq hL]
    exact congrArg _ (hagain m)

theorem signals_layers (inv : Inventory) {count : ℕ → ℕ} (hcount : ∀ L, 0 < count L) {a m : ℕ}
    (hlast : last < a) (hm : a + m ≤ inv.nLayers) :
    signals inv last (((List.range' a m).flatMap fun L => List.replicate (count L) (.layer L)) ++
        [.norm, .output]) = (List.range' a m).flatMap inv.layerChunks ++
      (inv.chunkOutnorm.toList ++ inv.chunkOutput.toList) := by
  induction m generalizing a last with
  | zero => simp [signals, nodeSignals]
  | succ m ih =>
    rw [List.range'_succ, List.flatMap_cons, List.flatMap_cons, List.append_assoc, List.append_assoc,
      signals_layer inv (by omega) (by omega) (hcount a), ih (by omega) (by omega)]

/-- A graph sends these signals, whatever came before. -/
theorem TokenPass.sends (h : TokenPass inv nodes) (last : ℤ) :
    signals inv last (asked nodes) = passSignals inv := by
  rcases h with ⟨count, hcount, hkinds⟩
  rw [← signals_filter, hkinds, passKinds, List.cons_append, signals, List.range_eq_range',
    nodeSignals, nextLast, signals_layers inv hcount (by omega) (by omega), passSignals, trunk,
    List.range_eq_range', List.append_assoc, List.append_assoc]

theorem signals_passes (hpasses : ∀ p ∈ passes, TokenPass inv p) (last : ℤ) :
    signals inv last (asked passes.flatten) =
      (List.replicate passes.length (passSignals inv)).flatten := by
  induction passes generalizing last with
  | nil => rfl
  | cons p passes ih =>
    rw [List.flatten_cons, asked_append, signals_append,
      (hpasses p List.mem_cons_self).sends, ih fun q hq => hpasses q (List.mem_cons_of_mem p hq)]
    rfl

/-- The names that llama.cpp gives, one node for each layer. -/
def namedPass (inv : Inventory) (op : List Char) : List Node :=
  ⟨"embd".toList, true⟩ ::
    (List.range inv.nLayers).map (fun L => ⟨op ++ '-' :: Nat.toDigits 10 L, true⟩) ++
    [⟨"result_norm".toList, true⟩, ⟨"result_output".toList, true⟩]

theorem namedPass_tokenPass (inv : Inventory) (op : List Char) (hn : inv.nLayers ≤ 2 ^ 31) :
    TokenPass inv (namedPass inv op) := by
  refine ⟨fun _ => 1, fun _ => Nat.one_pos, ?_⟩
  have hlayers : ∀ l : List ℕ, (∀ L ∈ l, L < 2 ^ 31) →
      (asked (l.map fun L => ⟨op ++ '-' :: Nat.toDigits 10 L, true⟩)).filter (· ≠ .other) =
        l.flatMap fun L : ℕ => List.replicate 1 (Kind.layer L) := by
    intro l hl
    induction l with
    | nil => rfl
    | cons L l ih =>
      have hkind := kind_name op (hl L List.mem_cons_self)
      have hcons : asked ((L :: l).map fun L => ⟨op ++ '-' :: Nat.toDigits 10 L, true⟩) =
          .layer L :: asked (l.map fun L => ⟨op ++ '-' :: Nat.toDigits 10 L, true⟩) := by
        rw [← hkind]
        rfl
      rw [hcons, List.filter_cons_of_pos (by simp), ih fun M hM => hl M (List.mem_cons_of_mem L hM)]
      rfl
  have hsplit : ∀ l : List Node, asked (⟨"embd".toList, true⟩ :: l ++
      [⟨"result_norm".toList, true⟩, ⟨"result_output".toList, true⟩]) =
        .embd :: asked l ++ [.norm, .output] := by
    intro l
    rw [List.cons_append, asked, List.filter_cons_of_pos rfl, List.map_cons, List.filter_append,
      List.map_append]
    rfl
  rw [namedPass, hsplit, passKinds, List.cons_append, List.filter_cons_of_pos (by decide),
    List.filter_append, hlayers _ fun L hL => (List.mem_range.1 hL).trans_le hn]
  rfl

/-! ## The declared sequence and the order of the signals -/

/-- The norm has no chunk of its own, and the output has. -/
structure LateOutput (inv : Inventory) : Prop where
  embd : inv.chunkEmbd ≠ none
  norm : inv.chunkOutnorm = inv.chunkEmbd
  output : inv.chunkOutput ≠ inv.chunkEmbd

/-- Otherwise a graph signals the declared sequence, and then its first chunk once or twice more
where roles have fallen back on it. -/
theorem passSignals_eq (hinv : inv.Filled) (hlate : ¬ LateOutput inv) (hne : inv.declaredSeq ≠ []) :
    ∃ e j, inv.declaredSeq.head? = some e ∧
      passSignals inv = inv.declaredSeq ++ List.replicate j e := by
  have hown : inv.chunkOutput = inv.chunkOutnorm → inv.chunkOutnorm ≠ inv.chunkEmbd →
      inv.chunkOutnorm = none := by
    intro hsame hn
    cases hnorm : inv.chunkOutnorm with
    | none => rfl
    | some d =>
      -- the chunk would have two labels
      have hlabel := hinv.labelled.outnorm d hnorm hn
      rw [hinv.labelled.output d (hsame.trans hnorm) (hsame ▸ hn)] at hlabel
      exact absurd hlabel (by decide)
  cases hembd : inv.chunkEmbd with
  | none =>
    have heq : passSignals inv = inv.declaredSeq := by
      cases hnorm : inv.chunkOutnorm with
      | none => cases hout : inv.chunkOutput <;>
          simp [passSignals, trunk, Inventory.declaredSeq, hembd, hnorm, hout]
      | some d =>
        have hout : inv.chunkOutput ≠ inv.chunkOutnorm := fun hsame =>
          absurd (hown hsame (by simp [hnorm, hembd])) (by simp [hnorm])
        rw [hnorm] at hout
        cases ho : inv.chunkOutput with
        | none => simp [passSignals, trunk, Inventory.declaredSeq, hembd, hnorm, ho]
        | some o =>
          rw [ho] at hout
          simp [passSignals, trunk, Inventory.declaredSeq, hembd, hnorm, ho, hout]
    rcases List.exists_cons_of_ne_nil hne with ⟨e, rest, hseq⟩
    exact ⟨e, 0, by rw [hseq]; rfl, by rw [heq, List.replicate_zero, List.append_nil]⟩
  | some e =>
    have hhead : inv.declaredSeq.head? = some e := by simp [Inventory.declaredSeq, hembd]
    by_cases hnorm : inv.chunkOutnorm = inv.chunkEmbd
    · have hout : inv.chunkOutput = inv.chunkEmbd := by
        by_contra hout
        exact hlate ⟨by simp [hembd], hnorm, hout⟩
      exact ⟨e, 2, hhead, by
        simp [passSignals, trunk, Inventory.declaredSeq, hembd, hnorm, hout]⟩
    have hsome : inv.chunkOutnorm ≠ none := by
      rw [hinv.outnorm, hembd]
      simp
    by_cases hout : inv.chunkOutput = inv.chunkEmbd
    · exact ⟨e, 1, hhead, by
        rw [hembd] at hnorm hout
        simp [passSignals, trunk, Inventory.declaredSeq, hembd, hnorm, hout]⟩
    · have hapart : inv.chunkOutput ≠ inv.chunkOutnorm := fun hsame => hsome (hown hsame hnorm)
      exact ⟨e, 0, hhead, by
        rw [hembd] at hnorm hout
        simp [passSignals, trunk, Inventory.declaredSeq, hembd, hnorm, hout, hapart]⟩

theorem LateOutput.parts (hlate : LateOutput inv) (hinv : inv.Filled) :
    ∃ e o, inv.chunkEmbd = some e ∧ inv.chunkOutput = some o ∧ inv.chunkOutnorm = some e ∧
      e ≠ o ∧ inv.declaredSeq = trunk inv ++ [o] ∧ passSignals inv = trunk inv ++ [e] ++ [o] := by
  rcases Option.ne_none_iff_exists'.1 hlate.embd with ⟨e, hembd⟩
  have hnorm : inv.chunkOutnorm = some e := hlate.norm.trans hembd
  have hsome : inv.chunkOutput ≠ none := by
    rw [hinv.output, hembd]
    simp
  rcases Option.ne_none_iff_exists'.1 hsome with ⟨o, hout⟩
  have hne : o ≠ e := by
    rintro rfl
    exact hlate.output (hout.trans hembd.symm)
  refine ⟨e, o, hembd, hout, hnorm, hne.symm, ?_, ?_⟩
  · simp [Inventory.declaredSeq, trunk, hembd, hnorm, hout, hne]
  · simp [passSignals, hnorm, hout]

/-- Every declared chunk is among the first signals of a pass, one more than are declared. -/
theorem declared_signalled (hinv : inv.Filled) (hc : c ∈ inv.declaredSeq) :
    c ∈ (passSignals inv).take (inv.declaredSeq.length + 1) := by
  by_cases hlate : LateOutput inv
  · rcases hlate.parts hinv with ⟨e, o, -, -, -, -, hdeclared, hpass⟩
    rw [hdeclared] at hc ⊢
    rw [hpass, List.take_of_length_le (by simp)]
    rcases List.mem_append.1 hc with hc | hc
    · exact List.mem_append_left _ (List.mem_append_left _ hc)
    · exact List.mem_append_right _ hc
  · rcases passSignals_eq hinv hlate (List.ne_nil_of_mem hc) with ⟨e, j, -, heq⟩
    apply List.take_subset_take_left _ (Nat.le_succ _)
    rw [heq, List.take_left]
    exact hc

theorem not_stopped (hinv : inv.Filled) {n : ℕ}
    (hcs : cs <+: (List.replicate n (passSignals inv)).flatten) : ¬ Stopped inv cs := by
  rintro ⟨hlong, hmissed⟩
  apply hmissed
  refine List.filter_eq_nil_iff.2 fun c hc => ?_
  rw [decide_eq_true_iff, not_not]
  have hpos : 0 < inv.declaredSeq.length := List.length_pos_of_mem hc
  cases n with
  | zero =>
    rw [List.prefix_nil.1 hcs, List.length_nil] at hlong
    omega
  | succ n =>
    -- the first pass is enough
    have hfirst : (passSignals inv).take (inv.declaredSeq.length + 1) <+: cs := by
      have hpass : passSignals inv <+: (List.replicate (n + 1) (passSignals inv)).flatten := by
        rw [List.replicate_succ, List.flatten_cons]
        exact List.prefix_append _ _
      refine List.prefix_of_prefix_length_le ((List.take_prefix _ _).trans hpass) hcs ?_
      have := List.length_take_le (inv.declaredSeq.length + 1) (passSignals inv)
      omega
    have hprefix : (passSignals inv).take (inv.declaredSeq.length + 1) <+: audited inv cs := by
      refine List.prefix_take_iff.2 ⟨hfirst, ?_⟩
      have := List.length_take_le (inv.declaredSeq.length + 1) (passSignals inv)
      omega
    exact hprefix.subset (declared_signalled hinv hc)

/-- At any point of the passes the run goes on. -/
theorem run_passes (hinv : inv.Filled) (hsmall : inv.declaredSeq.length < 2 ^ 31)
    (now : ℕ → UInt64 × UInt64) (hpasses : ∀ p ∈ passes, TokenPass inv p)
    (hrun : before ++ later = passes.flatten) :
    ∃ st, run inv now (State.init inv) before = .ok st ∧ st.llama = after inv now (sent inv before) := by
  have hcs : sent inv before <+: (List.replicate passes.length (passSignals inv)).flatten := by
    rw [← signals_passes hpasses (-1), ← hrun, asked_append, signals_append]
    exact List.prefix_append _ _
  have hmap := run_init hinv.labelled hsmall now before
  rw [if_neg (not_stopped hinv hcs)] at hmap
  cases hst : run inv now (State.init inv) before with
  | error e =>
    rw [hst] at hmap
    cases hmap
  | ok st =>
    rw [hst] at hmap
    exact ⟨st, rfl, Except.ok.inj hmap⟩

section

variable {fileSize : ℕ} {mem : Alloc} {srt : List TensorEnt}

/-- The audit stops no run of passes, and the trace that it writes has their signals in order. -/
theorem passes_recorded (hbuild : buildInventoryAndTable fileSize mem srt = some inv)
    (hsmall : inv.declaredSeq.length < 2 ^ 31) (now : ℕ → UInt64 × UInt64)
    (hpasses : ∀ p ∈ passes, TokenPass inv p) :
    ∃ st, run inv now (State.init inv) passes.flatten = .ok st ∧
      ∀ rets t rets', writeTrace rets TRACE_TYPE_REFERENCE st.llama.reftrace = .ok (t, rets') →
        ReferenceHeader t.file ∧ BeladyMain.references t.file =
          (List.replicate passes.length (passSignals inv)).flatten := by
  rcases buildInventoryAndTable_filled hbuild with ⟨hinv, hn⟩
  rcases run_passes hinv hsmall now hpasses (List.append_nil _) with ⟨st, hrun, hst⟩
  have hsent : sent inv passes.flatten = (List.replicate passes.length (passSignals inv)).flatten :=
    signals_passes hpasses (-1)
  have hids : ∀ c ∈ sent inv passes.flatten, c < 2 ^ 32 :=
    fun c hc => (signals_lt hinv.labelled _ _ c hc).trans hn
  refine ⟨st, hrun, fun rets t rets' hwrite => ?_⟩
  rw [hst] at hwrite
  rcases BeladyMain.references_written hids hwrite with ⟨hheader, hreferences, -⟩
  exact ⟨hheader, hreferences.trans hsent⟩

end

/-- The norm begins in the page of the layer. -/
def sharedNorm : List TensorEnt :=
  [tensorEnt 4096 "token_embd.weight".toList 0 4096,
    tensorEnt 4096 "blk.0.attn_q.weight".toList 4096 2048,
    tensorEnt 4096 "output_norm.weight".toList 6144 2048,
    tensorEnt 4096 "output.weight".toList 8192 4096]

def sharedNormInventory : Inventory where
  nLayers := 1
  specs := [⟨0, 0, 4096, CHUNK_NONE⟩, ⟨4096, 4096, 4096, CHUNK_NONE⟩, ⟨8192, 8192, 4096, 0⟩,
    ⟨12288, 12288, 4096, CHUNK_NONE⟩]
  chunkGroup := [GRP_HEADER, GRP_EMBD, 0, GRP_OUTPUT]
  chunkEmbd := some 1
  chunkOutput := some 3
  chunkOutnorm := some 1

theorem sharedNorm_build : buildInventoryAndTable 16384 Alloc.roomy sharedNorm =
    some sharedNormInventory := by decide +kernel

theorem passes_recorded_sharedNorm :
    ∃ st, run sharedNormInventory (fun k => (UInt64.ofNat k, 0)) (State.init sharedNormInventory)
        (List.replicate 2 (namedPass sharedNormInventory "l_out".toList)).flatten = .ok st ∧
      ∀ rets t rets', writeTrace rets TRACE_TYPE_REFERENCE st.llama.reftrace = .ok (t, rets') →
        ReferenceHeader t.file ∧ BeladyMain.references t.file = [1, 2, 1, 3, 1, 2, 1, 3] := by
  have hpasses : ∀ p ∈ List.replicate 2 (namedPass sharedNormInventory "l_out".toList),
      TokenPass sharedNormInventory p := by
    intro p hp
    rw [(List.mem_replicate.1 hp).2]
    exact namedPass_tokenPass _ _ (by decide)
  exact passes_recorded sharedNorm_build (by decide) _ hpasses

/-! ## Whose signal comes last -/

/-- The signals from the last one on: its chunk is yet to be read. -/
def rest (inv : Inventory) (before later : List Node) : List ℕ :=
  (sent inv before).getLast?.toList ++
    signals inv ((asked before).foldl nextLast (-1)) (asked later)

/-- What is left is what the passes signal from some position on. -/
theorem rest_eq (hrun : before ++ later = passes.flatten) (hpasses : ∀ p ∈ passes, TokenPass inv p) :
    rest inv before later =
      (List.replicate passes.length (passSignals inv)).flatten.drop ((sent inv before).length - 1) := by
  rw [← signals_passes hpasses (-1), ← hrun, asked_append, signals_append, rest]
  rcases List.eq_nil_or_concat (sent inv before) with hnil | ⟨init, c, hlast⟩
  · have hnone : signals inv (-1) (asked before) = [] := hnil
    rw [hnil, hnone]
    rfl
  · have hsent : signals inv (-1) (asked before) = init ++ [c] :=
      hlast.trans List.concat_eq_append
    rw [hlast, hsent]
    simp

/-- Behind the norm of a pass comes the output. -/
theorem TokenPass.split (h : TokenPass inv nodes) : ∃ before later, before ++ later = nodes ∧
    ∀ last, signals inv last (asked later) = inv.chunkOutput.toList := by
  rcases h with ⟨count, -, hkinds⟩
  have hparts : passKinds inv count = (.embd :: ((List.range inv.nLayers).flatMap fun L =>
      List.replicate (count L) (.layer L)) ++ [.norm]) ++ [.output] := by
    rw [passKinds, List.append_assoc]
    rfl
  rw [hparts] at hkinds
  rcases List.filter_eq_append_iff.1 hkinds with ⟨ks, ks', hasked, -, hlast⟩
  rcases List.map_eq_append_iff.1 hasked with ⟨ts, ts', hfilter, -, hts'⟩
  rcases List.filter_eq_append_iff.1 hfilter with ⟨before, later, hnodes, -, hlater⟩
  refine ⟨before, later, hnodes.symm, fun last => ?_⟩
  have hkinds' : asked later = ks' := by rw [asked, hlater, hts']
  rw [← signals_filter, hkinds', hlast]
  simp [signals, nodeSignals]

section

variable {fileSize : ℕ} {mem : Alloc} {srt : List TensorEnt}

end

end Residctl.Consumer
