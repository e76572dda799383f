import Mathlib.Data.List.DropRight
import Residctl.BeladyMain
import Residctl.Inventory

/-!
# The consumption signals of a real model

`wp2_gen.cpp`: the callback that llama.cpp calls for every node of a compute graph, and what it
sets off in `residctl_llama.c`: the signals of a layer or of a role, the audit of the signals,
the reference trace. The policy is `layer_order_declared`.

llama.cpp is not part of the repository. What its graphs are is the hypothesis `TokenPass`.
Under it no run is aborted by the audit (`passes_recorded`), and the policy evicts what is read
last, unless the norm has fallen back to the chunk of the embedding and the output has not
(`farthest_iff`).
-/

namespace Residctl.Consumer

open Cyclic Function

/-! ## The names of nodes -/

/-- `atoi` of a string of digits: the `long` of `strtol`, cut to an `int`. -/
def atoi (digits : List Char) : ℤ :=
  toInt32 (min (Nat.ofDigitChars 10 digits 0) (2 ^ 63 - 1) % 2 ^ 32)

/-- `node_layer`: the number behind the last `-`, or -1. -/
def nodeLayer (nm : List Char) : ℤ :=
  if nm.length < 2 then -1
  else
    let digits := nm.rtakeWhile Char.isDigit
    let before := nm.rdropWhile Char.isDigit
    if digits = [] ∨ before = [] ∨ before.getLast? ≠ some '-' then -1 else atoi digits

/-- What the callback takes a node for. -/
inductive Kind
  | layer (layer : ℤ)
  | embd
  | norm
  | output
  | other
deriving DecidableEq, Repr

def kind (nm : List Char) : Kind :=
  if nodeLayer nm ≥ 0 then .layer (nodeLayer nm)
  else if nm = "inp_embd".toList ∨ nm = "embd".toList then .embd
  else if nm = "result_norm".toList then .norm
  else if nm = "result_output".toList then .output
  else .other

/-! ## The signals -/

/-- `chunk_group_label`. -/
def chunkGroupLabel (gc : ℤ) : String :=
  if gc ≥ 0 then "L" ++ toString gc
  else if gc = GRP_HEADER then "header"
  else if gc = GRP_EMBD then "token_embd"
  else if gc = GRP_OUTPUT then "output"
  else if gc = GRP_OUTNORM then "output_norm"
  else "other"

/-- What the audit prints before it aborts: the chunks without a signal, and the number of
signals. -/
structure Abort where
  missing : List (ℕ × String)
  notifies : ℕ
deriving DecidableEq, Repr

/-- The state of `residctl_llama.c` that signals change. -/
structure Llama where
  policy : LoDeclared
  notifySeq : ℕ
  chunkNotifyCount : ℕ → ℕ
  auditDone : Bool
  /-- the calls of `trace_record` -/
  reftrace : List TraceCall

/-- After `residctl_llama_mmap`, with a policy that takes a declared sequence. -/
def Llama.started (inv : Inventory) : Llama where
  policy := loDeclaredDeclareSequence (loDeclaredInit inv.nChunks) inv.declaredSeq
  notifySeq := 0
  chunkNotifyCount := fun _ => 0
  auditDone := false
  reftrace := []

/-- The declared chunks that the audit finds without a signal. -/
def Llama.missing (inv : Inventory) (s : Llama) : List ℕ :=
  inv.declaredSeq.filter fun c => c < inv.nChunks ∧ s.chunkNotifyCount c = 0

/-- `notify_audit_maybe`. -/
def notifyAuditMaybe (inv : Inventory) (s : Llama) : Except Abort Llama :=
  if s.auditDone = true ∨ inv.declaredSeq.length = 0 then .ok s
  else if s.notifySeq < inv.declaredSeq.length * 2 then .ok s
  else if s.missing inv = [] then .ok { s with auditDone := true }
  else .error
    { missing := (s.missing inv).map fun c => (c, chunkGroupLabel (inv.chunkGroup.getD c 0))
      notifies := s.notifySeq }

/-- `notify_chunk`; `now` is what `clock_gettime` reads at each record. -/
def notifyChunk (inv : Inventory) (now : ℕ → UInt64 × UInt64) (s : Llama) (c : ℕ) :
    Except Abort Llama :=
  if c ≥ inv.nChunks then .ok s
  else notifyAuditMaybe inv
    { s with
      policy := notifyPolicy inv s.policy c
      notifySeq := (s.notifySeq + 1) % 2 ^ 64
      chunkNotifyCount := update s.chunkNotifyCount c ((s.chunkNotifyCount c + 1) % 2 ^ 32)
      reftrace := s.reftrace ++
        [{ seq := UInt64.ofNat ((s.notifySeq + 1) % 2 ^ 64)
           chunkId := UInt32.ofNat c
           faultType := TRACE_NA
           wasPrefetched := TRACE_NA
           tvSec := (now s.reftrace.length).1
           tvNsec := (now s.reftrace.length).2 }] }

/-- `residctl_llama_notify_layer`. -/
def notifyLayer (inv : Inventory) (now : ℕ → UInt64 × UInt64) (s : Llama) (layer : ℤ) :
    Except Abort Llama :=
  (layerSignals inv layer).foldlM (notifyChunk inv now) s

/-- `residctl_llama_notify_role`, given the chunk of the role. -/
def notifyRole (inv : Inventory) (now : ℕ → UInt64 × UInt64) (s : Llama) (c : Option ℕ) :
    Except Abort Llama :=
  match c with
  | none => .ok s
  | some c => notifyChunk inv now s c

/-! ## The callback -/

/-- `cb_state`, and the state behind the calls. -/
structure State where
  lastLayer : ℤ
  transitions : ℕ
  llama : Llama

def State.init (inv : Inventory) : State := ⟨-1, 0, Llama.started inv⟩

/-- A call of the callback: the name of the node, and whether it is still to be computed. -/
structure Node where
  name : List Char
  ask : Bool
deriving DecidableEq, Repr

/-- `eval_cb`. -/
def evalCb (inv : Inventory) (now : ℕ → UInt64 × UInt64) (st : State) (t : Node) :
    Except Abort State :=
  if t.ask = false then .ok st
  else
    match kind t.name with
    | .layer layer =>
      if layer ≠ st.lastLayer then do
        let llama ← notifyLayer inv now st.llama layer
        return ⟨layer, st.transitions + 1, llama⟩
      else .ok st
    | .embd => do
      let llama ← notifyRole inv now st.llama inv.chunkEmbd
      return { st with lastLayer := -1, llama := llama }
    | .norm => do
      let llama ← notifyRole inv now st.llama inv.chunkOutnorm
      return { st with llama := llama }
    | .output => do
      let llama ← notifyRole inv now st.llama inv.chunkOutput
      return { st with llama := llama }
    | .other => .ok st

/-- The calls of a run, in order. -/
def run (inv : Inventory) (now : ℕ → UInt64 × UInt64) (st : State) (nodes : List Node) :
    Except Abort State :=
  nodes.foldlM (evalCb inv now) st

/-! ## Names come back -/

theorem nodeLayer_name (op : List Char) {L : ℕ} (hL : L < 2 ^ 31) :
    nodeLayer (op ++ '-' :: Nat.toDigits 10 L) = L := by
  have hdigits : ∀ c ∈ (Nat.toDigits 10 L).reverse, Char.isDigit c = true := by
    intro c hc
    exact Nat.isDigit_of_mem_toDigits (by decide) (by decide) (List.mem_reverse.1 hc)
  have hne : Nat.toDigits 10 L ≠ [] := Nat.toDigits_ne_nil
  have hreverse : (op ++ '-' :: Nat.toDigits 10 L).reverse =
      (Nat.toDigits 10 L).reverse ++ '-' :: op.reverse := by simp
  have htake : (op ++ '-' :: Nat.toDigits 10 L).rtakeWhile Char.isDigit = Nat.toDigits 10 L := by
    rw [List.rtakeWhile, hreverse, List.takeWhile_append_of_pos hdigits,
      List.takeWhile_cons_of_neg (by decide), List.append_nil, List.reverse_reverse]
  have hdrop : (op ++ '-' :: Nat.toDigits 10 L).rdropWhile Char.isDigit = op ++ ['-'] := by
    rw [List.rdropWhile, hreverse, List.dropWhile_append_of_pos hdigits,
      List.dropWhile_cons_of_neg (by decide)]
    simp
  have hlen : ¬ (op ++ '-' :: Nat.toDigits 10 L).length < 2 := by
    have hpos := List.length_pos_of_ne_nil hne
    simp only [List.length_append, List.length_cons]
    omega
  have hatoi : atoi (Nat.toDigits 10 L) = L := by
    have hsmall : min L (2 ^ 63 - 1) % 2 ^ 32 = L := by omega
    rw [atoi, Nat.ofDigitChars_ten_toDigits, hsmall, toInt32_of_lt hL]
  rw [nodeLayer, if_neg hlen, htake, hdrop, if_neg (by simp [hne])]
  exact hatoi

/-- The name that llama.cpp gives to the node `op` of layer `L` is taken for layer `L`. -/
theorem kind_name (op : List Char) {L : ℕ} (hL : L < 2 ^ 31) :
    kind (op ++ '-' :: Nat.toDigits 10 L) = .layer L := by
  rw [kind, nodeLayer_name op hL, if_pos (Int.natCast_nonneg L)]

/-! ## What a run signals -/

/-- The kinds of the nodes that are still to be computed. -/
def asked (nodes : List Node) : List Kind := (nodes.filter Node.ask).map fun t => kind t.name

def nodeSignals (inv : Inventory) (last : ℤ) : Kind → List ℕ
  | .layer layer =>
    if layer = last then [] else layerSignals inv layer
  | .embd => inv.chunkEmbd.toList
  | .norm => inv.chunkOutnorm.toList
  | .output => inv.chunkOutput.toList
  | .other => []

def nextLast (last : ℤ) : Kind → ℤ
  | .layer layer => layer
  | .embd => -1
  | _ => last

/-- The chunks that a run signals, in order; `last` is the layer of the last node. -/
def signals (inv : Inventory) : ℤ → List Kind → List ℕ
  | _, [] => []
  | last, k :: ks => nodeSignals inv last k ++ signals inv (nextLast last k) ks

def notifyAll (inv : Inventory) (now : ℕ → UInt64 × UInt64) (s : Llama) (cs : List ℕ) :
    Except Abort Llama :=
  cs.foldlM (notifyChunk inv now) s

variable {inv : Inventory} {now : ℕ → UInt64 × UInt64} {st : State} {t : Node} {L c : ℕ}
  {cs : List ℕ} {last : ℤ} {ks ks' : List Kind} {nodes nodes' : List Node} {s : Llama}

theorem notifyAll_append (inv : Inventory) (now : ℕ → UInt64 × UInt64) (s : Llama)
    (cs cs' : List ℕ) : notifyAll inv now s (cs ++ cs') =
      (notifyAll inv now s cs).bind fun s => notifyAll inv now s cs' :=
  List.foldlM_append

theorem notifyAuditMaybe_policy {s' : Llama} (h : notifyAuditMaybe inv s = .ok s') :
    s'.policy = s.policy := by
  unfold notifyAuditMaybe at h
  split_ifs at h <;> cases h <;> rfl

theorem notifyChunk_policy {s' : Llama} (h : notifyChunk inv now s c = .ok s') :
    s'.policy = notifyPolicy inv s.policy c := by
  unfold notifyChunk at h
  split at h
  · rename_i hc
    cases h
    rw [notifyPolicy, if_pos hc]
  · exact notifyAuditMaybe_policy h

/-- The policy after the signals of a layer is `layerPolicy`. -/
theorem notifyLayer_policy {s' : Llama} {layer : ℤ} (h : notifyLayer inv now s layer = .ok s') :
    s'.policy = layerPolicy inv s.policy layer := by
  unfold notifyLayer at h
  rw [layerPolicy]
  generalize layerSignals inv layer = cs at h ⊢
  induction cs generalizing s with
  | nil =>
    cases h
    rfl
  | cons c cs ih =>
    rw [List.foldlM_cons] at h
    cases hone : notifyChunk inv now s c with
    | error e =>
      rw [hone] at h
      cases h
    | ok t =>
      rw [hone] at h
      rw [List.foldl_cons, ← notifyChunk_policy hone]
      exact ih h

theorem notifyRole_eq (role : Option ℕ) :
    notifyRole inv now s role = notifyAll inv now s role.toList := by
  cases role with
  | none => rfl
  | some c =>
    show notifyChunk inv now s c = (notifyChunk inv now s c).bind fun s => .ok s
    cases notifyChunk inv now s c <;> rfl

/-- The state of the callback after a node. -/
def next (st : State) (k : Kind) (llama : Llama) : State where
  lastLayer := nextLast st.lastLayer k
  transitions :=
    match k with
    | .layer layer => if layer ≠ st.lastLayer then st.transitions + 1 else st.transitions
    | _ => st.transitions
  llama := llama

/-- A node that is still to be computed sends its signals. -/
theorem evalCb_eq (ht : t.ask = true) :
    evalCb inv now st t = (notifyAll inv now st.llama
      (nodeSignals inv st.lastLayer (kind t.name))).map (next st (kind t.name)) := by
  rw [evalCb, if_neg (by simp [ht])]
  cases hk : kind t.name with
  | layer layer =>
    by_cases hsame : layer = st.lastLayer
    · have hnext : next st (.layer layer) st.llama = st := by simp [next, nextLast, hsame]
      have hnone : nodeSignals inv st.lastLayer (.layer layer) = [] := if_pos hsame
      rw [hnone]
      show (if layer ≠ st.lastLayer then _ else Except.ok st) = _
      rw [if_neg (not_not.2 hsame)]
      exact congrArg Except.ok hnext.symm
    · have hnext : next st (.layer layer) = fun llama => ⟨layer, st.transitions + 1, llama⟩ := by
        funext llama
        simp [next, nextLast, hsame]
      have hsignals : notifyLayer inv now st.llama layer =
          notifyAll inv now st.llama (nodeSignals inv st.lastLayer (.layer layer)) := by
        rw [notifyLayer, nodeSignals, if_neg hsame]
        rfl
      rw [hnext, ← hsignals]
      show (if layer ≠ st.lastLayer then _ else Except.ok st) = _
      rw [if_pos hsame]
      rfl
  | embd => simp only [notifyRole_eq]; rfl
  | norm => simp only [notifyRole_eq]; rfl
  | output => simp only [notifyRole_eq]; rfl
  | other => rfl

/-- A run sends the signals of its nodes, one after the other. -/
theorem run_llama (inv : Inventory) (now : ℕ → UInt64 × UInt64) (nodes : List Node) (st : State) :
    (run inv now st nodes).map State.llama =
      notifyAll inv now st.llama (signals inv st.lastLayer (asked nodes)) := by
  induction nodes generalizing st with
  | nil => rfl
  | cons t nodes ih =>
    cases ht : t.ask with
    | false =>
      have hskip : evalCb inv now st t = .ok st := if_pos ht
      rw [run, List.foldlM_cons, hskip, asked, List.filter_cons_of_neg (by simp [ht])]
      exact ih st
    | true =>
      have hasked : asked (t :: nodes) = kind t.name :: asked nodes := by
        rw [asked, List.filter_cons_of_pos (by simp [ht])]
        rfl
      rw [run, List.foldlM_cons, evalCb_eq ht, hasked, signals, notifyAll_append]
      cases notifyAll inv now st.llama (nodeSignals inv st.lastLayer (kind t.name)) with
      | error e => rfl
      | ok llama => exact ih (next st (kind t.name) llama)

theorem signals_append (inv : Inventory) (last : ℤ) (ks ks' : List Kind) :
    signals inv last (ks ++ ks') =
      signals inv last ks ++ signals inv (ks.foldl nextLast last) ks' := by
  induction ks generalizing last with
  | nil => rfl
  | cons k ks ih => rw [List.cons_append, signals, signals, ih, List.append_assoc, List.foldl_cons]

theorem asked_append : asked (nodes ++ nodes') = asked nodes ++ asked nodes' := by
  rw [asked, List.filter_append, List.map_append]
  rfl

/-- The chunk of a role, or the embedding's in its place, is one of the chunks. -/
theorem role_lt (hinv : inv.Labelled) :
    (∀ c, inv.chunkEmbd = some c → c < inv.nChunks) ∧
      (∀ c, inv.chunkOutnorm = some c → c < inv.nChunks) ∧
      ∀ c, inv.chunkOutput = some c → c < inv.nChunks := by
  have hlabel : ∀ {c : ℕ} {g : ℤ}, inv.chunkGroup[c]? = some g → c < inv.nChunks :=
    fun h => (List.getElem?_eq_some_iff.1 h).1
  have hembd : ∀ c, inv.chunkEmbd = some c → c < inv.nChunks :=
    fun c hc => hlabel (hinv.embd c hc)
  refine ⟨hembd, fun c hc => ?_, fun c hc => ?_⟩
  · by_cases htied : inv.chunkOutnorm = inv.chunkEmbd
    · exact hembd c (htied ▸ hc)
    · exact hlabel (hinv.outnorm c hc htied)
  · by_cases htied : inv.chunkOutput = inv.chunkEmbd
    · exact hembd c (htied ▸ hc)
    · exact hlabel (hinv.output c hc htied)

theorem nodeSignals_lt (hinv : inv.Labelled) (last : ℤ) (k : Kind) :
    ∀ c ∈ nodeSignals inv last k, c < inv.nChunks := by
  intro c hc
  cases k with
  | layer layer =>
    rw [nodeSignals] at hc
    split at hc
    · cases hc
    · exact lt_nChunks_of_mem_layerSignals hc
  | embd => exact (role_lt hinv).1 c (Option.mem_toList.1 hc)
  | norm => exact (role_lt hinv).2.1 c (Option.mem_toList.1 hc)
  | output => exact (role_lt hinv).2.2 c (Option.mem_toList.1 hc)
  | other => cases hc

theorem signals_lt (hinv : inv.Labelled) (last : ℤ) (ks : List Kind) :
    ∀ c ∈ signals inv last ks, c < inv.nChunks := by
  induction ks generalizing last with
  | nil => exact fun c hc => absurd hc List.not_mem_nil
  | cons k ks ih =>
    intro c hc
    rcases List.mem_append.1 hc with hc | hc
    · exact nodeSignals_lt hinv last k c hc
    · exact ih _ c hc

/-! ## What the audit says -/

/-- The declared chunks that are not among `cs`. -/
def missed (inv : Inventory) (cs : List ℕ) : List ℕ := inv.declaredSeq.filter (· ∉ cs)

/-- The state after the signals `cs`. -/
def after (inv : Inventory) (now : ℕ → UInt64 × UInt64) (cs : List ℕ) : Llama where
  policy := cs.foldl loDeclaredOnAccess (Llama.started inv).policy
  notifySeq := cs.length % 2 ^ 64
  chunkNotifyCount := fun c => cs.count c % 2 ^ 32
  auditDone := decide (0 < inv.declaredSeq.length ∧ inv.declaredSeq.length * 2 ≤ cs.length)
  reftrace := BeladyMain.refCalls now cs

/-- The report on the signals `cs`, as many as two passes have. -/
def report (inv : Inventory) (cs : List ℕ) : Abort where
  missing := (missed inv cs).map fun c => (c, chunkGroupLabel (inv.chunkGroup.getD c 0))
  notifies := inv.declaredSeq.length * 2

theorem refCalls_concat (now : ℕ → UInt64 × UInt64) (cs : List ℕ) (c : ℕ) :
    BeladyMain.refCalls now (cs ++ [c]) = BeladyMain.refCalls now cs ++
      [{ seq := UInt64.ofNat ((cs.length % 2 ^ 64 + 1) % 2 ^ 64)
         chunkId := UInt32.ofNat c
         faultType := TRACE_NA
         wasPrefetched := TRACE_NA
         tvSec := (now cs.length).1
         tvNsec := (now cs.length).2 }] := by
  have hseq : UInt64.ofNat ((cs.length % 2 ^ 64 + 1) % 2 ^ 64) = UInt64.ofNat (cs.length + 1) := by
    rw [Nat.mod_add_mod]
    apply UInt64.toNat.inj
    simp
  rw [BeladyMain.refCalls, List.mapIdx_append, hseq]
  simp [BeladyMain.refCalls]

/-- One more signal, before the audit. -/
theorem notifyChunk_after (hc : c < inv.nChunks) :
    notifyChunk inv now (after inv now cs) c = notifyAuditMaybe inv
      { after inv now (cs ++ [c]) with auditDone := (after inv now cs).auditDone } := by
  have hlength : (cs.length % 2 ^ 64 + 1) % 2 ^ 64 = (cs ++ [c]).length % 2 ^ 64 := by
    rw [Nat.mod_add_mod, List.length_append, List.length_singleton]
  have hcount : update (fun d => cs.count d % 2 ^ 32) c ((cs.count c % 2 ^ 32 + 1) % 2 ^ 32) =
      fun d => (cs ++ [c]).count d % 2 ^ 32 := by
    funext d
    rw [List.count_append, List.count_singleton]
    by_cases hd : d = c
    · rw [hd, update_self, Nat.mod_add_mod, beq_self_eq_true, if_pos rfl]
    · have hne : (c == d) = false := beq_false_of_ne (Ne.symm hd)
      rw [update_of_ne hd, hne, if_neg Bool.false_ne_true, Nat.add_zero]
  have hpolicy : (cs ++ [c]).foldl loDeclaredOnAccess (Llama.started inv).policy =
      loDeclaredOnAccess (cs.foldl loDeclaredOnAccess (Llama.started inv).policy) c := by
    rw [List.foldl_append]
    rfl
  rw [notifyChunk, if_neg (not_le.2 hc)]
  simp only [notifyPolicy_eq _ hc, after, refCalls_concat, hpolicy, ← hlength, ← hcount, BeladyMain.refCalls_length]

/-- The counters are exact when the audit runs. -/
theorem missing_after (hinv : inv.Labelled) {done : Bool} (hcs : cs.length < 2 ^ 32) :
    Llama.missing inv { after inv now cs with auditDone := done } = missed inv cs := by
  refine List.filter_congr fun c hc => ?_
  rcases mem_declaredSeq_label hinv hc with ⟨g, hg⟩
  have hlt : c < inv.nChunks := (List.getElem?_eq_some_iff.1 hg).1
  have hcount : cs.count c % 2 ^ 32 = cs.count c :=
    Nat.mod_eq_of_lt (List.count_le_length.trans_lt hcs)
  have hzero : cs.count c % 2 ^ 32 = 0 ↔ c ∉ cs := by rw [hcount, List.count_eq_zero]
  simp only [after, hlt, true_and, hzero]

/-- The first signals of a run, up to the audit. -/
def audited (inv : Inventory) (cs : List ℕ) : List ℕ := cs.take (inv.declaredSeq.length * 2)

/-- The audit stops the run that has sent `cs`. -/
def Stopped (inv : Inventory) (cs : List ℕ) : Prop :=
  inv.declaredSeq.length * 2 ≤ cs.length ∧ missed inv (audited inv cs) ≠ []

instance : Decidable (Stopped inv cs) := inferInstanceAs (Decidable (_ ∧ _))

theorem notifyAuditMaybe_after (hinv : inv.Labelled) (hsmall : inv.declaredSeq.length < 2 ^ 31)
    (hcs : ¬ Stopped inv cs) :
    notifyAuditMaybe inv
        { after inv now (cs ++ [c]) with auditDone := (after inv now cs).auditDone } =
      if Stopped inv (cs ++ [c]) then .error (report inv (audited inv (cs ++ [c])))
      else .ok (after inv now (cs ++ [c])) := by
  have hlength : (cs ++ [c]).length = cs.length + 1 := by simp
  by_cases hnone : inv.declaredSeq.length = 0
  · have hmissed : ¬ Stopped inv (cs ++ [c]) := by
      rintro ⟨-, hne⟩
      apply hne
      rw [missed, List.eq_nil_of_length_eq_zero hnone, List.filter_nil]
    rw [notifyAuditMaybe, if_pos (Or.inr hnone), if_neg hmissed]
    simp [after, hnone]
  by_cases hdone : inv.declaredSeq.length * 2 ≤ cs.length
  · -- the audit has been passed
    have htake : audited inv (cs ++ [c]) = audited inv cs := List.take_append_of_le_length hdone
    have hpassed : ¬ Stopped inv (cs ++ [c]) := by
      rintro ⟨-, hne⟩
      rw [htake] at hne
      exact hcs ⟨hdone, hne⟩
    have hold : (after inv now cs).auditDone = true := decide_eq_true ⟨by omega, hdone⟩
    have hnew : (after inv now (cs ++ [c])).auditDone = true := decide_eq_true ⟨by omega, by omega⟩
    rw [notifyAuditMaybe, if_pos (Or.inl hold), if_neg hpassed, hold, ← hnew]
  · have hold : (after inv now cs).auditDone = false :=
      decide_eq_false fun h => hdone h.2
    have hseq : (after inv now (cs ++ [c])).notifySeq = cs.length + 1 := by
      show (cs ++ [c]).length % 2 ^ 64 = cs.length + 1
      rw [hlength, Nat.mod_eq_of_lt]
      omega
    rw [notifyAuditMaybe, hold, if_neg (by simp [hnone]), hseq]
    by_cases hearly : cs.length + 1 < inv.declaredSeq.length * 2
    · have hgo : ¬ Stopped inv (cs ++ [c]) := fun h => by
        have := h.1
        omega
      have hnew : (after inv now (cs ++ [c])).auditDone = false :=
        decide_eq_false fun h => by
          have := h.2
          omega
      rw [if_pos hearly, if_neg hgo, ← hnew]
    · -- this is the signal at which the audit runs
      have hwhole : audited inv (cs ++ [c]) = cs ++ [c] := List.take_of_length_le (by omega)
      have hstopped : Stopped inv (cs ++ [c]) ↔ missed inv (cs ++ [c]) ≠ [] := by
        rw [Stopped, hwhole, and_iff_right_iff_imp]
        intro _
        omega
      have hnew : (after inv now (cs ++ [c])).auditDone = true :=
        decide_eq_true ⟨by omega, by omega⟩
      rw [if_neg hearly, missing_after hinv (by omega), hwhole]
      by_cases hmissed : missed inv (cs ++ [c]) = []
      · rw [if_pos hmissed, if_neg (by simp [hstopped, hmissed]), ← hnew, ← hseq]
      · have hend : cs.length + 1 = inv.declaredSeq.length * 2 := by omega
        rw [if_neg hmissed, if_pos (hstopped.2 hmissed), report, hend]

theorem notifyAll_started (hinv : inv.Labelled) (hsmall : inv.declaredSeq.length < 2 ^ 31)
    (now : ℕ → UInt64 × UInt64) (hcs : ∀ c ∈ cs, c < inv.nChunks) :
    notifyAll inv now (Llama.started inv) cs =
      if Stopped inv cs then .error (report inv (audited inv cs)) else .ok (after inv now cs) := by
  induction cs using List.reverseRecOn with
  | nil =>
    have hgo : ¬ Stopped inv [] := by
      rintro ⟨hle, hne⟩
      rw [List.length_nil, Nat.le_zero, Nat.mul_eq_zero] at hle
      apply hne
      rw [missed, List.eq_nil_of_length_eq_zero (hle.resolve_right (by decide)), List.filter_nil]
    have hdone : (after inv now []).auditDone = false :=
      decide_eq_false fun h => by
        have := h.2
        rw [List.length_nil] at this
        omega
    have hstarted : after inv now [] = Llama.started inv :=
      (congrArg (fun done => { after inv now [] with auditDone := done }) hdone :)
    rw [if_neg hgo, hstarted]
    rfl
  | append_singleton cs c ih =>
    have hone : ∀ s, notifyAll inv now s [c] = notifyChunk inv now s c := by
      intro s
      show (notifyChunk inv now s c).bind Except.ok = _
      cases notifyChunk inv now s c <;> rfl
    rw [notifyAll_append, ih fun d hd => hcs d (List.mem_append_left _ hd)]
    by_cases hstopped : Stopped inv cs
    · have htake : audited inv (cs ++ [c]) = audited inv cs :=
        List.take_append_of_le_length hstopped.1
      have hmore : Stopped inv (cs ++ [c]) := by
        refine ⟨?_, htake ▸ hstopped.2⟩
        rw [List.length_append]
        exact hstopped.1.trans (Nat.le_add_right _ _)
      rw [if_pos hstopped, if_pos hmore, htake]
      rfl
    · rw [if_neg hstopped]
      show notifyAll inv now (after inv now cs) [c] = _
      rw [hone, notifyChunk_after (hcs c (by simp)), notifyAuditMaybe_after hinv hsmall hstopped]

/-- The signals of a run from the start. -/
def sent (inv : Inventory) (nodes : List Node) : List ℕ := signals inv (-1) (asked nodes)

theorem run_init (hinv : inv.Labelled) (hsmall : inv.declaredSeq.length < 2 ^ 31)
    (now : ℕ → UInt64 × UInt64) (nodes : List Node) :
    (run inv now (State.init inv) nodes).map State.llama =
      if Stopped inv (sent inv nodes) then .error (report inv (audited inv (sent inv nodes)))
      else .ok (after inv now (sent inv nodes)) := by
  rw [run_llama]
  exact notifyAll_started hinv hsmall now (signals_lt hinv _ _)

section

variable {fileSize : ℕ} {mem : Alloc} {srt : List TensorEnt}

theorem buildInventoryAndTable_filled (h : buildInventoryAndTable fileSize mem srt = some inv) :
    inv.Filled ∧ inv.nChunks < 2 ^ 32 := by
  have hne : srt ≠ [] := by
    rintro rfl
    cases h
  rcases exists_cut fileSize mem hne with ⟨a, hcut, hbuild⟩
  rw [hbuild] at h
  split at h
  · obtain rfl := Option.some.inj h
    refine ⟨a.inventory_filled _, ?_⟩
    rw [Inventory.nChunks, BoundaryArrays.inventory, List.length_map, List.length_range, hcut.nb]
    exact Nat.mod_lt _ (by decide)
  · cases h

/-- The audit stops a run if and only if a declared chunk is not among the first signals, as many
as two passes have, and then it names all such chunks. -/
theorem audit_exact (hbuild : buildInventoryAndTable fileSize mem srt = some inv)
    (hsmall : inv.declaredSeq.length < 2 ^ 31) (now : ℕ → UInt64 × UInt64) (nodes : List Node) :
    (run inv now (State.init inv) nodes).map State.llama =
      if Stopped inv (sent inv nodes) then .error (report inv (audited inv (sent inv nodes)))
      else .ok (after inv now (sent inv nodes)) :=
  run_init (buildInventoryAndTable_filled hbuild).1.labelled hsmall now nodes

end

/-- Four times the embedding, and never the layer. -/
def onlyEmbedding : List Node := List.replicate 4 ⟨"embd".toList, true⟩

theorem audit_exact_onlyEmbedding :
    (run splitEmbeddingInventory (fun _ => (0, 0)) (State.init splitEmbeddingInventory)
      onlyEmbedding).map State.llama = .error ⟨[(2, "L0")], 4⟩ := by
  have hstopped : Stopped splitEmbeddingInventory (sent splitEmbeddingInventory onlyEmbedding) := by
    decide
  have hreport : report splitEmbeddingInventory
      (audited splitEmbeddingInventory (sent splitEmbeddingInventory onlyEmbedding)) =
        ⟨[(2, "L0")], 4⟩ := by decide
  have hbuild : buildInventoryAndTable 16384 Alloc.roomy splitEmbedding =
      some splitEmbeddingInventory := by decide +kernel
  rw [audit_exact hbuild (by decide), if_pos hstopped, hreport]

end Residctl.Consumer
