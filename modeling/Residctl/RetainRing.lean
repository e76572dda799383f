import Residctl.Budget
import Residctl.Lib.Ring
import Mathlib.Data.List.Find

/-!
# The ring behind the retention FIFO

`budget.c` keeps the retained chunks in a ring of `pinned_prefetch_cap` slots: an entry in
the middle is deleted by moving the ones behind it, and the index of a place is computed in
32 bits. The ring is the list of `prefetchRetainOnResident` and `prefetchRetainRelease`
unless `head + len` can reach `2 ^ 32` (`ring_refines_iff`).
-/

namespace Residctl

open Function Scan

variable {n : ℕ} {σ : Type}

/-! ## The code -/

/-- `region_t` with its queue in the ring; `region.pinnedPrefetch` is not read. -/
structure RingRegion (n : ℕ) (σ : Type) where
  region : Region n σ
  ring : RingBuffer (Fin n)

/-- The slot `i` places behind the head: `(head + i) % cap` on `uint32_t`. -/
def ringPos (cap head i : ℕ) : ℕ := (head + i) % 2 ^ 32 % cap

/-- `prefetch_retain_on_resident`. -/
def ringRetainOnResident (cap : ℕ) (s : RingRegion n σ) (target : Fin n) : RingRegion n σ :=
  let s :=
    if s.ring.len ≥ cap then
      { region := unpinChunk s.region (s.ring.slot s.ring.head)
        ring := { s.ring with head := ringPos cap s.ring.head 1, len := s.ring.len - 1 } }
    else s
  { s with ring := { s.ring with
    slot := update s.ring.slot (ringPos cap s.ring.head s.ring.len) target
    len := s.ring.len + 1 } }

/-- `prefetch_retain_release`: the loop over `i`, then the one over `j`. -/
def ringRetainRelease (cap : ℕ) (s : RingRegion n σ) (c : Fin n) : RingRegion n σ :=
  match (List.range s.ring.len).find? fun i => s.ring.slot (ringPos cap s.ring.head i) = c with
  | none => s
  | some i =>
    { region := unpinChunk s.region c
      ring := { s.ring with
        slot := (List.range' i (s.ring.len - 1 - i)).foldl (fun slot j =>
          update slot (ringPos cap s.ring.head j) (slot (ringPos cap s.ring.head (j + 1))))
          s.ring.slot
        len := s.ring.len - 1 } }

/-- `pin_break_select_victim`. -/
def ringPinBreakSelectVictim (cfg : Config n σ) (s : RingRegion n σ) : Option (Fin n) :=
  scanBest (fun c => (s.region.chunks c).state = .resident)
    (fun i b => cfg.nextUseDistance s.region i > cfg.nextUseDistance s.region b)
    ((List.range s.ring.len).map fun i =>
      s.ring.slot (ringPos cfg.pinnedPrefetchCap s.ring.head i))

inductive RetainOp (n : ℕ)
  | retain (target : Fin n)
  | release (c : Fin n)
deriving DecidableEq, Repr

def RetainOp.ring (cap : ℕ) (s : RingRegion n σ) : RetainOp n → RingRegion n σ
  | retain target => ringRetainOnResident cap s target
  | release c => ringRetainRelease cap s c

/-- The same on the list. -/
def RetainOp.fifo (cfg : Config n σ) (r : Region n σ) : RetainOp n → Region n σ
  | retain target => prefetchRetainOnResident cfg r target
  | release c => prefetchRetainRelease r c

/-- Every retained chunk is new to the queue. -/
def FreshOps (cfg : Config n σ) : Region n σ → List (RetainOp n) → Prop
  | _, [] => True
  | r, op :: ops =>
    (∀ c, op = .retain c → c ∉ r.pinnedPrefetch) ∧ FreshOps cfg (op.fifo cfg r) ops

namespace RingRegion

/-- The region with the ring read from its head on. -/
def fifo (cap : ℕ) (s : RingRegion n σ) : Region n σ :=
  { s.region with pinnedPrefetch := s.ring.contents cap }

structure Ok (cap : ℕ) (s : RingRegion n σ) : Prop where
  head : s.ring.head < cap
  len : s.ring.len ≤ cap
  nodup : (s.ring.contents cap).Nodup

end RingRegion

/-- After the operations the ring is the list, and the search for a pin to break finds the
earliest of the coldest `RESIDENT` chunks in it. -/
structure RingRefines (cfg : Config n σ) (s : RingRegion n σ) (ops : List (RetainOp n)) : Prop where
  fifo : (ops.foldl (RetainOp.ring cfg.pinnedPrefetchCap) s).fifo cfg.pinnedPrefetchCap =
    ops.foldl (RetainOp.fifo cfg) (s.fifo cfg.pinnedPrefetchCap)
  coldest : BestOf
    (fun c => ((ops.foldl (RetainOp.fifo cfg) (s.fifo cfg.pinnedPrefetchCap)).chunks c).state =
      .resident)
    (cfg.nextUseDistance (ops.foldl (RetainOp.fifo cfg) (s.fifo cfg.pinnedPrefetchCap)))
    (ops.foldl (RetainOp.fifo cfg) (s.fifo cfg.pinnedPrefetchCap)).pinnedPrefetch
    (ringPinBreakSelectVictim cfg (ops.foldl (RetainOp.ring cfg.pinnedPrefetchCap) s))

/-! ## Short queues do not wrap -/

/-- `head + len` stays below `2 ^ 32`: the queue holds no chunk twice. -/
def NoWrap (n cap : ℕ) : Prop := cap ≤ 2 ^ 31 ∨ cap + n ≤ 2 ^ 32 + 1

instance (n cap : ℕ) : Decidable (NoWrap n cap) := inferInstanceAs (Decidable (_ ∨ _))

section

variable {cfg : Config n σ} {cap : ℕ} {s : RingRegion n σ} {c target : Fin n} {ops : List (RetainOp n)}

theorem ringPos_of_lt {head i : ℕ} (h : head + i < 2 ^ 32) :
    ringPos cap head i = (head + i) % cap := by
  rw [ringPos, Nat.mod_eq_of_lt h]

theorem Config.pinnedPrefetchCap_pos (cfg : Config n σ) : 0 < cfg.pinnedPrefetchCap := by
  unfold Config.pinnedPrefetchCap
  split <;> omega

theorem RingRegion.Ok.len_le (h : s.Ok cap) : s.ring.len ≤ n := by
  simpa using h.nodup.length_le_card

/-- The index of no place wraps. -/
theorem RingRegion.Ok.word (h : s.Ok cap) (hwrap : NoWrap n cap) :
    s.ring.head + s.ring.len ≤ 2 ^ 32 := by
  have hhead := h.head
  have hlen := h.len
  have hn := h.len_le
  unfold NoWrap at hwrap
  omega

/-- So has the place behind a queue that a new chunk may enter. -/
theorem RingRegion.Ok.word_lt (h : s.Ok cap) (hwrap : NoWrap n cap)
    (hnew : target ∉ s.ring.contents cap) : s.ring.head + s.ring.len < 2 ^ 32 := by
  have hhead := h.head
  have hlen := h.len
  have hn : s.ring.len + 1 ≤ n := by
    have hcons := (List.nodup_cons.2 ⟨hnew, h.nodup⟩).length_le_card
    simpa using hcons
  unfold NoWrap at hwrap
  omega

/-! ### Each operation -/

theorem RingRegion.Ok.push (h : s.Ok cap) (hlen : s.ring.len < cap)
    (hnew : target ∉ s.ring.contents cap) : RingRegion.Ok cap ⟨s.region, s.ring.push cap target⟩ := by
  refine ⟨h.head, hlen, ?_⟩
  rw [RingBuffer.contents_push hlen]
  exact List.nodup_append'.2 ⟨h.nodup, List.nodup_singleton target, by simpa using hnew⟩

theorem RingRegion.Ok.pop (h : s.Ok cap) {oldest : Fin n} {rest : List (Fin n)}
    (hq : s.ring.contents cap = oldest :: rest) (r : Region n σ) :
    RingRegion.Ok cap ⟨r, s.ring.pop cap⟩ := by
  have hnodup := h.nodup
  rw [hq] at hnodup
  refine ⟨Nat.mod_lt _ (Nat.zero_lt_of_lt h.head), (Nat.sub_le _ _).trans h.len, ?_⟩
  rw [RingBuffer.contents_pop hq]
  exact (List.nodup_cons.1 hnodup).2

theorem ringRetainOnResident_of_room (h : ¬ s.ring.len ≥ cap) (target : Fin n) :
    ringRetainOnResident cap s target = ⟨s.region, { s.ring with
      slot := update s.ring.slot (ringPos cap s.ring.head s.ring.len) target
      len := s.ring.len + 1 }⟩ := by
  rw [ringRetainOnResident, if_neg h]

theorem prefetchRetainOnResident_of_room {r : Region n σ}
    (h : r.pinnedPrefetch.length < cfg.pinnedPrefetchCap) (target : Fin n) :
    prefetchRetainOnResident cfg r target =
      { r with pinnedPrefetch := r.pinnedPrefetch ++ [target] } := by
  unfold prefetchRetainOnResident
  split
  · rw [if_neg (Nat.not_le_of_lt h)]
  · rename_i hq
    rw [hq]
    rfl

/-- `prefetch_retain_on_resident` is the operation on the list. -/
theorem ringRetainOnResident_refines (h : s.Ok cfg.pinnedPrefetchCap)
    (hword : s.ring.head + s.ring.len < 2 ^ 32)
    (hnew : target ∉ s.ring.contents cfg.pinnedPrefetchCap) :
    (ringRetainOnResident cfg.pinnedPrefetchCap s target).fifo cfg.pinnedPrefetchCap =
        prefetchRetainOnResident cfg (s.fifo cfg.pinnedPrefetchCap) target ∧
      (ringRetainOnResident cfg.pinnedPrefetchCap s target).Ok cfg.pinnedPrefetchCap := by
  have hlist : (s.fifo cfg.pinnedPrefetchCap).pinnedPrefetch.length = s.ring.len :=
    RingBuffer.length_contents _ _
  have hpos := cfg.pinnedPrefetchCap_pos
  have hhead := h.head
  by_cases hfull : s.ring.len ≥ cfg.pinnedPrefetchCap
  · -- the oldest chunk makes room
    obtain ⟨oldest, rest, hq⟩ : ∃ oldest rest,
        s.ring.contents cfg.pinnedPrefetchCap = oldest :: rest := by
      apply List.exists_cons_of_length_pos
      rw [RingBuffer.length_contents]
      omega
    have hpop := h.pop hq (unpinChunk s.region oldest)
    have hrest : target ∉ (s.ring.pop cfg.pinnedPrefetchCap).contents cfg.pinnedPrefetchCap := by
      rw [RingBuffer.contents_pop hq]
      rw [hq] at hnew
      exact fun hmem => hnew (List.mem_cons_of_mem _ hmem)
    have hroom : (s.ring.pop cfg.pinnedPrefetchCap).len < cfg.pinnedPrefetchCap := by
      show s.ring.len - 1 < _
      have hlen := h.len
      omega
    have hone : ringPos cfg.pinnedPrefetchCap s.ring.head 1 =
        (s.ring.head + 1) % cfg.pinnedPrefetchCap := ringPos_of_lt (by omega)
    have hring : ringRetainOnResident cfg.pinnedPrefetchCap s target =
        ⟨unpinChunk s.region oldest,
          (s.ring.pop cfg.pinnedPrefetchCap).push cfg.pinnedPrefetchCap target⟩ := by
      have hlast : ringPos cfg.pinnedPrefetchCap ((s.ring.head + 1) % cfg.pinnedPrefetchCap)
          (s.ring.len - 1) = ((s.ring.head + 1) % cfg.pinnedPrefetchCap + (s.ring.len - 1)) %
            cfg.pinnedPrefetchCap := by
        apply ringPos_of_lt
        have hle := Nat.mod_le (s.ring.head + 1) cfg.pinnedPrefetchCap
        omega
      rw [ringRetainOnResident, if_pos hfull, hone, RingBuffer.slot_head hhead hq]
      exact congrArg (fun p => RingRegion.mk (unpinChunk s.region oldest)
        { s.ring.pop cfg.pinnedPrefetchCap with
          slot := update s.ring.slot p target, len := s.ring.len - 1 + 1 }) hlast
    refine ⟨?_, by rw [hring]; exact hpop.push hroom hrest⟩
    have hdrop : prefetchRetainOnResident cfg (s.fifo cfg.pinnedPrefetchCap) target =
        { unpinChunk (s.fifo cfg.pinnedPrefetchCap) oldest with
          pinnedPrefetch := rest ++ [target] } := by
      unfold prefetchRetainOnResident
      rw [show (s.fifo cfg.pinnedPrefetchCap).pinnedPrefetch = oldest :: rest from hq] at hlist ⊢
      exact if_pos (hlist ▸ hfull)
    rw [hring, hdrop, RingRegion.fifo, RingBuffer.contents_push hroom, RingBuffer.contents_pop hq]
    rfl
  · have hroom : s.ring.len < cfg.pinnedPrefetchCap := Nat.lt_of_not_ge hfull
    have hring : ringRetainOnResident cfg.pinnedPrefetchCap s target =
        ⟨s.region, s.ring.push cfg.pinnedPrefetchCap target⟩ := by
      rw [ringRetainOnResident_of_room hfull, ringPos_of_lt hword]
      rfl
    refine ⟨?_, by rw [hring]; exact h.push hroom hnew⟩
    rw [hring, prefetchRetainOnResident_of_room (hlist ▸ hroom), RingRegion.fifo,
      RingBuffer.contents_push hroom]
    rfl

/-- `prefetch_retain_release` is the operation on the list. -/
theorem ringRetainRelease_refines (h : s.Ok cap) (hword : s.ring.head + s.ring.len ≤ 2 ^ 32)
    (c : Fin n) :
    (ringRetainRelease cap s c).fifo cap = prefetchRetainRelease (s.fifo cap) c ∧
      (ringRetainRelease cap s c).Ok cap := by
  have hsearch : (List.range s.ring.len).find? (fun i => s.ring.slot (ringPos cap s.ring.head i) = c) =
      if c ∈ s.ring.contents cap then some ((s.ring.contents cap).idxOf c) else none := by
    rw [← RingBuffer.findIdx_contents]
    refine List.find?_congr fun i hi => ?_
    rw [ringPos_of_lt (by have hlt := List.mem_range.1 hi; omega)]
  have hmem : c ∈ (s.fifo cap).pinnedPrefetch ↔ c ∈ s.ring.contents cap := Iff.rfl
  unfold ringRetainRelease prefetchRetainRelease
  rw [hsearch]
  -- the search finds the first place of the chunk, if it is in the queue
  by_cases hc : c ∈ s.ring.contents cap
  · have hi : (s.ring.contents cap).idxOf c < s.ring.len := by
      simpa using List.idxOf_lt_length_of_mem hc
    have hremove : (s.ring.removeAt cap ((s.ring.contents cap).idxOf c)).contents cap =
        (s.ring.contents cap).erase c := by
      rw [RingBuffer.contents_removeAt h.len hi, List.erase_eq_eraseIdx_of_idxOf rfl]
    -- the places that the loop touches are places of the queue
    have hloop : ∀ is : List ℕ, (∀ j ∈ is, j + 1 < s.ring.len) → ∀ slot : ℕ → Fin n,
        is.foldl (fun slot j =>
          update slot (ringPos cap s.ring.head j) (slot (ringPos cap s.ring.head (j + 1)))) slot =
        is.foldl (fun slot j =>
          update slot ((s.ring.head + j) % cap) (slot ((s.ring.head + j + 1) % cap))) slot := by
      intro is
      induction is with
      | nil => exact fun _ _ => rfl
      | cons j is ih =>
        intro his slot
        have hj := his j List.mem_cons_self
        rw [List.foldl_cons, List.foldl_cons, ringPos_of_lt (by omega), ringPos_of_lt (by omega)]
        exact ih (fun k hk => his k (List.mem_cons_of_mem _ hk)) _
    rw [if_pos hc, if_pos (hmem.2 hc)]
    dsimp only
    rw [hloop _ (fun j hj => by have := List.mem_range'_1.1 hj; omega)]
    refine ⟨congrArg (fun q => { unpinChunk s.region c with pinnedPrefetch := q }) hremove,
      h.head, (Nat.sub_le _ _).trans h.len, ?_⟩
    exact hremove ▸ h.nodup.erase c
  · rw [if_neg hc, if_neg (fun hin => hc (hmem.1 hin))]
    exact ⟨rfl, h⟩

theorem ringPinBreakSelectVictim_eq (hword : s.ring.head + s.ring.len ≤ 2 ^ 32) :
    ringPinBreakSelectVictim cfg s = pinBreakSelectVictim cfg (s.fifo cfg.pinnedPrefetchCap) := by
  have hqueue : ((List.range s.ring.len).map fun i =>
      s.ring.slot (ringPos cfg.pinnedPrefetchCap s.ring.head i)) =
      s.ring.contents cfg.pinnedPrefetchCap :=
    RingBuffer.entries_eq_contents hword
  rw [ringPinBreakSelectVictim, hqueue]
  rfl

/-! ### Every run -/

theorem RetainOp.ring_refines (h : s.Ok cfg.pinnedPrefetchCap)
    (hwrap : NoWrap n cfg.pinnedPrefetchCap) (op : RetainOp n)
    (hfresh : ∀ c, op = .retain c → c ∉ s.ring.contents cfg.pinnedPrefetchCap) :
    (op.ring cfg.pinnedPrefetchCap s).fifo cfg.pinnedPrefetchCap =
        op.fifo cfg (s.fifo cfg.pinnedPrefetchCap) ∧
      (op.ring cfg.pinnedPrefetchCap s).Ok cfg.pinnedPrefetchCap := by
  cases op with
  | retain target =>
    have hnew := hfresh target rfl
    exact ringRetainOnResident_refines h (h.word_lt hwrap hnew) hnew
  | release c => exact ringRetainRelease_refines h (h.word hwrap) c

theorem ring_run (hwrap : NoWrap n cfg.pinnedPrefetchCap)
    (h : s.Ok cfg.pinnedPrefetchCap) (hfresh : FreshOps cfg (s.fifo cfg.pinnedPrefetchCap) ops) :
    (ops.foldl (RetainOp.ring cfg.pinnedPrefetchCap) s).fifo cfg.pinnedPrefetchCap =
        ops.foldl (RetainOp.fifo cfg) (s.fifo cfg.pinnedPrefetchCap) ∧
      (ops.foldl (RetainOp.ring cfg.pinnedPrefetchCap) s).Ok cfg.pinnedPrefetchCap := by
  induction ops generalizing s with
  | nil => exact ⟨rfl, h⟩
  | cons op ops ih =>
    obtain ⟨hfifo, hok⟩ := op.ring_refines h hwrap hfresh.1
    have hrest := ih hok (hfifo ▸ hfresh.2)
    rw [hfifo] at hrest
    exact hrest

theorem pinBreakSelectVictim_bestOf (r : Region n σ) :
    BestOf (fun c => (r.chunks c).state = .resident) (cfg.nextUseDistance r) r.pinnedPrefetch
      (pinBreakSelectVictim cfg r) :=
  scanBest_bestOf (cfg.nextUseDistance r) (fun _ _ => Iff.rfl) r.pinnedPrefetch

/-! ## Long queues overwrite their second entry -/

/-- Chunk 0 in the last slot, the others from slot 0 on. -/
def wrappedRing (cap : ℕ) (zero : Fin n) : RingBuffer (Fin n) where
  slot := fun p => if h : (p + 1) % cap < n then ⟨(p + 1) % cap, h⟩ else zero
  head := cap - 1
  len := 2 ^ 32 - cap + 1

variable {zero : Fin n} {i : ℕ}

theorem wrappedRing_slot (hi : i < cap) (hin : i < n) :
    (wrappedRing cap zero).slot ((cap - 1 + i) % cap) = ⟨i, hin⟩ := by
  have hplace : ((cap - 1 + i) % cap + 1) % cap = i := by
    rw [Nat.mod_add_mod, show cap - 1 + i + 1 = i + cap by omega, Nat.add_mod_right,
      Nat.mod_eq_of_lt hi]
  have hval : ((cap - 1 + i) % cap + 1) % cap < n := by rwa [hplace]
  refine (dif_pos hval).trans (Fin.ext hplace)

theorem wrappedRing_getElem (hlong : 2 ^ 31 < cap) (hcap : cap < 2 ^ 32) (hn : 2 ^ 32 - cap + 1 < n)
    (hi : i < 2 ^ 32 - cap + 1) :
    ((wrappedRing cap zero).contents cap)[i]? = some ⟨i, hi.trans hn⟩ := by
  rw [RingBuffer.getElem?_contents hi]
  exact congrArg some (wrappedRing_slot (by omega) (hi.trans hn))

theorem wrappedRing_ok (hlong : 2 ^ 31 < cap) (hcap : cap < 2 ^ 32) (hn : 2 ^ 32 - cap + 1 < n)
    (r : Region n σ) : RingRegion.Ok cap ⟨r, wrappedRing cap zero⟩ := by
  refine ⟨?_, ?_, ?_⟩
  · show cap - 1 < cap
    omega
  · show 2 ^ 32 - cap + 1 ≤ cap
    omega
  · rw [List.nodup_iff_getElem?_ne_getElem?]
    intro i j hij hj heq
    rw [RingBuffer.length_contents] at hj
    rw [wrappedRing_getElem hlong hcap hn hj,
      wrappedRing_getElem hlong hcap hn (hij.trans hj)] at heq
    have hval := Fin.mk.inj (Option.some.inj heq)
    omega

theorem wrappedRing_fresh (hlong : 2 ^ 31 < cfg.pinnedPrefetchCap)
    (hcap : cfg.pinnedPrefetchCap < 2 ^ 32) (hn : 2 ^ 32 - cfg.pinnedPrefetchCap + 1 < n)
    (r : Region n σ) :
    FreshOps cfg
      (RingRegion.fifo cfg.pinnedPrefetchCap ⟨r, wrappedRing cfg.pinnedPrefetchCap zero⟩)
      [.retain ⟨2 ^ 32 - cfg.pinnedPrefetchCap + 1, hn⟩] := by
  refine ⟨?_, trivial⟩
  rintro c hc hmem
  obtain rfl := RetainOp.retain.inj hc
  obtain ⟨i, hget⟩ := List.mem_iff_getElem?.1 hmem
  have hi : i < 2 ^ 32 - cfg.pinnedPrefetchCap + 1 :=
    (List.getElem?_eq_some_iff.1 hget).1.trans_eq (RingBuffer.length_contents _ _)
  have hval := Fin.mk.inj (Option.some.inj ((wrappedRing_getElem hlong hcap hn hi).symm.trans hget))
  omega

/-- The place behind the queue comes out as slot 0, which holds the second entry. -/
theorem ringRetainOnResident_overwrites (hlong : 2 ^ 31 < cap) (hcap : cap < 2 ^ 32)
    (hn : 2 ^ 32 - cap + 1 < n) (r : Region n σ) :
    ((ringRetainOnResident cap ⟨r, wrappedRing cap zero⟩ ⟨2 ^ 32 - cap + 1, hn⟩).ring.contents
      cap)[1]? = some ⟨2 ^ 32 - cap + 1, hn⟩ := by
  have hroom : ¬ 2 ^ 32 - cap + 1 ≥ cap := by omega
  have hzero : ringPos cap (cap - 1) (2 ^ 32 - cap + 1) = 0 := by
    rw [ringPos, show cap - 1 + (2 ^ 32 - cap + 1) = 2 ^ 32 by omega, Nat.mod_self, Nat.zero_mod]
  have hone : (cap - 1 + 1) % cap = 0 := by
    rw [Nat.sub_add_cancel (by omega), Nat.mod_self]
  have hslot : (ringRetainOnResident cap ⟨r, wrappedRing cap zero⟩ ⟨2 ^ 32 - cap + 1, hn⟩).ring.slot =
      update (wrappedRing cap zero).slot 0 ⟨2 ^ 32 - cap + 1, hn⟩ := by
    rw [ringRetainOnResident_of_room hroom]
    exact congrArg (fun p => update (wrappedRing cap zero).slot p _) hzero
  have hring : (ringRetainOnResident cap ⟨r, wrappedRing cap zero⟩ ⟨2 ^ 32 - cap + 1, hn⟩).ring.head =
        cap - 1 ∧
      1 < (ringRetainOnResident cap ⟨r, wrappedRing cap zero⟩ ⟨2 ^ 32 - cap + 1, hn⟩).ring.len := by
    rw [ringRetainOnResident_of_room hroom]
    refine ⟨rfl, ?_⟩
    show 1 < 2 ^ 32 - cap + 1 + 1
    omega
  rw [RingBuffer.getElem?_contents hring.2, hslot, hring.1, hone, update_self]

theorem wrappedRing_diverges (r : Region n σ) (hlong : 2 ^ 31 < cfg.pinnedPrefetchCap)
    (hcap : cfg.pinnedPrefetchCap < 2 ^ 32) (hn : 2 ^ 32 - cfg.pinnedPrefetchCap + 1 < n) :
    ¬ RingRefines cfg ⟨r, wrappedRing cfg.pinnedPrefetchCap ⟨0, Nat.zero_lt_of_lt hn⟩⟩
      [.retain ⟨2 ^ 32 - cfg.pinnedPrefetchCap + 1, hn⟩] := by
  intro h
  have hlen : (2 : ℕ) ^ 32 - cfg.pinnedPrefetchCap + 1 < cfg.pinnedPrefetchCap := by omega
  have hlist := congrArg (fun r => r.pinnedPrefetch[1]?) h.fifo
  change (RingBuffer.contents _ _)[1]? = (prefetchRetainOnResident cfg _ _).pinnedPrefetch[1]? at hlist
  rw [prefetchRetainOnResident_of_room (by exact (RingBuffer.length_contents _ _).trans_lt hlen)]
    at hlist
  change (RingBuffer.contents _ (ringRetainOnResident _ _ _).ring)[1]? = (RingBuffer.contents _ _ ++ _)[1]?
    at hlist
  rw [ringRetainOnResident_overwrites hlong hcap hn, List.getElem?_append_left
    (by rw [RingBuffer.length_contents]; show 1 < 2 ^ 32 - cfg.pinnedPrefetchCap + 1; omega)] at hlist
  have hsecond := hlist.trans (wrappedRing_getElem (i := 1) hlong hcap hn (by omega))
  have hval := Fin.mk.inj (Option.some.inj hsecond)
  omega

end

/-- The ring is the list, and the search for a pin to break is exact, from every head position
and along every sequence of operations, if and only if no queue reaches `2 ^ 32`. -/
theorem ring_refines_iff (cfg : Config n σ) (p : σ) (hdepth : cfg.prefetchDepth < 2 ^ 32) :
    (∀ (s : RingRegion n σ) (ops : List (RetainOp n)), s.Ok cfg.pinnedPrefetchCap →
      FreshOps cfg (s.fifo cfg.pinnedPrefetchCap) ops → RingRefines cfg s ops) ↔
    NoWrap n cfg.pinnedPrefetchCap := by
  have hcap : cfg.pinnedPrefetchCap < 2 ^ 32 := by
    unfold Config.pinnedPrefetchCap
    split <;> omega
  constructor
  · intro h
    by_contra hwrap
    obtain ⟨hlong, hover⟩ := not_or.1 hwrap
    have hroom : 2 ^ 32 - cfg.pinnedPrefetchCap + 1 < n := by omega
    have hok : RingRegion.Ok _ ⟨Region.init n p, wrappedRing _ ⟨0, Nat.zero_lt_of_lt hroom⟩⟩ :=
      wrappedRing_ok (by omega) hcap hroom _
    exact wrappedRing_diverges (Region.init n p) (by omega) hcap hroom
      (h _ _ hok (wrappedRing_fresh (by omega) hcap hroom _))
  · intro hwrap s ops hok hfresh
    obtain ⟨hfifo, hend⟩ := ring_run hwrap hok hfresh
    refine ⟨hfifo, ?_⟩
    rw [ringPinBreakSelectVictim_eq (hend.word hwrap), hfifo]
    exact pinBreakSelectVictim_bestOf _

/-- One page a chunk, one chunk less than `CHUNK_NONE` has room for. -/
def everyIndex (depth : ℕ) : Config (2 ^ 32 - 1) Unit where
  table := ChunkTable.uniform (2 ^ 32 - 1) 4096 page_pos page_aligned (by decide)
  registered := by decide
  truncated := by decide
  budgetBytes := 2 ^ 44
  reconcileInterval := 1000
  policy := none
  asyncHandler := true
  pool := true
  workers := 1
  prefetchEnabled := true
  prefetchDepth := depth
  prefetchAdmissionAlways := false
  prefetchRetentionPinned := true
  fetchingTimeoutMs := 1000
  modelFileSize := (2 ^ 32 - 1) * 4096
  fileByte := fun _ => 0

theorem ring_refines_iff_depthTwo :
    NoWrap (2 ^ 32 - 1) (everyIndex 2).pinnedPrefetchCap ∧
      ∀ (s : RingRegion (2 ^ 32 - 1) Unit) (ops : List (RetainOp (2 ^ 32 - 1))),
        s.Ok (everyIndex 2).pinnedPrefetchCap →
        FreshOps (everyIndex 2) (s.fifo (everyIndex 2).pinnedPrefetchCap) ops →
        RingRefines (everyIndex 2) s ops :=
  have hshort : NoWrap (2 ^ 32 - 1) (everyIndex 2).pinnedPrefetchCap := Or.inl (by decide)
  ⟨hshort, (ring_refines_iff (everyIndex 2) () (by decide)).2 hshort⟩

/-- Half of the indices in a ring of a little more than half of them, from its last slot on:
the next retained chunk takes the place of chunk 1. -/
theorem ring_overwrites :
    ∃ (s : RingRegion (2 ^ 32 - 1) Unit) (target : Fin (2 ^ 32 - 1)),
      s.ring.head = 2 ^ 31 ∧ s.ring.len = 2 ^ 31 ∧ target.1 = 2 ^ 31 ∧
      s.Ok (everyIndex (2 ^ 31 + 1)).pinnedPrefetchCap ∧
      FreshOps (everyIndex (2 ^ 31 + 1)) (s.fifo (everyIndex (2 ^ 31 + 1)).pinnedPrefetchCap)
        [.retain target] ∧
      ¬ RingRefines (everyIndex (2 ^ 31 + 1)) s [.retain target] := by
  have hcap : (everyIndex (2 ^ 31 + 1)).pinnedPrefetchCap = 2 ^ 31 + 1 := by decide
  have hlong : 2 ^ 31 < (everyIndex (2 ^ 31 + 1)).pinnedPrefetchCap := by rw [hcap]; decide
  have hword : (everyIndex (2 ^ 31 + 1)).pinnedPrefetchCap < 2 ^ 32 := by rw [hcap]; decide
  have hroom : 2 ^ 32 - (everyIndex (2 ^ 31 + 1)).pinnedPrefetchCap + 1 < 2 ^ 32 - 1 := by
    rw [hcap]
    decide
  refine ⟨⟨Region.init _ (), wrappedRing _ ⟨0, Nat.zero_lt_of_lt hroom⟩⟩, ⟨_, hroom⟩, ?_, ?_, ?_,
    wrappedRing_ok hlong hword hroom _, wrappedRing_fresh hlong hword hroom _,
    wrappedRing_diverges _ hlong hword hroom⟩
  · show (everyIndex (2 ^ 31 + 1)).pinnedPrefetchCap - 1 = 2 ^ 31
    rw [hcap, Nat.add_sub_cancel]
  · show 2 ^ 32 - (everyIndex (2 ^ 31 + 1)).pinnedPrefetchCap + 1 = 2 ^ 31
    omega
  · show 2 ^ 32 - (everyIndex (2 ^ 31 + 1)).pinnedPrefetchCap + 1 = 2 ^ 31
    omega

end Residctl
