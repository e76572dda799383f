import Mathlib.Data.List.Range
import Mathlib.Data.Nat.ModEq
import Mathlib.Logic.Function.Basic

/-!
# Ring buffers

A queue in `cap` slots, from `head` on, wrapping around. As long as no entry is pushed
into a full ring, none is overwritten: the ring holds the queue (`contents_push`,
`contents_pop`). An entry in the middle is removed by moving the ones behind it
(`contents_removeAt`).

Code computes the slot of a place as `(head + i) % cap` in machine words, where the sum is
reduced first. `Holds` says that the ring, read and written in words modulo `M`, is the queue:
it stays so as long as `head + len` is a word whenever an entry is pushed.
-/

structure RingBuffer (α : Type*) where
  slot : ℕ → α
  head : ℕ
  len : ℕ

namespace RingBuffer

open Function

variable {α : Type*} {cap : ℕ} {r : RingBuffer α}

/-- The entries, oldest first. -/
def contents (cap : ℕ) (r : RingBuffer α) : List α :=
  (List.range r.len).map fun i => r.slot ((r.head + i) % cap)

/-- Write behind the newest entry. -/
def push (cap : ℕ) (r : RingBuffer α) (x : α) : RingBuffer α where
  slot := update r.slot ((r.head + r.len) % cap) x
  head := r.head
  len := r.len + 1

/-- Drop the oldest entry. -/
def pop (cap : ℕ) (r : RingBuffer α) : RingBuffer α :=
  { r with head := (r.head + 1) % cap, len := r.len - 1 }

@[simp] theorem length_contents (cap : ℕ) (r : RingBuffer α) : (r.contents cap).length = r.len := by
  simp [contents]

/-- Different places of a ring are different slots. -/
theorem slot_ne {h i j : ℕ} (hij : i < j) (hj : j < cap) : (h + i) % cap ≠ (h + j) % cap := by
  intro heq
  have hmod : i ≡ j [MOD cap] := Nat.ModEq.add_left_cancel' h heq
  have hi := Nat.mod_eq_of_lt (hij.trans hj)
  have hj' := Nat.mod_eq_of_lt hj
  unfold Nat.ModEq at hmod
  omega

theorem contents_push (h : r.len < cap) (x : α) :
    (r.push cap x).contents cap = r.contents cap ++ [x] := by
  show (List.range (r.len + 1)).map
    (fun i => update r.slot ((r.head + r.len) % cap) x ((r.head + i) % cap)) = _
  rw [List.range_succ, List.map_append, List.map_singleton, update_self]
  congr 1
  refine List.map_congr_left fun i hi => ?_
  exact update_of_ne (slot_ne (List.mem_range.1 hi) h) x r.slot

theorem contents_pop {x : α} {rest : List α} (h : r.contents cap = x :: rest) :
    (r.pop cap).contents cap = rest := by
  have hlen : r.len = rest.length + 1 := by
    rw [← r.length_contents cap, h, List.length_cons]
  have htail : rest = (r.contents cap).tail := by rw [h, List.tail_cons]
  rw [htail, contents, contents, hlen, List.range_succ_eq_map, List.map_cons, List.tail_cons,
    List.map_map]
  show (List.range (r.len - 1)).map (fun i => r.slot (((r.head + 1) % cap + i) % cap)) = _
  rw [hlen, Nat.add_sub_cancel]
  refine List.map_congr_left fun i _ => ?_
  show r.slot _ = r.slot _
  rw [Nat.mod_add_mod, Nat.add_assoc, Nat.add_comm 1 i]

/-- The entry at the head is the oldest one. -/
theorem slot_head {x : α} {rest : List α} (hhead : r.head < cap) (h : r.contents cap = x :: rest) :
    r.slot r.head = x := by
  have hlen : r.len = rest.length + 1 := by
    rw [← r.length_contents cap, h, List.length_cons]
  rw [contents, hlen, List.range_succ_eq_map, List.map_cons, Nat.add_zero, Nat.mod_eq_of_lt hhead] at h
  exact (List.cons.inj h).1

theorem getElem?_contents {i : ℕ} (hi : i < r.len) :
    (r.contents cap)[i]? = some (r.slot ((r.head + i) % cap)) := by
  rw [contents, List.getElem?_map, List.getElem?_range hi]
  rfl

/-- Read from the head on until `x` is found. -/
theorem findIdx_contents [DecidableEq α] (cap : ℕ) (r : RingBuffer α) (x : α) :
    (List.range r.len).find? (fun i => r.slot ((r.head + i) % cap) = x) =
      if x ∈ r.contents cap then some ((r.contents cap).idxOf x) else none := by
  split
  · rename_i hx
    have hlt : (r.contents cap).idxOf x < r.len := by
      simpa using List.idxOf_lt_length_of_mem hx
    rw [List.find?_range_eq_some]
    simp only [decide_eq_true_eq, List.mem_range, Bool.not_eq_true', decide_eq_false_iff_not]
    refine ⟨?_, hlt, fun j hj heq => ?_⟩
    · have hget : (r.contents cap)[(r.contents cap).idxOf x]? = _ := getElem?_contents hlt
      rw [List.getElem?_eq_getElem (by simpa using hlt), List.getElem_idxOf] at hget
      exact (Option.some.inj hget).symm
    · have hget : (r.contents cap)[j]? = _ := getElem?_contents (hj.trans hlt)
      rw [List.getElem?_eq_getElem (by simpa using hj.trans hlt), heq] at hget
      exact ne_of_beq_false (List.not_of_lt_findIdx hj) (Option.some.inj hget)
  · rename_i hx
    rw [List.find?_range_eq_none]
    intro i hi
    rw [Bool.not_eq_true', decide_eq_false_iff_not]
    exact fun heq => hx (List.mem_map.2 ⟨i, List.mem_range.2 hi, heq⟩)

/-- Move the entries behind place `i` down by one place, from the front to the back. -/
def removeAt (cap i : ℕ) (r : RingBuffer α) : RingBuffer α where
  slot := (List.range' i (r.len - 1 - i)).foldl (fun slot j =>
    update slot ((r.head + j) % cap) (slot ((r.head + j + 1) % cap))) r.slot
  head := r.head
  len := r.len - 1

/-- After `m` moves the first `m` places from `i` on have the entry of the next place. -/
theorem foldl_shift (slot : ℕ → α) {h len i m k : ℕ} (hlen : len ≤ cap) (hm : i + m < len)
    (hk : k < len) : (List.range' i m).foldl (fun slot j =>
        update slot ((h + j) % cap) (slot ((h + j + 1) % cap))) slot ((h + k) % cap) =
      if i ≤ k ∧ k < i + m then slot ((h + k + 1) % cap) else slot ((h + k) % cap) := by
  induction m generalizing k with
  | zero => rw [if_neg (by omega)]; rfl
  | succ m ih =>
    rw [List.range'_1_concat, List.foldl_append, List.foldl_cons, List.foldl_nil]
    by_cases hki : k = i + m
    · -- the place written last
      have hnext := ih (k := i + m + 1) (by omega) (by omega)
      rw [if_neg (by omega)] at hnext
      rw [hki, update_self, if_pos (by omega)]
      exact hnext
    · have hne : (h + k) % cap ≠ (h + (i + m)) % cap := by
        rcases Nat.lt_or_gt_of_ne hki with hlt | hgt
        · exact slot_ne hlt (by omega)
        · exact (slot_ne hgt (by omega)).symm
      rw [update_of_ne hne, ih (by omega) hk]
      have hiff : (i ≤ k ∧ k < i + m) ↔ i ≤ k ∧ k < i + (m + 1) := by omega
      rw [if_congr hiff rfl rfl]

theorem contents_removeAt {i : ℕ} (hlen : r.len ≤ cap) (hi : i < r.len) :
    (r.removeAt cap i).contents cap = (r.contents cap).eraseIdx i := by
  refine List.ext_getElem? fun k => ?_
  rw [List.getElem?_eraseIdx]
  -- the last place of the ring falls away
  by_cases hk : k < r.len - 1
  · have hget : ((r.removeAt cap i).contents cap)[k]? = _ := getElem?_contents hk
    have hshift := foldl_shift r.slot (h := r.head) (i := i) (m := r.len - 1 - i) (k := k) hlen (by omega)
      (by omega)
    rw [hget]
    refine (congrArg some hshift).trans ?_
    split
    · rw [if_neg (by omega), getElem?_contents (by omega), Nat.add_assoc]
    · rw [if_pos (by omega), getElem?_contents (by omega)]
  · rw [List.getElem?_eq_none (by simp [removeAt]; omega), if_neg (by omega),
      List.getElem?_eq_none (by simp; omega)]

/-! ## Places in machine words -/

/-- The slot of place `i`, on words modulo `M`. -/
def wordPos (M cap : ℕ) (r : RingBuffer α) (i : ℕ) : ℕ := (r.head + i) % M % cap

/-- The entries as the code reads them. -/
def entries (M cap : ℕ) (r : RingBuffer α) : List α :=
  (List.range r.len).map fun i => r.slot (r.wordPos M cap i)

def wordPush (M cap : ℕ) (r : RingBuffer α) (x : α) : RingBuffer α :=
  { r with slot := update r.slot (r.wordPos M cap r.len) x, len := r.len + 1 }

def wordPop (M cap : ℕ) (r : RingBuffer α) : RingBuffer α :=
  { r with head := r.wordPos M cap 1, len := r.len - 1 }

@[simp] theorem length_entries (M cap : ℕ) (r : RingBuffer α) : (r.entries M cap).length = r.len := by
  simp [entries]

/-- The ring holds the queue `q`, and no index of an entry wraps. -/
structure Holds (M cap : ℕ) (r : RingBuffer α) (q : List α) : Prop where
  contents : r.contents cap = q
  head : 0 < cap → r.head < cap
  len_le : r.len ≤ cap
  word : r.head + r.len ≤ M

section

variable {M : ℕ} {q rest : List α} {x : α}

theorem wordPos_of_lt {i : ℕ} (h : r.head + i < M) : r.wordPos M cap i = (r.head + i) % cap := by
  rw [wordPos, Nat.mod_eq_of_lt h]

theorem entries_eq_contents (h : r.head + r.len ≤ M) : r.entries M cap = r.contents cap := by
  refine List.map_congr_left fun i hi => ?_
  have hlt := List.mem_range.1 hi
  rw [wordPos_of_lt (by omega)]

theorem Holds.entries (h : Holds M cap r q) : r.entries M cap = q := by
  rw [entries_eq_contents h.word, h.contents]

theorem Holds.length (h : Holds M cap r q) : r.len = q.length := by
  rw [← h.contents, length_contents]

theorem Holds.empty (M cap : ℕ) (slot : ℕ → α) : Holds M cap ⟨slot, 0, 0⟩ [] where
  contents := rfl
  head := id
  len_le := Nat.zero_le _
  word := Nat.zero_le _

/-- An empty ring may start anywhere. -/
theorem Holds.of_len_eq_zero (hlen : r.len = 0) (hhead : r.head < cap) (hcap : cap ≤ M) :
    Holds M cap r [] where
  contents := by
    rw [RingBuffer.contents, hlen]
    rfl
  head := fun _ => hhead
  len_le := by omega
  word := by omega

theorem Holds.push (h : Holds M cap r q) (hroom : r.len < cap) (hword : r.head + r.len < M) (x : α) :
    Holds M cap (r.wordPush M cap x) (q ++ [x]) := by
  have hpush : r.wordPush M cap x = r.push cap x := by
    rw [wordPush, wordPos_of_lt hword]
    rfl
  rw [hpush]
  refine ⟨?_, h.head, hroom, hword⟩
  rw [contents_push hroom, h.contents]

theorem Holds.pop (h : Holds M cap r (x :: rest)) (hcap : cap < M) :
    Holds M cap (r.wordPop M cap) rest := by
  have hlen := h.length
  have hlen_le := h.len_le
  have hword := h.word
  rw [List.length_cons] at hlen
  have hhead := h.head (by omega)
  have hpop : r.wordPop M cap = r.pop cap := by
    rw [wordPop, wordPos_of_lt (by omega)]
    rfl
  have hle : (r.head + 1) % cap ≤ r.head + 1 := Nat.mod_le _ _
  rw [hpop]
  refine ⟨contents_pop h.contents, fun hpos => Nat.mod_lt _ hpos, ?_, ?_⟩
  · exact (Nat.sub_le _ _).trans hlen_le
  · show (r.head + 1) % cap + (r.len - 1) ≤ M
    omega

/-- In half as many slots as there are words no index wraps. -/
theorem Holds.lt_of_le_half (h : Holds M cap r q) (hcap : cap + cap ≤ M) (hroom : r.len < cap) :
    r.head + r.len < M := by
  have hhead := h.head (by omega)
  omega

end

end RingBuffer
