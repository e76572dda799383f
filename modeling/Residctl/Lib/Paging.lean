import Mathlib.Algebra.BigOperators.Group.Finset.Basic
import Mathlib.Algebra.Order.BigOperators.Group.Finset
import Mathlib.Algebra.Module.Defs
import Mathlib.Data.Finset.Card
import Mathlib.Order.Bounds.Basic
import Mathlib.Tactic.Ring

/-!
# Demand paging over a weighted cache

A reference string is served from a cache whose total weight never exceeds a
budget `B`; a reference that misses costs the weight of the item. Two classes of
schedules:

* `Demand`: items enter only on a miss, and only a miss evicts;
* `Serves`: additionally, any reference may evict (the class the exchange
  argument works in).

`Furthest` is the furthest-in-future rule over unit weights, as a relation, so
that every way of breaking ties is covered. `greedy_le` is the MIN theorem: such
a run costs at most what any schedule costs. It is proved for the larger class
`Greedy`, whose runs may hold more than the slots allow.
-/

namespace Paging

variable {α : Type*}

/-- Total weight of a cache. -/
def weight (w : α → ℕ) (C : Finset α) : ℕ := ∑ x ∈ C, w x

@[simp] theorem weight_empty (w : α → ℕ) : weight w ∅ = 0 := by simp [weight]

@[simp] theorem weight_one (C : Finset α) : weight (fun _ => 1) C = C.card := by
  simp [weight]

theorem weight_mono {w : α → ℕ} {C D : Finset α} (h : C ⊆ D) : weight w C ≤ weight w D :=
  Finset.sum_le_sum_of_subset h

theorem weight_const {w : α → ℕ} {L : ℕ} {C : Finset α} (h : ∀ x ∈ C, w x = L) :
    weight w C = C.card * L := by
  rw [weight, Finset.sum_congr rfl h, Finset.sum_const, smul_eq_mul]

variable [DecidableEq α]

/-- Schedules that may evict at any reference. After a reference to `c` the
cache holds `c`, unless `c` alone exceeds the budget. -/
inductive Serves (w : α → ℕ) (B : ℕ) : Finset α → List α → ℕ → Prop
  | nil {C} : Serves w B C [] 0
  | cons {C C' c refs m} (hsub : C' ⊆ insert c C) (hload : w c ≤ B → c ∈ C')
      (hfit : weight w C' ≤ B) (hrest : Serves w B C' refs m) :
      Serves w B C (c :: refs) ((if c ∈ C then 0 else w c) + m)

/-- Demand-paging schedules: a hit changes nothing; a miss loads the referenced
item (when it fits at all) and evicts arbitrary items to stay within budget. -/
inductive Demand (w : α → ℕ) (B : ℕ) : Finset α → List α → ℕ → Prop
  | nil {C} : Demand w B C [] 0
  | hit {C c refs m} (hc : c ∈ C) (hrest : Demand w B C refs m) :
      Demand w B C (c :: refs) m
  | miss {C D c refs m} (hc : c ∉ C) (hsub : D ⊆ insert c C)
      (hload : w c ≤ B → c ∈ D) (hfit : weight w D ≤ B) (hrest : Demand w B D refs m) :
      Demand w B C (c :: refs) (w c + m)

/-- Runs of the furthest-in-future rule over `cap` slots: on a miss with a full
cache the evicted item `f` has the latest next use in the remaining string
(`List.idxOf` is the length, hence maximal, for an item never used again). -/
inductive Furthest (cap : ℕ) : Finset α → List α → ℕ → Prop
  | nil {C} : Furthest cap C [] 0
  | hit {C c refs m} (hc : c ∈ C) (hrest : Furthest cap C refs m) :
      Furthest cap C (c :: refs) m
  | bypass {C c refs m} (hc : c ∉ C) (hcap : cap = 0) (hrest : Furthest cap C refs m) :
      Furthest cap C (c :: refs) (m + 1)
  | fill {C c refs m} (hc : c ∉ C) (hroom : C.card < cap)
      (hrest : Furthest cap (insert c C) refs m) : Furthest cap C (c :: refs) (m + 1)
  | evict {C c f refs m} (hc : c ∉ C) (hfull : C.card = cap) (hf : f ∈ C)
      (hmax : ∀ e ∈ C, refs.idxOf e ≤ refs.idxOf f)
      (hrest : Furthest cap (insert c (C.erase f)) refs m) :
      Furthest cap C (c :: refs) (m + 1)

/-- Repeated eviction of an item furthest in `refs`, only while the slots are full. -/
inductive Drops (cap : ℕ) (refs : List α) : Finset α → Finset α → Prop
  | refl {C} : Drops cap refs C C
  | evict {C D f} (hfull : cap ≤ C.card) (hf : f ∈ C)
      (hmax : ∀ e ∈ C, refs.idxOf e ≤ refs.idxOf f) (hrest : Drops cap refs (C.erase f) D) :
      Drops cap refs C D

/-- Runs that evict only furthest items and only while at least `cap` slots are in
use. They may hold more than `cap` items. -/
inductive Greedy (cap : ℕ) : Finset α → List α → ℕ → Prop
  | nil {C} : Greedy cap C [] 0
  | hit {C c refs m} (hc : c ∈ C) (hrest : Greedy cap C refs m) : Greedy cap C (c :: refs) m
  | bypass {C c refs m} (hc : c ∉ C) (hcap : cap = 0) (hrest : Greedy cap C refs m) :
      Greedy cap C (c :: refs) (m + 1)
  | miss {C D c refs m} (hc : c ∉ C) (hcap : 1 ≤ cap) (hdrops : Drops cap refs C D)
      (hrest : Greedy cap (insert c D) refs m) : Greedy cap C (c :: refs) (m + 1)

/-! ## Weights -/

theorem weight_insert {w : α → ℕ} {C : Finset α} {c : α} (hc : c ∉ C) :
    weight w (insert c C) = w c + weight w C := Finset.sum_insert hc

theorem weight_erase_add {w : α → ℕ} {C : Finset α} {c : α} (hc : c ∈ C) :
    weight w (C.erase c) + w c = weight w C := Finset.sum_erase_add C w hc

/-- Replacing an item by one of the same weight keeps the total. -/
theorem weight_swap {w : α → ℕ} {C : Finset α} {p q : α} (hp : p ∉ C) (hq : q ∈ C)
    (hw : w p = w q) : weight w (insert p (C.erase q)) = weight w C := by
  have hpe : p ∉ C.erase q := fun h => hp (Finset.mem_of_mem_erase h)
  rw [weight_insert hpe, hw, Nat.add_comm, weight_erase_add hq]

theorem card_replace {C : Finset α} {c f : α} (hc : c ∉ C) (hf : f ∈ C) :
    C.card = (insert c (C.erase f)).card := by
  have hw := weight_swap (w := fun _ => 1) hc hf rfl
  rw [weight_one, weight_one] at hw
  exact hw.symm

/-! ## Next uses -/

/-- The position of the next reference to `c` when `refs` starts at position `k`, or
`inf`. -/
def nextUse (inf : ℕ) (c : α) (k : ℕ) (refs : List α) : ℕ :=
  if c ∈ refs then k + refs.idxOf c else inf

/-- Passing a reference to another item does not move a next use. -/
theorem nextUse_cons_ne {inf : ℕ} {c x : α} (hx : c ≠ x) (k : ℕ) (refs : List α) :
    nextUse inf c k (x :: refs) = nextUse inf c (k + 1) refs := by
  have hk : k + (refs.idxOf c + 1) = k + 1 + refs.idxOf c := by omega
  simp [nextUse, hx, List.idxOf_cons_ne _ (Ne.symm hx), hk]

@[simp] theorem nextUse_cons_self {inf : ℕ} (c : α) (k : ℕ) (refs : List α) :
    nextUse inf c k (c :: refs) = k := by
  simp [nextUse]

/-- Next uses order items by their first position in the remaining string. -/
theorem idxOf_le_of_nextUse_le {inf : ℕ} {e f : α} {k : ℕ} {refs : List α}
    (hk : k + refs.length ≤ inf) (h : nextUse inf e k refs ≤ nextUse inf f k refs) :
    refs.idxOf e ≤ refs.idxOf f := by
  unfold nextUse at h
  by_cases hf : f ∈ refs
  · have hlt := List.idxOf_lt_length_iff.2 hf
    by_cases he : e ∈ refs
    · rw [if_pos he, if_pos hf] at h
      omega
    · rw [if_neg he, if_pos hf] at h
      omega
  · rw [List.idxOf_eq_length_iff.2 hf]
    exact List.idxOf_le_length

/-! ## Monotonicity and exchange -/

theorem Demand.serves {w : α → ℕ} {B : ℕ} {C : Finset α} {refs : List α} {m : ℕ}
    (h : Demand w B C refs m) (hC : weight w C ≤ B) : Serves w B C refs m := by
  induction h with
  | nil => exact Serves.nil
  | hit hc _ ih =>
    have hs := Serves.cons (Finset.subset_insert _ _) (fun _ => hc) hC (ih hC)
    simpa [hc] using hs
  | miss hc hsub hload hfit _ ih =>
    have hs := Serves.cons hsub hload hfit (ih hfit)
    simpa [hc] using hs

/-- A larger cache serves the string at most as expensively. -/
theorem Serves.mono {w : α → ℕ} {B : ℕ} {C D : Finset α} {refs : List α} {m : ℕ}
    (h : Serves w B C refs m) (hCD : C ⊆ D) : ∃ m' ≤ m, Serves w B D refs m' := by
  cases h with
  | nil => exact ⟨0, le_rfl, Serves.nil⟩
  | @cons C C' c refs m hsub hload hfit hrest =>
    refine ⟨(if c ∈ D then 0 else w c) + m, ?_,
      Serves.cons (hsub.trans (Finset.insert_subset_insert c hCD)) hload hfit hrest⟩
    have hcost : (if c ∈ D then 0 else w c) ≤ if c ∈ C then 0 else w c := by
      split_ifs with hD hC hC
      · exact le_rfl
      · exact Nat.zero_le _
      · exact absurd (hCD hC) hD
      · exact le_rfl
    omega

/-- Giving up one item `q` costs at most one load of `q`. -/
theorem Serves.erase {w : α → ℕ} {B : ℕ} {C : Finset α} {refs : List α} {m : ℕ} (q : α)
    (h : Serves w B C refs m) : ∃ m' ≤ m + w q, Serves w B (C.erase q) refs m' := by
  induction h with
  | nil => exact ⟨0, Nat.zero_le _, Serves.nil⟩
  | @cons C C' c refs m hsub hload hfit hrest ih =>
    by_cases hcq : c = q
    · -- the reference is to `q` itself: reload it and rejoin the original schedule
      subst hcq
      have hsub' : C' ⊆ insert c (C.erase c) := by
        intro x hx
        have := hsub hx
        simp only [Finset.mem_insert, Finset.mem_erase] at this ⊢
        tauto
      refine ⟨_, ?_, Serves.cons hsub' hload hfit hrest⟩
      rw [if_neg (Finset.notMem_erase c C)]
      omega
    · obtain ⟨m', hm', hs⟩ := ih
      have hsub' : C'.erase q ⊆ insert c (C.erase q) := by
        intro x hx
        have hx' := hsub (Finset.mem_of_mem_erase hx)
        have hxq := Finset.ne_of_mem_erase hx
        simp only [Finset.mem_insert, Finset.mem_erase] at hx' ⊢
        tauto
      refine ⟨_, ?_, Serves.cons hsub' (fun hc => Finset.mem_erase.2 ⟨hcq, hload hc⟩)
        ((weight_mono (Finset.erase_subset q C')).trans hfit) hs⟩
      have hmem : c ∈ C.erase q ↔ c ∈ C := by simp [Finset.mem_erase, hcq]
      simp only [hmem]
      omega

/-- The exchange step: holding `p` instead of `q` is at most as expensive when
`p` is needed no later than `q` and both weigh the same. -/
theorem Serves.exchange {w : α → ℕ} {B : ℕ} {p q : α} (hw : w p = w q) {C : Finset α}
    {refs : List α} {m : ℕ} (h : Serves w B C refs m) (hp : p ∉ C) (hq : q ∈ C)
    (hpq : refs.idxOf p ≤ refs.idxOf q) :
    ∃ m' ≤ m, Serves w B (insert p (C.erase q)) refs m' := by
  induction h with
  | nil => exact ⟨0, le_rfl, Serves.nil⟩
  | @cons C C' c refs m hsub hload hfit hrest ih =>
    have hne : p ≠ q := fun h => hp (h ▸ hq)
    have hcq : c ≠ q := by
      rintro rfl
      rw [List.idxOf_cons_self, List.idxOf_cons_ne _ hne.symm] at hpq
      omega
    by_cases hcp : c = p
    · -- `p` is referenced: the new cache hits, the old one pays for `p`
      subst hcp
      obtain ⟨m', hm', hs⟩ := hrest.erase q
      have hsub' : C'.erase q ⊆ insert c (insert c (C.erase q)) := by
        intro x hx
        have hx' := hsub (Finset.mem_of_mem_erase hx)
        have hxq := Finset.ne_of_mem_erase hx
        simp only [Finset.mem_insert, Finset.mem_erase] at hx' ⊢
        tauto
      refine ⟨_, ?_, Serves.cons hsub' (fun hc => Finset.mem_erase.2 ⟨hcq, hload hc⟩)
        ((weight_mono (Finset.erase_subset q C')).trans hfit) hs⟩
      rw [if_pos (Finset.mem_insert_self _ _), if_neg hp, hw]
      omega
    · have hmem : c ∈ insert p (C.erase q) ↔ c ∈ C := by
        simp [Finset.mem_erase, hcp, hcq]
      have hpC' : p ∉ C' := by
        intro h
        rcases Finset.mem_insert.1 (hsub h) with h' | h'
        · exact hcp h'.symm
        · exact hp h'
      by_cases hqC' : q ∈ C'
      · have hpq' : refs.idxOf p ≤ refs.idxOf q := by
          rw [List.idxOf_cons_ne _ hcp, List.idxOf_cons_ne _ hcq] at hpq
          omega
        obtain ⟨m', hm', hs⟩ := ih hpC' hqC' hpq'
        have hsub' : insert p (C'.erase q) ⊆ insert c (insert p (C.erase q)) := by
          intro x hx
          simp only [Finset.mem_insert, Finset.mem_erase] at hx ⊢
          rcases hx with rfl | ⟨hxq, hx⟩
          · exact Or.inr (Or.inl rfl)
          · have := hsub hx
            simp only [Finset.mem_insert] at this
            tauto
        refine ⟨_, ?_, Serves.cons hsub' (fun hc => ?_) ?_ hs⟩
        · simp only [hmem]
          omega
        · exact Finset.mem_insert_of_mem (Finset.mem_erase.2 ⟨hcq, hload hc⟩)
        · rwa [weight_swap hpC' hqC' hw]
      · -- the schedule drops `q` now: both caches can become `C'`
        have hsub' : C' ⊆ insert c (insert p (C.erase q)) := by
          intro x hx
          have hx' := hsub hx
          have hxq : x ≠ q := fun h => hqC' (h ▸ hx)
          simp only [Finset.mem_insert, Finset.mem_erase] at hx' ⊢
          tauto
        refine ⟨_, ?_, Serves.cons hsub' hload hfit hrest⟩
        simp only [hmem]
        exact le_rfl

/-! ## Optimality of the furthest-in-future rule -/

/-- A furthest-in-future run is itself a demand-paging schedule. -/
theorem Furthest.demand {cap : ℕ} {C : Finset α} {refs : List α} {m : ℕ}
    (h : Furthest cap C refs m) (hC : C.card ≤ cap) :
    Demand (fun _ => 1) cap C refs m := by
  induction h with
  | nil => exact Demand.nil
  | hit hc _ ih => exact Demand.hit hc (ih hC)
  | bypass hc hcap _ ih =>
    rw [Nat.add_comm]
    exact Demand.miss hc (Finset.subset_insert _ _) (fun h => by omega) (by simpa using hC) (ih hC)
  | @fill C c refs m hc hroom _ ih =>
    have hcard : (insert c C).card ≤ cap := by rw [Finset.card_insert_of_notMem hc]; omega
    rw [Nat.add_comm]
    exact Demand.miss hc (Finset.Subset.refl _) (fun _ => Finset.mem_insert_self _ _)
      (by simpa using hcard) (ih hcard)
  | @evict C c f refs m hc hfull hf hmax _ ih =>
    have hcard : (insert c (C.erase f)).card ≤ cap := card_replace hc hf ▸ hC
    rw [Nat.add_comm]
    exact Demand.miss hc (Finset.insert_subset_insert c (Finset.erase_subset f C))
      (fun _ => Finset.mem_insert_self _ _) (by simpa using hcard) (ih hcard)

/-- A schedule that keeps at most `cap` items of `insert c C` is no cheaper than
one that also does without a furthest item of `C`, when `C` fills the slots. -/
theorem Serves.drop_furthest {cap : ℕ} {C C' : Finset α} {c f : α} {refs : List α} {m : ℕ}
    (hc : c ∉ C) (hfull : cap ≤ C.card) (hf : f ∈ C)
    (hmax : ∀ e ∈ C, refs.idxOf e ≤ refs.idxOf f) (hsub : C' ⊆ insert c C) (hload : c ∈ C')
    (hfit : C'.card ≤ cap) (h : Serves (fun _ => 1) cap C' refs m) :
    ∃ C'' ⊆ insert c (C.erase f), c ∈ C'' ∧ C''.card ≤ cap ∧
      ∃ m' ≤ m, Serves (fun _ => 1) cap C'' refs m' := by
  have hfc : f ≠ c := fun h => hc (h ▸ hf)
  by_cases hfC' : f ∈ C'
  · -- `C'` keeps `f`, so it dropped some other `e` of `C`: exchange `e` for `f`
    obtain ⟨e, heC, heC'⟩ : ∃ e ∈ C, e ∉ C' := by
      by_contra hall
      push Not at hall
      have hle := Finset.card_le_card (Finset.insert_subset hload hall)
      rw [Finset.card_insert_of_notMem hc] at hle
      omega
    have hef : e ≠ f := fun h => heC' (h ▸ hfC')
    obtain ⟨m', hm', hs⟩ := h.exchange (p := e) (q := f) rfl heC' hfC' (hmax e heC)
    refine ⟨insert e (C'.erase f), fun x hx => ?_, ?_, ?_, m', hm', hs⟩
    · simp only [Finset.mem_insert, Finset.mem_erase] at hx ⊢
      rcases hx with rfl | ⟨hxf, hx⟩
      · exact Or.inr ⟨hef, heC⟩
      · exact (Finset.mem_insert.1 (hsub hx)).imp id fun hxC => ⟨hxf, hxC⟩
    · exact Finset.mem_insert_of_mem (Finset.mem_erase.2 ⟨hfc.symm, hload⟩)
    · exact (card_replace heC' hfC').symm.trans_le hfit
  · refine ⟨C', fun x hx => ?_, hload, hfit, m, le_rfl, h⟩
    have hxf : x ≠ f := fun h => hfC' (h ▸ hx)
    rw [Finset.mem_insert, Finset.mem_erase]
    exact (Finset.mem_insert.1 (hsub hx)).imp id fun hxC => ⟨hxf, hxC⟩

theorem Drops.serves {cap : ℕ} {refs : List α} {C D : Finset α} (h : Drops cap refs C D) {c : α}
    {C' : Finset α} {m : ℕ} (hc : c ∉ C) (hsub : C' ⊆ insert c C) (hload : c ∈ C')
    (hfit : C'.card ≤ cap) (hs : Serves (fun _ => 1) cap C' refs m) :
    ∃ m' ≤ m, Serves (fun _ => 1) cap (insert c D) refs m' := by
  induction h generalizing C' m with
  | refl => exact hs.mono hsub
  | evict hfull hf hmax _ ih =>
    obtain ⟨C'', hsub', hload', hfit', m₁, hm₁, h₁⟩ :=
      hs.drop_furthest hc hfull hf hmax hsub hload hfit
    obtain ⟨m₂, hm₂, h₂⟩ := ih (fun h => hc (Finset.mem_of_mem_erase h)) hsub' hload' hfit' h₁
    exact ⟨m₂, hm₂.trans hm₁, h₂⟩

/-- The MIN theorem: no schedule over `cap` slots is cheaper than a run that only
ever evicts furthest items, and only while it fills those slots. -/
theorem greedy_le {cap : ℕ} {C : Finset α} {refs : List α} {m m' : ℕ} (h : Greedy cap C refs m)
    (h' : Serves (fun _ => 1) cap C refs m') : m ≤ m' := by
  induction h generalizing m' with
  | nil => exact Nat.zero_le _
  | @hit C c refs m hc _ ih =>
    cases h' with
    | cons hsub hload hfit hrest =>
      rw [Finset.insert_eq_of_mem hc] at hsub
      obtain ⟨k, hk, hs⟩ := hrest.mono hsub
      have := ih hs
      omega
  | @bypass C c refs m hc hcap _ ih =>
    cases h' with
    | @cons _ C' _ _ k hsub hload hfit hrest =>
      have hC' : C' ⊆ C := by
        have : C' = ∅ := by simpa [hcap] using hfit
        simp [this]
      obtain ⟨k', hk', hs⟩ := hrest.mono hC'
      have := ih hs
      rw [if_neg hc]
      omega
  | @miss C D c refs m hc hcap hdrops _ ih =>
    cases h' with
    | cons hsub hload hfit hrest =>
      obtain ⟨k, hk, hs⟩ := hdrops.serves hc hsub (hload hcap) (by simpa using hfit) hrest
      have := ih hs
      rw [if_neg hc]
      omega

theorem Furthest.greedy {cap : ℕ} {C : Finset α} {refs : List α} {m : ℕ}
    (h : Furthest cap C refs m) (hC : C.card ≤ cap) : Greedy cap C refs m := by
  induction h with
  | nil => exact Greedy.nil
  | hit hc _ ih => exact Greedy.hit hc (ih hC)
  | bypass hc hcap _ ih => exact Greedy.bypass hc hcap (ih hC)
  | @fill C c refs m hc hroom _ ih =>
    exact Greedy.miss hc (by omega) Drops.refl
      (ih (by rw [Finset.card_insert_of_notMem hc]; omega))
  | @evict C c f refs m hc hfull hf hmax _ ih =>
    have hpos : 0 < C.card := Finset.card_pos.2 ⟨f, hf⟩
    exact Greedy.miss hc (by omega) (Drops.evict hfull.ge hf hmax Drops.refl)
      (ih (card_replace hc hf ▸ hC))

/-- The cost of a furthest-in-future run is the minimum over all demand-paging
schedules. -/
theorem Furthest.isLeast {cap : ℕ} {refs : List α} {m : ℕ} (h : Furthest cap ∅ refs m) :
    IsLeast {k | Demand (fun _ => 1) cap (∅ : Finset α) refs k} m := by
  refine ⟨h.demand (by simp), fun k hk => ?_⟩
  exact greedy_le (h.greedy (by simp)) (Demand.serves hk (by simp))

/-- All furthest-in-future runs cost the same, however ties are broken. -/
theorem Furthest.cost_unique {cap : ℕ} {refs : List α} {m m' : ℕ}
    (h : Furthest cap (∅ : Finset α) refs m) (h' : Furthest cap ∅ refs m') : m = m' :=
  h.isLeast.unique h'.isLeast

/-! ## Compulsory misses -/

/-- With a slot for every item nothing is ever evicted. -/
theorem Demand.of_room {cap : ℕ} {refs : List α} {C : Finset α}
    (h : (C ∪ refs.toFinset).card ≤ cap) :
    Demand (fun _ => 1) cap C refs (refs.toFinset \ C).card := by
  induction refs generalizing C with
  | nil => simpa using Demand.nil
  | cons c refs ih =>
    by_cases hc : c ∈ C
    · have hunion : C ∪ (c :: refs).toFinset = C ∪ refs.toFinset := by
        rw [List.toFinset_cons, Finset.union_insert,
          Finset.insert_eq_of_mem (Finset.mem_union_left _ hc)]
      rw [List.toFinset_cons, Finset.insert_sdiff_of_mem _ hc]
      exact Demand.hit hc (ih (hunion ▸ h))
    · have hunion : C ∪ (c :: refs).toFinset = insert c C ∪ refs.toFinset := by
        rw [List.toFinset_cons, Finset.union_insert, Finset.insert_union]
      have hset : (c :: refs).toFinset \ C = insert c (refs.toFinset \ insert c C) := by
        ext x
        simp only [List.toFinset_cons, Finset.mem_sdiff, Finset.mem_insert]
        by_cases hx : x = c
        · subst hx; simp [hc]
        · simp [hx]
      rw [hunion] at h
      have hcard : (insert c C).card ≤ cap :=
        (Finset.card_le_card Finset.subset_union_left).trans h
      rw [hset, Finset.card_insert_of_notMem (by simp), Nat.add_comm]
      exact Demand.miss hc (Finset.Subset.refl _) (fun _ => Finset.mem_insert_self _ _)
        (by simpa using hcard) (ih h)

/-- Every item that is referenced and not cached is loaded at least once. -/
theorem Serves.compulsory {w : α → ℕ} {B : ℕ} {C : Finset α} {refs : List α} {m : ℕ}
    (h : Serves w B C refs m) : weight w (refs.toFinset \ C) ≤ m := by
  induction h with
  | nil => simp
  | @cons C C' c refs m hsub hload hfit hrest ih =>
    have hcover : (c :: refs).toFinset \ C ⊆ (if c ∈ C then ∅ else {c}) ∪ (refs.toFinset \ C') := by
      intro x hx
      simp only [List.toFinset_cons, Finset.mem_sdiff, Finset.mem_insert] at hx
      by_cases hxc : x = c
      · subst hxc; simp [hx.2]
      · have hxC' : x ∉ C' := fun h => (Finset.mem_insert.1 (hsub h)).elim hxc hx.2
        exact Finset.mem_union_right _ (Finset.mem_sdiff.2 ⟨hx.1.resolve_left hxc, hxC'⟩)
    have hone : weight w (if c ∈ C then ∅ else {c}) = if c ∈ C then 0 else w c := by
      split_ifs <;> simp [weight]
    calc weight w ((c :: refs).toFinset \ C)
        ≤ weight w ((if c ∈ C then ∅ else {c}) ∪ (refs.toFinset \ C')) := weight_mono hcover
      _ ≤ weight w (if c ∈ C then ∅ else {c}) + weight w (refs.toFinset \ C') := by
          rw [weight, weight, weight, ← Finset.sum_union_inter]
          exact Nat.le_add_right _ _
      _ ≤ (if c ∈ C then 0 else w c) + m := by omega

/-- A schedule of two strings in a row, cut between them. -/
theorem Serves.append {w : α → ℕ} {B : ℕ} {C : Finset α} {refs refs' : List α} {m : ℕ}
    (h : Serves w B C (refs ++ refs') m) (hC : weight w C ≤ B) :
    ∃ D k l, weight w D ≤ B ∧ Serves w B C refs k ∧ Serves w B D refs' l ∧ m = k + l := by
  induction refs generalizing C m with
  | nil => exact ⟨C, 0, m, hC, Serves.nil, h, (Nat.zero_add m).symm⟩
  | cons c refs ih =>
    rw [List.cons_append] at h
    cases h with
    | cons hsub hload hfit hrest =>
      obtain ⟨D, k, l, hD, hk, hl, rfl⟩ := ih hrest hfit
      exact ⟨D, _, l, hD, Serves.cons hsub hload hfit hk, hl, (Nat.add_assoc _ _ _).symm⟩

/-- A pass loads at least the items that do not fit beside each other. -/
theorem Serves.pass_le {cap : ℕ} {C : Finset α} {pass : List α} {m : ℕ}
    (h : Serves (fun _ => 1) cap C pass m) (hC : C.card ≤ cap) : pass.toFinset.card - cap ≤ m := by
  have hload := h.compulsory
  rw [weight_one] at hload
  have hsplit := Finset.le_card_sdiff C pass.toFinset
  omega

/-- Passes over the same items, the first from an empty cache. -/
theorem Serves.passes_le {cap : ℕ} {pass : List α} {p m : ℕ}
    (h : Serves (fun _ => 1) cap ∅ (List.replicate (p + 1) pass).flatten m) :
    pass.toFinset.card + p * (pass.toFinset.card - cap) ≤ m := by
  -- a later pass starts from any cache that fits
  have hlater : ∀ (p : ℕ) (C : Finset α) (m : ℕ), C.card ≤ cap →
      Serves (fun _ => 1) cap C (List.replicate p pass).flatten m →
      p * (pass.toFinset.card - cap) ≤ m := by
    intro p
    induction p with
    | zero => simp
    | succ p ih =>
      intro C m hC h
      rw [List.replicate_succ, List.flatten_cons] at h
      obtain ⟨D, k, l, hD, hk, hl, rfl⟩ := h.append (by rwa [weight_one])
      rw [weight_one] at hD
      have hfirst := hk.pass_le hC
      have hrest := ih D l hD hl
      rw [Nat.succ_mul]
      omega
  rw [List.replicate_succ, List.flatten_cons] at h
  obtain ⟨D, k, l, hD, hk, hl, rfl⟩ := h.append (by simp)
  rw [weight_one] at hD
  have hload := hk.compulsory
  rw [Finset.sdiff_empty, weight_one] at hload
  have hrest := hlater p D l hD hl
  omega

/-! ## Equal weights -/

/-- With equal weights a byte-budget schedule is a slot schedule. -/
theorem Serves.to_slots {w : α → ℕ} {B L : ℕ} (hL : 0 < L) {C : Finset α} {refs : List α}
    {m : ℕ} (h : Serves w B C refs m) (hC : ∀ x ∈ C, w x = L) (hrefs : ∀ x ∈ refs, w x = L) :
    ∃ k, m = k * L ∧ Serves (fun _ => 1) (B / L) C refs k := by
  induction h with
  | nil => exact ⟨0, by simp, Serves.nil⟩
  | @cons C C' c refs m hsub hload hfit hrest ih =>
    have hcL : w c = L := hrefs c (by simp)
    have hC' : ∀ x ∈ C', w x = L := by
      intro x hx
      rcases Finset.mem_insert.1 (hsub hx) with rfl | hx'
      · exact hcL
      · exact hC x hx'
    obtain ⟨k, rfl, hk⟩ := ih hC' fun x hx => hrefs x (by simp [hx])
    have hcard : C'.card ≤ B / L := by
      rw [weight_const hC'] at hfit
      exact (Nat.le_div_iff_mul_le hL).2 hfit
    refine ⟨_, ?_, Serves.cons hsub (fun h1 => hload ?_) (by simpa using hcard) hk⟩
    · split_ifs with hc
      · simp
      · rw [hcL]; ring
    · rw [hcL]
      exact (Nat.one_le_div_iff hL).1 h1

end Paging
