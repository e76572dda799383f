import Mathlib.Data.ENat.Lattice
import Mathlib.Data.Fintype.EquivFin

/-!
# Following a partial function

`follow f start k` applies the partial function `f` to `start` `k` times, and
`hits f start b` are the `k ≥ 1` after which it is at `b`. What is hit at all is hit within
as many steps as there are items (`IsLeast.le_card`): the first repeated item closes the orbit.
-/

namespace Orbit

variable {α : Type*} (f : α → Option α) (start : Option α)

def follow : ℕ → Option α
  | 0 => start
  | k + 1 => (follow k).bind f

def hits (b : α) : Set ℕ := {k | 1 ≤ k ∧ follow f start k = some b}

/-- The first step that arrives at `b`, `⊤` if none does. -/
noncomputable def hitTime (b : α) : ℕ∞ := ⨅ k ∈ hits f start b, (k : ℕ∞)

variable {f : α → Option α} {start : Option α} {a b c : α} {i j k : ℕ}

theorem follow_add_congr (h : follow f start i = follow f start j) (t : ℕ) :
    follow f start (i + t) = follow f start (j + t) := by
  induction t with
  | zero => exact h
  | succ t ih => exact congrArg (·.bind f) ih

/-- There is nothing behind the end of the chain. -/
theorem follow_eq_none (h : follow f start i = none) (hij : i ≤ j) : follow f start j = none := by
  induction j, hij using Nat.le_induction with
  | base => exact h
  | succ j _ ih => exact congrArg (·.bind f) ih

theorem follow_isSome (h : follow f start j = some b) (hij : i ≤ j) :
    ∃ a, follow f start i = some a := by
  rw [← Option.ne_none_iff_exists']
  intro hnone
  simp [follow_eq_none hnone hij] at h

theorem hits_none : hits f none b = ∅ := by
  refine Set.eq_empty_of_forall_notMem fun k hk => ?_
  have hnone : follow f none k = none := follow_eq_none (i := 0) rfl (Nat.zero_le k)
  cases hk.2.symm.trans hnone

/-- Once an item is repeated, every first hit has happened. -/
theorem lt_of_repeats (hb : IsLeast (hits f start b) k) (hi : 1 ≤ i) (hij : i < j)
    (h : follow f start i = follow f start j) : k < j := by
  by_contra hjk
  have hshift := follow_add_congr h (k - j)
  rw [show j + (k - j) = k by omega] at hshift
  have hearlier := hb.2 ⟨show 1 ≤ i + (k - j) by omega, hshift.trans hb.1.2⟩
  omega

/-- Nothing repeats on the way to a first hit. -/
theorem follow_injOn (hb : IsLeast (hits f start b) k) :
    Set.InjOn (follow f start) (Set.Icc 1 k) := by
  intro i hi j hj h
  rcases Nat.lt_trichotomy i j with hlt | heq | hgt
  · exact absurd hj.2 (Nat.not_le_of_lt (lt_of_repeats hb hi.1 hlt h))
  · exact heq
  · exact absurd hi.2 (Nat.not_le_of_lt (lt_of_repeats hb hj.1 hgt h.symm))

theorem eq_of_isLeast (hb : IsLeast (hits f start b) k) (hc : IsLeast (hits f start c) k) :
    b = c :=
  Option.some.inj (hb.1.2.symm.trans hc.1.2)

theorem exists_isLeast (h : k ∈ hits f start b) : ∃ m ≤ k, IsLeast (hits f start b) m :=
  ⟨sInf (hits f start b), Nat.sInf_le h, Nat.sInf_mem ⟨k, h⟩, fun _ hm => Nat.sInf_le hm⟩

theorem hitTime_eq (hb : IsLeast (hits f start b) k) : hitTime f start b = k :=
  le_antisymm (iInf₂_le k hb.1) (le_iInf₂ fun _ hm => Nat.cast_le.2 (hb.2 hm))

theorem hitTime_eq_top (hb : hits f start b = ∅) : hitTime f start b = ⊤ := by
  simp [hitTime, hb]

section Finite

variable [DecidableEq α]

/-- As many distinct items as steps are on the way to a first hit. -/
theorem card_image_follow (hb : IsLeast (hits f start b) k) :
    ((Finset.Icc 1 k).image (follow f start)).card = k := by
  have hinj : Set.InjOn (follow f start) (Finset.Icc 1 k) := by
    rw [Finset.coe_Icc]
    exact follow_injOn hb
  rw [Finset.card_image_of_injOn hinj, Nat.card_Icc, Nat.add_sub_cancel]

variable [Fintype α]

theorem image_follow_subset (hb : IsLeast (hits f start b) k) :
    (Finset.Icc 1 k).image (follow f start) ⊆ Finset.univ.image some := by
  intro o ho
  obtain ⟨i, hi, rfl⟩ := Finset.mem_image.1 ho
  obtain ⟨a, ha⟩ := follow_isSome hb.1.2 (Finset.mem_Icc.1 hi).2
  exact Finset.mem_image.2 ⟨a, Finset.mem_univ a, ha.symm⟩

theorem card_image_some : (Finset.univ.image (some : α → Option α)).card = Fintype.card α :=
  Finset.card_image_of_injective _ (Option.some_injective α)

theorem le_card (hb : IsLeast (hits f start b) k) : k ≤ Fintype.card α := by
  have hle := Finset.card_le_card (image_follow_subset hb)
  rwa [card_image_follow hb, card_image_some] at hle

/-- Every item is hit exactly when the last possible step is a first hit. -/
theorem forall_hits_iff (hpos : 0 < Fintype.card α) :
    (∀ b, (hits f start b).Nonempty) ↔ ∃ b, IsLeast (hits f start b) (Fintype.card α) := by
  constructor
  · intro h
    have hleast : ∀ b, ∃ m, IsLeast (hits f start b) m := fun b =>
      (exists_isLeast (h b).choose_spec).imp fun _ hm => hm.2
    choose first hfirst using hleast
    -- the first hits are as many numbers from 1 on as there are items
    have hinj : Function.Injective first := fun b c hbc => eq_of_isLeast (hfirst b) (hbc ▸ hfirst c)
    have himage : Finset.univ.image first = Finset.Icc 1 (Fintype.card α) := by
      refine Finset.eq_of_subset_of_card_le ?_ (by simp [Finset.card_image_of_injective _ hinj])
      intro k hk
      obtain ⟨b, -, rfl⟩ := Finset.mem_image.1 hk
      exact Finset.mem_Icc.2 ⟨(hfirst b).1.1, le_card (hfirst b)⟩
    have hlast : Fintype.card α ∈ Finset.univ.image first := by
      rw [himage]
      exact Finset.mem_Icc.2 ⟨hpos, le_rfl⟩
    obtain ⟨b, -, hb⟩ := Finset.mem_image.1 hlast
    exact ⟨b, hb ▸ hfirst b⟩
  · rintro ⟨b, hb⟩ c
    -- so many distinct items are all of them
    have himage : (Finset.Icc 1 (Fintype.card α)).image (follow f start) =
        Finset.univ.image some := by
      refine Finset.eq_of_subset_of_card_le (image_follow_subset hb) ?_
      rw [card_image_follow hb, card_image_some]
    have hc : some c ∈ (Finset.Icc 1 (Fintype.card α)).image (follow f start) := by
      rw [himage]
      exact Finset.mem_image.2 ⟨c, Finset.mem_univ c, rfl⟩
    obtain ⟨k, hk, hkc⟩ := Finset.mem_image.1 hc
    exact ⟨k, (Finset.mem_Icc.1 hk).1, hkc⟩

end Finite

end Orbit
