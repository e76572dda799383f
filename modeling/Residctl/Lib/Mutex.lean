import Mathlib.Logic.Function.Basic
import Mathlib.Logic.Relation
import Mathlib.Order.Basic
import Mathlib.Order.Nat

/-!
# Mutexes and what their holders know

Threads move between program points; a point determines the locks held there
(`holds`) and the lock it waits for, if any. `Owned` says that the owner table agrees
with the points. A function of the holder's point, read through the owner
(`readAt`), changes only where the moving thread holds the lock.

Deadlock freedom is by ranks: when every edge of the waits-for relation between
waiting threads raises the rank of the point, the relation has no cycle.
-/

namespace Mutex

open Function

variable {T L P β : Type*}

/-- The owner table agrees with what the threads hold. -/
def Owned (holds : P → List L) (owner : L → Option T) (pc : T → P) : Prop :=
  ∀ t l, owner l = some t ↔ l ∈ holds (pc t)

/-- The owner table after thread `t` has moved to `p`. -/
def moveOwner [DecidableEq T] [DecidableEq L] (holds : P → List L) (owner : L → Option T) (t : T)
    (p : P) : L → Option T :=
  fun l => if l ∈ holds p then some t else if owner l = some t then none else owner l

variable {holds : P → List L} {owner : L → Option T} {pc : T → P}

/-- A move may keep, release, or take free locks. -/
theorem Owned.move [DecidableEq T] [DecidableEq L] (h : Owned holds owner pc) {t : T} {p : P}
    (hfree : ∀ l ∈ holds p, owner l = none ∨ owner l = some t) :
    Owned holds (moveOwner holds owner t p) (update pc t p) := by
  intro t' l
  unfold moveOwner
  by_cases ht : t' = t
  · subst ht
    rw [update_self]
    by_cases hl : l ∈ holds p
    · simp [hl]
    · rw [if_neg hl]
      split <;> simp_all
  · rw [update_of_ne ht, ← h t' l]
    by_cases hl : l ∈ holds p
    · rw [if_pos hl]
      rcases hfree l hl with hnone | hself
      · simp [hnone, Ne.symm ht]
      · simp [hself, Ne.symm ht]
    · rw [if_neg hl]
      split
      · simp_all [Ne.symm ht]
      · exact Iff.rfl

theorem Owned.unique (h : Owned holds owner pc) {t t' : T} {l : L} (ht : l ∈ holds (pc t))
    (ht' : l ∈ holds (pc t')) : t = t' := by
  have hsome := ((h t l).2 ht).symm.trans ((h t' l).2 ht')
  exact Option.some.inj hsome

/-! ## Reading through the owner -/

/-- What the holder's point says about lock `l`; `dflt` when the lock is free. -/
def readAt (f : P → L → β) (dflt : β) (owner : L → Option T) (pc : T → P) (l : L) : β :=
  match owner l with
  | some t => f (pc t) l
  | none => dflt

variable {f : P → L → β} {dflt : β}

theorem readAt_of_holds (h : Owned holds owner pc) {t : T} {l : L} (hl : l ∈ holds (pc t)) :
    readAt f dflt owner pc l = f (pc t) l := by
  rw [readAt, (h t l).2 hl]

theorem readAt_of_ne (h : Owned holds owner pc) (hf : ∀ p l, l ∉ holds p → f p l = dflt) {t : T}
    {l : L} (hl : f (pc t) l ≠ dflt) : readAt f dflt owner pc l = f (pc t) l :=
  readAt_of_holds h (by_contra fun hn => hl (hf _ _ hn))

/-- A move changes what is read only at locks held before or after it. -/
theorem readAt_move [DecidableEq T] [DecidableEq L] (h : Owned holds owner pc)
    (hf : ∀ p l, l ∉ holds p → f p l = dflt) (t : T) (p : P) (l : L) :
    readAt f dflt (moveOwner holds owner t p) (update pc t p) l =
      if l ∈ holds p ∨ l ∈ holds (pc t) then f p l else readAt f dflt owner pc l := by
  by_cases hl : l ∈ holds p
  · rw [if_pos (Or.inl hl), readAt, moveOwner, if_pos hl]
    simp
  · by_cases ht : l ∈ holds (pc t)
    · rw [if_pos (Or.inr ht), readAt, moveOwner, if_neg hl, if_pos ((h t l).2 ht), hf p l hl]
    · rw [if_neg (not_or.2 ⟨hl, ht⟩), readAt, moveOwner, if_neg hl,
        if_neg fun ho => ht ((h t l).1 ho), readAt]
      cases ho : owner l with
      | none => rfl
      | some t' =>
        have htt : t' ≠ t := fun he => ht ((h t l).1 (he ▸ ho))
        simp [htt]

/-! ## Waits-for -/

/-- `t` waits for a lock that `t'` holds. -/
def WaitsFor (waits : P → Option L) (owner : L → Option T) (pc : T → P) (t t' : T) : Prop :=
  ∃ l, waits (pc t) = some l ∧ owner l = some t'

/-- Ranks that rise along the waits-for relation exclude a deadlock. -/
theorem no_cycle {waits : P → Option L} (rank : P → ℕ)
    (hrank : ∀ t t', WaitsFor waits owner pc t t' → (waits (pc t')).isSome →
      rank (pc t) < rank (pc t')) (t : T) :
    ¬ Relation.TransGen (WaitsFor waits owner pc) t t := by
  have hwaits : ∀ a b, WaitsFor waits owner pc a b → (waits (pc a)).isSome := by
    rintro a b ⟨l, hl, -⟩
    rw [hl]
    rfl
  have hrise : ∀ b, Relation.TransGen (WaitsFor waits owner pc) t b → (waits (pc b)).isSome →
      rank (pc t) < rank (pc b) := by
    intro b hb
    induction hb with
    | single hedge => exact hrank _ _ hedge
    | tail _ hedge ih => exact fun hc => (ih (hwaits _ _ hedge)).trans (hrank _ _ hedge hc)
  intro hcycle
  obtain ⟨b, hfirst, -⟩ := Relation.TransGen.head'_iff.1 hcycle
  exact absurd (hrise t hcycle (hwaits _ _ hfirst)) (lt_irrefl _)

/-- Where the ranks are bounded, somebody at the end of the waits-for relation is not blocked. -/
theorem exists_unblocked {waits : P → Option L} (rank : P → ℕ) {bound : ℕ}
    (hbound : ∀ p, rank p ≤ bound)
    (hrank : ∀ t t', WaitsFor waits owner pc t t' → (waits (pc t')).isSome →
      rank (pc t) < rank (pc t')) (t : T) :
    ∃ t', Relation.ReflTransGen (WaitsFor waits owner pc) t t' ∧
      ∀ l, waits (pc t') = some l → owner l = none := by
  induction hr : bound - rank (pc t) using Nat.strong_induction_on generalizing t with
  | _ r ih =>
    by_cases hblocked : ∃ t', WaitsFor waits owner pc t t'
    · rcases hblocked with ⟨t', hedge⟩
      by_cases hwaits : (waits (pc t')).isSome = true
      · have hlt := hrank t t' hedge hwaits
        have hle := hbound (pc t')
        rcases ih _ (by omega) t' rfl with ⟨t'', hpath, hfree⟩
        exact ⟨t'', hpath.head hedge, hfree⟩
      · refine ⟨t', Relation.ReflTransGen.single hedge, fun l hl => absurd ?_ hwaits⟩
        rw [hl]
        rfl
    · refine ⟨t, Relation.ReflTransGen.refl, fun l hl => ?_⟩
      cases ho : owner l with
      | none => rfl
      | some t' => exact absurd ⟨t', l, hl, ho⟩ hblocked

end Mutex
