import Mathlib.Order.Lattice
import Mathlib.Data.List.Basic

/-!
# Linear scans for a best candidate

`scanBest` walks a list and keeps the first candidate that no later one is
`better` than. With `better` the strict order of a key the result is the first
candidate of maximal key.
-/

namespace Scan

variable {ι : Type*} (cand : ι → Prop) [DecidablePred cand]

/-- One iteration: replace the best so far by a better candidate. -/
def scanStep (better : ι → ι → Prop) [DecidableRel better] (best : Option ι) (i : ι) : Option ι :=
  if cand i then
    match best with
    | none => some i
    | some b => if better i b then some i else some b
  else best

def scanBest (better : ι → ι → Prop) [DecidableRel better] (l : List ι) : Option ι :=
  l.foldl (scanStep cand better) none

variable {β : Type*} [LinearOrder β] (key : ι → β)

/-- The first candidate of maximal key in `l`; `none` when there is no candidate. -/
def BestOf (cand : ι → Prop) (key : ι → β) (l : List ι) : Option ι → Prop
  | none => ∀ i ∈ l, ¬ cand i
  | some v => cand v ∧ ∃ l₁ l₂, l = l₁ ++ v :: l₂ ∧ (∀ i ∈ l₁, cand i → key i < key v) ∧
      ∀ i ∈ l₂, cand i → key i ≤ key v

variable {cand} {better : ι → ι → Prop} [DecidableRel better]

/-- One iteration extends the scanned prefix by one item. -/
theorem BestOf.step {key : ι → β} (hbetter : ∀ i b, better i b ↔ key b < key i) {l : List ι}
    {best : Option ι} (h : BestOf cand key l best) (i : ι) :
    BestOf cand key (l ++ [i]) (scanStep cand better best i) := by
  unfold scanStep
  by_cases hi : cand i
  · rw [if_pos hi]
    cases best with
    | none =>
      -- the first candidate
      exact ⟨hi, l, [], rfl, fun j hj hc => absurd hc (h j hj), by simp⟩
    | some b =>
      obtain ⟨hb, l₁, l₂, rfl, h₁, h₂⟩ := h
      dsimp only
      by_cases hib : better i b
      · rw [if_pos hib]
        have hlt := (hbetter i b).1 hib
        refine ⟨hi, l₁ ++ b :: l₂, [], rfl, fun j hj hc => ?_, by simp⟩
        rcases List.mem_append.1 hj with hj | hj
        · exact (h₁ j hj hc).trans hlt
        · rcases List.mem_cons.1 hj with rfl | hj
          · exact hlt
          · exact (h₂ j hj hc).trans_lt hlt
      · rw [if_neg hib]
        refine ⟨hb, l₁, l₂ ++ [i], by simp, h₁, fun j hj hc => ?_⟩
        rcases List.mem_append.1 hj with hj | hj
        · exact h₂ j hj hc
        · rw [List.mem_singleton.1 hj]
          exact le_of_not_gt fun hlt => hib ((hbetter i b).2 hlt)
  · rw [if_neg hi]
    cases best with
    | none =>
      intro j hj
      rcases List.mem_append.1 hj with hj | hj
      · exact h j hj
      · rwa [List.mem_singleton.1 hj]
    | some b =>
      obtain ⟨hb, l₁, l₂, rfl, h₁, h₂⟩ := h
      refine ⟨hb, l₁, l₂ ++ [i], by simp, h₁, fun j hj hc => ?_⟩
      rcases List.mem_append.1 hj with hj | hj
      · exact h₂ j hj hc
      · exact absurd (List.mem_singleton.1 hj ▸ hc) hi

/-- The scan returns the first candidate of maximal key. -/
theorem scanBest_bestOf (hbetter : ∀ i b, better i b ↔ key b < key i) (l : List ι) :
    BestOf cand key l (scanBest cand better l) := by
  suffices h : ∀ (rest seen : List ι) (best : Option ι), BestOf cand key seen best →
      BestOf cand key (seen ++ rest) (rest.foldl (scanStep cand better) best) by
    exact h l [] none (by simp [BestOf])
  intro rest
  induction rest with
  | nil => intro seen best hb; simpa using hb
  | cons i rest ih =>
    intro seen best hb
    have hnext := ih (seen ++ [i]) _ (hb.step hbetter i)
    simpa using hnext

theorem scanBest_some (hbetter : ∀ i b, better i b ↔ key b < key i) {l : List ι} {v : ι}
    (h : scanBest cand better l = some v) :
    cand v ∧ v ∈ l ∧ ∀ i ∈ l, cand i → key i ≤ key v := by
  have hspec : BestOf cand key l (scanBest cand better l) := scanBest_bestOf key hbetter l
  rw [h] at hspec
  obtain ⟨hv, l₁, l₂, rfl, h₁, h₂⟩ := hspec
  refine ⟨hv, by simp, fun i hi hc => ?_⟩
  rcases List.mem_append.1 hi with hi | hi
  · exact (h₁ i hi hc).le
  · rcases List.mem_cons.1 hi with rfl | hi
    · exact le_rfl
    · exact h₂ i hi hc

theorem scanBest_none (hbetter : ∀ i b, better i b ↔ key b < key i) {l : List ι}
    (h : scanBest cand better l = none) : ∀ i ∈ l, ¬ cand i := by
  have hspec : BestOf cand key l (scanBest cand better l) := scanBest_bestOf key hbetter l
  rwa [h] at hspec

end Scan
